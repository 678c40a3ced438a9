import MetalNative.Core.ViewSafety
import MetalNative.Core.Words

namespace MetalNative

/-!
# Filling a tensor

`tensor.cpp`: `fill_`, with the conversions of the value to the data types and its two loops.

* `fillBits` — the cases of `fill_`.  What a cast makes of a value that the type does not have is
  left open by the language, and a parameter here.
* `ByteTensor.fillRun`, `ByteTensor.fillStrided` — the loops.
-/

open FloatFormat (Format)

/-! ### Conversions -/

/-- `double`, IEEE binary64, in units of `2 ^ -1074`. -/
def float64Format : Format := ⟨11, 52, 0⟩

/-- `static_cast<float>(value)`. -/
def floatOfDouble (value : UInt64) : ℕ := Format.convert float64Format ⟨8, 23, 925⟩ value.toNat

/-- `static_cast<__fp16>` of a `float`. -/
def halfOfFloat (bits : ℕ) : ℕ := Format.convert float32Format float16Format bits

/-- The integer part of a `double` that is a finite number. -/
def integerPart (value : UInt64) : Option ℤ :=
  match float64Format.decode value.toNat with
  | .finite units => some (units.tdiv (2 ^ 1074))
  | _ => none

/-- `static_cast` to an integer type of `w` bits, with the values from `lo` on and below `hi`. -/
def integerOfDouble (undefined : UInt64 → ℕ) (w : ℕ) (lo hi : ℤ) (value : UInt64) : ℕ :=
  match integerPart value with
  | some n => if lo ≤ n ∧ n < hi then (n % 2 ^ w).toNat else undefined value
  | none => undefined value

/-- The value that `fill_` writes to each element. -/
def fillBits (undefined : MNDType → UInt64 → ℕ) (dtype : MNDType) (value : UInt64) : ℕ :=
  match dtype with
  | .Float32 => floatOfDouble value
  | .Float16 => halfOfFloat (floatOfDouble value)
  -- the upper half of a `float`
  | .BFloat16 => floatOfDouble value / 2 ^ 16
  | .Int64 => integerOfDouble (undefined .Int64) 64 (-2 ^ 63) (2 ^ 63) value
  | .Int32 => integerOfDouble (undefined .Int32) 32 (-2 ^ 31) (2 ^ 31) value
  | .Int16 => integerOfDouble (undefined .Int16) 16 (-2 ^ 15) (2 ^ 15) value
  | .Int8 => integerOfDouble (undefined .Int8) 8 (-2 ^ 7) (2 ^ 7) value
  | .UInt8 => integerOfDouble (undefined .UInt8) 8 0 (2 ^ 8) value
  -- the two zeros are `0.0`
  | .Bool => if value.toNat % 2 ^ 63 = 0 then 0 else 1

/-! ### `fill_` -/

namespace ByteTensor

/-- `std::fill(p, p + n, v)`, with `n` elements to go. -/
def fillRun (t : ByteTensor) (v : ℕ → UInt8) : (n p : ℕ) → MTLBuffer → MTLBuffer
  | 0, _, dst => dst
  | n + 1, p, dst =>
    t.fillRun v n (p + 1) (dst.store ((t.offset + t.elem * p) % sizeTRange) t.elem v)

/-- `fill_strided`, with `n` elements to go. -/
def fillStrided (t : ByteTensor) (v : ℕ → UInt8) : ℕ → List ℕ → MTLBuffer → MTLBuffer
  | 0, _, dst => dst
  | n + 1, idx, dst =>
    t.fillStrided v n (Strided.advance t.shape.bounds idx).1 (dst.store (t.address idx) t.elem v)

/-- What `fill_` leaves in the buffer. -/
def fillBuffer (t : ByteTensor) (v : ℕ → UInt8) : MTLBuffer :=
  if t.isContiguous then t.fillRun v t.numel.toNat 0 t.buffer
  else t.fillStrided v t.numel.toNat (List.replicate t.shape.length 0) t.buffer

/-- `fill_`. -/
def fill (t : ByteTensor) (undefined : MNDType → UInt64 → ℕ) (value : UInt64) :
    Except MNException ByteTensor :=
  if t.mode = .Shared then
    let bits := fillBits undefined t.dtype value
    .ok { t with buffer := t.fillBuffer fun b => UInt8.ofNat (bits / 256 ^ b) }
  else .error ⟨.InvalidArgument, "fill_: cannot fill a Private-mode tensor from the CPU"⟩

end ByteTensor

end MetalNative
