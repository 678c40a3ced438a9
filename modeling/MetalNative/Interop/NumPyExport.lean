import MetalNative.Core.Words
import MetalNative.Interop.NumPyImport

namespace MetalNative

open FloatFormat (Number)

/-!
# NumPy arrays and scalars from tensors

`tensor_to_numpy` and `tensor_item` of `bind_core.cpp`, `to_shared` of `tensor_helpers.mm`, and the
constructor of `tensor.py` called with a tensor.

* `Value`, `elementValue` — the numeric value of an element.
* `toShared` — the copy of a `Private` tensor.
* `tensorToNumpy`, `tensorItem`, `tensorFromTensor` — `none` where the function neither returns nor
  throws: a blit that leaves a buffer, or a read through a null pointer.
-/

/-! ### Values -/

/-- A numeric value; floating-point numbers are counted in units of `2 ^ -149`. -/
inductive Value where
  | float (v : Number)
  | int (n : ℤ)
  | bool (b : Bool)
  deriving DecidableEq, Repr

/-- The unsigned integer of some bytes, the lowest one first. -/
def fromBytes (bytes : List UInt8) : ℕ := bytes.foldr (fun b n => b.toNat + 256 * n) 0

/-- The numeric value of an element of a tensor. -/
def elementValue (dtype : MNDType) (bytes : List UInt8) : Value :=
  let bits := fromBytes bytes
  match dtype with
  | .Float32 => .float (float32Format.decode bits)
  | .Float16 => .float (float16Format.decode bits)
  | .BFloat16 => .float (bfloat16Format.decode bits)
  | .Int64 => .int ((bits : ℤ).bmod (2 ^ 64))
  | .Int32 => .int ((bits : ℤ).bmod (2 ^ 32))
  | .Int16 => .int ((bits : ℤ).bmod (2 ^ 16))
  | .Int8 => .int ((bits : ℤ).bmod (2 ^ 8))
  | .UInt8 => .int bits
  | .Bool => .bool (bits ≠ 0)

/-! ### `to_shared` -/

/-- `MNTensor::to_shared`: the bytes from the offset on, as many as a contiguous tensor has. -/
def ByteTensor.toShared (t : ByteTensor) (device : BufferDevice) :
    Option (Except MNException ByteTensor) :=
  if t.mode = .Shared then some (.ok t)
  else
    match newMNBuffer device t.nbytes with
    | .error e => some (.error e)
    | .ok sharedBuf =>
      (t.buffer.copyFromBuffer t.offset sharedBuf 0 t.nbytes).map fun buffer =>
        .ok
          { buffer
            mode := .Shared
            shape := t.shape
            strides := t.shape.contiguousStrides
            dtype := t.dtype }

/-! ### `tensor_to_numpy` -/

/-- `dtype_to_numpy_format`. -/
def dtypeToNumpyFormat : MNDType → Char
  | .Float32 => 'f'
  | .Float16 => 'e'
  | .BFloat16 => 'e'
  | .Int64 => 'q'
  | .Int32 => 'i'
  | .Int16 => 'h'
  | .Int8 => 'b'
  | .UInt8 => 'B'
  | .Bool => '?'

/-- `py::dtype(fmt)`: the data types of these format characters. -/
def pyDtype : Char → Option NpDtype
  | 'f' => some (.native .Float32)
  | 'e' => some (.native .Float16)
  | 'q' => some (.native .Int64)
  | 'i' => some (.native .Int32)
  | 'h' => some (.native .Int16)
  | 'b' => some (.native .Int8)
  | 'B' => some (.native .UInt8)
  | '?' => some (.native .Bool)
  | _ => none

/-- The numeric value that NumPy gives for an element. -/
def NdArray.value (a : NdArray) (idx : List ℕ) : Option Value :=
  match a.dtype with
  | .native d => some (elementValue d (a.element idx))
  | .other _ _ => none

/-- `tensor_to_numpy`, once the GPU is done; addresses are counted from the beginning of the buffer.
    NumPy raises for a negative dimension and for more dimensions than it allows. -/
def tensorToNumpy (maxDims : ℕ) (device : BufferDevice) (t : ByteTensor) :
    Option (Except InitError NdArray) :=
  (t.toShared device).map fun r =>
    match r with
    | .error e => .error (.native e)
    | .ok readable =>
      match pyDtype (dtypeToNumpyFormat readable.dtype) with
      | none => .error .ValueError
      | some dtype =>
        if maxDims < readable.shape.length ∨ (∃ d ∈ readable.shape, d < 0) then .error .ValueError
        else
          .ok
            { dtype
              shape := readable.shape.bounds
              strides := readable.strides.map fun s => toInt64 (s * readable.elem)
              data := readable.offset
              memory := fun address => readable.buffer.bytes address.toNat }

/-! ### `tensor_item` -/

/-- The cases of `tensor_item`: what is made of the bytes at the data pointer. -/
def itemValue (dtype : MNDType) (bytes : List UInt8) : Value :=
  let bits := fromBytes bytes
  match dtype with
  | .Float32 => .float (float32Format.decode bits)
  | .Float16 => .float (float16Format.decode bits)
  -- the upper 16 bits of a `float`
  | .BFloat16 => .float (float32Format.decode (bits * 2 ^ 16))
  | .Int64 => .int ((bits : ℤ).bmod (2 ^ 64))
  | .Int32 => .int ((bits : ℤ).bmod (2 ^ 32))
  | .Int16 => .int ((bits : ℤ).bmod (2 ^ 16))
  | .Int8 => .int ((bits : ℤ).bmod (2 ^ 8))
  | .UInt8 => .int bits
  | .Bool => .bool (bits ≠ 0)

/-- `tensor_item`; the contents of a `Private` buffer are at a null pointer. -/
def tensorItem (t : ByteTensor) : Option (Except MNException Value) :=
  if ¬ t.numel = 1 then
    some (.error ⟨.InvalidArgument, "tensor_item: tensor must have exactly 1 element"⟩)
  else
    match t.mode with
    | .Private => none
    | .Shared => some (.ok (itemValue t.dtype ((List.range t.elem).map t.rawData)))

/-! ### A tensor from a tensor -/

/-- `Tensor(t)`: the array of the tensor, imported. -/
def tensorFromTensor (np : NumPy) (convert : Conversion) (maxDims : ℕ) (device : BufferDevice)
    (t : ByteTensor) : Option (Except InitError PyTensor) :=
  (tensorToNumpy maxDims device t).map fun r =>
    match r with
    | .error e => .error e
    | .ok npData => tensorInit np convert device npData none none

end MetalNative
