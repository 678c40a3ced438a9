import Mathlib.Tactic.Ring

namespace FloatFormat

/-!
# What the bits of a floating-point number stand for

Formats with a sign, a biased exponent and a mantissa without its leading one.  Finite numbers are
counted in units that are common to several formats, so that numbers of different formats can be
compared.

* `Format`, `decode` — a format, and the number that some bits are in it.
* `decode_widen` — a wider mantissa with zeros at its end is the same number.
* `convert` — the bits of a number in another format, rounded to the nearest.
-/

/-- The numbers of bits of the exponent and the mantissa; the smallest positive number is
    `2 ^ shift` units. -/
structure Format where
  exponent : ℕ
  mantissa : ℕ
  shift : ℕ
  deriving DecidableEq, Repr

/-- A number; the two zeros are one. -/
inductive Number where
  | nan
  | infinite (negative : Bool)
  | finite (units : ℤ)
  deriving DecidableEq, Repr

namespace Format

variable (f : Format) (bits : ℕ)

/-- The sign bit is set. -/
def negative : Bool := bits / 2 ^ (f.exponent + f.mantissa) % 2 = 1

/-- The biased exponent. -/
def exponentOf : ℕ := bits / 2 ^ f.mantissa % 2 ^ f.exponent

/-- The bits of the mantissa. -/
def mantissaOf : ℕ := bits % 2 ^ f.mantissa

/-- The absolute value; the exponent zero is that of the numbers without a leading one. -/
def magnitude : ℕ :=
  (if f.exponentOf bits = 0 then f.mantissaOf bits
    else (2 ^ f.mantissa + f.mantissaOf bits) * 2 ^ (f.exponentOf bits - 1)) * 2 ^ f.shift

/-- The number that some bits stand for. -/
def decode : Number :=
  if f.exponentOf bits = 2 ^ f.exponent - 1 then
    if f.mantissaOf bits = 0 then .infinite (f.negative bits) else .nan
  else .finite (if f.negative bits then -(f.magnitude bits : ℤ) else f.magnitude bits)

/-- A wider mantissa with zeros at its end is the same number. -/
theorem decode_widen (e m s k bits : ℕ) :
    decode ⟨e, m + k, s⟩ (bits * 2 ^ k) = decode ⟨e, m, s + k⟩ bits := by
  have hk : 0 < 2 ^ k := Nat.two_pow_pos k
  have hsign : negative ⟨e, m + k, s⟩ (bits * 2 ^ k) = negative ⟨e, m, s + k⟩ bits := by
    unfold negative
    rw [← Nat.add_assoc, pow_add _ (e + m), Nat.mul_div_mul_right _ _ hk]
  have hexponent : exponentOf ⟨e, m + k, s⟩ (bits * 2 ^ k) = exponentOf ⟨e, m, s + k⟩ bits := by
    unfold exponentOf
    rw [pow_add, Nat.mul_div_mul_right _ _ hk]
  have hmantissa : mantissaOf ⟨e, m + k, s⟩ (bits * 2 ^ k)
      = mantissaOf ⟨e, m, s + k⟩ bits * 2 ^ k := by
    unfold mantissaOf
    rw [pow_add, Nat.mul_mod_mul_right]
  have hmagnitude : magnitude ⟨e, m + k, s⟩ (bits * 2 ^ k) = magnitude ⟨e, m, s + k⟩ bits := by
    unfold magnitude
    rw [hexponent, hmantissa, pow_add, pow_add]
    split_ifs
    · ring
    · ring
  have hzero : mantissaOf ⟨e, m, s + k⟩ bits * 2 ^ k = 0 ↔ mantissaOf ⟨e, m, s + k⟩ bits = 0 := by
    rw [Nat.mul_eq_zero]
    exact or_iff_left (Nat.ne_of_gt hk)
  unfold decode
  rw [hsign, hexponent, hmagnitude, hmantissa]
  simp only [hzero]

/-! ### Another format -/

/-- The quotient, rounded to the nearest integer, ties to even. -/
def divNearest (n d : ℕ) : ℕ :=
  if 2 * (n % d) < d ∨ (2 * (n % d) = d ∧ n / d % 2 = 0) then n / d else n / d + 1

/-- The exponent and mantissa bits of the nearest number of the format, and those of infinity where
    it is too large.  A mantissa that is rounded up to the next power of two carries over into the
    exponent. -/
def encodeMagnitude (units : ℕ) : ℕ :=
  let step := max f.shift (Nat.log2 units - f.mantissa)
  min ((step - f.shift) * 2 ^ f.mantissa + divNearest units (2 ^ step))
    ((2 ^ f.exponent - 1) * 2 ^ f.mantissa)

/-- The bits in the format `g`, with a shorter mantissa, of what some bits are in the format `f` with
    the same unit.  What is not a number keeps the leading bits of its mantissa, and the first of
    them is set. -/
def convert (f g : Format) (bits : ℕ) : ℕ :=
  (if f.negative bits then 2 ^ (g.exponent + g.mantissa) else 0) +
    if f.exponentOf bits = 2 ^ f.exponent - 1 then
      (2 ^ g.exponent - 1) * 2 ^ g.mantissa +
        if f.mantissaOf bits = 0 then 0
        else 2 ^ (g.mantissa - 1) ||| f.mantissaOf bits / 2 ^ (f.mantissa - g.mantissa)
    else g.encodeMagnitude (f.magnitude bits)

end Format

/-- One and a half, in a format with five bits of exponent and ten of mantissa. -/
example : Format.decode ⟨5, 10, 0⟩ 0x3E00 = .finite (3 * 2 ^ 23) := by decide

end FloatFormat
