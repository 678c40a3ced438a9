import MetalNative.Core.Tensor
import MetalNative.Lib.FloatFormat
import MetalNative.Lib.Strided

namespace MetalNative

open FloatFormat (Format)
open Strided (position)

/-!
# Words of 32 bits

* `bytesOf` — the bytes of a number; `float32Format` and its like — what bits stand for.
* `toUInt_eq_iff`, `uintOfInt_eq_iff` — the numbers that keep their value.
* `toUInt_toUInt_add`, `toUInt_toUInt_mul_add` — it does not matter when a sum wraps around.
* `rows_lt_iff`, `elements_lt_iff` — the row-major indices of two and of three coordinates stay
  below a bound where the product of the sizes does.
-/

/-! ### Values -/

/-- The bytes of a number, the lowest one first. -/
def bytesOf (n r : ℕ) : List UInt8 := (List.range n).map fun b => UInt8.ofNat (r / 256 ^ b)

/-- `float`, IEEE binary32, in units of `2 ^ -149`. -/
def float32Format : Format := ⟨8, 23, 0⟩

/-- `__fp16`, IEEE binary16. -/
def float16Format : Format := ⟨5, 10, 125⟩

/-- `sign(1) | exponent(8) | mantissa(7)`. -/
def bfloat16Format : Format := ⟨8, 7, 16⟩

theorem toUInt_eq_iff {n : ℕ} : toUInt n = n ↔ n < uintRange := by
  constructor
  · intro h
    rw [← h]
    exact toUInt_lt n
  · exact toUInt_of_lt

theorem uintOfInt_natCast_eq (n : ℕ) : uintOfInt n = toUInt n := by
  unfold uintOfInt toUInt
  rw [← Int.natCast_mod, Int.toNat_natCast]

/-- A number is its word where it is not negative and has 32 bits. -/
theorem uintOfInt_eq_iff {n : ℤ} : ((uintOfInt n : ℕ) : ℤ) = n ↔ 0 ≤ n ∧ n < uintRange := by
  have hnonneg : 0 ≤ n % uintRange := Int.emod_nonneg _ (by decide)
  unfold uintOfInt
  rw [Int.toNat_of_nonneg hnonneg]
  constructor
  · intro h
    rw [← h]
    exact ⟨hnonneg, Int.emod_lt_of_pos _ (by decide)⟩
  · intro h
    exact Int.emod_eq_of_lt h.1 h.2

theorem uintOfInt_eq_toNat {n : ℤ} (h : 0 ≤ n ∧ n < uintRange) : uintOfInt n = n.toNat := by
  have hword := uintOfInt_eq_iff.mpr h
  omega

/-- The word of an `int64_t` is that of the number that has wrapped around in it. -/
theorem uintOfInt_toInt64 (n : ℤ) : uintOfInt (toInt64 n) = uintOfInt n := by
  unfold uintOfInt toInt64
  rw [Int.bmod_def]
  unfold sizeTRange uintRange
  split_ifs <;> omega

/-! ### Sums and products -/

theorem uintOfInt_natCast_add (n : ℕ) (z : ℤ) : uintOfInt (n + z) = toUInt (n + uintOfInt z) := by
  unfold uintOfInt toUInt uintRange
  omega

theorem toUInt_toUInt_add (a b : ℕ) : toUInt (toUInt a + b) = toUInt (a + b) := by
  unfold toUInt
  rw [Nat.mod_add_mod]

theorem toUInt_toUInt_mul_add (a b c : ℕ) : toUInt (toUInt a * b + c) = toUInt (a * b + c) := by
  unfold toUInt
  exact Nat.ModEq.add_right c ((Nat.mod_modEq a uintRange).mul_right b)

/-! ### Row-major indices -/

/-- An element of a row, as one of the two elements of a pair. -/
theorem two_mul_div_add_bit (d : ℕ) : 2 * (d / 2) + (decide (d % 2 = 1)).toNat = d := by
  rcases Nat.mod_two_eq_zero_or_one d with hmod | hmod <;> simp [hmod] <;> omega

theorem position_quad (A B C D i j k l : ℕ) :
    position [A, B, C, D] [i, j, k, l] = ((i * B + j) * C + k) * D + l := by
  simp only [position, List.prod_cons, List.prod_nil]
  ring

/-- The rows of a table stay below a bound where its product does. -/
theorem rows_lt_iff {A B M : ℕ} :
    (∀ a < A, ∀ b < B, a * B + b < M) ↔ A * B ≤ M := by
  constructor
  · intro h
    rcases Nat.eq_zero_or_pos A with rfl | hA
    · simp
    rcases Nat.eq_zero_or_pos B with rfl | hB
    · simp
    have hlast := h (A - 1) (by omega) (B - 1) (by omega)
    have hprod : (A - 1) * B + B = A * B := by
      rw [← Nat.add_one_mul, Nat.sub_add_cancel hA]
    omega
  · intro h a ha b hb
    have hrow : (a + 1) * B ≤ A * B := Nat.mul_le_mul_right _ ha
    rw [Nat.add_one_mul] at hrow
    omega

/-- And so do the elements along one dimension of a tensor. -/
theorem elements_lt_iff {A B C M : ℕ} :
    (∀ a < A, ∀ b < B, ∀ c < C, (a * B + b) * C + c < M) ↔ A * B * C ≤ M := by
  rw [← rows_lt_iff]
  constructor
  · intro h k hk c hc
    have hB : 0 < B := Nat.pos_of_ne_zero fun h0 => by simp [h0] at hk
    have hdiv : k / B < A := Nat.div_lt_of_lt_mul (by rwa [Nat.mul_comm] at hk)
    have helem := h (k / B) hdiv (k % B) (Nat.mod_lt k hB) c hc
    rwa [Nat.div_add_mod'] at helem
  · intro h a ha b hb c hc
    have hrow : (a + 1) * B ≤ A * B := Nat.mul_le_mul_right _ ha
    rw [Nat.add_one_mul] at hrow
    exact h (a * B + b) (by omega) c hc

/-- The starts of the rows of a vectorised kernel. -/
theorem starts_lt_iff {A B M : ℕ} (hM : 0 < M) : (∀ a < A, a * B < M) ↔ A * B < M + B := by
  constructor
  · intro h
    rcases Nat.eq_zero_or_pos A with rfl | hA
    · simp [hM]
    have hlast := h (A - 1) (by omega)
    have hprod : (A - 1) * B + B = A * B := by
      rw [← Nat.add_one_mul, Nat.sub_add_cancel hA]
    omega
  · intro h a ha
    have hrow : (a + 1) * B ≤ A * B := Nat.mul_le_mul_right _ ha
    rw [Nat.add_one_mul] at hrow
    omega

end MetalNative
