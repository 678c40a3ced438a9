import Mathlib.Data.Nat.Bitwise

namespace BitFields

/-!
# Fields of a word

A word that is put together from fields by shifts and exclusive ors gives its fields back as long
as each of them stays below the next one.

* `xor_shiftLeft_inj` — a low field and the rest are determined by the word.
* `or_eq_xor` — an `or` of fields that do not overlap is an exclusive one.
-/

variable {k n a a' b b' : ℕ}

/-- The bits of a word below `k` are those of its low field, the others those of the rest. -/
theorem testBit_xor_shiftLeft (h : a < 2 ^ k) (i : ℕ) :
    (a ^^^ b <<< k).testBit i = if i < k then a.testBit i else b.testBit (i - k) := by
  rw [Nat.testBit_xor, Nat.testBit_shiftLeft]
  by_cases hi : i < k
  · simp [hi, Nat.not_le.mpr hi]
  · have hhigh : a.testBit i = false :=
      Nat.testBit_lt_two_pow (h.trans_le (Nat.pow_le_pow_right (by decide) (Nat.not_lt.mp hi)))
    simp [hi, hhigh, Nat.not_lt.mp hi]

/-- A low field and the rest are determined by the word. -/
theorem xor_shiftLeft_inj (h : a < 2 ^ k) (h' : a' < 2 ^ k) :
    a ^^^ b <<< k = a' ^^^ b' <<< k ↔ a = a' ∧ b = b' := by
  constructor
  · intro heq
    have hbit : ∀ i, (a ^^^ b <<< k).testBit i = (a' ^^^ b' <<< k).testBit i := by
      intro i
      rw [heq]
    simp only [testBit_xor_shiftLeft h, testBit_xor_shiftLeft h'] at hbit
    constructor
    · refine Nat.eq_of_testBit_eq fun i => ?_
      by_cases hi : i < k
      · simpa [hi] using hbit i
      · -- above the field both have no bits
        have hpow : 2 ^ k ≤ 2 ^ i := Nat.pow_le_pow_right (by decide) (Nat.not_lt.mp hi)
        rw [Nat.testBit_lt_two_pow (h.trans_le hpow), Nat.testBit_lt_two_pow (h'.trans_le hpow)]
    · refine Nat.eq_of_testBit_eq fun i => ?_
      have hi : ¬ i + k < k := Nat.not_lt.mpr (Nat.le_add_left k i)
      simpa [hi] using hbit (i + k)
  · rintro ⟨rfl, rfl⟩
    rfl

/-- An `or` of fields that do not overlap is an exclusive one. -/
theorem or_eq_xor (h : a < 2 ^ k) : b <<< k ||| a = a ^^^ b <<< k := by
  refine Nat.eq_of_testBit_eq fun i => ?_
  rw [testBit_xor_shiftLeft h, Nat.testBit_or, Nat.testBit_shiftLeft]
  by_cases hi : i < k
  · simp [hi, Nat.not_le.mpr hi]
  · have hhigh : a.testBit i = false :=
      Nat.testBit_lt_two_pow (h.trans_le (Nat.pow_le_pow_right (by decide) (Nat.not_lt.mp hi)))
    simp [hi, hhigh, Nat.not_lt.mp hi]

theorem shiftLeft_shiftLeft (x m n : ℕ) : x <<< m <<< n = x <<< (m + n) := by
  rw [Nat.shiftLeft_add]

theorem shiftLeft_lt (h : b < 2 ^ n) : b <<< k < 2 ^ (n + k) := by
  rw [Nat.shiftLeft_eq, pow_add]
  exact Nat.mul_lt_mul_of_pos_right h (Nat.two_pow_pos k)

end BitFields
