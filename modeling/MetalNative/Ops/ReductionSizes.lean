import Mathlib.Data.Real.Basic
import MetalNative.Core.Tensor

namespace MetalNative

/-!
# The sizes of a reduction

A reduction along one dimension takes its tensor as `outer_size` by `reduce_size` by `inner_size`
elements.

* `normalizeDim`, `checkedUInt` — the checks of the host.
* `ReductionSizes` — the sizes as the kernels get them; `ReductionSizes.row` is one row of them.
* `ReductionSizes.index_inj`, `ReductionSizes.index_lt` — the indices of the elements.
-/

/-- `normalize_dim`, in `softmax.mm` and in `reduction.mm`. -/
def normalizeDim (caller : String) (dim : ℤ) (ndim : ℕ) : Except MNException ℕ := do
  let dim := if dim < 0 then dim + ndim else dim
  if ¬ (0 ≤ dim ∧ dim < ndim) then
    throw ⟨.InvalidArgument, caller ++ ": dimension out of range"⟩
  return dim.toNat

/-- A size that is passed to a kernel as a `uint32_t`. -/
def checkedUInt (caller : String) (size : ℤ) : Except MNException ℕ := do
  if ¬ size ≤ UINT32_MAX then
    throw ⟨.InvalidArgument, caller ++ ": dimension exceeds uint32_t range"⟩
  return (size % uintRange).toNat

/-- `outer_size`, `reduce_size` and `inner_size`. -/
structure ReductionSizes where
  outer_size : ℕ
  reduce_size : ℕ
  inner_size : ℕ
  deriving DecidableEq, Repr

theorem checkedUInt_lt {caller : String} {size : ℤ} {n : ℕ} (h : checkedUInt caller size = .ok n) :
    n < uintRange := by
  simp only [checkedUInt, bind, Except.bind] at h
  by_cases hle : size ≤ UINT32_MAX
  · simp only [hle, not_true, if_false] at h
    obtain rfl := Except.ok.inj h
    unfold uintRange
    omega
  · simp [hle] at h

/-- The size of a dimension keeps its value. -/
theorem checkedUInt_natCast {caller : String} {size n : ℕ} (h : checkedUInt caller size = .ok n) :
    n = size := by
  simp only [checkedUInt, bind, Except.bind] at h
  by_cases hle : (size : ℤ) ≤ UINT32_MAX
  · simp only [hle, not_true, if_false] at h
    have hn := Except.ok.inj h
    unfold UINT32_MAX uintRange at *
    omega
  · simp [hle] at h

/-- The elements of a row. -/
def ReductionSizes.row (sizes : ReductionSizes) (x : ℕ → ℝ) (o i r : ℕ) : ℝ :=
  x ((o * sizes.reduce_size + r) * sizes.inner_size + i)

/-- A number has one quotient and one remainder. -/
theorem quotient_remainder_inj {a b c d n : ℕ} (hb : b < n) (hd : d < n)
    (h : a * n + b = c * n + d) : a = c ∧ b = d := by
  have hpos : 0 < n := by omega
  have hdiv := congrArg (· / n) h
  have hmod := congrArg (· % n) h
  simp only [Nat.mul_comm _ n, Nat.mul_add_div hpos, Nat.div_eq_of_lt hb, Nat.div_eq_of_lt hd,
    Nat.add_zero] at hdiv
  simp only [Nat.mul_comm _ n, Nat.mul_add_mod, Nat.mod_eq_of_lt hb, Nat.mod_eq_of_lt hd] at hmod
  exact ⟨hdiv, hmod⟩

/-- The index of an element belongs to that element only. -/
theorem ReductionSizes.index_inj (sizes : ReductionSizes) {o r i o' r' i' : ℕ}
    (hr : r < sizes.reduce_size) (hi : i < sizes.inner_size) (hr' : r' < sizes.reduce_size)
    (hi' : i' < sizes.inner_size)
    (h : (o * sizes.reduce_size + r) * sizes.inner_size + i
      = (o' * sizes.reduce_size + r') * sizes.inner_size + i') : o = o' ∧ r = r' ∧ i = i' := by
  obtain ⟨hrow, hi⟩ := quotient_remainder_inj hi hi' h
  obtain ⟨ho, hr⟩ := quotient_remainder_inj hr hr' hrow
  exact ⟨ho, hr, hi⟩

/-- All indices are below the number of elements. -/
theorem ReductionSizes.index_lt (sizes : ReductionSizes) {o r i : ℕ} (ho : o < sizes.outer_size)
    (hr : r < sizes.reduce_size) (hi : i < sizes.inner_size) :
    (o * sizes.reduce_size + r) * sizes.inner_size + i
      < sizes.outer_size * sizes.reduce_size * sizes.inner_size := by
  have hrow : o * sizes.reduce_size + r < sizes.outer_size * sizes.reduce_size := by
    have := Nat.mul_le_mul_right sizes.reduce_size (Nat.succ_le_of_lt ho)
    rw [Nat.succ_mul] at this
    omega
  have := Nat.mul_le_mul_right sizes.inner_size (Nat.succ_le_of_lt hrow)
  rw [Nat.succ_mul] at this
  omega

/-- The last element. -/
theorem ReductionSizes.index_last (sizes : ReductionSizes) (ho : 0 < sizes.outer_size)
    (hr : 0 < sizes.reduce_size) (hi : 0 < sizes.inner_size) :
    ((sizes.outer_size - 1) * sizes.reduce_size + (sizes.reduce_size - 1)) * sizes.inner_size
        + (sizes.inner_size - 1) + 1
      = sizes.outer_size * sizes.reduce_size * sizes.inner_size := by
  have hlast : (sizes.outer_size - 1) * sizes.reduce_size + (sizes.reduce_size - 1) + 1
      = sizes.outer_size * sizes.reduce_size := by
    rw [Nat.add_assoc, Nat.sub_add_cancel hr, ← Nat.add_one_mul, Nat.sub_add_cancel ho]
  rw [Nat.add_assoc, Nat.sub_add_cancel hi, ← Nat.add_one_mul, hlast]

/-- A contiguous tensor, whose elements are their indices. -/
noncomputable def indexTensor (dims : List ℕ) (dtype : MNDType) (hdims : ∀ d ∈ dims, d < 2 ^ 63)
    (hnumel : dims.prod < 2 ^ 63) : MNTensor ℝ where
  buffer := fun i => i
  dims
  strides := MNShape.contiguousStrides (dims.map Nat.cast)
  dtype
  dims_lt := hdims
  numel_lt := hnumel

end MetalNative
