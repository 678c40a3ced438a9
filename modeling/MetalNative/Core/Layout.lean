import MetalNative.Core.Tensor
import MetalNative.Lib.Strided

namespace MetalNative

open List

/-!
# Strides and addresses

* `MNShape.InRange` — the multi-indices of a shape; `srcOff` — the loop that turns one into an
  offset in bytes, which `srcOff_eq` gives in closed form.
* `MNShape.linear_contiguousStrides`, `MNShape.linear_of_isContiguous` — the strides of a new
  tensor, and those that `is_contiguous` accepts, lead to the row-major positions.
-/

open Broadcast (Within)
open Strided (linear position rowMajorStrides)

namespace MNShape

/-- The dimensions, as the bounds of the indices. -/
def bounds (shape : MNShape) : List ℕ := shape.map Int.toNat

/-- The multi-index lies in the shape. -/
def InRange (shape : MNShape) (idx : List ℕ) : Prop := Within shape.bounds idx

end MNShape

/-- An `int64_t` that is not negative, as a `size_t`. -/
theorem toSizeT_of_nonneg {n : ℤ} (h : 0 ≤ n) (hlt : n < 2 ^ 63) : toSizeT n = n.toNat := by
  unfold toSizeT sizeTRange
  rw [Int.emod_eq_of_lt h (by omega)]

/-- The loop that adds up `src_off`. -/
def srcOff (elem : ℕ) : List ℕ → List ℤ → ℕ
  | i :: idx, s :: strides => (i * toSizeT s * elem + srcOff elem idx strides) % sizeTRange
  | _, _ => 0

/-- The loop adds up the strides, as a `size_t`. -/
theorem srcOff_eq (elem : ℕ) (idx : List ℕ) (strides : List ℤ) :
    srcOff elem idx strides = (elem * linear (strides.map toSizeT) idx) % sizeTRange := by
  induction strides generalizing idx with
  | nil => cases idx <;> simp [srcOff, linear]
  | cons s strides ih =>
    cases idx with
    | nil => simp [srcOff, linear]
    | cons i idx =>
      rw [srcOff, ih, map_cons, linear, Nat.add_mod_mod]
      congr 1
      ring

namespace MNShape

/-! ### `contiguous_strides` -/

theorem bounds_map_natCast (ds : List ℕ) : bounds (ds.map Nat.cast) = ds := by
  unfold bounds
  induction ds with
  | nil => rfl
  | cons d ds ih => simpa using ih

/-- Dimensions that are not negative are their bounds. -/
theorem eq_map_bounds {shape : MNShape} (h : ∀ d ∈ shape, 0 ≤ d) :
    shape = shape.bounds.map Nat.cast := by
  unfold bounds
  induction shape with
  | nil => rfl
  | cons d shape ih =>
    have hd : ((d.toNat : ℕ) : ℤ) = d := Int.toNat_of_nonneg (h d (mem_cons_self ..))
    rw [map_cons, map_cons, hd,
      ← ih fun e he => h e (mem_cons_of_mem _ he)]

/-- A shape with multi-indices has no negative dimension. -/
theorem InRange.nonneg {shape : MNShape} {idx : List ℕ} (h : shape.InRange idx) :
    ∀ d ∈ shape, 0 ≤ d := by
  induction shape generalizing idx with
  | nil => simp
  | cons d shape ih =>
    cases idx with
    | nil => exact h.elim
    | cons i idx =>
      have hd : i < d.toNat := h.1
      intro e he
      rcases mem_cons.mp he with rfl | he
      · omega
      · exact ih h.2 e he

variable {ds is : List ℕ}

/-- `contiguous_strides` of dimensions whose product is an `int64_t`. -/
theorem contiguousStrides_eq (hpos : 0 < ds.prod) (hlt : ds.prod < 2 ^ 63) :
    contiguousStrides (ds.map Nat.cast) = (rowMajorStrides ds).map Nat.cast := by
  induction ds with
  | nil => rfl
  | cons c ds ih =>
    rw [prod_cons] at hpos hlt
    have hc : 0 < c := Nat.pos_of_mul_pos_right hpos
    have htail : 0 < ds.prod := Nat.pos_of_mul_pos_left hpos
    have hle : ds.prod ≤ c * ds.prod := Nat.le_mul_of_pos_left _ hc
    have hrest := ih htail (by omega)
    cases ds with
    | nil => rfl
    | cons d ds =>
      rw [map_cons] at hrest
      rw [map_cons, map_cons]
      rw [contiguousStrides, hrest, rowMajorStrides, map_cons, rowMajorStrides]
      have hprod : toInt64 (((ds.prod : ℕ) : ℤ) * (d : ℕ)) = ((d :: ds).prod : ℕ) := by
        rw [← Nat.cast_mul, Nat.mul_comm, ← prod_cons]
        exact toInt64_natCast (by omega)
      simp only [hprod, map_cons, rowMajorStrides]

/-- The strides of a new tensor lead to the row-major positions. -/
theorem linear_contiguousStrides (hlt : ds.prod < 2 ^ 63) (h : Within ds is) :
    linear ((contiguousStrides (ds.map Nat.cast)).map toSizeT) is = position ds is := by
  have hpos : 0 < ds.prod := Strided.Within.prod_pos h
  have hback : ((rowMajorStrides ds).map Nat.cast : List ℤ).map toSizeT = rowMajorStrides ds := by
    rw [map_map]
    conv_rhs => rw [← map_id (rowMajorStrides ds)]
    apply map_congr_left
    intro s hs
    have hle : s ≤ ds.prod := Strided.le_prod_of_mem_rowMajorStrides hpos hs
    apply toSizeT_natCast
    unfold sizeTRange
    omega
  rw [contiguousStrides_eq hpos hlt, hback, Strided.linear_rowMajorStrides]

theorem length_contiguousStrides (shape : MNShape) :
    (contiguousStrides shape).length = shape.length := by
  induction shape with
  | nil => rfl
  | cons c shape ih =>
    cases shape with
    | nil => rfl
    | cons d shape =>
      rw [contiguousStrides]
      split
      · next heq => simp [heq] at ih
      · next heq => simpa [heq] using ih

/-! ### `is_contiguous` -/

/-- The stride that the loop expects once it has gone through some dimensions. -/
def expectedAfter (expected : ℤ) (dims : List ℤ) : ℤ :=
  dims.foldl (fun expected d => if d ≠ 1 then toInt64 (expected * d) else expected) expected

/-- The last round of the loop. -/
theorem stridesMatch_concat {dims strides : List ℤ} (hlen : strides.length = dims.length)
    (expected d s : ℤ) :
    stridesMatch expected (dims ++ [d]) (strides ++ [s]) = true ↔
      stridesMatch expected dims strides = true ∧ (d ≠ 1 → s = expectedAfter expected dims) := by
  induction dims generalizing strides expected with
  | nil =>
    obtain rfl := length_eq_zero_iff.mp hlen
    by_cases hd : d = 1 <;> simp [stridesMatch, expectedAfter, hd]
  | cons c dims ih =>
    cases strides with
    | nil => simp at hlen
    | cons x strides =>
      have hlen' : strides.length = dims.length := by simpa using hlen
      rw [cons_append, cons_append, stridesMatch, stridesMatch]
      by_cases hc : c = 1
      · simp [hc, ih hlen', expectedAfter]
      · simp [hc, ih hlen', expectedAfter, and_assoc]

/-- What the loop expects is the number of elements of a row. -/
theorem expectedAfter_eq (hpos : 0 < ds.prod) (hlt : ds.prod < 2 ^ 63) :
    expectedAfter 1 (ds.map Nat.cast : List ℤ).reverse = (ds.prod : ℕ) := by
  induction ds with
  | nil => rfl
  | cons d ds ih =>
    rw [prod_cons] at hpos hlt
    have hd : 0 < d := Nat.pos_of_mul_pos_right hpos
    have htail : 0 < ds.prod := Nat.pos_of_mul_pos_left hpos
    have hle : ds.prod ≤ d * ds.prod := Nat.le_mul_of_pos_left _ hd
    have hrest := ih htail (by omega)
    unfold expectedAfter at hrest ⊢
    rw [map_cons, reverse_cons, foldl_append, hrest, prod_cons]
    simp only [foldl_cons, foldl_nil]
    by_cases hone : d = 1
    · simp [hone]
    · have hcast : ((d : ℕ) : ℤ) ≠ 1 := by exact_mod_cast hone
      rw [if_pos hcast, ← Nat.cast_mul, Nat.mul_comm]
      exact toInt64_natCast hlt

/-- The strides of a contiguous tensor lead to the row-major positions: a stride that is not looked
    at belongs to a dimension of size `1`. -/
theorem linear_of_isContiguous {strides : List ℤ}
    (hc : isContiguous (ds.map Nat.cast) strides = true) (hlt : ds.prod < 2 ^ 63)
    (h : Within ds is) : linear (strides.map toSizeT) is = position ds is := by
  unfold isContiguous at hc
  rw [Bool.and_eq_true, decide_eq_true_eq, length_map] at hc
  obtain ⟨hlen, hmatch⟩ := hc
  induction ds generalizing strides is with
  | nil =>
    cases is with
    | nil => cases strides <;> rfl
    | cons i is => exact h.elim
  | cons d ds ih =>
    cases strides with
    | nil => simp at hlen
    | cons s strides =>
      cases is with
      | nil => exact h.elim
      | cons i is =>
        have hlen' : strides.length = ds.length := by simpa using hlen
        have htail : 0 < ds.prod := Strided.Within.prod_pos h.2
        have hi : i < d := h.1
        rw [prod_cons] at hlt
        have hle : ds.prod ≤ d * ds.prod := Nat.le_mul_of_pos_left _ (by omega)
        rw [map_cons, reverse_cons, reverse_cons,
          stridesMatch_concat (by simpa using hlen')] at hmatch
        obtain ⟨hrest, hs⟩ := hmatch
        rw [map_cons, linear, position, ih (by omega) h.2 hlen' hrest]
        by_cases hone : d = 1
        · have hzero : i = 0 := by omega
          rw [hzero, Nat.zero_mul, Nat.zero_mul]
        · have hstride := hs (by exact_mod_cast hone)
          rw [hstride, expectedAfter_eq htail (by omega), toSizeT_natCast]
          unfold sizeTRange
          omega

end MNShape

/-! ### Strides that lead to the row-major positions -/

/-- The stride is an `int64_t`. -/
def IsInt64 (s : ℤ) : Prop := toInt64 s = s

theorem isInt64_toInt64 (n : ℤ) : IsInt64 (toInt64 n) := by
  unfold IsInt64 toInt64
  rw [Int.bmod_bmod]

/-- An `int64_t` is its value as a `size_t` where that is small. -/
theorem IsInt64.eq_of_toSizeT {s : ℤ} {n : ℕ} (h : IsInt64 s) (hs : toSizeT s = n)
    (hn : n < 2 ^ 63) : s = n := by
  have hmod : s % sizeTRange = n := by
    have hnonneg : 0 ≤ s % sizeTRange := Int.emod_nonneg _ (by decide)
    rw [toSizeT] at hs
    omega
  calc s = toInt64 s := h.symm
      _ = toInt64 (s % sizeTRange) := by
        unfold toInt64
        rw [Int.emod_bmod]
      _ = n := by
        rw [hmod]
        exact toInt64_natCast hn

namespace MNShape

theorem isInt64_contiguousStrides (shape : MNShape) :
    ∀ s ∈ contiguousStrides shape, IsInt64 s := by
  induction shape with
  | nil =>
    intro s hs
    cases hs
  | cons c shape ih =>
    cases shape with
    | nil =>
      intro s hs
      obtain rfl := mem_singleton.mp hs
      exact toInt64_natCast (n := 1) (by decide)
    | cons d shape =>
      intro s hs
      rw [contiguousStrides] at hs
      split at hs
      · cases hs
      · next x rest heq =>
        rcases mem_cons.mp hs with rfl | hs
        · exact isInt64_toInt64 _
        · exact ih s (heq ▸ hs)

/-- Strides that lead to the row-major positions are accepted. -/
theorem isContiguous_of_linear {ds : List ℕ} {strides : List ℤ}
    (hlen : strides.length = ds.length) (hint : ∀ s ∈ strides, IsInt64 s) (hpos : 0 < ds.prod)
    (hlt : ds.prod < 2 ^ 63)
    (h : ∀ is, Within ds is → linear (strides.map toSizeT) is = position ds is) :
    isContiguous (ds.map Nat.cast) strides = true := by
  have hmatch : stridesMatch 1 (ds.map Nat.cast : List ℤ).reverse strides.reverse = true := by
    induction ds generalizing strides with
    | nil =>
      obtain rfl := length_eq_zero_iff.mp hlen
      rfl
    | cons d ds ih =>
      cases strides with
      | nil => simp at hlen
      | cons s strides =>
        have hlen' : strides.length = ds.length := by simpa using hlen
        rw [prod_cons] at hpos hlt
        have hd : 0 < d := Nat.pos_of_mul_pos_right hpos
        have htail : 0 < ds.prod := Nat.pos_of_mul_pos_left hpos
        have hle : ds.prod ≤ d * ds.prod := Nat.le_mul_of_pos_left _ hd
        have hrest : ∀ is, Within ds is → linear (strides.map toSizeT) is = position ds is := by
          intro is his
          simpa [linear, position] using h (0 :: is) ⟨hd, his⟩
        rw [map_cons, reverse_cons, reverse_cons,
          stridesMatch_concat (by simpa using hlen')]
        refine ⟨ih hlen' (fun x hx => hint x (mem_cons_of_mem _ hx)) htail (by omega) hrest,
          fun hone => ?_⟩
        -- the second element along this dimension
        have hd1 : 1 < d := by
          have hne : d ≠ 1 := by exact_mod_cast hone
          omega
        have hunit := h (1 :: Strided.unravel ds 0) ⟨hd1, Strided.within_unravel htail⟩
        rw [map_cons, linear, position, Strided.position_unravel htail, Strided.unravel_zero,
          Strided.linear_replicate_zero] at hunit
        simp only [Nat.one_mul, Nat.add_zero] at hunit
        rw [expectedAfter_eq htail (by omega)]
        exact (hint s (mem_cons_self ..)).eq_of_toSizeT hunit (by omega)
  unfold isContiguous
  rw [hmatch, length_map, hlen, Bool.and_true, decide_eq_true_eq]

end MNShape

/-! ### The elements of a tensor -/

/-- The element of a tensor at an index. -/
def MNTensor.elementAt {α : Type*} (t : MNTensor α) (idx : List ℕ) : α :=
  t.data (linear (t.strides.map toSizeT) idx)

/-- A contiguous tensor has its elements in row-major order. -/
theorem MNTensor.elementAt_of_isContiguous {α : Type*} {t : MNTensor α} (h : t.isContiguous = true)
    {idx : List ℕ} (hidx : Within t.dims idx) : t.elementAt idx = t.data (position t.dims idx) := by
  unfold MNTensor.elementAt
  rw [MNShape.linear_of_isContiguous h t.numel_lt hidx]

end MetalNative
