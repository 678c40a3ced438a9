import MetalNative.Core.ViewSafety

namespace MetalNative

/-!
# The convention and the algebra of slices

`tensor.h` documents the bounds of `slice`: the start is included, the end is not, and an end of
`-1` is the extent of the dimension.

* `documentedStart`, `documentedEnd` — the bounds that a call stands for.
* `ByteTensor.ShowsSlice` — a tensor is the part of another one between two bounds.
* `slice_convention` — when `slice` returns what is documented.  Its three parts are the bounds, a
  slice of a slice along one dimension, and slices along two dimensions in either order.

The addresses are computed with `size_t` values that wrap, so that none of this needs a tensor that
lies inside its buffer.
-/

open Broadcast (Within)
open Strided (linear)

/-! ### The documented bounds -/

/-- A bound counts from the end when it is negative, and is clamped to the dimension. -/
def clampIndex (n bound : ℤ) : ℤ := max 0 (min (if bound < 0 then bound + n else bound) n)

/-- The start of a slice. -/
def documentedStart (n start : ℤ) : ℕ := (clampIndex n start).toNat

/-- The end of a slice: `-1` is the extent of the dimension. -/
def documentedEnd (n stop : ℤ) : ℕ := (if stop = -1 then n else clampIndex n stop).toNat

namespace ByteTensor

/-- A tensor as the library builds them: its dimensions are sizes in `int64_t`, and each of them has
    a stride. -/
structure Dimensioned (t : ByteTensor) : Prop where
  nonneg : ∀ d ∈ t.shape, 0 ≤ d
  int64 : ∀ d ∈ t.shape, d < 2 ^ 63
  rank : t.strides.length = t.shape.length

/-- `dim` is a dimension, counted from the end when it is negative. -/
def HasDim (t : ByteTensor) (dim : ℤ) : Prop := 0 ≤ t.sliceDim dim ∧ t.sliceDim dim < t.shape.length

/-- The size of a dimension. -/
def dimSize (t : ByteTensor) (dim : ℤ) : ℤ := t.shape.getD (t.sliceDim dim).toNat 0

/-- `t'` is the part of `t` with the indices from `lo` to `hi` along dimension `d`: an index of `t'`
    is moved by `lo` to that of the same element in `t`, and every index of `t` between the bounds
    is reached. -/
structure ShowsSlice (t t' : ByteTensor) (d lo hi : ℕ) : Prop where
  shape : t'.shape = t.shape.set d (hi - lo : ℕ)
  strides : t'.strides = t.strides
  shows : ∀ idx, t'.shape.InRange idx →
    t.shape.InRange (idx.modify d (· + lo)) ∧
      t'.address idx = t.address (idx.modify d (· + lo)) ∧
        t'.element idx = t.element (idx.modify d (· + lo))
  reaches : ∀ idx, t.shape.InRange idx → lo ≤ idx.getD d 0 → idx.getD d 0 < hi →
    ∃ idx', t'.shape.InRange idx' ∧ idx'.modify d (· + lo) = idx

/-- A slice along dimension `k` that starts at `lo` and has `len` indices. -/
def sliced (t : ByteTensor) (k : ℕ) (lo len : ℤ) : ByteTensor :=
  { t with
    shape := t.shape.set k len
    offset := (t.offset + toSizeT lo * toSizeT (t.strides.getD k 0) * t.elem) % sizeTRange }

section Slice

variable {t : ByteTensor} {dim start stop : ℤ}

/-- `slice` of a dimension that the tensor has. -/
theorem slice_eq (h : t.HasDim dim) :
    t.slice dim start stop = .ok (t.sliced (t.sliceDim dim).toNat (sliceStart (t.dimSize dim) start)
      (sliceEnd (t.dimSize dim) start stop - sliceStart (t.dimSize dim) start)) := by
  have hdim : t.sliceDim dim ≥ 0 ∧ t.sliceDim dim < t.shape.length := h
  unfold slice
  exact if_pos hdim

theorem HasDim.lt (h : t.HasDim dim) : (t.sliceDim dim).toNat < t.shape.length := by
  obtain ⟨hnonneg, hlt⟩ := h
  omega

/-- The size of a dimension is a size in `int64_t`. -/
theorem Dimensioned.dimSize_bounds (ht : t.Dimensioned) (h : t.HasDim dim) :
    0 ≤ t.dimSize dim ∧ t.dimSize dim < 2 ^ 63 := by
  have hmem : t.dimSize dim ∈ t.shape := by
    unfold dimSize
    rw [List.getD_eq_getElem _ _ h.lt]
    exact List.getElem_mem h.lt
  exact ⟨ht.nonneg _ hmem, ht.int64 _ hmem⟩

/-- Moving the index by `lo` moves the address as the offset of a slice does. -/
theorem sliced_address {k lo : ℕ} (len : ℤ) {idx : List ℕ} (hlo : lo < sizeTRange)
    (hk : k < t.strides.length) (hlen : idx.length = t.strides.length) :
    (t.sliced k lo len).address idx = t.address (idx.modify k (· + lo)) := by
  have hlen' : idx.length = (t.strides.map toSizeT).length := by simpa using hlen
  have hmove := Strided.linear_modify hlen' (k := k) (by simpa using hk) lo
  have hstride : (t.strides.map toSizeT).getD k 0 = toSizeT (t.strides.getD k 0) := by
    rw [List.getD_eq_getElem _ _ (by simpa using hk), List.getD_eq_getElem _ _ hk, List.getElem_map]
  unfold address
  rw [srcOff_eq, srcOff_eq, hmove, hstride]
  show ((t.offset + toSizeT lo * toSizeT (t.strides.getD k 0) * t.elem) % sizeTRange
      + (t.elem * linear (t.strides.map toSizeT) idx) % sizeTRange) % sizeTRange = _
  rw [toSizeT_natCast hlo, ← Nat.add_mod, Nat.add_mod_mod]
  congr 1
  ring

theorem getD_bounds (shape : MNShape) (k : ℕ) : shape.bounds.getD k 0 = (shape.getD k 0).toNat := by
  unfold MNShape.bounds
  rw [List.getD_eq_getElem?_getD, List.getD_eq_getElem?_getD, List.getElem?_map]
  cases shape[k]? <;> rfl

theorem bounds_set (shape : MNShape) (k d : ℕ) :
    MNShape.bounds (shape.set k d) = shape.bounds.set k d := by
  simp [MNShape.bounds, List.map_set]

/-- A multi-index between the bounds is moved back into the slice. -/
theorem within_modify_sub {ds is : List ℕ} {k lo hi : ℕ} (h : Within ds is)
    (hlo : lo ≤ is.getD k 0) (hhi : is.getD k 0 < hi) :
    Within (ds.set k (hi - lo)) (is.modify k (· - lo)) ∧
      (is.modify k (· - lo)).modify k (· + lo) = is := by
  induction ds generalizing is k with
  | nil =>
    cases is with
    | nil => exact ⟨by simpa using h, by simp⟩
    | cons i is => exact h.elim
  | cons d ds ih =>
    cases is with
    | nil => exact h.elim
    | cons i is =>
      cases k with
      | zero =>
        rw [List.getD_cons_zero] at hlo hhi
        have hin : i - lo < hi - lo := by omega
        refine ⟨⟨hin, h.2⟩, ?_⟩
        simp [Nat.sub_add_cancel hlo]
      | succ k =>
        rw [List.getD_cons_succ] at hlo hhi
        obtain ⟨hin, hback⟩ := ih h.2 hlo hhi
        exact ⟨⟨h.1, hin⟩, by simp [hback]⟩

/-- A slice between bounds inside the dimension shows what is between them. -/
theorem showsSlice_sliced (ht : t.Dimensioned) {k lo hi : ℕ} (hk : k < t.shape.length)
    (hle : lo ≤ hi) (hhi : hi ≤ (t.shape.getD k 0).toNat) (hlo : lo < 2 ^ 63) :
    t.ShowsSlice (t.sliced k lo (hi - lo : ℕ)) k lo hi where
  shape := rfl
  strides := rfl
  shows := by
    intro idx hidx
    have hin : Within (t.shape.bounds.set k (hi - lo)) idx := by
      rw [← bounds_set]
      exact hidx
    have hsource : t.shape.InRange (idx.modify k (· + lo)) :=
      Strided.within_modify (by rwa [getD_bounds]) hle hin
    have hlen : idx.length = t.strides.length := by
      have hlength := Strided.Within.length_eq hin
      rw [List.length_set] at hlength
      rw [hlength, ht.rank, MNShape.bounds, List.length_map]
    have haddress := sliced_address (t := t) (hi - lo : ℕ)
      (Nat.lt_trans hlo (by decide)) (by rwa [ht.rank]) hlen
    exact ⟨hsource, haddress, element_congr rfl rfl haddress⟩
  reaches := by
    intro idx hidx hlower hupper
    obtain ⟨hin, hback⟩ := within_modify_sub hidx hlower hupper
    refine ⟨idx.modify k (· - lo), ?_, hback⟩
    rw [← bounds_set] at hin
    exact hin

end Slice

/-! ### The three parts -/

section Laws

variable {t : ByteTensor}

/-- The bounds of a call are the documented ones, but for an end of `-1` behind the start. -/
theorem sliceEnd_eq_iff {n : ℤ} (hn : 0 ≤ n) (start stop : ℤ) :
    sliceEnd n start stop - sliceStart n start
        = ((documentedEnd n stop - documentedStart n start : ℕ) : ℤ)
      ↔ (stop = -1 → n ≤ clampIndex n start) := by
  unfold sliceEnd sliceStart documentedEnd documentedStart clampIndex
  simp only
  split_ifs <;> omega

theorem sliceStart_eq (n start : ℤ) : sliceStart n start = (documentedStart n start : ℕ) := by
  unfold sliceStart documentedStart clampIndex
  simp only
  omega

/-- **The bounds.**  `slice` shows what lies between the documented bounds, unless the end is `-1`
    and the start lies inside the dimension. -/
theorem slice_bounds_documented (ht : t.Dimensioned) {dim : ℤ} (h : t.HasDim dim)
    (start stop : ℤ) :
    (∃ t', t.slice dim start stop = .ok t' ∧ t.ShowsSlice t' (t.sliceDim dim).toNat
        (documentedStart (t.dimSize dim) start) (documentedEnd (t.dimSize dim) stop))
      ↔ (stop = -1 → t.dimSize dim ≤ clampIndex (t.dimSize dim) start) := by
  obtain ⟨hn, hint64⟩ := ht.dimSize_bounds h
  rw [← sliceEnd_eq_iff hn, slice_eq h]
  have hstart : documentedStart (t.dimSize dim) start
      ≤ (t.shape.getD (t.sliceDim dim).toNat 0).toNat := by
    change _ ≤ (t.dimSize dim).toNat
    unfold documentedStart clampIndex
    omega
  have hstop : documentedEnd (t.dimSize dim) stop
      ≤ (t.shape.getD (t.sliceDim dim).toNat 0).toNat := by
    change _ ≤ (t.dimSize dim).toNat
    unfold documentedEnd clampIndex
    split_ifs <;> omega
  have hsmall : documentedStart (t.dimSize dim) start < 2 ^ 63 := by
    unfold documentedStart clampIndex
    omega
  constructor
  · rintro ⟨t', ht', hshows⟩
    obtain rfl := Except.ok.inj ht'
    -- the shapes differ where the sizes do
    have hshape := congrArg (fun shape => List.getD shape (t.sliceDim dim).toNat 0) hshows.shape
    simpa [sliced, List.getD_eq_getElem?_getD, h.lt] using hshape
  · intro hlen
    refine ⟨_, rfl, ?_⟩
    rw [hlen, sliceStart_eq]
    by_cases hle : documentedStart (t.dimSize dim) start ≤ documentedEnd (t.dimSize dim) stop
    · exact showsSlice_sliced ht h.lt hle hstop hsmall
    · -- an end before the start leaves nothing
      have hshows := showsSlice_sliced ht h.lt (Nat.le_refl _) hstart hsmall
      rw [Nat.sub_self] at hshows
      have hzero : documentedEnd (t.dimSize dim) stop - documentedStart
          (t.dimSize dim) start = 0 := by
        omega
      refine ⟨rfl, rfl, ?_, ?_⟩
      · rw [hzero]
        exact hshows.shows
      · intro idx _ hlower hupper
        omega

/-- Bounds inside the dimension are what they are. -/
theorem sliceStart_of_le {n s : ℤ} (hs : 0 ≤ s) (hn : s ≤ n) : sliceStart n s = s := by
  unfold sliceStart
  simp only
  omega

theorem sliceEnd_of_le {n s e : ℤ} (hs : 0 ≤ s) (hse : s ≤ e) (hn : e ≤ n) :
    sliceEnd n s e = e := by
  unfold sliceEnd sliceStart
  simp only
  omega

theorem toSizeT_add {s s' : ℤ} (hs : 0 ≤ s) (hs' : 0 ≤ s') (h : s + s' < 2 ^ 63) :
    toSizeT (s + s') = toSizeT s + toSizeT s' := by
  unfold toSizeT sizeTRange
  omega

theorem sliceDim_sliced (k : ℕ) (lo len dim : ℤ) :
    (t.sliced k lo len).sliceDim dim = t.sliceDim dim := by
  simp [sliceDim, sliced]

theorem hasDim_sliced {k : ℕ} {lo len dim : ℤ} (h : t.HasDim dim) :
    (t.sliced k lo len).HasDim dim := by
  unfold HasDim at h ⊢
  rw [sliceDim_sliced]
  simpa [sliced] using h

/-- **A slice of a slice** along the same dimension is one slice. -/
theorem slice_slice (ht : t.Dimensioned) {dim s₁ e₁ s₂ e₂ : ℤ} (h : t.HasDim dim)
    (hs₁ : 0 ≤ s₁) (hse₁ : s₁ ≤ e₁) (he₁ : e₁ ≤ t.dimSize dim) (hs₂ : 0 ≤ s₂) (hse₂ : s₂ ≤ e₂)
    (he₂ : e₂ ≤ e₁ - s₁) :
    (t.slice dim s₁ e₁ >>= fun u => u.slice dim s₂ e₂) = t.slice dim (s₁ + s₂) (s₁ + e₂) := by
  obtain ⟨-, hint64⟩ := ht.dimSize_bounds h
  have hsize : (t.sliced (t.sliceDim dim).toNat s₁ (e₁ - s₁)).dimSize dim = e₁ - s₁ := by
    unfold dimSize
    rw [sliceDim_sliced]
    simp [sliced, List.getD_eq_getElem?_getD, h.lt]
  rw [slice_eq h, sliceStart_of_le hs₁ (by omega), sliceEnd_of_le hs₁ hse₁ he₁]
  show (t.sliced (t.sliceDim dim).toNat s₁ (e₁ - s₁)).slice dim s₂ e₂ = _
  rw [slice_eq (hasDim_sliced h), hsize, sliceStart_of_le hs₂ (by omega),
    sliceEnd_of_le hs₂ hse₂ he₂, slice_eq h, sliceStart_of_le (by omega) (by omega),
    sliceEnd_of_le (by omega) (by omega) (by omega), sliceDim_sliced]
  -- the lengths agree, and the offsets add up
  have hlength : s₁ + e₂ - (s₁ + s₂) = e₂ - s₂ := by omega
  rw [hlength]
  unfold sliced elem
  simp only [List.set_set, Nat.mod_add_mod, toSizeT_add hs₁ hs₂ (by omega)]
  congr 3
  ring

/-- **Slices along two dimensions** commute. -/
theorem slice_comm {dim dim' s e s' e' : ℤ} (h : t.HasDim dim) (h' : t.HasDim dim')
    (hne : t.sliceDim dim ≠ t.sliceDim dim') :
    (t.slice dim s e >>= fun u => u.slice dim' s' e')
      = t.slice dim' s' e' >>= fun u => u.slice dim s e := by
  have hnonneg := h.1
  have hnonneg' := h'.1
  have hk : (t.sliceDim dim).toNat ≠ (t.sliceDim dim').toNat := by omega
  -- one slice leaves the size of the other dimension
  have hother : ∀ (k : ℕ) (lo len : ℤ) (i : ℤ), (t.sliceDim i).toNat ≠ k →
      (t.sliced k lo len).dimSize i = t.dimSize i := by
    intro k lo len i hik
    unfold dimSize
    rw [sliceDim_sliced]
    simp [sliced, List.getD_eq_getElem?_getD, Ne.symm hik]
  rw [slice_eq h, slice_eq h']
  show (t.sliced _ _ _).slice dim' s' e' = (t.sliced _ _ _).slice dim s e
  rw [slice_eq (hasDim_sliced h'), slice_eq (hasDim_sliced h), hother _ _ _ _ hk.symm,
    hother _ _ _ _ hk, sliceDim_sliced, sliceDim_sliced]
  unfold sliced elem
  simp only [Nat.mod_add_mod, List.set_comm _ _ hk]
  congr 3
  ring

end Laws

end ByteTensor

/-- **Slices.**  Of a tensor with `int64_t` dimensions: a call of `slice` shows the elements between
    its documented bounds exactly where it does not pass `-1` as the end with a start inside the
    dimension; a slice of a slice along one dimension, with bounds inside, is one slice; and slices
    along two dimensions commute. -/
theorem slice_convention (t : ByteTensor) (ht : t.Dimensioned) :
    (∀ dim start stop, t.HasDim dim →
      ((∃ t', t.slice dim start stop = .ok t' ∧ t.ShowsSlice t' (t.sliceDim dim).toNat
          (documentedStart (t.dimSize dim) start) (documentedEnd (t.dimSize dim) stop))
        ↔ (stop = -1 → t.dimSize dim ≤ clampIndex (t.dimSize dim) start))) ∧
    (∀ dim s₁ e₁ s₂ e₂, t.HasDim dim → 0 ≤ s₁ → s₁ ≤ e₁ → e₁ ≤ t.dimSize dim → 0 ≤ s₂ → s₂ ≤ e₂ →
      e₂ ≤ e₁ - s₁ →
        (t.slice dim s₁ e₁ >>= fun u => u.slice dim s₂ e₂) = t.slice dim (s₁ + s₂) (s₁ + e₂)) ∧
    (∀ dim s e dim' s' e', t.HasDim dim → t.HasDim dim' → t.sliceDim dim ≠ t.sliceDim dim' →
      (t.slice dim s e >>= fun u => u.slice dim' s' e')
        = t.slice dim' s' e' >>= fun u => u.slice dim s e) :=
  ⟨fun _ start stop h => ByteTensor.slice_bounds_documented ht h start stop,
    fun _ _ _ _ _ h hs₁ hse₁ he₁ hs₂ hse₂ he₂ =>
      ByteTensor.slice_slice ht h hs₁ hse₁ he₁ hs₂ hse₂ he₂,
    fun _ _ _ _ _ _ h h' hne => ByteTensor.slice_comm h h' hne⟩

/-- A vector of three floats. -/
def threeFloats : ByteTensor where
  buffer := ⟨12, fun _ => 0⟩
  mode := .Shared
  shape := [3]
  strides := [1]
  dtype := .Float32

theorem threeFloats_dimensioned : threeFloats.Dimensioned where
  nonneg := by decide
  int64 := by decide
  rank := rfl

/-- The slice of a vector from `0` to `-1` leaves out the last element. -/
theorem slice_minus_one_short :
    threeFloats.HasDim 0 ∧ documentedEnd (threeFloats.dimSize 0) (-1) = 3 ∧
      ∃ t', threeFloats.slice 0 0 (-1) = .ok t' ∧ t'.shape = [2] ∧
        ¬ threeFloats.ShowsSlice t' 0 0 3 := by
  refine ⟨⟨by decide, by decide⟩, by decide, _, rfl, rfl, fun hshows => ?_⟩
  exact absurd hshows.shape (by decide)

/-- An end of `-2` counts from the end. -/
theorem slice_convention_from_end :
    ∃ t', threeFloats.slice 0 (-2) (-2) = .ok t' ∧ threeFloats.ShowsSlice t' 0 1 1 :=
  ((slice_convention threeFloats threeFloats_dimensioned).1 0 (-2) (-2)
    ⟨by decide, by decide⟩).mpr (by decide)

end MetalNative
