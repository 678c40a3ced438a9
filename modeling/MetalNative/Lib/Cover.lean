import Mathlib.Algebra.BigOperators.Intervals

/-!
# Lists of spans that tile an interval

A span is a half-open interval `[offset, offset + size)` of `ℕ`.  Instead of ordering the spans
of a list, `cover L p` counts those that contain the point `p`; a list tiles `[0, n)` when the
count is `1` below `n` and `0` from `n` on.  Counting makes permutation, splitting and merging
pointwise arithmetic, and everything one wants of a tiling (disjointness, bounds, the sum of the
sizes) is read off the count.

* `Tiles.perm`, `Tiles.split`, `Tiles.merge` — the moves of an allocator.
* `Tiles.disjoint`, `Tiles.end_le`, `Tiles.sum_size` — what a tiling gives.
* `Tiles.eq_whole` — a sorted tiling with no two touching neighbours is the whole interval.
-/

/-- The half-open interval `[offset, offset + size)`. -/
structure Span where
  offset : ℕ
  size : ℕ
  deriving DecidableEq, Repr

namespace Span

/-- The point `p` lies in `x`. -/
def Has (x : Span) (p : ℕ) : Prop := x.offset ≤ p ∧ p < x.offset + x.size

instance (x : Span) (p : ℕ) : Decidable (x.Has p) :=
  inferInstanceAs (Decidable (_ ∧ _))

/-- No point lies in both. -/
def Disjoint (x y : Span) : Prop := ∀ p, x.Has p → ¬ y.Has p

theorem Disjoint.symm {x y : Span} (h : x.Disjoint y) : y.Disjoint x :=
  fun p hy hx => h p hx hy

instance : Std.Symm Span.Disjoint := ⟨fun _ _ h => h.symm⟩

/-- `y` starts where `x` ends. -/
def Touches (x y : Span) : Prop := x.offset + x.size = y.offset

instance (x y : Span) : Decidable (x.Touches y) := inferInstanceAs (Decidable (_ = _))

/-! ### Counting the spans over a point -/

/-- How many spans of `L` contain `p`. -/
def cover (L : List Span) (p : ℕ) : ℕ := L.countP (fun x => decide (x.Has p))

@[simp] theorem cover_nil (p : ℕ) : cover [] p = 0 := rfl

theorem cover_cons (x : Span) (L : List Span) (p : ℕ) :
    cover (x :: L) p = cover L p + if x.Has p then 1 else 0 := by
  by_cases h : x.Has p <;> simp [cover, h]

theorem cover_perm {L M : List Span} (h : L.Perm M) (p : ℕ) : cover L p = cover M p :=
  h.countP_eq _

theorem cover_pos {L : List Span} {x : Span} {p : ℕ} (hx : x ∈ L) (hp : x.Has p) :
    0 < cover L p :=
  List.countP_pos_iff.mpr ⟨x, hx, by simpa using hp⟩

theorem exists_of_cover_pos {L : List Span} {p : ℕ} (h : 0 < cover L p) :
    ∃ x ∈ L, x.Has p := by
  obtain ⟨x, hx, hp⟩ := List.countP_pos_iff.mp h
  exact ⟨x, hx, by simpa using hp⟩

/-! ### Tilings -/

/-- `L` tiles `[0, n)`: its spans are non-empty and every point below `n` lies in exactly one. -/
structure Tiles (L : List Span) (n : ℕ) : Prop where
  once : ∀ p, cover L p = if p < n then 1 else 0
  pos : ∀ x ∈ L, 0 < x.size

variable {L M : List Span} {n : ℕ}

/-- One span over the whole interval. -/
theorem tiles_whole (h : 0 < n) : Tiles [⟨0, n⟩] n where
  once p := by simp [cover_cons, Has]
  pos x hx := by simp_all

theorem Tiles.perm (h : Tiles L n) (hp : L.Perm M) : Tiles M n where
  once p := by rw [← cover_perm hp, h.once]
  pos x hx := h.pos x (hp.mem_iff.mpr hx)

/-- Cutting a span in two non-empty parts. -/
theorem Tiles.split {x : Span} {k : ℕ} (h : Tiles (x :: L) n) (hk : 0 < k) (hkx : k < x.size) :
    Tiles (⟨x.offset + k, x.size - k⟩ :: ⟨x.offset, k⟩ :: L) n where
  once p := by
    have hp := h.once p
    simp only [cover_cons] at hp ⊢
    split_ifs at hp ⊢ <;> simp only [Has] at * <;> omega
  pos y hy := by
    simp only [List.mem_cons] at hy
    rcases hy with rfl | rfl | hy
    · show 0 < x.size - k
      omega
    · exact hk
    · exact h.pos y (by simp [hy])

/-- Joining two touching spans. -/
theorem Tiles.merge {x y : Span} (h : Tiles (x :: y :: L) n) (hxy : x.Touches y) :
    Tiles (⟨x.offset, x.size + y.size⟩ :: L) n where
  once p := by
    have hp := h.once p
    simp only [cover_cons] at hp ⊢
    split_ifs at hp ⊢ <;> simp only [Has, Touches] at * <;> omega
  pos z hz := by
    simp only [List.mem_cons] at hz
    rcases hz with rfl | hz
    · have := h.pos x (by simp)
      show 0 < x.size + y.size
      omega
    · exact h.pos z (by simp [hz])

/-- Two entries of a tiling share no point. -/
theorem Tiles.disjoint (h : Tiles L n) : L.Pairwise Span.Disjoint := by
  have hone : ∀ p, cover L p ≤ 1 := fun p => by rw [h.once]; split <;> omega
  clear h
  induction L with
  | nil => exact .nil
  | cons x L ih =>
    refine List.Pairwise.cons (fun y hy p hx hyp => ?_) (ih fun p => ?_)
    · have h1 := hone p
      rw [cover_cons, if_pos hx] at h1
      have h2 := cover_pos hy hyp
      omega
    · have h1 := hone p
      rw [cover_cons] at h1
      omega

/-- A span of a tiling lies below the bound. -/
theorem Tiles.end_le (h : Tiles L n) {x : Span} (hx : x ∈ L) : x.offset + x.size ≤ n := by
  have hpos := h.pos x hx
  have hcov := cover_pos (p := x.offset + x.size - 1) hx ⟨by omega, by omega⟩
  rw [h.once] at hcov
  split at hcov <;> omega

/-- A point below the bound lies in some span. -/
theorem Tiles.exists_has (h : Tiles L n) {p : ℕ} (hp : p < n) : ∃ x ∈ L, x.Has p :=
  exists_of_cover_pos (by rw [h.once, if_pos hp]; exact Nat.one_pos)

/-- The sizes of a tiling add up to the bound. -/
theorem Tiles.sum_size (h : Tiles L n) : (L.map Span.size).sum = n := by
  -- count the pairs (point below `n`, span over it) by points and by spans
  have hpoints : (∑ p ∈ Finset.range n, cover L p) = n := by
    have hone : ∀ p ∈ Finset.range n, cover L p = 1 := fun p hp => by
      rw [h.once, if_pos (Finset.mem_range.mp hp)]
    rw [Finset.sum_congr rfl hone, ← Finset.card_eq_sum_ones, Finset.card_range]
  have hspans : ∀ M : List Span, (∀ x ∈ M, x.offset + x.size ≤ n) →
      (∑ p ∈ Finset.range n, cover M p) = (M.map Span.size).sum := by
    intro M hM
    induction M with
    | nil => simp
    | cons x M ih =>
      have hx := hM x (by simp)
      have hfilter : (Finset.range n).filter (fun p => x.Has p)
          = Finset.Ico x.offset (x.offset + x.size) := by
        ext p
        rw [Finset.mem_filter, Finset.mem_range, Finset.mem_Ico]
        unfold Has
        omega
      simp only [cover_cons, Finset.sum_add_distrib, List.map_cons, List.sum_cons]
      rw [ih fun y hy => hM y (by simp [hy]), ← Finset.card_filter, hfilter, Nat.card_Ico]
      omega
  rw [← hspans L fun x hx => h.end_le hx, hpoints]

/-- Adjacent entries neither touch nor are out of order. -/
def Coalesced (L : List Span) : Prop :=
  L.IsChain (fun x y => x.offset + x.size < y.offset)

/-- A coalesced tiling of a non-empty interval is one span. -/
theorem Tiles.eq_whole (h : Tiles L n) (hn : 0 < n) (hc : Coalesced L) : L = [⟨0, n⟩] := by
  cases L with
  | nil =>
    have := h.once 0
    simp [hn] at this
  | cons x L =>
    have htrans : (x :: L).Pairwise (fun a b => a.offset + a.size < b.offset) := by
      have : IsTrans Span (fun a b => a.offset + a.size < b.offset) :=
        ⟨fun a b c hab hbc => by omega⟩
      exact List.isChain_iff_pairwise.mp hc
    -- whatever follows `x` starts after its end, so `x` covers `0` and the point at its end
    have hlater : ∀ y ∈ L, x.offset + x.size < y.offset := (List.pairwise_cons.mp htrans).1
    have hx0 : x.offset = 0 := by
      obtain ⟨y, hy, hy0⟩ := h.exists_has hn
      rcases List.mem_cons.mp hy with rfl | hy
      · have := hy0.1; omega
      · have h1 := hlater y hy; have h2 := hy0.1; omega
    have hxn : x.size = n := by
      have hle := h.end_le (x := x) (by simp)
      by_contra hne
      obtain ⟨y, hy, hyp⟩ := h.exists_has (p := x.size) (by omega)
      rcases List.mem_cons.mp hy with rfl | hy
      · have := hyp.2; omega
      · have h1 := hlater y hy; have h2 := hyp.1; omega
    have hL : L = [] := by
      cases L with
      | nil => rfl
      | cons y L =>
        have h1 := hlater y (by simp)
        have h2 := h.end_le (x := y) (by simp)
        have h3 := h.pos y (by simp)
        omega
    subst hL
    cases x
    simp_all

end Span
