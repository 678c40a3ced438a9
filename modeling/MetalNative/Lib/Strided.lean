import MetalNative.Lib.Broadcast
import Mathlib.Data.Finset.Card
import Mathlib.Tactic.Ring

/-!
# Strided layouts

A multi-index addresses an element through one stride for each dimension.  Dimensions are listed
from the slowest one on, as programs write them.

* `linear` — the position that the strides give; `linear_modify` moves one coordinate.
* `position` — the position in row-major order, which `rowMajorStrides` give.  `unravel` inverts it
  (`position_unravel`, `unravel_position`), so it is injective (`position_inj`).
* `exists_le_linear` — distinct positions need as much room as there are multi-indices.
* `advance` — the odometer that counts through the multi-indices; `advance_unravel` says that it
  counts in row-major order.
-/

namespace Strided

open Broadcast (Within)

/-! ### Positions -/

/-- The position of a multi-index in an array with these strides. -/
def linear : List ℕ → List ℕ → ℕ
  | s :: ss, i :: is => i * s + linear ss is
  | _, _ => 0

/-- The position of a multi-index in row-major order. -/
def position : List ℕ → List ℕ → ℕ
  | _ :: ds, i :: is => i * ds.prod + position ds is
  | _, _ => 0

/-- The strides of an array that is dense in row-major order. -/
def rowMajorStrides : List ℕ → List ℕ
  | [] => []
  | _ :: ds => ds.prod :: rowMajorStrides ds

/-- The multi-index at a position in row-major order. -/
def unravel : List ℕ → ℕ → List ℕ
  | [], _ => []
  | _ :: ds, p => p / ds.prod :: unravel ds (p % ds.prod)

variable {ds ss is js : List ℕ} {p : ℕ}

theorem Within.prod_pos (h : Within ds is) : 0 < ds.prod :=
  Nat.lt_of_le_of_lt (Nat.zero_le _) (Broadcast.offset_lt h)

theorem Within.length_eq (h : Within ds is) : is.length = ds.length := by
  induction ds generalizing is with
  | nil =>
    cases is with
    | nil => rfl
    | cons i is => exact h.elim
  | cons d ds ih =>
    cases is with
    | nil => exact h.elim
    | cons i is => simp [ih h.2]

theorem position_lt (h : Within ds is) : position ds is < ds.prod := by
  induction ds generalizing is with
  | nil => simp [position]
  | cons d ds ih =>
    cases is with
    | nil => exact h.elim
    | cons i is =>
      have htail : position ds is < ds.prod := ih h.2
      have hrow : (i + 1) * ds.prod ≤ d * ds.prod := Nat.mul_le_mul_right _ h.1
      rw [position, List.prod_cons]
      rw [Nat.add_mul, Nat.one_mul] at hrow
      omega

/-- A last coordinate counts within a row. -/
theorem position_concat (h : is.length = ds.length) (d i : ℕ) :
    position (ds ++ [d]) (is ++ [i]) = position ds is * d + i := by
  induction ds generalizing is with
  | nil =>
    obtain rfl := List.length_eq_zero_iff.mp h
    simp [position]
  | cons c ds ih =>
    cases is with
    | nil => simp at h
    | cons j is =>
      have hlen : is.length = ds.length := by simpa using h
      rw [List.cons_append, List.cons_append, position, position, ih hlen, List.prod_append]
      simp only [List.prod_cons, List.prod_nil]
      ring

/-- A multi-index at position zero has zeros only. -/
theorem linear_replicate_zero (ss : List ℕ) (n : ℕ) : linear ss (List.replicate n 0) = 0 := by
  induction ss generalizing n with
  | nil => cases n <;> rfl
  | cons s ss ih =>
    cases n with
    | zero => rfl
    | succ n => rw [List.replicate_succ, linear, ih, Nat.zero_mul]

theorem linear_rowMajorStrides : linear (rowMajorStrides ds) is = position ds is := by
  induction ds generalizing is with
  | nil => simp [rowMajorStrides, linear, position]
  | cons d ds ih =>
    cases is with
    | nil => simp [linear, position]
    | cons i is => rw [rowMajorStrides, linear, position, ih]

theorem length_rowMajorStrides (ds : List ℕ) : (rowMajorStrides ds).length = ds.length := by
  induction ds with
  | nil => rfl
  | cons d ds ih => simp [rowMajorStrides, ih]

/-- The strides of a dense array are at most the number of its elements. -/
theorem le_prod_of_mem_rowMajorStrides (hpos : 0 < ds.prod) {s : ℕ}
    (hs : s ∈ rowMajorStrides ds) : s ≤ ds.prod := by
  induction ds with
  | nil => simp [rowMajorStrides] at hs
  | cons d ds ih =>
    rw [List.prod_cons] at hpos ⊢
    have hd : 0 < d := Nat.pos_of_mul_pos_right hpos
    have hds : 0 < ds.prod := Nat.pos_of_mul_pos_left hpos
    have hle : ds.prod ≤ d * ds.prod := Nat.le_mul_of_pos_left _ hd
    rcases List.mem_cons.mp hs with rfl | hs
    · exact hle
    · exact le_trans (ih hds hs) hle

theorem within_unravel (hp : p < ds.prod) : Within ds (unravel ds p) := by
  induction ds generalizing p with
  | nil => trivial
  | cons d ds ih =>
    rw [List.prod_cons] at hp
    have hpos : 0 < ds.prod := Nat.pos_of_ne_zero fun h => by simp [h] at hp
    refine ⟨?_, ih (Nat.mod_lt p hpos)⟩
    apply Nat.div_lt_of_lt_mul
    rwa [Nat.mul_comm]

theorem unravel_zero (ds : List ℕ) : unravel ds 0 = List.replicate ds.length 0 := by
  induction ds with
  | nil => rfl
  | cons d ds ih => simp [unravel, ih, List.replicate_succ]

theorem position_unravel (hp : p < ds.prod) : position ds (unravel ds p) = p := by
  induction ds generalizing p with
  | nil =>
    rw [List.prod_nil, Nat.lt_one_iff] at hp
    simp [hp, position]
  | cons d ds ih =>
    rw [List.prod_cons] at hp
    have hpos : 0 < ds.prod := Nat.pos_of_ne_zero fun h => by simp [h] at hp
    rw [unravel, position, ih (Nat.mod_lt p hpos)]
    exact Nat.div_add_mod' p ds.prod

/-- The first coordinate and the others of a position that is written out. -/
theorem unravel_cons_add {d q r : ℕ} (hr : r < ds.prod) :
    unravel (d :: ds) (q * ds.prod + r) = q :: unravel ds r := by
  have hpos : 0 < ds.prod := Nat.lt_of_le_of_lt (Nat.zero_le r) hr
  have hdiv : (q * ds.prod + r) / ds.prod = q := by
    rw [Nat.mul_comm, Nat.mul_add_div hpos, Nat.div_eq_of_lt hr, Nat.add_zero]
  have hmod : (q * ds.prod + r) % ds.prod = r := by
    rw [Nat.mul_comm, Nat.mul_add_mod, Nat.mod_eq_of_lt hr]
  rw [unravel, hdiv, hmod]

theorem unravel_position (h : Within ds is) : unravel ds (position ds is) = is := by
  induction ds generalizing is with
  | nil =>
    cases is with
    | nil => rfl
    | cons i is => exact h.elim
  | cons d ds ih =>
    cases is with
    | nil => exact h.elim
    | cons i is => rw [position, unravel_cons_add (position_lt h.2), ih h.2]

/-- Two multi-indices at one position are the same. -/
theorem position_inj (hi : Within ds is) (hj : Within ds js)
    (h : position ds is = position ds js) : is = js := by
  rw [← unravel_position hi, h, unravel_position hj]

/-- Where no two multi-indices lie at one position, some lies at the last of as many positions or
    behind it. -/
theorem exists_le_linear (hpos : 0 < ds.prod)
    (hinj : ∀ is js, Within ds is → Within ds js → linear ss is = linear ss js → is = js) :
    ∃ is, Within ds is ∧ ds.prod ≤ linear ss is + 1 := by
  by_contra hnone
  push Not at hnone
  have hmaps : ∀ p ∈ Finset.range ds.prod, linear ss (unravel ds p) ∈
      Finset.range (ds.prod - 1) := by
    intro p hp
    have hlt := hnone _ (within_unravel (Finset.mem_range.mp hp))
    rw [Finset.mem_range]
    omega
  obtain ⟨p, hp, q, hq, hne, heq⟩ := Finset.exists_ne_map_eq_of_card_lt_of_maps_to
    (by rw [Finset.card_range, Finset.card_range]; omega) hmaps
  rw [Finset.mem_range] at hp hq
  apply hne
  rw [← position_unravel hp, ← position_unravel hq,
    hinj _ _ (within_unravel hp) (within_unravel hq) heq]

/-! ### Moving one coordinate -/

theorem modify_inj (k s : ℕ) (h : is.modify k (· + s) = js.modify k (· + s)) : is = js := by
  apply List.ext_getElem?
  intro n
  have hn := congrArg (·[n]?) h
  simp only [List.getElem?_modify] at hn
  by_cases hk : k = n
  · simp only [hk, if_true] at hn
    cases hi : is[n]? <;> cases hj : js[n]? <;> simp_all
  · simpa [hk] using hn

/-- Moving a coordinate by `s` moves the position by `s` strides. -/
theorem linear_modify (hlen : is.length = ss.length) {k : ℕ} (hk : k < ss.length) (s : ℕ) :
    linear ss (is.modify k (· + s)) = s * ss.getD k 0 + linear ss is := by
  induction ss generalizing is k with
  | nil => simp at hk
  | cons x ss ih =>
    cases is with
    | nil => simp at hlen
    | cons i is =>
      cases k with
      | zero =>
        rw [List.modify_zero_cons, linear, linear, List.getD_cons_zero]
        ring
      | succ k =>
        have hlen' : is.length = ss.length := by simpa using hlen
        have hk' : k < ss.length := by simpa using hk
        rw [List.modify_succ_cons, linear, linear, List.getD_cons_succ, ih hlen' hk']
        ring

/-- A multi-index of a range along dimension `k`, moved to where the range starts. -/
theorem within_modify {k lo hi : ℕ} (hhi : hi ≤ ds.getD k 0) (hlo : lo ≤ hi)
    (h : Within (ds.set k (hi - lo)) is) : Within ds (is.modify k (· + lo)) := by
  induction ds generalizing is k with
  | nil =>
    cases is with
    | nil => simpa using h
    | cons i is => exact h.elim
  | cons d ds ih =>
    cases k with
    | zero =>
      cases is with
      | nil => exact h.elim
      | cons i is =>
        rw [List.set_cons_zero] at h
        rw [List.getD_cons_zero] at hhi
        have hi : i < hi - lo := h.1
        rw [List.modify_zero_cons]
        exact ⟨by omega, h.2⟩
    | succ k =>
      cases is with
      | nil => exact h.elim
      | cons i is =>
        rw [List.set_cons_succ] at h
        rw [List.getD_cons_succ] at hhi
        exact ⟨h.1, ih hhi h.2⟩

theorem prod_set_le {k d : ℕ} (hd : d ≤ ds.getD k 0) : (ds.set k d).prod ≤ ds.prod := by
  induction ds generalizing k with
  | nil => simp
  | cons e ds ih =>
    cases k with
    | zero =>
      rw [List.set_cons_zero, List.prod_cons, List.prod_cons]
      exact Nat.mul_le_mul_right _ hd
    | succ k =>
      rw [List.set_cons_succ, List.prod_cons, List.prod_cons]
      exact Nat.mul_le_mul_left _ (ih hd)

/-! ### The odometer -/

/-- The next multi-index, and whether the count has come round: the last coordinate is moved, and
    one that reaches its dimension goes back to zero and moves the coordinate before it. -/
def advance : List ℕ → List ℕ → List ℕ × Bool
  | d :: ds, i :: is =>
    let (is, carry) := advance ds is
    if carry then
      if i + 1 < d then ((i + 1) :: is, false) else (0 :: is, true)
    else (i :: is, false)
  | _, _ => ([], true)

/-- The odometer counts in row-major order. -/
theorem advance_unravel (hp : p < ds.prod) :
    advance ds (unravel ds p) = (unravel ds ((p + 1) % ds.prod), decide (p + 1 = ds.prod)) := by
  induction ds generalizing p with
  | nil =>
    rw [List.prod_nil, Nat.lt_one_iff] at hp
    subst hp
    rfl
  | cons d ds ih =>
    rw [List.prod_cons] at hp ⊢
    have hpos : 0 < ds.prod := Nat.pos_of_ne_zero fun h => by simp [h] at hp
    -- the first coordinate is `q`, and the others are those of `r`
    obtain ⟨q, r, hr, rfl⟩ : ∃ q r, r < ds.prod ∧ p = q * ds.prod + r :=
      ⟨p / ds.prod, p % ds.prod, Nat.mod_lt p hpos, (Nat.div_add_mod' p ds.prod).symm⟩
    have hq : q < d := Nat.lt_of_mul_lt_mul_right (Nat.lt_of_le_of_lt (Nat.le_add_right _ r) hp)
    rw [unravel_cons_add hr, advance, ih hr]
    by_cases hcarry : r + 1 = ds.prod
    · -- the coordinates behind come round to zero
      have hnext : q * ds.prod + r + 1 = (q + 1) * ds.prod + 0 := by
        rw [Nat.add_mul, Nat.one_mul]
        omega
      simp only [hcarry, decide_true, if_true, Nat.mod_self, hnext]
      by_cases hd : q + 1 < d
      · have hlt : (q + 1) * ds.prod + 0 < d * ds.prod := Nat.mul_lt_mul_of_pos_right hd hpos
        rw [if_pos hd, Nat.mod_eq_of_lt hlt, decide_eq_false (Nat.ne_of_lt hlt),
          unravel_cons_add hpos]
      · have heq : q + 1 = d := by omega
        rw [if_neg hd, Nat.add_zero, heq, Nat.mod_self, decide_eq_true rfl,
          ← Nat.zero_add 0, ← Nat.zero_mul ds.prod, unravel_cons_add]
        · simp
        · simpa using hpos
    · have hlt : r + 1 < ds.prod := by omega
      have hrow : (q + 1) * ds.prod ≤ d * ds.prod := Nat.mul_le_mul_right _ hq
      rw [Nat.add_mul, Nat.one_mul] at hrow
      have hin : q * ds.prod + (r + 1) < d * ds.prod := by omega
      rw [decide_eq_false hcarry, Nat.mod_eq_of_lt hlt, Nat.add_assoc, Nat.mod_eq_of_lt hin,
        unravel_cons_add hlt, decide_eq_false (Nat.ne_of_lt hin)]
      simp

end Strided
