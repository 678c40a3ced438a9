import MetalNative.Lib.Broadcast

/-!
# Joins that need not exist

An operation on an ordered type that gives the least upper bound of two elements wherever they have
an upper bound at all.

* `IsJoin` — the operation.  `IsJoin.comm`, `IsJoin.self`, `IsJoin.bot` and `IsJoin.assoc` say that
  it is a partial commutative monoid; both sides of `assoc` are the least upper bound of the three
  (`IsJoin.bind_eq_some_iff`).
* `Broadcast.Dims` — the dimensions of arrays, ordered by broadcasting; `Broadcast.isJoin_common`
  says that the common dimensions are such a join.
-/

namespace PartialJoin

variable {α : Type*} [PartialOrder α] {join : α → α → Option α} {a b c d : α}

/-- The least upper bound of two elements that have an upper bound, and of no others. -/
structure IsJoin (join : α → α → Option α) : Prop where
  isLUB : ∀ {a b c}, join a b = some c → IsLUB {a, b} c
  defined : ∀ {a b u}, a ≤ u → b ≤ u → ∃ c, join a b = some c

namespace IsJoin

theorem eq_some_iff (h : IsJoin join) : join a b = some c ↔ IsLUB {a, b} c := by
  constructor
  · exact h.isLUB
  · intro hc
    obtain ⟨x, hx⟩ := h.defined (hc.1 (by simp : a ∈ {a, b})) (hc.1 (by simp : b ∈ {a, b}))
    rw [hx, (h.isLUB hx).unique hc]

theorem comm (h : IsJoin join) (a b : α) : join a b = join b a := by
  ext c
  rw [h.eq_some_iff, h.eq_some_iff, Set.pair_comm]

theorem self (h : IsJoin join) (a : α) : join a a = some a := by
  rw [h.eq_some_iff, Set.pair_eq_singleton]
  exact isLUB_singleton

/-- The least element is neutral. -/
theorem bot (h : IsJoin join) {e : α} (he : ∀ u, e ≤ u) (a : α) : join a e = some a := by
  rw [h.eq_some_iff]
  constructor
  · rintro x (rfl | rfl)
    · exact le_refl x
    · exact he a
  · intro u hu
    exact hu (by simp)

/-- A join of three is their least upper bound. -/
theorem bind_eq_some_iff (h : IsJoin join) :
    (join a b).bind (fun x => join x c) = some d ↔ IsLUB {a, b, c} d := by
  rw [Option.bind_eq_some_iff]
  simp only [h.eq_some_iff]
  constructor
  · rintro ⟨x, hx, hd⟩
    have hax : a ≤ x := hx.1 (by simp)
    have hbx : b ≤ x := hx.1 (by simp)
    have hxd : x ≤ d := hd.1 (by simp)
    have hcd : c ≤ d := hd.1 (by simp)
    constructor
    · rintro y (rfl | rfl | rfl)
      · exact hax.trans hxd
      · exact hbx.trans hxd
      · exact hcd
    · intro u hu
      have hxu : x ≤ u := hx.2 (by rintro y (rfl | rfl) <;> exact hu (by simp))
      exact hd.2 (by rintro y (rfl | rfl); exacts [hxu, hu (by simp)])
  · intro hd
    obtain ⟨x, hx⟩ := h.defined (hd.1 (by simp : a ∈ {a, b, c})) (hd.1 (by simp : b ∈ {a, b, c}))
    have hlub := h.isLUB hx
    refine ⟨x, hlub, ?_, ?_⟩
    · rintro y (rfl | rfl)
      · exact hlub.2 (by rintro z (rfl | rfl) <;> exact hd.1 (by simp))
      · exact hd.1 (by simp)
    · intro u hu
      have hxu : x ≤ u := hu (by simp)
      apply hd.2
      rintro y (rfl | rfl | rfl)
      · exact (hlub.1 (by simp)).trans hxu
      · exact (hlub.1 (by simp)).trans hxu
      · exact hu (by simp)

/-- Joins can be taken in any order: both ways are defined, with one result, or neither is. -/
theorem assoc (h : IsJoin join) (a b c : α) :
    (join a b).bind (fun x => join x c) = (join b c).bind (join a) := by
  have hflip : join a = fun x => join x a := funext fun x => h.comm a x
  ext d
  rw [h.bind_eq_some_iff, hflip, h.bind_eq_some_iff]
  have hset : ({a, b, c} : Set α) = {b, c, a} := by
    ext x
    simp only [Set.mem_insert_iff, Set.mem_singleton_iff]
    tauto
  rw [hset]

end IsJoin

end PartialJoin

/-! ### Broadcasting -/

namespace Broadcast

theorem Expands.antisymm {ds es : List ℕ} (h : Expands ds es) (h' : Expands es ds) : ds = es := by
  induction h with
  | nil es =>
    cases h'
    rfl
  | cons hd _ ih =>
    cases h' with
    | cons he htail =>
      rw [ih htail]
      congr 1
      omega

/-- The definition, index by index. -/
theorem expands_iff_getElem? {ds es : List ℕ} : Expands ds es ↔
    ds.length ≤ es.length ∧ ∀ i < ds.length, ds[i]? = some 1 ∨ ds[i]? = es[i]? := by
  induction ds generalizing es with
  | nil => simp [Expands.nil]
  | cons d ds ih =>
    cases es with
    | nil =>
      simp only [List.length_nil, List.length_cons]
      constructor
      · intro h
        cases h
      · intro h
        omega
    | cons e es =>
      constructor
      · intro h
        cases h with
        | cons hd htail =>
          obtain ⟨hlen, hall⟩ := ih.mp htail
          refine ⟨by simpa using hlen, fun i hi => ?_⟩
          cases i with
          | zero => simpa using hd
          | succ i => simpa using hall i (by simpa using hi)
      · rintro ⟨hlen, hall⟩
        refine .cons (by simpa using hall 0 (by simp))
          (ih.mpr ⟨by simpa using hlen, fun i hi => ?_⟩)
        simpa using hall (i + 1) (by simpa using hi)

/-- What two lists have in common expands to everything that both expand to. -/
theorem expands_common {ds es fs : List ℕ} (h : Expands ds fs) (h' : Expands es fs) :
    ∃ cs, common ds es = some cs ∧ Expands cs fs := by
  induction h generalizing es with
  | nil fs => exact ⟨es, by simp [common], h'⟩
  | @cons d f ds fs hd htail ih =>
    cases h' with
    | nil => exact ⟨d :: ds, by simp [common], .cons hd htail⟩
    | @cons e _ es _ he htail' =>
      obtain ⟨cs, hcs, hexp⟩ := ih htail'
      have hdim : ∃ c, commonDim d e = some c ∧ (c = 1 ∨ c = f) := by
        unfold commonDim
        split_ifs with heq hone hone'
        · exact ⟨d, rfl, hd⟩
        · exact ⟨e, rfl, he⟩
        · exact ⟨d, rfl, hd⟩
        · -- neither is `1`, so both are `f`
          exact absurd ((hd.resolve_left hone).trans (he.resolve_left hone').symm) heq
      obtain ⟨c, hc, hcf⟩ := hdim
      exact ⟨c :: cs, by simp [common, hc, hcs], .cons hcf hexp⟩

/-- The dimensions of an array, from the fastest one on. -/
@[ext] structure Dims where
  list : List ℕ

namespace Dims

/-- Dimensions are below those that they broadcast to. -/
instance : PartialOrder Dims where
  le ds es := Expands ds.list es.list
  le_refl ds := .refl ds.list
  le_trans _ _ _ h h' := h.trans h'
  le_antisymm _ _ h h' := Dims.ext (h.antisymm h')

/-- The dimensions that two lists of dimensions broadcast to. -/
def join (ds es : Dims) : Option Dims := (common ds.list es.list).map Dims.mk

/-- No dimensions at all broadcast to everything. -/
theorem nil_le (ds : Dims) : ⟨[]⟩ ≤ ds := Expands.nil ds.list

end Dims

/-- The common dimensions are the least ones that both lists broadcast to. -/
theorem isJoin_common : PartialJoin.IsJoin Dims.join where
  isLUB := by
    intro ds es cs h
    obtain ⟨list, hlist, rfl⟩ := Option.map_eq_some_iff.mp h
    obtain ⟨hds, hes⟩ := expands_of_common hlist
    constructor
    · rintro x (rfl | rfl)
      · exact hds
      · exact hes
    · intro u hu
      have hdu : ds ≤ u := hu (by simp)
      have heu : es ≤ u := hu (by simp)
      obtain ⟨list', hlist', hle⟩ := expands_common hdu heu
      obtain rfl := Option.some.inj (hlist.symm.trans hlist')
      exact hle
  defined := by
    intro ds es u hds hes
    obtain ⟨list, hlist, -⟩ := expands_common hds hes
    exact ⟨⟨list⟩, by simp [Dims.join, hlist]⟩

end Broadcast
