import MetalNative.Core.Layout
import MetalNative.Lib.PartialJoin

namespace MetalNative

/-!
# The laws of `broadcast_with`

* `MNShape.ExpandsTo` — every dimension, counted from the trailing one on, is `1` or that of the
  other shape; `expandsTo_iff` is the order of `Broadcast.Dims`.
* `MNShape.broadcastWith_eq_ok_iff` — `broadcast_with` is the join of that order.
* `broadcast_laws` — it is a partial commutative monoid, and its results are least.
-/

open Broadcast (Dims Expands)

namespace MNShape

/-- A shape can be expanded to another one: it has no more dimensions, and from the trailing one on
    each of them is `1` or the same. -/
def ExpandsTo (shape other : MNShape) : Prop :=
  shape.length ≤ other.length ∧
    ∀ i < shape.length, shape.reverse[i]? = some 1 ∨ shape.reverse[i]? = other.reverse[i]?

/-- The dimensions from the trailing one on. -/
def dimsOf (shape : MNShape) : Dims := ⟨shape.bounds.reverse⟩

/-- The shape of some dimensions. -/
def ofDims (ds : Dims) : MNShape := ds.list.reverse.map Nat.cast

variable {a b c r : MNShape}

theorem dimsOf_ofDims (ds : Dims) : (ofDims ds).dimsOf = ds := by
  ext1
  simp only [dimsOf, ofDims, bounds_map_natCast, List.reverse_reverse]

theorem ofDims_dimsOf (h : ∀ d ∈ a, 0 ≤ d) : ofDims a.dimsOf = a := by
  simp only [dimsOf, ofDims, List.reverse_reverse]
  exact (eq_map_bounds h).symm

theorem nonneg_ofDims (ds : Dims) : ∀ d ∈ ofDims ds, 0 ≤ d := by
  simp [ofDims]

theorem reverse_ofDims (ds : Dims) : (ofDims ds).reverse = ds.list.map Nat.cast := by
  simp [ofDims]

/-- The order of the dimensions. -/
theorem expandsTo_ofDims {ds es : Dims} : (ofDims ds).ExpandsTo (ofDims es) ↔ ds ≤ es := by
  show _ ↔ Expands ds.list es.list
  rw [Broadcast.expands_iff_getElem?, ExpandsTo, reverse_ofDims, reverse_ofDims]
  simp only [ofDims, List.length_map, List.length_reverse, List.getElem?_map]
  apply and_congr_right
  intro hlen
  apply forall₂_congr
  intro i hi
  have hi' : i < es.list.length := by omega
  simp only [List.getElem?_eq_getElem hi, List.getElem?_eq_getElem hi', Option.map_some,
    Option.some.injEq, Nat.cast_eq_one, Nat.cast_inj]

theorem expandsTo_iff (ha : ∀ d ∈ a, 0 ≤ d) (hb : ∀ d ∈ b, 0 ≤ d) :
    a.ExpandsTo b ↔ a.dimsOf ≤ b.dimsOf := by
  rw [← expandsTo_ofDims, ofDims_dimsOf ha, ofDims_dimsOf hb]

/-- `broadcast_with` is the join. -/
theorem broadcastWith_ofDims (ds es : Dims) :
    (∀ r, broadcastWith (ofDims ds) (ofDims es) = .ok r ↔ (ds.join es).map ofDims = some r) := by
  intro r
  unfold broadcastWith Dims.join
  rw [reverse_ofDims, reverse_ofDims, Broadcast.common_natCast]
  cases Broadcast.common ds.list es.list with
  | none => simp
  | some cs => simp [ofDims]

theorem broadcastWith_eq_ok_iff (ha : ∀ d ∈ a, 0 ≤ d) (hb : ∀ d ∈ b, 0 ≤ d) :
    a.broadcastWith b = .ok r ↔ (a.dimsOf.join b.dimsOf).map ofDims = some r := by
  rw [← broadcastWith_ofDims, ofDims_dimsOf ha, ofDims_dimsOf hb]

/-- A result has no negative dimension. -/
theorem nonneg_of_broadcastWith (ha : ∀ d ∈ a, 0 ≤ d) (hb : ∀ d ∈ b, 0 ≤ d)
    (h : a.broadcastWith b = .ok r) : ∀ d ∈ r, 0 ≤ d := by
  obtain ⟨cs, -, rfl⟩ := Option.map_eq_some_iff.mp ((broadcastWith_eq_ok_iff ha hb).mp h)
  exact nonneg_ofDims cs

/-- A chain of two calls is a chain of two joins. -/
theorem bind_broadcastWith (ha : ∀ d ∈ a, 0 ≤ d) (hb : ∀ d ∈ b, 0 ≤ d) (hc : ∀ d ∈ c, 0 ≤ d) :
    (a.broadcastWith b >>= fun s => s.broadcastWith c) = .ok r ↔
      ((a.dimsOf.join b.dimsOf).bind fun ds => ds.join c.dimsOf).map ofDims = some r := by
  rw [bind_eq_ok, Option.map_eq_some_iff]
  simp only [Option.bind_eq_some_iff]
  constructor
  · rintro ⟨s, hs, hr⟩
    have hs' := nonneg_of_broadcastWith ha hb hs
    obtain ⟨ds, hds, rfl⟩ := Option.map_eq_some_iff.mp ((broadcastWith_eq_ok_iff ha hb).mp hs)
    rw [broadcastWith_eq_ok_iff hs' hc, dimsOf_ofDims] at hr
    obtain ⟨es, hes, rfl⟩ := Option.map_eq_some_iff.mp hr
    exact ⟨es, ⟨ds, hds, hes⟩, rfl⟩
  · rintro ⟨es, ⟨ds, hds, hes⟩, rfl⟩
    refine ⟨ofDims ds, (broadcastWith_eq_ok_iff ha hb).mpr (by rw [hds]; rfl), ?_⟩
    rw [broadcastWith_eq_ok_iff (nonneg_ofDims ds) hc, dimsOf_ofDims, hes]
    rfl

end MNShape

open MNShape in
/-- **Broadcasting** is a partial commutative monoid with the empty shape as its unit, every shape
    is its own square, and a result is the least shape that both operands expand to. -/
theorem broadcast_laws {a b c : MNShape} (ha : ∀ d ∈ a, 0 ≤ d) (hb : ∀ d ∈ b, 0 ≤ d)
    (hc : ∀ d ∈ c, 0 ≤ d) :
    (∀ r, a.broadcastWith b = .ok r ↔ b.broadcastWith a = .ok r) ∧
    (∀ r, (a.broadcastWith b >>= fun s => s.broadcastWith c) = .ok r ↔
      (b.broadcastWith c >>= fun s => a.broadcastWith s) = .ok r) ∧
    a.broadcastWith [] = .ok a ∧ broadcastWith [] a = .ok a ∧ a.broadcastWith a = .ok a ∧
    ∀ r, a.broadcastWith b = .ok r → a.ExpandsTo r ∧ b.ExpandsTo r ∧
      ∀ s : MNShape, (∀ d ∈ s, 0 ≤ d) → a.ExpandsTo s → b.ExpandsTo s → r.ExpandsTo s := by
  have hjoin := Broadcast.isJoin_common
  have hnil : ∀ d ∈ ([] : MNShape), 0 ≤ d := by simp
  have hcomm : ∀ x y : MNShape, (∀ d ∈ x, 0 ≤ d) → (∀ d ∈ y, 0 ≤ d) → ∀ r,
      x.broadcastWith y = .ok r ↔ y.broadcastWith x = .ok r := by
    intro x y hx hy r
    rw [broadcastWith_eq_ok_iff hx hy, broadcastWith_eq_ok_iff hy hx, hjoin.comm]
  have hunit : a.broadcastWith [] = .ok a := by
    have hbot : a.dimsOf.join (dimsOf []) = some a.dimsOf := hjoin.bot Dims.nil_le a.dimsOf
    rw [broadcastWith_eq_ok_iff ha hnil, hbot, Option.map_some, ofDims_dimsOf ha]
  refine ⟨hcomm a b ha hb, ?_, hunit, (hcomm a [] ha hnil a).mp hunit, ?_, ?_⟩
  · intro r
    -- the second operand of the outer call is brought to the front
    have hflip : (b.broadcastWith c >>= fun s => a.broadcastWith s) = .ok r ↔
        (b.broadcastWith c >>= fun s => s.broadcastWith a) = .ok r := by
      rw [bind_eq_ok, bind_eq_ok]
      apply exists_congr
      intro s
      apply and_congr_right
      intro hs
      exact hcomm a s ha (nonneg_of_broadcastWith hb hc hs) r
    rw [hflip, bind_broadcastWith ha hb hc, bind_broadcastWith hb hc ha, hjoin.assoc]
    simp only [hjoin.comm a.dimsOf]
  · rw [broadcastWith_eq_ok_iff ha ha, hjoin.self, Option.map_some, ofDims_dimsOf ha]
  · intro r hr
    have hr' := nonneg_of_broadcastWith ha hb hr
    obtain ⟨cs, hcs, rfl⟩ := Option.map_eq_some_iff.mp ((broadcastWith_eq_ok_iff ha hb).mp hr)
    have hlub := hjoin.isLUB hcs
    rw [expandsTo_iff ha hr', expandsTo_iff hb hr', dimsOf_ofDims]
    refine ⟨hlub.1 (by simp), hlub.1 (by simp), fun s hs has hbs => ?_⟩
    rw [expandsTo_iff ha hs] at has
    rw [expandsTo_iff hb hs] at hbs
    rw [expandsTo_iff hr' hs, dimsOf_ofDims]
    exact hlub.2 (by rintro x (rfl | rfl); exacts [has, hbs])

/-- Shapes of different ranks, with a dimension of size zero. -/
theorem broadcast_laws_ranks :
    MNShape.broadcastWith [1, 0, 4] [3, 1, 1] = .ok [3, 0, 4] ∧
      (∀ s : MNShape, (∀ d ∈ s, 0 ≤ d) → MNShape.ExpandsTo [1, 0, 4] s →
        MNShape.ExpandsTo [3, 1, 1] s → MNShape.ExpandsTo [3, 0, 4] s) :=
  ⟨by decide, ((@broadcast_laws [1, 0, 4] [3, 1, 1] [4] (by decide) (by decide)
    (by decide)).2.2.2.2.2 [3, 0, 4] (by decide)).2.2⟩

end MetalNative
