import Mathlib.Algebra.Group.Nat.Defs
import Mathlib.Data.List.Perm.Basic
import Mathlib.Data.List.Range

/-!
# Reductions over the lanes of a SIMD group

The loop `for (offset = 16; offset > 0; offset /= 2)` in which a lane takes the value of the lane
`offset` above it by `simd_shuffle_down` and combines it with its own.  A lane below `offset` whose
partner is below `limit` does so.

* `shuffleReduce_spec` — when every lane holds a value for a list of items, lane 0 ends with a value
  for the items of all lanes, in some order.
-/

namespace ShuffleReduce

variable {β ι : Type*}

/-- One turn of the loop. -/
def shuffleStep (op : β → β → β) (limit offset : ℕ) (value : ℕ → β) : ℕ → β := fun lane =>
  if lane < offset ∧ lane + offset < limit then op (value lane) (value (lane + offset))
  else value lane

/-- The loop over `offset = 2 ^ (k - 1), …, 2, 1`. -/
def shuffleReduce (op : β → β → β) (limit : ℕ) : ℕ → (ℕ → β) → ℕ → β
  | 0, value => value
  | k + 1, value => shuffleReduce op limit k (shuffleStep op limit (2 ^ k) value)

/-- The items of a lane after one turn. -/
def stepItems (limit offset : ℕ) (items : ℕ → List ι) : ℕ → List ι := fun lane =>
  items lane ++ if lane + offset < limit then items (lane + offset) else []

/-- **One turn keeps the items** of the lanes below `limit`. -/
theorem stepItems_perm (limit offset : ℕ) (items : ℕ → List ι) :
    ((List.range (min offset limit)).flatMap (stepItems limit offset items)).Perm
      ((List.range (min (2 * offset) limit)).flatMap items) := by
  by_cases hlimit : limit ≤ offset
  · -- no lane has a partner
    have hmin : min offset limit = min (2 * offset) limit := by omega
    rw [hmin]
    apply List.Perm.of_eq
    apply List.flatMap_congr
    intro lane _
    rw [stepItems, if_neg (by omega), List.append_nil]
  · obtain ⟨m, hm⟩ := Nat.exists_eq_add_of_le (show offset ≤ min (2 * offset) limit by omega)
    obtain ⟨rest, hrest⟩ := Nat.exists_eq_add_of_le (show m ≤ offset by omega)
    have hmin : min offset limit = offset := by omega
    have hupper : (List.range offset).flatMap
          (fun lane => if lane + offset < limit then items (lane + offset) else [])
        = (List.range m).flatMap fun lane => items (offset + lane) := by
      have hin : (List.range m).flatMap
            (fun lane => if lane + offset < limit then items (lane + offset) else [])
          = (List.range m).flatMap fun lane => items (offset + lane) := by
        apply List.flatMap_congr
        intro lane hlane
        have hlt := List.mem_range.mp hlane
        rw [if_pos (by omega), Nat.add_comm]
      have hout : (((List.range rest).map (m + ·)).flatMap
          fun lane => if lane + offset < limit then items (lane + offset) else []) = [] := by
        rw [List.flatMap_eq_nil_iff]
        intro lane hlane
        obtain ⟨j, hj, rfl⟩ := List.mem_map.mp hlane
        have hlt := List.mem_range.mp hj
        exact if_neg (by omega)
      calc (List.range offset).flatMap
            (fun lane => if lane + offset < limit then items (lane + offset) else [])
          = (List.range (m + rest)).flatMap
            (fun lane => if lane + offset < limit then items (lane + offset) else []) := by
            rw [← hrest]
        _ = (List.range m).flatMap fun lane => items (offset + lane) := by
            rw [List.range_add, List.flatMap_append, hin, hout, List.append_nil]
    rw [hmin, hm, List.range_add, List.flatMap_append, List.flatMap_map, ← hupper]
    exact (List.flatMap_append_perm _ _ _).symm

variable {R : β → List ι → Prop} {op : β → β → β}

/-- **The reduction.** `R a l` says that `a` is a value for the items `l`; `op` combines two of
them. -/
theorem shuffleReduce_spec (hop : ∀ a b l l', R a l → R b l' → R (op a b) (l ++ l')) (limit : ℕ) :
    ∀ (k : ℕ) (value : ℕ → β) (items : ℕ → List ι), 0 < limit →
      (∀ lane < min (2 ^ k) limit, R (value lane) (items lane)) →
      ∃ l, l.Perm ((List.range (min (2 ^ k) limit)).flatMap items) ∧
        R (shuffleReduce op limit k value 0) l := by
  intro k
  induction k with
  | zero =>
    intro value items hlimit hvalue
    have hmin : min (2 ^ 0) limit = 1 := by
      rw [Nat.pow_zero]
      omega
    refine ⟨items 0, ?_, hvalue 0 (by omega)⟩
    rw [hmin]
    simp
  | succ k ih =>
    intro value items hlimit hvalue
    have hpow : 2 ^ (k + 1) = 2 * 2 ^ k := by rw [Nat.pow_succ, Nat.mul_comm]
    have hstep : ∀ lane < min (2 ^ k) limit,
        R (shuffleStep op limit (2 ^ k) value lane) (stepItems limit (2 ^ k) items lane) := by
      intro lane hlane
      unfold shuffleStep stepItems
      by_cases hpartner : lane + 2 ^ k < limit
      · rw [if_pos ⟨by omega, hpartner⟩, if_pos hpartner]
        exact hop _ _ _ _ (hvalue lane (by omega)) (hvalue _ (by omega))
      · rw [if_neg fun h => hpartner h.2, if_neg hpartner, List.append_nil]
        exact hvalue lane (by omega)
    obtain ⟨l, hl, hR⟩ := ih _ _ hlimit hstep
    refine ⟨l, ?_, hR⟩
    rw [hpow]
    exact hl.trans (stepItems_perm limit (2 ^ k) items)

end ShuffleReduce
