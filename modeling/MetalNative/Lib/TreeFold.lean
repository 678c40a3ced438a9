import MetalNative.Lib.ExtReal
import MetalNative.Lib.ThreadLoop

/-!
# Folds that are taken in parts

Threads that reduce a list of items fold their own items first, then the lanes of a SIMD group are
combined, then the SIMD groups.  A `Summary` is a value for every list of items that the operation
puts together; it does not depend on the order.

* `Summary.foldl_eq`, `Summary.foldr_eq` — the loop of a thread, and the values of several threads.
* `Summary.groups_eq` — the values of all lanes, group by group.
* `sumSummary` — the sums of numbers.
-/

namespace TreeFold

variable {β ι : Type*}

/-- The values of lists of items; `f` is the value of one item. -/
structure Summary (op : β → β → β) (start : β) (f : ι → β) where
  value : List ι → β
  nil : value [] = start
  singleton : ∀ i, value [i] = f i
  append : ∀ l l', op (value l) (value l') = value (l ++ l')
  perm : ∀ {l l'}, l.Perm l' → value l = value l'

namespace Summary

variable {op : β → β → β} {start : β} {f : ι → β} (S : Summary op start f)

include S

/-- One item after the other. -/
theorem foldl_eq (l : List ι) : l.foldl (fun a i => op a (f i)) start = S.value l := by
  have hloop : ∀ seen, l.foldl (fun a i => op a (f i)) (S.value seen) = S.value (seen ++ l) := by
    induction l with
    | nil => simp
    | cons i l ih =>
      intro seen
      rw [List.foldl_cons, ← S.singleton, S.append, ih, List.append_assoc, List.singleton_append]
  simpa only [S.nil, List.nil_append] using hloop []

/-- Several items in each turn. -/
theorem foldl_flatMap_eq {κ : Type*} (l : List κ) (items : κ → List ι) :
    l.foldl (fun a k => op a (S.value (items k))) start = S.value (l.flatMap items) := by
  have hloop : ∀ seen, l.foldl (fun a k => op a (S.value (items k))) (S.value seen)
      = S.value (seen ++ l.flatMap items) := by
    induction l with
    | nil => simp
    | cons k l ih =>
      intro seen
      rw [List.foldl_cons, S.append, ih, List.flatMap_cons, List.append_assoc]
  simpa only [S.nil, List.nil_append] using hloop []

/-- The values of several threads. -/
theorem foldr_eq {κ : Type*} (l : List κ) (items : κ → List ι) :
    (l.map fun k => S.value (items k)).foldr op start = S.value (l.flatMap items) := by
  induction l with
  | nil => simp [S.nil]
  | cons k l ih => rw [List.map_cons, List.foldr_cons, ih, S.append, List.flatMap_cons]

/-- The lanes of each group, and then the groups. -/
theorem groups_eq (lanes groups : ℕ) (items : ℕ → List ι) :
    ((List.range groups).map fun g =>
        ((List.range lanes).map fun lane => S.value (items (lanes * g + lane))).foldr op
          start).foldr
          op start
      = S.value ((List.range (lanes * groups)).flatMap items) := by
  simp only [S.foldr_eq]
  rw [ThreadLoop.flatMap_range_mul]

end Summary

open ExtReal in
/-- Sums of numbers. -/
noncomputable def sumSummary (y : ι → ℝ) :
    Summary (fun a b : ExtReal => a + b) (real 0) (fun r => real (y r)) where
  value := fun l => real (l.map y).sum
  nil := rfl
  singleton := by simp
  append := by simp
  perm := fun h => congrArg real (h.map y).sum_eq

end TreeFold
