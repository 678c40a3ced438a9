import Mathlib.Data.Finset.Card

namespace TopoSort

/-!
# Topological sort by depth-first search

`lookup i` says what the search sees of node `i`: nothing when it is missing, otherwise whether it
is finished and what its inputs are.  `dfs` is the recursive search with the set of visited nodes,
the nodes on the stack and the order built so far; it stops at the first missing node or cycle.

* `Ordered` — every node of a list comes after the inputs it still needs.
* `dfs_spec` — in a closed graph with a rank the search succeeds and appends what `i` pulls in.
* `sort_spec` — the order for a target: exactly the unfinished nodes the target pulls in, each
  once and after its inputs.
-/

/-- The state of the search. -/
structure Search (ι : Type*) where
  visited : List ι := []
  inStack : List ι := []
  order : List ι := []

variable {ι : Type*}

/-- Visit some nodes in turn, up to the first failure. -/
def visitAll (visit : ι → Search ι → Bool × Search ι) : List ι → Search ι → Bool × Search ι
  | [], s => (true, s)
  | i :: is, s =>
    match visit i s with
    | (true, s) => visitAll visit is s
    | (false, s) => (false, s)

/-- The search from node `i`; the answer is `false` for a missing node or a cycle. -/
def dfs [DecidableEq ι] (lookup : ι → Option (Bool × List ι)) :
    ℕ → ι → Search ι → Bool × Search ι
  | 0, _, s => (false, s)
  | fuel + 1, i, s =>
    if i ∈ s.visited then (true, s)
    else if i ∈ s.inStack then (false, s)
    else
      let s := { s with inStack := i :: s.inStack }
      match lookup i with
      | none => (false, s)
      | some (true, _) =>
        (true, { s with visited := i :: s.visited, inStack := s.inStack.erase i })
      | some (false, inputs) =>
        match visitAll (dfs lookup fuel) inputs s with
        | (false, s) => (false, s)
        | (true, s) =>
          (true,
            { visited := i :: s.visited
              inStack := s.inStack.erase i
              order := s.order ++ [i] })

section Spec

variable (lookup : ι → Option (Bool × List ι))

/-- Node `i` is present and not finished. -/
def Unfinished (i : ι) : Prop := ∃ inputs, lookup i = some (false, inputs)

/-- Unfinished node `i` needs its input `j`. -/
def Pulls (i j : ι) : Prop := ∃ inputs, lookup i = some (false, inputs) ∧ j ∈ inputs

/-- Every node comes after the inputs it still needs. -/
def Ordered (order : List ι) : Prop :=
  ∀ l₁ i l₂, order = l₁ ++ i :: l₂ → ∀ j, Pulls lookup i j → Unfinished lookup j → j ∈ l₁

/-- Every input of an unfinished node is present and has a smaller rank. -/
structure Ranked (rank : ι → ℕ) : Prop where
  present : ∀ i j, Pulls lookup i j → (lookup j).isSome
  lt : ∀ i j, Pulls lookup i j → rank j < rank i

variable {lookup} {rank : ι → ℕ}

/-- What a node pulls in has no larger rank. -/
theorem Ranked.le_of_path (h : Ranked lookup rank) {i j : ι}
    (hij : Relation.ReflTransGen (Pulls lookup) i j) : rank j ≤ rank i := by
  induction hij with
  | refl => exact le_rfl
  | tail _ hstep ih => exact (h.lt _ _ hstep).le.trans ih

theorem ordered_nil : Ordered lookup [] := by
  intro l₁ i l₂ h
  simp at h

/-- A node whose inputs are all there may come next. -/
theorem Ordered.snoc {order : List ι} {i : ι} (h : Ordered lookup order)
    (hi : ∀ j, Pulls lookup i j → Unfinished lookup j → j ∈ order) :
    Ordered lookup (order ++ [i]) := by
  intro l₁ k l₂ heq j hj hopen
  rcases List.eq_nil_or_concat l₂ with rfl | ⟨l₂, x, rfl⟩
  · obtain ⟨rfl, hk⟩ := List.append_inj' heq rfl
    obtain rfl : i = k := by simpa using hk
    exact hi j hj hopen
  · have heq' : order ++ [i] = (l₁ ++ k :: l₂) ++ [x] := by simpa using heq
    obtain ⟨horder, -⟩ := List.append_inj' heq' rfl
    exact h l₁ k l₂ horder j hj hopen

/-- The input of a node that was put in order was put there before. -/
theorem Ordered.mem_of_pulls {order : List ι} (h : Ordered lookup order) {i j : ι}
    (hi : i ∈ order) (hj : Pulls lookup i j) (hopen : Unfinished lookup j) : j ∈ order := by
  obtain ⟨l₁, l₂, rfl⟩ := List.append_of_mem hi
  exact List.mem_append_left _ (h l₁ i l₂ rfl j hj hopen)

/-- What the search keeps true of its state. -/
structure Good (lookup : ι → Option (Bool × List ι)) (s : Search ι) : Prop where
  visited : ∀ i ∈ s.visited, Unfinished lookup i → i ∈ s.order
  unfinished : ∀ i ∈ s.order, Unfinished lookup i
  marked : s.order ⊆ s.visited
  nodup : s.order.Nodup
  ordered : Ordered lookup s.order

/-- What a successful visit of `is` does to the state. -/
structure Visits (lookup : ι → Option (Bool × List ι)) (is : List ι) (s s' : Search ι) : Prop where
  good : Good lookup s'
  inStack : s'.inStack = s.inStack
  visited : s.visited ⊆ s'.visited
  done : is ⊆ s'.visited
  grows : ∃ new, s'.order = s.order ++ new ∧
    ∀ k ∈ new, ∃ i ∈ is, Relation.ReflTransGen (Pulls lookup) i k

/-- Visiting a list of nodes, each of which can be visited. -/
theorem visitAll_spec {visit : ι → Search ι → Bool × Search ι} (P : Search ι → Prop)
    (hP : ∀ is s s', P s → Visits lookup is s s' → P s') :
    ∀ (is : List ι),
      (∀ i ∈ is, ∀ s, P s → Good lookup s → ∃ s', visit i s = (true, s') ∧ Visits lookup [i] s s') →
      ∀ s, P s → Good lookup s →
        ∃ s', visitAll visit is s = (true, s') ∧ Visits lookup is s s' := by
  intro is
  induction is with
  | nil =>
    intro _ s _ hs
    exact ⟨s, rfl, hs, rfl, List.Subset.refl _, List.nil_subset _, [], by simp, by simp⟩
  | cons i is ih =>
    intro hvisit s hp hs
    obtain ⟨s₁, h₁, hv₁⟩ := hvisit i List.mem_cons_self s hp hs
    obtain ⟨s₂, h₂, hv₂⟩ :=
      ih (fun k hk => hvisit k (List.mem_cons_of_mem _ hk)) s₁ (hP _ _ _ hp hv₁) hv₁.good
    refine ⟨s₂, by rw [visitAll, h₁]; exact h₂, hv₂.good, hv₂.inStack.trans hv₁.inStack,
      fun x hx => hv₂.visited (hv₁.visited hx), ?_, ?_⟩
    · intro x hx
      rcases List.mem_cons.mp hx with rfl | hx
      · exact hv₂.visited (hv₁.done List.mem_cons_self)
      · exact hv₂.done hx
    · obtain ⟨new₁, heq₁, hnew₁⟩ := hv₁.grows
      obtain ⟨new₂, heq₂, hnew₂⟩ := hv₂.grows
      refine ⟨new₁ ++ new₂, by rw [heq₂, heq₁, List.append_assoc], ?_⟩
      intro k hk
      rcases List.mem_append.mp hk with hk | hk
      · obtain ⟨j, hj, hpath⟩ := hnew₁ k hk
        exact ⟨j, List.mem_cons.mpr (.inl (List.mem_singleton.mp hj)), hpath⟩
      · obtain ⟨j, hj, hpath⟩ := hnew₂ k hk
        exact ⟨j, List.mem_cons_of_mem _ hj, hpath⟩

variable [DecidableEq ι]

/-- **The search succeeds** where the graph is closed and ranked, with as much fuel as there are
    nodes off the stack. -/
theorem dfs_spec (hrank : Ranked lookup rank) {keys : Finset ι}
    (hkeys : ∀ i, (lookup i).isSome → i ∈ keys) :
    ∀ (fuel : ℕ) (i : ι) (s : Search ι), (lookup i).isSome → Good lookup s →
      (∀ k ∈ s.inStack, rank i < rank k) → (keys \ s.inStack.toFinset).card < fuel →
      ∃ s', dfs lookup fuel i s = (true, s') ∧ Visits lookup [i] s s' := by
  intro fuel
  induction fuel with
  | zero => intro i s _ _ _ hfuel; exact absurd hfuel (Nat.not_lt_zero _)
  | succ fuel ih =>
    intro i s hi hs hstack hfuel
    rw [dfs]
    by_cases hvis : i ∈ s.visited
    · exact ⟨s, if_pos hvis, hs, rfl, List.Subset.refl _, by simpa using hvis, [], by simp,
        by simp⟩
    have hnot : i ∉ s.inStack := fun h => lt_irrefl _ (hstack i h)
    rw [if_neg hvis, if_neg hnot]
    obtain ⟨⟨fin, inputs⟩, hlook⟩ := Option.isSome_iff_exists.mp hi
    cases fin with
    | true =>
      -- a finished node is marked and nothing else happens
      have hfinished : ¬ Unfinished lookup i := by
        rintro ⟨ins, h⟩
        rw [hlook] at h
        cases h
      refine ⟨{ s with visited := i :: s.visited }, by simp [hlook], ?_, rfl,
        List.subset_cons_self _ _, by simp, [], by simp, by simp⟩
      refine ⟨?_, hs.unfinished, fun x hx => List.mem_cons_of_mem _ (hs.marked hx), hs.nodup,
        hs.ordered⟩
      intro k hk hopen
      rcases List.mem_cons.mp hk with rfl | hk
      · exact absurd hopen hfinished
      · exact hs.visited k hk hopen
    | false =>
      have hopen : Unfinished lookup i := ⟨inputs, hlook⟩
      have hpulls : ∀ j ∈ inputs, Pulls lookup i j := fun j hj => ⟨inputs, hlook, hj⟩
      -- the nodes below `i` are visited with `i` on the stack
      have hvisit : ∀ j ∈ inputs, ∀ u : Search ι, u.inStack = i :: s.inStack → Good lookup u →
          ∃ u', dfs lookup fuel j u = (true, u') ∧ Visits lookup [j] u u' := by
        intro j hj u hu hgood
        refine ih j u (hrank.present i j (hpulls j hj)) hgood ?_ ?_
        · intro k hk
          rw [hu] at hk
          have hlt := hrank.lt i j (hpulls j hj)
          rcases List.mem_cons.mp hk with rfl | hk
          · exact hlt
          · exact hlt.trans (hstack k hk)
        · rw [hu]
          have hsub : keys \ (i :: s.inStack).toFinset ⊂ keys \ s.inStack.toFinset := by
            refine Finset.ssubset_iff_of_subset ?_ |>.mpr ⟨i, ?_, ?_⟩
            · exact Finset.sdiff_subset_sdiff (Finset.Subset.refl _) (by simp)
            · simp [hkeys i hi, hnot]
            · simp
          have := Finset.card_lt_card hsub
          omega
      obtain ⟨u, hu, hv⟩ := visitAll_spec (fun u => u.inStack = i :: s.inStack)
        (fun is u u' h hv => hv.inStack.trans h) inputs hvisit
        { s with inStack := i :: s.inStack } rfl
        ⟨hs.visited, hs.unfinished, hs.marked, hs.nodup, hs.ordered⟩
      have hinputs : ∀ j, Pulls lookup i j → Unfinished lookup j → j ∈ u.order := by
        rintro j ⟨ins, hins, hj⟩ hopenj
        rw [hlook] at hins
        obtain rfl : inputs = ins := by simpa using hins
        exact hv.good.visited j (hv.done hj) hopenj
      obtain ⟨new, hnew, hpath⟩ := hv.grows
      -- `i` itself is not pulled in by its inputs
      have hfresh : i ∉ u.order := by
        rw [hnew, List.mem_append]
        rintro (h | h)
        · exact hvis (hs.marked h)
        · obtain ⟨j, hj, hji⟩ := hpath i h
          exact absurd (hrank.lt i j (hpulls j hj)) (not_lt.mpr (hrank.le_of_path hji))
      refine ⟨{ visited := i :: u.visited, inStack := u.inStack.erase i, order := u.order ++ [i] },
        by simp only [hlook, hu], ?_, ?_, ?_, by simp, ?_⟩
      · refine ⟨?_, ?_, ?_, ?_, hv.good.ordered.snoc hinputs⟩
        · intro k hk hopenk
          rcases List.mem_cons.mp hk with rfl | hk
          · simp
          · exact List.mem_append_left _ (hv.good.visited k hk hopenk)
        · intro k hk
          rcases List.mem_append.mp hk with hk | hk
          · exact hv.good.unfinished k hk
          · rw [List.mem_singleton.mp hk]
            exact hopen
        · intro k hk
          rcases List.mem_append.mp hk with hk | hk
          · exact List.mem_cons_of_mem _ (hv.good.marked hk)
          · rw [List.mem_singleton.mp hk]
            exact List.mem_cons_self
        · refine List.nodup_append.mpr ⟨hv.good.nodup, List.nodup_singleton i, ?_⟩
          intro a ha b hb
          rw [List.mem_singleton.mp hb]
          rintro rfl
          exact hfresh ha
      · show u.inStack.erase i = s.inStack
        rw [hv.inStack]
        exact List.erase_cons_head ..
      · exact fun x hx => List.mem_cons_of_mem _ (hv.visited hx)
      · refine ⟨new ++ [i], by show u.order ++ [i] = _; rw [hnew, List.append_assoc], ?_⟩
        intro k hk
        refine ⟨i, List.mem_singleton_self i, ?_⟩
        rcases List.mem_append.mp hk with hk | hk
        · obtain ⟨j, hj, hjk⟩ := hpath k hk
          exact .head (hpulls j hj) hjk
        · rw [List.mem_singleton.mp hk]

/-- **The order for a target**: the unfinished nodes it pulls in, each once and after the inputs
    that it needs. -/
theorem sort_spec (hrank : Ranked lookup rank) {keys : Finset ι}
    (hkeys : ∀ i, (lookup i).isSome → i ∈ keys) {target : ι} (ht : (lookup target).isSome)
    {fuel : ℕ} (hfuel : keys.card < fuel) :
    ∃ s, dfs lookup fuel target {} = (true, s) ∧ s.order.Nodup ∧ Ordered lookup s.order ∧
      ∀ k, k ∈ s.order ↔ Unfinished lookup k ∧ Relation.ReflTransGen (Pulls lookup) target k := by
  have hgood : Good lookup ({} : Search ι) :=
    ⟨by simp, by simp, List.nil_subset _, List.nodup_nil, ordered_nil⟩
  obtain ⟨s, hs, hv⟩ := dfs_spec hrank hkeys fuel target {} ht hgood (fun _ h => nomatch h)
    (lt_of_le_of_lt (Finset.card_le_card Finset.sdiff_subset) hfuel)
  refine ⟨s, hs, hv.good.nodup, hv.good.ordered, fun k => ⟨fun hk => ?_, ?_⟩⟩
  · obtain ⟨new, hnew, hpath⟩ := hv.grows
    have hk' : k ∈ new := by simpa [hnew] using hk
    obtain ⟨i, hi, hik⟩ := hpath k hk'
    rw [List.mem_singleton.mp hi] at hik
    exact ⟨hv.good.unfinished k hk, hik⟩
  · rintro ⟨hopen, hpath⟩
    induction hpath with
    | refl => exact hv.good.visited target (hv.done List.mem_cons_self) hopen
    | tail _ hstep ih =>
      -- a node that pulls something is unfinished itself
      have hmid : Unfinished lookup _ := ⟨_, hstep.choose_spec.1⟩
      exact hv.good.ordered.mem_of_pulls (ih hmid) hstep hopen

end Spec

end TopoSort
