import Mathlib.Data.List.Nodup
import Mathlib.Logic.Relation

/-!
# The SIMD groups of a threadgroup

The groups of a threadgroup run their programs over one memory, an instruction at a time and in any
relative order.  A barrier is a place of the program text that all groups pass together: a group
that stands at it waits until every group stands at the same one.

* `Step`, `Reaches` — one step of a threadgroup, and its runs.
* `Always` — no run gets stuck, and every run that has ended has left the memory as wanted.
* `reaches_turns`, `reaches_barrier` — a run in which the groups take turns up to the next barrier.
* `runTurns_invariant`, `runTurns_cell` — what such a run leaves.
-/

namespace SimdGroups

variable {ι κ β σ : Type*}

/-- A program: its instructions, and its barriers by their place. -/
abbrev Program (κ β : Type*) := List (κ ⊕ β)

/-- Instructions without a barrier. -/
def code (is : List κ) : Program κ β := is.map Sum.inl

/-- What each group has still to execute, and the memory. -/
structure Config (ι κ β σ : Type*) where
  rest : ι → Program κ β
  mem : σ

section Steps

variable [DecidableEq ι]

/-- One group executes an instruction, or all of them pass a barrier. -/
inductive Step (exec : ι → κ → σ → σ) : Config ι κ β σ → Config ι κ β σ → Prop
  | instruction {c : Config ι κ β σ} {g : ι} {i : κ} {later : Program κ β}
      (h : c.rest g = .inl i :: later) :
      Step exec c ⟨Function.update c.rest g later, exec g i c.mem⟩
  | barrier {c : Config ι κ β σ} {b : β} {later : ι → Program κ β}
      (h : ∀ g, c.rest g = .inr b :: later g) : Step exec c ⟨later, c.mem⟩

/-- The runs. -/
abbrev Reaches (exec : ι → κ → σ → σ) : Config ι κ β σ → Config ι κ β σ → Prop :=
  Relation.ReflTransGen (Step exec)

/-- Every run of a threadgroup can go on until all groups have ended, and then the memory is as
wanted. -/
structure Always (exec : ι → κ → σ → σ) (c : Config ι κ β σ) (good : σ → Prop) : Prop where
  never_stuck : ∀ c', Reaches exec c c' → (∀ g, c'.rest g = []) ∨ ∃ c'', Step exec c' c''
  ends_good : ∀ t, Reaches exec c ⟨fun _ => [], t⟩ → good t

end Steps

/-! ### Taking turns -/

/-- One group executes its instructions. -/
def runGroup (exec : ι → κ → σ → σ) (g : ι) (is : List κ) (s : σ) : σ :=
  is.foldl (fun s i => exec g i s) s

/-- The groups of a list execute their instructions, one group after the other. -/
def runTurns (exec : ι → κ → σ → σ) (turn : ι → List κ) (order : List ι) (s : σ) : σ :=
  order.foldl (fun s g => runGroup exec g (turn g) s) s

variable {exec : ι → κ → σ → σ} {turn : ι → List κ} {s : σ}

@[simp] theorem runGroup_cons (exec : ι → κ → σ → σ) (g : ι) (i : κ) (is : List κ) (s : σ) :
    runGroup exec g (i :: is) s = runGroup exec g is (exec g i s) := rfl

@[simp] theorem runTurns_nil (exec : ι → κ → σ → σ) (turn : ι → List κ) (s : σ) :
    runTurns exec turn [] s = s := rfl

@[simp] theorem runTurns_cons (exec : ι → κ → σ → σ) (turn : ι → List κ) (g : ι) (order : List ι)
    (s : σ) :
    runTurns exec turn (g :: order) s
      = runTurns exec turn order (runGroup exec g (turn g) s) := rfl

theorem runTurns_append (exec : ι → κ → σ → σ) (turn : ι → List κ) (xs ys : List ι) (s : σ) :
    runTurns exec turn (xs ++ ys) s = runTurns exec turn ys (runTurns exec turn xs s) :=
  List.foldl_append

variable {P : σ → Prop}

/-- What every instruction of the group preserves. -/
theorem runGroup_invariant {g : ι} {is : List κ}
    (hstep : ∀ i ∈ is, ∀ s, P s → P (exec g i s)) (h : P s) : P (runGroup exec g is s) := by
  induction is generalizing s with
  | nil => exact h
  | cons i rest ih =>
    have hfirst := hstep i (List.mem_cons_self ..) s h
    exact ih (fun j hj => hstep j (List.mem_cons_of_mem _ hj)) hfirst

variable {order : List ι}

/-- What every instruction of the turns preserves. -/
theorem runTurns_invariant
    (hstep : ∀ g ∈ order, ∀ i ∈ turn g, ∀ s, P s → P (exec g i s)) (h : P s) :
    P (runTurns exec turn order s) := by
  induction order generalizing s with
  | nil => exact h
  | cons g rest ih =>
    have hfirst := runGroup_invariant (hstep g (List.mem_cons_self ..)) h
    exact ih (fun g' hg' => hstep g' (List.mem_cons_of_mem _ hg')) hfirst

/-- A cell that some instruction of the group sets to `v`, and none to anything else. -/
theorem runGroup_cell {α : Type*} (cell : σ → α) {v : α} {g : ι} {is : List κ}
    (hstep : ∀ i ∈ is, ∀ s, P s → P (exec g i s))
    (hkeep : ∀ i ∈ is, ∀ s, P s → cell s = v → cell (exec g i s) = v)
    (hset : ∃ i ∈ is, ∀ s, P s → cell (exec g i s) = v) (h : P s) :
    cell (runGroup exec g is s) = v := by
  induction is generalizing s with
  | nil =>
    obtain ⟨i, hi, -⟩ := hset
    exact absurd hi List.not_mem_nil
  | cons i rest ih =>
    have hP := hstep i (List.mem_cons_self ..) s h
    have hstep' : ∀ j ∈ rest, ∀ s, P s → P (exec g j s) :=
      fun j hj => hstep j (List.mem_cons_of_mem _ hj)
    have hkeep' : ∀ j ∈ rest, ∀ s, P s → cell s = v → cell (exec g j s) = v :=
      fun j hj => hkeep j (List.mem_cons_of_mem _ hj)
    rw [runGroup_cons]
    by_cases hrest : ∃ j ∈ rest, ∀ s, P s → cell (exec g j s) = v
    · exact ih hstep' hkeep' hrest hP
    · -- the first instruction sets the cell, and the others keep it
      obtain ⟨j, hj, hjset⟩ := hset
      rcases List.mem_cons.mp hj with rfl | hmem
      · refine (runGroup_invariant (P := fun s => P s ∧ cell s = v) ?_ ⟨hP, hjset s h⟩).2
        intro k hk s hs
        exact ⟨hstep' k hk s hs.1, hkeep' k hk s hs.1 hs.2⟩
      · exact absurd ⟨j, hmem, hjset⟩ hrest

/-- A cell that some group sets to `v`, and none to anything else. -/
theorem runTurns_cell {α : Type*} (cell : σ → α) {v : α} {g : ι}
    (hstep : ∀ g ∈ order, ∀ i ∈ turn g, ∀ s, P s → P (exec g i s))
    (hkeep : ∀ g ∈ order, ∀ i ∈ turn g, ∀ s, P s → cell s = v → cell (exec g i s) = v)
    (hg : g ∈ order) (hset : ∃ i ∈ turn g, ∀ s, P s → cell (exec g i s) = v) (h : P s) :
    cell (runTurns exec turn order s) = v := by
  obtain ⟨before, after, rfl⟩ := List.append_of_mem hg
  have hbefore : P (runTurns exec turn before s) :=
    runTurns_invariant (fun g' hg' => hstep g' (List.mem_append_left _ hg')) h
  have hmem : g ∈ before ++ g :: after := hg
  have hturn := runGroup_invariant (hstep g hmem) hbefore
  have hcell := runGroup_cell cell (hstep g hmem) (hkeep g hmem) hset hbefore
  rw [runTurns_append, runTurns_cons]
  refine (runTurns_invariant (P := fun s => P s ∧ cell s = v) ?_ ⟨hturn, hcell⟩).2
  intro g' hg' i hi s hs
  have hmem' : g' ∈ before ++ g :: after :=
    List.mem_append_right _ (List.mem_cons_of_mem _ hg')
  exact ⟨hstep g' hmem' i hi s hs.1, hkeep g' hmem' i hi s hs.1 hs.2⟩

/-! ### Runs in which the groups take turns -/

section Runs

variable [DecidableEq ι]

/-- A group executes the instructions up to its next barrier. -/
theorem reaches_group (exec : ι → κ → σ → σ) {rest : ι → Program κ β} {g : ι} {is : List κ}
    {later : Program κ β}
    (h : rest g = code is ++ later) :
    Reaches exec ⟨rest, s⟩ ⟨Function.update rest g later, runGroup exec g is s⟩ := by
  induction is generalizing rest s with
  | nil =>
    have hsame : Function.update rest g later = rest := by
      rw [show later = rest g from h.symm, Function.update_eq_self]
    rw [hsame]
    exact .refl
  | cons i is ih =>
    have hfirst : Step exec ⟨rest, s⟩ ⟨Function.update rest g (code is ++ later), exec g i s⟩ :=
      .instruction h
    have hothers : Reaches exec ⟨Function.update rest g (code is ++ later), exec g i s⟩
        ⟨Function.update (Function.update rest g (code is ++ later)) g later,
          runGroup exec g is (exec g i s)⟩ := ih (Function.update_self ..)
    rw [Function.update_idem] at hothers
    exact .head hfirst hothers

/-- The groups of a list take their turns. -/
theorem reaches_order (exec : ι → κ → σ → σ) {turn : ι → List κ} {rest later : ι → Program κ β}
    (hnodup : order.Nodup)
    (h : ∀ g ∈ order, rest g = code (turn g) ++ later g) :
    Reaches exec ⟨rest, s⟩
      ⟨fun g => if g ∈ order then later g else rest g, runTurns exec turn order s⟩ := by
  induction order generalizing rest s with
  | nil =>
    simp only [List.not_mem_nil, if_false, runTurns_nil]
    exact .refl
  | cons g order ih =>
    obtain ⟨hnot, hrest⟩ := List.nodup_cons.mp hnodup
    have hfirst := reaches_group exec (s := s) (h g (List.mem_cons_self ..))
    have hlater : ∀ g' ∈ order,
        Function.update rest g (later g) g' = code (turn g') ++ later g' := by
      intro g' hg'
      have hne : g' ≠ g := fun heq => hnot (heq ▸ hg')
      rw [Function.update_of_ne hne]
      exact h g' (List.mem_cons_of_mem _ hg')
    have hothers := ih (s := runGroup exec g (turn g) s) hrest hlater
    have hsame : (fun g' => if g' ∈ order then later g' else Function.update rest g (later g) g')
        = fun g' => if g' ∈ g :: order then later g' else rest g' := by
      ext g' : 1
      by_cases heq : g' = g
      · subst heq
        simp [hnot]
      · simp [heq]
    rw [hsame] at hothers
    exact hfirst.trans hothers

/-- All groups take their turns. -/
theorem reaches_turns (hnodup : order.Nodup) (hall : ∀ g, g ∈ order)
    (exec : ι → κ → σ → σ) (turn : ι → List κ) (later : ι → Program κ β) (s : σ) :
    Reaches exec ⟨fun g => code (turn g) ++ later g, s⟩ ⟨later, runTurns exec turn order s⟩ := by
  have hrun : Reaches exec ⟨fun g => code (turn g) ++ later g, s⟩
      ⟨fun g => if g ∈ order then later g else code (turn g) ++ later g,
        runTurns exec turn order s⟩ := reaches_order exec hnodup fun _ _ => rfl
  simpa [hall] using hrun

/-- All groups take their turns and pass the barrier. -/
theorem reaches_barrier (hnodup : order.Nodup) (hall : ∀ g, g ∈ order)
    (exec : ι → κ → σ → σ) (turn : ι → List κ) (b : β) (later : ι → Program κ β) (s : σ) :
    Reaches exec ⟨fun g => code (turn g) ++ .inr b :: later g, s⟩
      ⟨later, runTurns exec turn order s⟩ := by
  have hturns := reaches_turns hnodup hall exec turn (fun g => .inr b :: later g) s
  exact hturns.tail (.barrier fun _ => rfl)

end Runs

end SimdGroups
