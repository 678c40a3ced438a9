import Mathlib.Logic.Relation
import Mathlib.Data.List.Basic

namespace Run

/-!
# Runs of a labelled transition system

A system is a partial step function `step : σ → α → Option σ`: the label carries every choice
of the environment (which client moves, what it calls, whether an allocation succeeds), so a
run is a list of labels and a fixed schedule is a computation.

* `Runs step G s t` — `t` is reached from `s` by steps each of which met the guard `G` in the
  state it was taken from.  `G` is where a condition on the steps of a run lives.
* `Reaches` — runs under no guard.
* `Runs.invariant` — the induction rule: what holds at the start and is preserved by guarded
  steps holds at the end.
* `exec` — a fixed schedule, run; `reaches_exec` turns its result into a run.
* `along_iff_guardedAlong` — a condition on steps that is exact for one step is exact for a run.
-/

variable {σ α : Type*} {step : σ → α → Option σ} {G H : σ → α → Prop}

/-- `t` is reached from `s` by steps that each meet `G`. -/
inductive Runs (step : σ → α → Option σ) (G : σ → α → Prop) (s : σ) : σ → Prop
  | refl : Runs step G s s
  | tail {t u : σ} {a : α} : Runs step G s t → G t a → step t a = some u → Runs step G s u

/-- Runs with no condition on the steps. -/
abbrev Reaches (step : σ → α → Option σ) : σ → σ → Prop := Runs step (fun _ _ => True)

variable {P : σ → Prop} {s t : σ}

/-- **Invariant rule.**  A property of the first state that guarded steps preserve holds of the
    last state. -/
theorem Runs.invariant (h : Runs step G s t) (h0 : P s)
    (hstep : ∀ u a v, P u → G u a → step u a = some v → P v) : P t := by
  induction h with
  | refl => exact h0
  | tail _ hG hs ih => exact hstep _ _ _ ih hG hs

theorem Runs.trans {s t u : σ} (h₁ : Runs step G s t) (h₂ : Runs step G t u) :
    Runs step G s u := by
  induction h₂ with
  | refl => exact h₁
  | tail _ hG hs ih => exact ih.tail hG hs

/-- A weaker guard admits the run too. -/
theorem Runs.mono (h : Runs step G s t) (hGH : ∀ u a, G u a → H u a) :
    Runs step H s t := by
  induction h with
  | refl => exact .refl
  | tail _ hG hs ih => exact ih.tail (hGH _ _ hG) hs

/-- Run a fixed schedule; `none` when one of its steps is not enabled. -/
def exec (step : σ → α → Option σ) (s : σ) : List α → Option σ
  | [] => some s
  | a :: as => (step s a).bind fun t => exec step t as

@[simp] theorem exec_nil (s : σ) : exec step s [] = some s := rfl

@[simp] theorem exec_cons (s : σ) (a : α) (as : List α) :
    exec step s (a :: as) = (step s a).bind fun t => exec step t as := rfl

variable {as : List α}

/-- A schedule that runs through is a run. -/
theorem reaches_exec (h : exec step s as = some t) :
    Reaches step s t := by
  induction as generalizing s with
  | nil =>
    obtain rfl : s = t := by simpa using h
    exact .refl
  | cons a as ih =>
    obtain ⟨u, hu, hrest⟩ := Option.bind_eq_some_iff.mp h
    exact (Runs.refl.tail trivial hu).trans (ih hrest)

/-- A property computed at the end of a fixed schedule is one of a reachable state. -/
theorem exists_reaches [DecidablePred P] {s : σ} (as : List α)
    (h : (exec step s as).any (fun t => decide (P t)) = true) : ∃ t, Reaches step s t ∧ P t := by
  obtain ⟨t, ht, hP⟩ := (Option.any_eq_true _ _).mp h
  exact ⟨t, reaches_exec ht, of_decide_eq_true hP⟩

/-- The guard checked along a fixed schedule. -/
def GuardedAlong (step : σ → α → Option σ) (G : σ → α → Prop) (s : σ) : List α → Prop
  | [] => True
  | a :: as => G s a ∧ ∀ t ∈ step s a, GuardedAlong step G t as

instance [∀ s a, Decidable (G s a)] : ∀ (s : σ) (as : List α),
    Decidable (GuardedAlong step G s as)
  | _, [] => inferInstanceAs (Decidable True)
  | s, a :: as =>
    have : Decidable (∀ t ∈ step s a, GuardedAlong step G t as) :=
      match step s a with
      | none => isTrue fun _ h => nomatch h
      | some t =>
        match instDecidableGuardedAlong t as with
        | isTrue h => isTrue fun _ hu => (Option.mem_some.mp hu) ▸ h
        | isFalse h => isFalse fun hall => h (hall t rfl)
    inferInstanceAs (Decidable (_ ∧ _))

/-- A schedule that runs through and meets the guard at every step is a guarded run. -/
theorem runs_exec (h : exec step s as = some t)
    (hG : GuardedAlong step G s as) : Runs step G s t := by
  induction as generalizing s with
  | nil =>
    obtain rfl : s = t := by simpa using h
    exact .refl
  | cons a as ih =>
    obtain ⟨u, hu, hrest⟩ := Option.bind_eq_some_iff.mp h
    exact (Runs.refl.tail hG.1 hu).trans (ih hrest (hG.2 u hu))

/-- `P` holds in each state of a fixed schedule. -/
def Along (step : σ → α → Option σ) (P : σ → Prop) (s : σ) (as : List α) : Prop :=
  ∀ n t, exec step s (as.take n) = some t → P t

theorem along_nil {s : σ} : Along step P s [] ↔ P s := by
  constructor
  · intro h
    exact h 0 s rfl
  · intro hs n t ht
    rw [List.take_nil] at ht
    obtain rfl := Option.some.inj ht
    exact hs

theorem along_cons {a : α} (ht : step s a = some t) :
    Along step P s (a :: as) ↔ P s ∧ Along step P t as := by
  have hafter : ∀ n, exec step s ((a :: as).take (n + 1)) = exec step t (as.take n) := by
    intro n
    rw [List.take_succ_cons, exec_cons, ht]
    rfl
  constructor
  · intro h
    refine ⟨h 0 s rfl, fun n u hu => ?_⟩
    exact h (n + 1) u ((hafter n).trans hu)
  · rintro ⟨hs, hlater⟩ n u hu
    cases n with
    | zero =>
      obtain rfl := Option.some.inj hu
      exact hs
    | succ n => exact hlater n u ((hafter n).symm.trans hu)

/-- **Exact conditions.**  Where a step leads to a state with `P` exactly if it meets `G`, a
    schedule keeps `P` throughout exactly if all of its steps meet `G`.  The invariant `I` carries
    the argument, and `F` is what the steps of the schedule are known to meet anyway. -/
theorem along_iff_guardedAlong {I P : σ → Prop} {F : σ → α → Prop} {s final : σ}
    (hI : I s) (hP : ∀ u, I u → P u)
    (hkeeps : ∀ u a v, I u → F u a → G u a → step u a = some v → I v)
    (hexact : ∀ u a v, I u → F u a → step u a = some v → P v → G u a)
    (hF : GuardedAlong step F s as) (hrun : exec step s as = some final) :
    Along step P s as ↔ GuardedAlong step G s as := by
  induction as generalizing s with
  | nil => exact iff_of_true (along_nil.mpr (hP s hI)) trivial
  | cons a as ih =>
    obtain ⟨t, ht, hrest⟩ := Option.bind_eq_some_iff.mp hrun
    rw [along_cons ht]
    constructor
    · rintro ⟨-, hlater⟩
      have hG := hexact s a t hI hF.1 ht (hlater 0 t rfl)
      refine ⟨hG, fun u hu => ?_⟩
      obtain rfl : t = u := Option.some.inj (ht.symm.trans hu)
      exact (ih (hkeeps s a t hI hF.1 hG ht) (hF.2 t ht) hrest).mp hlater
    · rintro ⟨hG, hlater⟩
      refine ⟨hP s hI, ?_⟩
      exact (ih (hkeeps s a t hI hF.1 hG ht) (hF.2 t ht) hrest).mpr (hlater t ht)

/-- Nothing is asked of the steps. -/
theorem guardedAlong_true (s : σ) (as : List α) :
    GuardedAlong step (fun _ _ => True) s as := by
  induction as generalizing s with
  | nil => trivial
  | cons a as ih => exact ⟨trivial, fun t _ => ih t⟩

end Run
