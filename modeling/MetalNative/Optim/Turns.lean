import MetalNative.Optim.Checkpoint
import Mathlib.Analysis.SpecialFunctions.Sqrt

namespace MetalNative

/-!
# The turns of a parameter

A step gives each parameter with a gradient its turn.  A recurrence that a single turn follows is
followed by every parameter through all of its turns.

* `realOps` — arrays of reals.
* `turns` — the gradients that a parameter receives in a run, with the shared count at each.
* `Optimizer.Follows` — a turn is a step of a recurrence; `Follows.foldlM` says the same of the
  turns of a step.
-/

/-! ### Arrays of reals -/

section RealOps

open Classical in
/-- NumPy arrays of reals, without rounding. -/
noncomputable def realOps (ι : Type) (format : ℝ → String) : ArrayOps ℝ (ι → ℝ) where
  zero := 0
  one := 1
  neg x := -x
  sub x y := x - y
  mul x y := x * y
  pow x n := x ^ n
  eq x y := decide (x = y)
  lt x y := decide (x < y)
  le x y := decide (x ≤ y)
  format := format
  zeros_like _ := fun _ => 0
  add x y := fun i => x i + y i
  subArray x y := fun i => x i - y i
  scale c x := fun i => c * x i
  divFloat x c := fun i => x i / c
  addFloat x c := fun i => x i + c
  square x := fun i => x i ^ 2
  sqrt x := fun i => √(x i)
  div x y := fun i => x i / y i
  maximum x y := fun i => max (x i) (y i)
  assign _ x := x

end RealOps

/-! ### The turns of a parameter -/

section Turns

variable {F A : Type*}

/-- The turns of `p` in a step: its gradient and the count, once for each time that it is
    listed. -/
def stepTurns (params : List ParamId) (p : ParamId) (count : ℕ) (grads : ParamId → Option A) :
    List (A × ℕ) :=
  match grads p with
  | none => []
  | some g => List.replicate (params.count p) (g, count)

/-- The turns of `p` in a run that begins after `count` steps. -/
def turns (params : List ParamId) (p : ParamId) (count : ℕ) :
    List (ParamId → Option A) → List (A × ℕ)
  | [] => []
  | grads :: rest => stepTurns params p (count + 1) grads ++ turns params p (count + 1) rest


theorem stepTurns_cons (q p : ParamId) (rest : List ParamId) (count : ℕ)
    (grads : ParamId → Option A) : stepTurns (q :: rest) p count grads
      = stepTurns [q] p count grads ++ stepTurns rest p count grads := by
  unfold stepTurns
  cases grads p with
  | none => rfl
  | some g =>
    have hcount : (q :: rest).count p = [q].count p + rest.count p := by
      rw [← List.singleton_append, List.count_append]
    show List.replicate _ _ = List.replicate _ _ ++ List.replicate _ _
    rw [hcount, List.replicate_append_replicate]

/-- The shared count is positive at every turn. -/
theorem count_pos_of_mem_turns {p : ParamId} {count : ℕ}
    {gs : List (ParamId → Option A)} {gt : A × ℕ} (hgt : gt ∈ turns params p count gs) :
    0 < gt.2 := by
  induction gs generalizing count with
  | nil => cases hgt
  | cons grads rest ih =>
    obtain hnow | hlater := List.mem_append.mp hgt
    · unfold stepTurns at hnow
      cases hg : grads p with
      | none => simp [hg] at hnow
      | some g =>
        simp only [hg] at hnow
        rw [List.eq_of_mem_replicate hnow]
        exact Nat.succ_pos _
    · exact ih hlater

/-- The states of a recurrence along some turns. -/
def followTurns {S : Type*} (next : ℕ → S → A → S) (s : S) (gs : List (A × ℕ)) : S :=
  gs.foldl (fun s gt => next gt.2 s gt.1) s

theorem followTurns_append {S : Type*} (next : ℕ → S → A → S) (s : S) (gs hs : List (A × ℕ)) :
    followTurns next s (gs ++ hs) = followTurns next (followTurns next s gs) hs :=
  List.foldl_append ..

/-- A turn of a parameter that shows a state of a recurrence succeeds, and leaves it showing the next
    state. -/
def Optimizer.Follows {S : Type*} (np : ArrayOps F A) (opt : Optimizer F)
    (shows : Option (ParamState A) → A → S → Prop) (next : ℕ → S → A → S) : Prop :=
  ∀ entry x s g, shows entry x s → ∃ entry' y,
    opt.rule.update np opt.step_count entry x g = some (entry', y) ∧
      shows entry' (np.assign x y) (next opt.step_count s g)

namespace Optimizer.Follows

variable {S : Type*} {np : ArrayOps F A} {opt : Optimizer F} {w : PyHeap A}
  {shows : Option (ParamState A) → A → S → Prop} {next : ℕ → S → A → S} {s : ParamId → S}

/-- A turn of `q` leaves every other parameter, and is a step of the recurrence of `q` where it has
    a gradient. -/
theorem stepParam (hfollows : opt.Follows np shows next)
    (hs : ∀ p, shows (w.dict opt.state p) (w.value p) (s p)) (q : ParamId) :
    ∃ w', opt.stepParam np w q = some w' ∧ w'.grad = w.grad ∧
      ∀ p, shows (w'.dict opt.state p) (w'.value p)
        (followTurns next (s p) (stepTurns [q] p opt.step_count w.grad)) := by
  have hother : ∀ p, p ≠ q → stepTurns [q] p opt.step_count w.grad = [] := by
    intro p hp
    have hcount : List.count p [q] = 0 := by simp [Ne.symm hp]
    unfold stepTurns
    cases w.grad p <;> simp [hcount]
  unfold Optimizer.stepParam
  cases hg : w.grad q with
  | none =>
    refine ⟨w, rfl, rfl, ?_⟩
    intro p
    by_cases hp : p = q
    · subst hp
      simpa [stepTurns, hg, followTurns] using hs p
    · rw [hother p hp]
      exact hs p
  | some g =>
    obtain ⟨entry', y, hupdate, hshows⟩ := hfollows _ _ _ g (hs q)
    simp only [hupdate, Option.map_some]
    refine ⟨_, rfl, rfl, ?_⟩
    intro p
    by_cases hp : p = q
    · subst hp
      simpa [stepTurns, hg, followTurns] using hshows
    · rw [hother p hp]
      simpa [hp, followTurns] using hs p

/-- The turns of a step. -/
theorem foldlM (hfollows : opt.Follows np shows next) (params : List ParamId)
    (hs : ∀ p, shows (w.dict opt.state p) (w.value p) (s p)) :
    ∃ w', params.foldlM (opt.stepParam np) w = some w' ∧
      ∀ p, shows (w'.dict opt.state p) (w'.value p)
        (followTurns next (s p) (stepTurns params p opt.step_count w.grad)) := by
  induction params generalizing w s with
  | nil =>
    refine ⟨w, rfl, ?_⟩
    intro p
    have hturns : stepTurns [] p opt.step_count w.grad = [] := by
      unfold stepTurns
      cases w.grad p <;> rfl
    rw [hturns]
    exact hs p
  | cons q rest ih =>
    obtain ⟨u, hu, hgrad, hshows⟩ := hfollows.stepParam hs q
    obtain ⟨w', hw', hrest⟩ := ih hshows
    refine ⟨w', ?_, ?_⟩
    · rw [List.foldlM_cons, hu]
      exact hw'
    · intro p
      have hp := hrest p
      rw [hgrad] at hp
      simpa only [stepTurns_cons q p rest, followTurns_append] using hp

end Optimizer.Follows

end Turns

end MetalNative
