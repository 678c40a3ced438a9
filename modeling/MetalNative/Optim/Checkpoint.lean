import MetalNative.Optim.Optimizer
import Mathlib.Algebra.Group.Int.Defs
import Mathlib.Data.List.Perm.Basic
import Mathlib.Data.List.Count
import Mathlib.Data.List.Nodup
import Mathlib.Data.Int.Sqrt
import Mathlib.Logic.Function.Iterate

namespace MetalNative

open Optimizer UpdateRule Option

/-!
# Checkpoints of optimizers

`state_dict` hands out the live dictionary of the optimizer and its parameter groups, and
`load_state_dict` takes both over.

* `CheckpointFaithful` — a checkpoint stays as it was taken; the optimizer that loads it goes on as
  the saved one would have; neither of the two moves the other.
* `CheckpointSafe` — the condition: SGD without momentum, loaded over the same parameter objects; or
  no gradient arrives.
* `checkpoint_faithful` — every run that meets it, and a run that fails for every other optimizer.
* `checkpoint_follows_training` — SGD with momentum.
-/

variable {F A : Type*}

/-- All parameters of an optimizer, in the order of `step`. -/
def Optimizer.params (opt : Optimizer F) : List ParamId := opt.param_groups.flatten

/-! ### What a checkpoint promises -/

/-- The objects in which the parameters `σ p` of a new model have been given the values that the
    parameters `p` had in `w`, some time after `w₁`. -/
structure Restored (w w₁ w₂ : PyHeap A) (params : List ParamId) (σ : ParamId → ParamId) : Prop where
  dict : w₂.dict = w₁.dict
  nextDict : w₂.nextDict = w₁.nextDict
  value : ∀ p ∈ params, w₂.value (σ p) = w.value p

/-- `opt` is saved in `w` and goes on with the gradients `gs`; its checkpoint is loaded into a new
    optimizer over the parameters `σ p`, and that goes on with the gradients `hs`. -/
structure CheckpointFaithful (np : ArrayOps F A) (w : PyHeap A) (opt : Optimizer F)
    (gs : List (ParamId → Option A)) (σ : ParamId → ParamId) (hs : List (ParamId → Option A)) :
    Prop where
  /-- Later steps do not change the checkpoint. -/
  frozen : ∃ w₁ opt₁, opt.run np w gs = some (w₁, opt₁) ∧
    w₁.dict opt.state_dict.state = w.dict opt.state_dict.state
  /-- After every step of the new optimizer its parameters are those that the saved one would have
      had. -/
  same : ∀ w₁ opt₁ w₂ w₃ fresh, opt.run np w gs = some (w₁, opt₁) →
    Restored w w₁ w₂ opt.params σ →
    Optimizer.init np opt.rule (opt.params.map σ) w₂ = .ok (w₃, fresh) → ∀ k,
      ∃ w₄ opt₄ w₅ opt₅,
        (fresh.load_state_dict opt.state_dict).run np w₃ (hs.take k) = some (w₄, opt₄) ∧
        opt.run np w ((hs.take k).map (· ∘ σ)) = some (w₅, opt₅) ∧
        ∀ p ∈ opt.params, w₄.value (σ p) = w₅.value p
  /-- The steps of either optimizer leave the other one's dictionary, and all parameters that are
      not its own, as they were. -/
  uncoupled : ∀ w₁ opt₁ w₂ w₃ fresh, opt.run np w gs = some (w₁, opt₁) →
    Restored w w₁ w₂ opt.params σ →
    Optimizer.init np opt.rule (opt.params.map σ) w₂ = .ok (w₃, fresh) →
      (∀ w₄ opt₄, (fresh.load_state_dict opt.state_dict).run np w₃ hs = some (w₄, opt₄) →
        (∀ q ∉ opt.params.map σ, w₄.value q = w₃.value q) ∧
          w₄.dict opt₁.state = w₃.dict opt₁.state) ∧
      ∀ w₄ opt₄, opt₁.run np w₃ hs = some (w₄, opt₄) →
        (∀ q ∉ opt.params, w₄.value q = w₃.value q) ∧
          w₄.dict (fresh.load_state_dict opt.state_dict).state
            = w₃.dict (fresh.load_state_dict opt.state_dict).state

/-- Whether `step` puts anything into the dictionary. -/
def UpdateRule.keepsState (np : ArrayOps F A) : UpdateRule F → Bool
  | .adam _ | .adamW _ => true
  | .sgd h => !np.eq h.momentum np.zero

/-- The condition: the dictionary stays empty and the new optimizer is over the same objects, or no
    parameter has a gradient. -/
def CheckpointSafe (np : ArrayOps F A) (opt : Optimizer F) (gs : List (ParamId → Option A))
    (σ : ParamId → ParamId) (hs : List (ParamId → Option A)) : Prop :=
  (opt.rule.keepsState np = false ∧ (opt.params.map σ).Perm opt.params) ∨
    ∀ grads ∈ gs ++ hs, ∀ p ∈ opt.params, grads p = none ∧ grads (σ p) = none

/-! ### Steps -/

section Steps

variable {np : ArrayOps F A} {opt opt' : Optimizer F} {w w' : PyHeap A}

@[simp] theorem count_rule (opt : Optimizer F) : opt.count.rule = opt.rule := by
  unfold count
  split <;> rfl

@[simp] theorem count_state (opt : Optimizer F) : opt.count.state = opt.state := by
  unfold count
  split <;> rfl

@[simp] theorem count_params (opt : Optimizer F) : opt.count.params = opt.params := by
  unfold count
  split <;> rfl

theorem step_eq (np : ArrayOps F A) (opt : Optimizer F) (w : PyHeap A) :
    opt.step np w = (opt.params.foldlM (opt.count.stepParam np) w).map fun w =>
      (w, opt.count) := rfl

/-- Without gradients a step only counts. -/
theorem step_of_none (np : ArrayOps F A) (h : ∀ p ∈ opt.params, w.grad p = none) :
    opt.step np w = some (w, opt.count) := by
  have hfold : ∀ params : List ParamId, (∀ p ∈ params, w.grad p = none) →
      params.foldlM (opt.count.stepParam np) w = some w := by
    intro params
    induction params with
    | nil => exact fun _ => rfl
    | cons p rest ih =>
      intro hnone
      have hp : opt.count.stepParam np w p = some w := by
        unfold stepParam
        rw [hnone p (List.mem_cons_self ..)]
      rw [List.foldlM_cons, hp]
      exact ih fun q hq => hnone q (List.mem_cons_of_mem _ hq)
  rw [step_eq, hfold _ h]
  rfl

/-- Without gradients a run changes nothing but the gradients and the count. -/
theorem run_of_none (np : ArrayOps F A) (opt : Optimizer F) (w : PyHeap A)
    (hs : List (ParamId → Option A)) (h : ∀ grads ∈ hs, ∀ p ∈ opt.params, grads p = none) :
    ∃ w' opt', opt.run np w hs = some (w', opt') ∧ w'.value = w.value ∧ w'.dict = w.dict ∧
      w'.nextDict = w.nextDict ∧ opt'.state = opt.state ∧ opt'.params = opt.params := by
  induction hs generalizing opt w with
  | nil => exact ⟨w, opt, rfl, rfl, rfl, rfl, rfl, rfl⟩
  | cons grads rest ih =>
    have hstep : opt.step np { w with grad := grads } =
        some ({ w with grad := grads }, opt.count) :=
      step_of_none np (h grads (List.mem_cons_self ..))
    obtain ⟨w', opt', hrun, hvalue, hdict, hnext, hstate, hparams⟩ :=
      ih opt.count { w with grad := grads } fun g hg => by
        rw [count_params]
        exact h g (List.mem_cons_of_mem _ hg)
    refine ⟨w', opt', ?_, hvalue, hdict, hnext, ?_, ?_⟩
    · rw [run, hstep]
      exact hrun
    · rw [hstate, count_state]
    · rw [hparams, count_params]

end Steps

/-! ### SGD without momentum -/

section Plain

variable {np : ArrayOps F A} {h : SGDHyper F} {opt : Optimizer F}

/-- A parameter after its turn in a step of SGD without momentum. -/
def SGDHyper.moved (np : ArrayOps F A) (h : SGDHyper F) (x : A) : Option A → A
  | none => x
  | some g => np.assign x (np.subArray x (np.scale h.lr
      (if np.eq h.weight_decay np.zero then g else np.add g (np.scale h.weight_decay x))))

theorem update_plain (hm : np.eq h.momentum np.zero = true) (t : ℕ)
    (entry : Option (ParamState A)) (x g : A) :
    ∃ y, (sgd h).update np t entry x g = some (entry, y) ∧
      np.assign x y = h.moved np x (some g) := by
  refine ⟨_, ?_, rfl⟩
  simp only [update, SGDHyper.update, hm, if_true]

theorem stepParam_plain (hrule : opt.rule = .sgd h) (hm : np.eq h.momentum np.zero = true)
    (w : PyHeap A) (p : ParamId) :
    opt.stepParam np w p
      = some { w with value := Function.update w.value p (h.moved np (w.value p) (w.grad p)) } := by
  unfold stepParam
  cases hg : w.grad p with
  | none =>
    show some w = _
    simp [SGDHyper.moved]
  | some g =>
    obtain ⟨y, hy, hassign⟩ := update_plain hm opt.step_count (w.dict opt.state p) (w.value p) g
    simp only [hrule, hy, map_some, hassign, Function.update_eq_self]

/-- A parameter has one turn for each time that it is listed. -/
theorem foldlM_plain (hrule : opt.rule = .sgd h) (hm : np.eq h.momentum np.zero = true)
    (params : List ParamId) (w : PyHeap A) :
    params.foldlM (opt.stepParam np) w = some
      { w with
        value := fun q => (fun x => h.moved np x (w.grad q))^[params.count q] (w.value q) } := by
  induction params generalizing w with
  | nil => rfl
  | cons p rest ih =>
    rw [List.foldlM_cons, stepParam_plain hrule hm]
    show rest.foldlM (opt.stepParam np) _ = _
    rw [ih]
    congr 2
    ext q
    by_cases hq : q = p
    · subst hq
      simp [Function.iterate_succ]
    · have hne : ¬ p = q := fun h => hq h.symm
      simp [hq, hne]

theorem step_plain (hrule : opt.rule = .sgd h) (hm : np.eq h.momentum np.zero = true)
    (w : PyHeap A) :
    opt.step np w = some
      ({ w with
        value := fun q => (fun x => h.moved np x (w.grad q))^[opt.params.count q] (w.value q) },
        opt) := by
  have hcount : opt.count = opt := by
    unfold count
    rw [hrule]
  rw [step_eq, hcount, foldlM_plain hrule hm]
  rfl

/-- A run leaves the dictionaries, and what is not a parameter of the optimizer. -/
theorem run_plain (hrule : opt.rule = .sgd h) (hm : np.eq h.momentum np.zero = true)
    (w : PyHeap A) (hs : List (ParamId → Option A)) :
    ∃ w', opt.run np w hs = some (w', opt) ∧ w'.dict = w.dict ∧ w'.nextDict = w.nextDict ∧
      ∀ q ∉ opt.params, w'.value q = w.value q := by
  induction hs generalizing w with
  | nil => exact ⟨w, rfl, rfl, rfl, fun _ _ => rfl⟩
  | cons grads rest ih =>
    rw [run, step_plain hrule hm]
    obtain ⟨w', hrun, hdict, hnext, hvalue⟩ := ih
      { w with
        grad := grads
        value := fun q => (fun x => h.moved np x (grads q))^[opt.params.count q] (w.value q) }
    refine ⟨w', hrun, hdict, hnext, fun q hq => ?_⟩
    rw [hvalue q hq]
    show (fun x => h.moved np x (grads q))^[opt.params.count q] (w.value q) = w.value q
    rw [List.count_eq_zero_of_not_mem hq]
    rfl

/-- Two runs over corresponding parameters with corresponding gradients. -/
theorem run_plain_corresponds {σ : ParamId → ParamId} {other : Optimizer F}
    (hrule : opt.rule = .sgd h) (hrule' : other.rule = .sgd h)
    (hm : np.eq h.momentum np.zero = true)
    (hcount : ∀ p ∈ opt.params, other.params.count (σ p) = opt.params.count p)
    (hs : List (ParamId → Option A)) {w u : PyHeap A}
    (hvalue : ∀ p ∈ opt.params, u.value (σ p) = w.value p) :
    ∃ u' w', other.run np u hs = some (u', other) ∧
      opt.run np w (hs.map (· ∘ σ)) = some (w', opt) ∧
      ∀ p ∈ opt.params, u'.value (σ p) = w'.value p := by
  induction hs generalizing w u with
  | nil => exact ⟨u, w, rfl, rfl, hvalue⟩
  | cons grads rest ih =>
    rw [List.map_cons, run, run, step_plain hrule' hm, step_plain hrule hm]
    refine ih fun p hp => ?_
    show (fun x => h.moved np x (grads (σ p)))^[other.params.count (σ p)] (u.value (σ p))
      = (fun x => h.moved np x ((grads ∘ σ) p))^[opt.params.count p] (w.value p)
    rw [hcount p hp, hvalue p hp]
    rfl

end Plain

/-! ### An optimizer that keeps state -/

section State

variable {np : ArrayOps F A} {opt opt' : Optimizer F} {w w' : PyHeap A}

/-- After its turn a parameter with a gradient has an entry in the dictionary. -/
theorem update_isSome {rule : UpdateRule F} (hkeeps : rule.keepsState np = true) {t : ℕ}
    {entry entry' : Option (ParamState A)} {x g y : A}
    (h : rule.update np t entry x g = some (entry', y)) : entry' ≠ none := by
  cases rule with
  | adam hyper =>
    simp only [update, AdamHyper.updateAdam, bind_eq_bind,
      bind_eq_some_iff] at h
    obtain ⟨_, -, _, -, h⟩ := h
    rw [← (Prod.mk.inj (some.inj h)).1]
    exact some_ne_none _
  | adamW hyper =>
    simp only [update, AdamHyper.updateAdamW, bind_eq_bind,
      bind_eq_some_iff] at h
    obtain ⟨_, -, _, -, h⟩ := h
    rw [← (Prod.mk.inj (some.inj h)).1]
    exact some_ne_none _
  | sgd hyper =>
    have hm : np.eq hyper.momentum np.zero = false := by
      simpa [keepsState] using hkeeps
    simp only [update, SGDHyper.update, hm, Bool.false_eq_true, if_false,
      map_eq_some_iff] at h
    obtain ⟨buf, -, h⟩ := h
    rw [← (Prod.mk.inj h).1]
    exact some_ne_none _

/-- A turn takes no entry away, and leaves one for its parameter. -/
theorem stepParam_entry (hkeeps : opt.rule.keepsState np = true) {p q : ParamId}
    (h : opt.stepParam np w p = some w')
    (hq : w.dict opt.state q ≠ none ∨ q = p ∧ w.grad p ≠ none) : w'.dict opt.state q ≠ none := by
  unfold stepParam at h
  cases hg : w.grad p with
  | none =>
    simp only [hg, some.injEq] at h
    subst h
    exact hq.resolve_right fun hp => hp.2 hg
  | some g =>
    simp only [hg, map_eq_some_iff] at h
    obtain ⟨⟨entry, y⟩, hupdate, rfl⟩ := h
    show Function.update w.dict opt.state _ opt.state q ≠ none
    rw [Function.update_self]
    by_cases hqp : q = p
    · subst hqp
      rw [Function.update_self]
      exact update_isSome hkeeps hupdate
    · rw [Function.update_of_ne hqp]
      exact hq.resolve_right fun hp => hqp hp.1

theorem stepParam_grad {p : ParamId} (h : opt.stepParam np w p = some w') : w'.grad = w.grad := by
  unfold stepParam at h
  split at h
  · obtain rfl := some.inj h
    rfl
  · obtain ⟨_, -, rfl⟩ := map_eq_some_iff.mp h
    rfl

theorem foldlM_entry (hkeeps : opt.rule.keepsState np = true) {params : List ParamId} {q : ParamId}
    (h : params.foldlM (opt.stepParam np) w = some w')
    (hq : w.dict opt.state q ≠ none ∨ q ∈ params ∧ w.grad q ≠ none) :
    w'.dict opt.state q ≠ none := by
  induction params generalizing w with
  | nil =>
    obtain rfl := some.inj h
    exact hq.resolve_right fun hp => List.not_mem_nil hp.1
  | cons p rest ih =>
    rw [List.foldlM_cons] at h
    obtain ⟨u, hu, hrest⟩ := bind_eq_some_iff.mp h
    refine ih hrest ?_
    rw [stepParam_grad hu]
    rcases hq with hq | ⟨hmem, hgrad⟩
    · exact .inl (stepParam_entry hkeeps hu (.inl hq))
    · rcases List.mem_cons.mp hmem with rfl | hmem
      · exact .inl (stepParam_entry hkeeps hu (.inr ⟨rfl, hgrad⟩))
      · exact .inr ⟨hmem, hgrad⟩

/-- A step leaves an entry for every parameter that has a gradient. -/
theorem step_entry (hkeeps : opt.rule.keepsState np = true) (h : opt.step np w = some (w', opt'))
    {p : ParamId} (hp : p ∈ opt.params) (hgrad : w.grad p ≠ none) :
    w'.dict opt.state p ≠ none := by
  rw [step_eq] at h
  obtain ⟨u, hu, heq⟩ := map_eq_some_iff.mp h
  obtain ⟨rfl, -⟩ := Prod.mk.inj heq
  have hentry := foldlM_entry (by rw [count_rule]; exact hkeeps) hu (.inr ⟨hp, hgrad⟩)
  rwa [count_state] at hentry

end State

/-! ### Checkpoints -/

section Checkpoints

variable {np : ArrayOps F A} {rule : UpdateRule F} {params : List ParamId} {opt fresh : Optimizer F}
  {w w' : PyHeap A} {σ : ParamId → ParamId} {gs hs : List (ParamId → Option A)}

/-- What `__init__` makes, when it does not throw. -/
theorem init_ok (h : init np rule params w = .ok (w', opt)) :
    rule.check np = .ok () ∧ w'.value = w.value ∧ opt.rule = rule ∧ opt.params = params ∧
      w'.dict opt.state = fun _ => none := by
  unfold init at h
  cases hcheck : rule.check np with
  | error e =>
    rw [hcheck] at h
    cases h
  | ok u =>
    rw [hcheck] at h
    obtain ⟨rfl, rfl⟩ := Prod.mk.inj (Except.ok.inj h)
    refine ⟨rfl, rfl, rfl, List.append_nil params, ?_⟩
    exact Function.update_self ..

theorem exists_init (hcheck : rule.check np = .ok ()) (params : List ParamId) (w : PyHeap A) :
    ∃ w' opt, init np rule params w = .ok (w', opt) := by
  unfold init
  rw [hcheck]
  exact ⟨_, _, rfl⟩

/-- The optimizer that has loaded a checkpoint steps through the parameters of the saved one. -/
theorem load_params (fresh opt : Optimizer F) :
    (fresh.load_state_dict opt.state_dict).params = opt.params := rfl

/-- Without state, over the same objects. -/
theorem faithful_of_plain (hσ : Function.Injective σ) (hplain : opt.rule.keepsState np = false)
    (hsame : (opt.params.map σ).Perm opt.params) : CheckpointFaithful np w opt gs σ hs := by
  obtain ⟨h, hrule, hm⟩ : ∃ h, opt.rule = .sgd h ∧ np.eq h.momentum np.zero = true := by
    cases hr : opt.rule with
    | sgd h =>
      rw [hr] at hplain
      exact ⟨h, rfl, by simpa [keepsState] using hplain⟩
    | adam h => simp [hr, keepsState] at hplain
    | adamW h => simp [hr, keepsState] at hplain
  have hcount : ∀ p ∈ opt.params, opt.params.count (σ p) = opt.params.count p := by
    intro p _
    classical
    rw [← hsame.count_eq, List.count_map_of_injective _ σ hσ]
  refine
    { frozen := ?_
      same := fun w₁ opt₁ w₂ w₃ fresh hrun hrestored hinit k => ?_
      uncoupled := fun w₁ opt₁ w₂ w₃ fresh hrun hrestored hinit => ?_ }
  · obtain ⟨w₁, hrun, hdict, -⟩ := run_plain hrule hm w gs
    exact ⟨w₁, opt, hrun, by rw [hdict]⟩
  · obtain ⟨-, hvalue, hrule', -⟩ := init_ok hinit
    have hload : (fresh.load_state_dict opt.state_dict).rule = .sgd h := hrule'.trans hrule
    have hstart : ∀ p ∈ opt.params, w₃.value (σ p) = w.value p := by
      rw [hvalue]
      exact hrestored.value
    obtain ⟨w₄, w₅, hrun₄, hrun₅, heq⟩ :=
      run_plain_corresponds hrule hload hm hcount (hs.take k) hstart
    exact ⟨w₄, _, w₅, _, hrun₄, hrun₅, heq⟩
  · obtain ⟨-, hvalue, hrule', -⟩ := init_ok hinit
    obtain ⟨w₁', hrun₁, -⟩ := run_plain hrule hm w gs
    obtain ⟨rfl, rfl⟩ := Prod.mk.inj (some.inj (hrun.symm.trans hrun₁))
    constructor
    · intro w₄ opt₄ h₄
      have hload : (fresh.load_state_dict opt₁.state_dict).rule = .sgd h := hrule'.trans hrule
      obtain ⟨w', hrun', hdict, -, hkept⟩ := run_plain hload hm w₃ hs
      obtain ⟨rfl, -⟩ := Prod.mk.inj (some.inj (h₄.symm.trans hrun'))
      exact ⟨fun q hq => hkept q fun hmem => hq (hsame.symm.subset hmem), by rw [hdict]⟩
    · intro w₄ opt₄ h₄
      obtain ⟨w', hrun', hdict, -, hkept⟩ := run_plain hrule hm w₃ hs
      obtain ⟨rfl, -⟩ := Prod.mk.inj (some.inj (h₄.symm.trans hrun'))
      exact ⟨hkept, by rw [hdict]⟩

/-- Without gradients. -/
theorem faithful_of_none
    (hnone : ∀ grads ∈ gs ++ hs, ∀ p ∈ opt.params, grads p = none ∧ grads (σ p) = none) :
    CheckpointFaithful np w opt gs σ hs := by
  have hgs : ∀ grads ∈ gs, ∀ p ∈ opt.params, grads p = none :=
    fun g hg p hp => (hnone g (List.mem_append_left _ hg) p hp).1
  have hhs : ∀ grads ∈ hs, ∀ p ∈ opt.params, grads p = none :=
    fun g hg p hp => (hnone g (List.mem_append_right _ hg) p hp).1
  have htake : ∀ k, ∀ grads ∈ hs.take k, ∀ p ∈ opt.params, grads p = none :=
    fun k g hg => hhs g (List.mem_of_mem_take hg)
  have hmap : ∀ k, ∀ grads ∈ (hs.take k).map (· ∘ σ), ∀ p ∈ opt.params, grads p = none := by
    intro k g hg p hp
    obtain ⟨g', hg', rfl⟩ := List.mem_map.mp hg
    exact (hnone g' (List.mem_append_right _ (List.mem_of_mem_take hg')) p hp).2
  obtain ⟨u, opt', hrun, -, hdict, -, -, hparams⟩ := run_of_none np opt w gs hgs
  refine
    { frozen := ⟨u, opt', hrun, by rw [hdict]⟩
      same := fun w₁ opt₁ w₂ w₃ fresh _ hrestored hinit k => ?_
      uncoupled := fun w₁ opt₁ w₂ w₃ fresh hrun₁ hrestored hinit => ⟨?_, ?_⟩ }
  · obtain ⟨-, hvalue, -⟩ := init_ok hinit
    obtain ⟨w₄, opt₄, hrun₄, hvalue₄, -⟩ :=
      run_of_none np (fresh.load_state_dict opt.state_dict) w₃ (hs.take k) (htake k)
    obtain ⟨w₅, opt₅, hrun₅, hvalue₅, -⟩ := run_of_none np opt w _ (hmap k)
    refine ⟨w₄, opt₄, w₅, opt₅, hrun₄, hrun₅, fun p hp => ?_⟩
    rw [hvalue₄, hvalue₅, hvalue]
    exact hrestored.value p hp
  · intro w₄ opt₄ h₄
    obtain ⟨v, _, hv, hvalue, hdict, -⟩ :=
      run_of_none np (fresh.load_state_dict opt.state_dict) w₃ hs hhs
    obtain ⟨rfl, -⟩ := Prod.mk.inj (some.inj (h₄.symm.trans hv))
    exact ⟨fun q _ => by rw [hvalue], by rw [hdict]⟩
  · intro w₄ opt₄ h₄
    obtain ⟨-, rfl⟩ := Prod.mk.inj (some.inj (hrun₁.symm.trans hrun))
    obtain ⟨v, _, hv, hvalue, hdict, -⟩ := run_of_none np opt₁ w₃ hs (hparams.symm ▸ hhs)
    obtain ⟨rfl, -⟩ := Prod.mk.inj (some.inj (h₄.symm.trans hv))
    exact ⟨fun q _ => by rw [hvalue], by rw [hdict]⟩

/-- A gradient for one parameter. -/
def onlyGrad (p : ParamId) (g : A) : ParamId → Option A :=
  Function.update (fun _ => none) p (some g)

/-- An optimizer that keeps state: the first step after `state_dict` changes the checkpoint. -/
theorem not_faithful_of_keepsState (hinit : init np rule params w' = .ok (w, opt))
    (hkeeps : rule.keepsState np = true) {p : ParamId} (hp : p ∈ params) (g : A) :
    ¬ CheckpointFaithful np w opt [onlyGrad p g] σ hs := by
  intro hfaithful
  obtain ⟨-, -, hrule, hparams, hempty⟩ := init_ok hinit
  obtain ⟨w₁, opt₁, hrun, hfrozen⟩ := hfaithful.frozen
  obtain ⟨⟨u, opt'⟩, hstep, hrest⟩ := bind_eq_some_iff.mp hrun
  obtain ⟨rfl, rfl⟩ := Prod.mk.inj (some.inj hrest)
  have hgrad : onlyGrad p g p ≠ none := by
    unfold onlyGrad
    rw [Function.update_self]
    exact some_ne_none g
  refine step_entry (by rw [hrule]; exact hkeeps) hstep (hparams.symm ▸ hp) hgrad ?_
  have hsame : u.dict opt.state = w.dict opt.state := hfrozen
  rw [hsame, hempty]

/-- Over other objects: the new optimizer does not move its own parameters. -/
theorem not_faithful_of_plain (hσ : Function.Injective σ)
    (hinit : init np rule params w' = .ok (w, opt))
    (hplain : rule.keepsState np = false) (honce : params.Nodup) {p : ParamId} (hp : p ∈ params)
    (hother : σ p ∉ params) {g x : A} {entry : Option (ParamState A)}
    (hupdate : rule.update np 0 none (w.value p) g = some (entry, x))
    (hmoves : np.assign (w.value p) x ≠ w.value p) :
    ¬ CheckpointFaithful np w opt [] σ [onlyGrad (σ p) g] := by
  intro hfaithful
  obtain ⟨hcheck, -, hrule, hparams, -⟩ := init_ok hinit
  obtain ⟨h, rfl, hm⟩ : ∃ h, rule = .sgd h ∧ np.eq h.momentum np.zero = true := by
    cases rule with
    | sgd h => exact ⟨h, rfl, by simpa [keepsState] using hplain⟩
    | adam h => simp [keepsState] at hplain
    | adamW h => simp [keepsState] at hplain
  -- the new model's parameters get the saved values
  have hrestored : Restored w w { w with value := Function.extend σ w.value w.value }
      opt.params σ := ⟨rfl, rfl, fun q _ => hσ.extend_apply w.value w.value q⟩
  have hcheck' : opt.rule.check np = .ok () := by rw [hrule]; exact hcheck
  obtain ⟨w₃, fresh, hfresh⟩ := exists_init hcheck' (opt.params.map σ)
    { w with value := Function.extend σ w.value w.value }
  obtain ⟨-, hvalue, hrule', -⟩ := init_ok hfresh
  obtain ⟨w₄, opt₄, w₅, opt₅, hrun₄, hrun₅, heq⟩ :=
    hfaithful.same w opt _ w₃ fresh rfl hrestored hfresh 1
  have hp' : p ∈ opt.params := hparams.symm ▸ hp
  have hkept : w₄.value (σ p) = w.value p := by
    have hload : (fresh.load_state_dict opt.state_dict).rule = .sgd h := hrule'.trans hrule
    obtain ⟨v, hv, -, -, hothers⟩ := run_plain hload hm w₃ [onlyGrad (σ p) g]
    obtain ⟨rfl, -⟩ := Prod.mk.inj (some.inj (hrun₄.symm.trans hv))
    rw [hothers (σ p) (by rw [load_params, hparams]; exact hother), hvalue]
    exact hσ.extend_apply w.value w.value p
  have hmoved : w₅.value p = h.moved np (w.value p) (some g) := by
    have hrun : opt.run np w [onlyGrad (σ p) g ∘ σ] = some (w₅, opt₅) := hrun₅
    rw [run, step_plain hrule hm] at hrun
    obtain ⟨rfl, -⟩ := Prod.mk.inj (some.inj hrun)
    have hgrad : (onlyGrad (σ p) g ∘ σ) p = some g := by simp [onlyGrad]
    show (fun x => h.moved np x ((onlyGrad (σ p) g ∘ σ) p))^[opt.params.count p] (w.value p) = _
    rw [hgrad, List.count_eq_one_of_mem (hparams.symm ▸ honce) hp']
    rfl
  obtain ⟨y, hy, hassign⟩ := update_plain hm 0 none (w.value p) g
  obtain ⟨-, rfl⟩ := Prod.mk.inj (some.inj (hupdate.symm.trans hy))
  refine hmoves ?_
  rw [hassign, ← hmoved, ← heq p hp', hkept]

/-- **Checkpoints.**  A checkpoint is faithful in every run that meets the condition.  For any other
    optimizer whose parameters can be moved there is a run in which it is not. -/
theorem checkpoint_faithful (np : ArrayOps F A) (σ : ParamId → ParamId)
    (hσ : Function.Injective σ) :
    (∀ (w : PyHeap A) (opt : Optimizer F) (gs hs : List (ParamId → Option A)),
      CheckpointSafe np opt gs σ hs → CheckpointFaithful np w opt gs σ hs) ∧
    ∀ (rule : UpdateRule F) (params : List ParamId) (w' w : PyHeap A) (opt : Optimizer F),
      Optimizer.init np rule params w' = .ok (w, opt) → params ≠ [] → params.Nodup →
      (∀ p ∈ params, ∃ g entry x, rule.update np 0 none (w.value p) g = some (entry, x) ∧
        np.assign (w.value p) x ≠ w.value p) →
      ¬ (rule.keepsState np = false ∧ (params.map σ).Perm params) →
        ∃ gs hs, ¬ CheckpointFaithful np w opt gs σ hs := by
  refine ⟨fun w opt gs hs hsafe => ?_, fun rule params w' w opt hinit hne honce hmoves hbad => ?_⟩
  · rcases hsafe with ⟨hplain, hsame⟩ | hnone
    · exact faithful_of_plain hσ hplain hsame
    · exact faithful_of_none hnone
  · obtain ⟨p, hp⟩ := List.exists_mem_of_ne_nil _ hne
    cases hkeeps : rule.keepsState np with
    | true => exact ⟨[onlyGrad p (w.value p)], [], not_faithful_of_keepsState hinit hkeeps hp _⟩
    | false =>
      have hexists : ∃ q ∈ params, σ q ∉ params := by
        by_contra hall
        have hsub : params.map σ ⊆ params := by
          intro x hx
          obtain ⟨q, hq, rfl⟩ := List.mem_map.mp hx
          exact not_not.mp fun hx => hall ⟨q, hq, hx⟩
        refine hbad ⟨hkeeps, ?_⟩
        exact (List.subperm_of_subset (honce.map hσ) hsub).perm_of_length_le (by simp)
      obtain ⟨q, hq, hother⟩ := hexists
      obtain ⟨g, entry, x, hupdate, hmoved⟩ := hmoves q hq
      exact ⟨[], [onlyGrad (σ q) g],
        not_faithful_of_plain hσ hinit hkeeps honce hq hother hupdate hmoved⟩

end Checkpoints

/-! ### Integers -/

/-- Floats that are small integers, and arrays of one such element. -/
def integerOps : ArrayOps ℤ ℤ where
  zero := 0
  one := 1
  neg := fun x => -x
  sub := fun x y => x - y
  mul := fun x y => x * y
  pow := fun x n => x ^ n
  eq := fun x y => x == y
  lt := fun x y => decide (x < y)
  le := fun x y => decide (x ≤ y)
  format := fun x => toString x
  zeros_like := fun _ => 0
  add := fun x y => x + y
  subArray := fun x y => x - y
  scale := fun x y => x * y
  divFloat := fun x y => x / y
  addFloat := fun x y => x + y
  square := fun x => x * x
  sqrt := fun x => x.sqrt
  div := fun x y => x / y
  maximum := fun x y => max x y
  assign := fun _ x => x

/-- All parameters are zero. -/
def zeroHeap : PyHeap ℤ where
  value := fun _ => 0

/-- `MetalSGD(params, lr=1)`. -/
def plainSGD : UpdateRule ℤ := .sgd ⟨1, 0, 0, 0, false⟩

/-- `MetalSGD(params, lr=1, momentum=1)`. -/
def momentumSGD : UpdateRule ℤ := .sgd ⟨1, 1, 0, 0, false⟩

/-- `MetalAdam(params, lr=1, betas=(0, 0), eps=0)`. -/
def memorylessAdam : UpdateRule ℤ := .adam ⟨1, (0, 0), 0, 0, false⟩

theorem init_integerOps {rule : UpdateRule ℤ} (h : rule.check integerOps = .ok ())
    (params : List ParamId) :
    init integerOps rule params zeroHeap = .ok ({ zeroHeap with nextDict := 1 },
      { rule, param_groups := [params], state := 0 }) := by
  unfold init
  rw [h]
  show Except.ok _ = _
  congr 2
  simp [zeroHeap]

/-- SGD without momentum, rolled back; and SGD with momentum, for which there is a run without a
    faithful checkpoint. -/
theorem checkpoint_faithful_rollback :
    (∃ w opt, Optimizer.init integerOps plainSGD [0, 1] zeroHeap = .ok (w, opt) ∧
      CheckpointFaithful integerOps w opt [onlyGrad 0 1] id [onlyGrad 1 2, onlyGrad 0 1]) ∧
    ∃ w opt, Optimizer.init integerOps momentumSGD [0] zeroHeap = .ok (w, opt) ∧
      ∃ gs hs, ¬ CheckpointFaithful integerOps w opt gs id hs := by
  obtain ⟨hsafe, hbroken⟩ := checkpoint_faithful integerOps id Function.injective_id
  constructor
  · refine ⟨_, _, init_integerOps rfl [0, 1], hsafe _ _ _ _ (.inl ⟨rfl, ?_⟩)⟩
    rw [List.map_id]
  · refine ⟨_, _, init_integerOps rfl [0], hbroken momentumSGD [0] zeroHeap _ _
      (init_integerOps rfl [0])
      (by decide) (by decide) (fun p _ => ?_) (by decide)⟩
    exact ⟨1, some (.momentum_buffer 1), -1, rfl, show (-1 : ℤ) ≠ 0 by decide⟩

/-- One step after `state_dict` the checkpoint of SGD with momentum, and that of Adam, is another
    one.  Loaded over another parameter, the checkpoint of SGD moves the old one. -/
theorem checkpoint_follows_training :
    (∃ w opt, Optimizer.init integerOps momentumSGD [0] zeroHeap = .ok (w, opt) ∧
      (opt.run integerOps w [onlyGrad 0 1]).map (fun r => r.1.dict opt.state_dict.state 0)
        = some (some (.momentum_buffer 1)) ∧
      ¬ CheckpointFaithful integerOps w opt [onlyGrad 0 1] id []) ∧
    (∃ w opt, Optimizer.init integerOps memorylessAdam [0] zeroHeap = .ok (w, opt) ∧
      (opt.run integerOps w [onlyGrad 0 1]).map (fun r => r.1.dict opt.state_dict.state 0)
        = some (some (.moments 1 1 none)) ∧
      ¬ CheckpointFaithful integerOps w opt [onlyGrad 0 1] id []) ∧
    ∃ w opt, Optimizer.init integerOps plainSGD [0] zeroHeap = .ok (w, opt) ∧
      ¬ CheckpointFaithful integerOps w opt [] Nat.succ [onlyGrad 1 1] := by
  have hmem : 0 ∈ [0] := List.mem_singleton_self 0
  have hmomentum := @init_integerOps momentumSGD rfl [0]
  have hadam := @init_integerOps memorylessAdam rfl [0]
  have hplain := @init_integerOps plainSGD rfl [0]
  refine ⟨⟨_, _, hmomentum, by decide, ?_⟩, ⟨_, _, hadam, by decide, ?_⟩, ⟨_, _, hplain, ?_⟩⟩
  · exact not_faithful_of_keepsState hmomentum rfl hmem 1
  · exact not_faithful_of_keepsState hadam rfl hmem 1
  · have hupdate : plainSGD.update integerOps 0 none 0 1 = some (none, -1) := rfl
    exact not_faithful_of_plain Nat.succ_injective hplain rfl (by decide) hmem (by decide) hupdate
      (by decide)

end MetalNative
