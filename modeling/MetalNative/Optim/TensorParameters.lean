import MetalNative.Optim.Checkpoint

namespace MetalNative

open Optimizer

/-!
# Optimizers over `Tensor` parameters

The end of a parameter's turn in `step` looks at the attributes of the parameter to find out how it
is written.  `class Tensor` of `tensor.py` has neither of the two ways.

* `tensorAttributes` — the names that `hasattr` finds on a `Tensor`.
* `TensorHeap.writeBack`, `Optimizer.tensorStep` — the write-back, and `step()` with what it leaves
  behind when it raises.
* `StepContract` — a step returns with all parameters updated, or raises with everything as it was.
* `tensor_steps_iff` — the runs in which every step meets it.
-/

variable {F A : Type*}

/-! ### `class Tensor` -/

/-- What `class Tensor` defines. -/
def tensorClass : List String :=
  ["__init__", "shape", "dtype", "device", "ndim", "size", "nbytes", "requires_grad", "grad", "item",
    "numpy", "torch", "__dlpack__", "__dlpack_device__", "__repr__", "__str__", "__add__",
    "__radd__", "__sub__", "__rsub__", "__mul__", "__rmul__", "__truediv__", "__matmul__", "__neg__",
    "reshape", "view", "transpose", "contiguous", "sum", "mean", "max", "exp", "log", "sqrt", "abs",
    "relu", "softmax", "__torch_function__"]

/-- What `__init__` sets. -/
def tensorInstance : List String := ["_handle", "_shape", "_dtype", "_requires_grad", "_grad"]

/-- What every Python object has. -/
def objectClass : List String :=
  ["__class__", "__delattr__", "__dict__", "__dir__", "__doc__", "__eq__", "__format__", "__ge__",
    "__getattribute__", "__getstate__", "__gt__", "__hash__", "__init__", "__init_subclass__",
    "__le__", "__lt__", "__module__", "__ne__", "__new__", "__reduce__", "__reduce_ex__", "__repr__",
    "__setattr__", "__sizeof__", "__str__", "__subclasshook__", "__weakref__"]

/-- The names that `hasattr` finds on a `Tensor`. -/
def tensorAttributes : List String := tensorInstance ++ tensorClass ++ objectClass

/-! ### Steps that may raise -/

/-- What `step` raises. -/
inductive StepError where
  | KeyError
  | TypeError (message : String)
  deriving DecidableEq, Repr

/-- The objects, with the attribute `data` that assigning to it gives to a parameter. -/
structure TensorHeap (A : Type*) extends PyHeap A where
  data : ParamId → Option A := fun _ => none

/-- `hasattr(param, name)`. -/
def TensorHeap.hasattr (w : TensorHeap A) (param : ParamId) (name : String) : Bool :=
  tensorAttributes.contains name || (name == "data" && (w.data param).isSome)

section Methods

variable (np : ArrayOps F A)

/-- The end of a turn: `param.data = Tensor(data=param_np, dtype=param.dtype)`, or
    `param[:] = param_np`. -/
def TensorHeap.writeBack (w : TensorHeap A) (param : ParamId) (param_np : A) :
    Option StepError × TensorHeap A :=
  if w.hasattr param "data" then
    (none, { w with
      data := Function.update w.data param (some (np.assign (w.value param) param_np)) })
  else if tensorAttributes.contains "__setitem__" then
    (none, { w with value := Function.update w.value param (np.assign (w.value param) param_np) })
  else (some (.TypeError "'Tensor' object does not support item assignment"), w)

/-- The turn of `param` in `step`.  The dictionary of an optimizer that has not loaded another one's
    has the keys that are looked up. -/
def Optimizer.tensorTurn (opt : Optimizer F) (w : TensorHeap A) (param : ParamId) :
    Option StepError × TensorHeap A :=
  match w.grad param with
  | none => (none, w)
  | some grad =>
    match opt.rule.update np opt.step_count (w.dict opt.state param) (w.value param) grad with
    | none => (some .KeyError, w)
    | some (entry, param_np) =>
      { w with
        dict := Function.update w.dict opt.state
          (Function.update (w.dict opt.state) param entry) : TensorHeap A }.writeBack np param param_np

/-- The loop of `step`: what is raised ends it. -/
def Optimizer.tensorTurns (opt : Optimizer F) :
    List ParamId → TensorHeap A → Option StepError × TensorHeap A
  | [], w => (none, w)
  | param :: params, w =>
    match opt.tensorTurn np w param with
    | (none, w) => opt.tensorTurns params w
    | (some e, w) => (some e, w)

/-- `step()`: what it raises, and what it leaves behind. -/
def Optimizer.tensorStep (opt : Optimizer F) (w : TensorHeap A) :
    Option StepError × TensorHeap A × Optimizer F :=
  let (raised, w) := opt.count.tensorTurns np opt.params w
  (raised, w, opt.count)

/-- The promise of a step from `w` to `w'`: every parameter with a gradient has the value of the update
    rule and every other one is unchanged; or, when it raises, all parameters, the dictionary and the
    count are. -/
def StepContract (opt : Optimizer F) (w : TensorHeap A) (raised : Option StepError)
    (w' : TensorHeap A) (opt' : Optimizer F) : Prop :=
  if raised = none then
    ∃ ideal, opt.step np w.toPyHeap = some ideal ∧ ∀ p, w'.value p =
      if p ∈ opt.params ∧ w.grad p ≠ none then ideal.1.value p else w.value p
  else
    w'.value = w.value ∧ w'.dict opt.state = w.dict opt.state ∧ opt'.step_count = opt.step_count

/-- Every step of a run keeps its promise; before each step the gradients are set, and what is raised
    is caught. -/
def Optimizer.KeepsContract (opt : Optimizer F) (w : TensorHeap A) :
    List (ParamId → Option A) → Prop
  | [] => True
  | grads :: rest =>
    let before := { w with grad := grads }
    let after := opt.tensorStep np before
    StepContract np opt before after.1 after.2.1 after.2.2 ∧
      after.2.2.KeepsContract after.2.1 rest

end Methods

/-! ### Turns -/

section Turns

variable (np : ArrayOps F A) {opt : Optimizer F} {w : TensorHeap A} {p : ParamId}

/-- A `Tensor` is not written in either way. -/
theorem hasattr_data (hdata : w.data p = none) : w.hasattr p "data" = false := by
  have hname : tensorAttributes.contains "data" = false := by decide
  unfold TensorHeap.hasattr
  rw [hname, hdata]
  rfl

theorem writeBack_raises (hdata : w.data p = none) (x : A) : w.writeBack np p x
    = (some (.TypeError "'Tensor' object does not support item assignment"), w) := by
  have hname : tensorAttributes.contains "__setitem__" = false := by decide
  unfold TensorHeap.writeBack
  rw [hasattr_data hdata, hname]
  rfl

theorem tensorTurn_of_none (hgrad : w.grad p = none) : opt.tensorTurn np w p = (none, w) := by
  unfold tensorTurn
  rw [hgrad]

/-- The turn of a parameter with a gradient: its state is updated, and then the write raises. -/
theorem tensorTurn_of_some (hdata : w.data p = none) {g x : A} (hgrad : w.grad p = some g)
    {entry : Option (ParamState A)}
    (hupdate : opt.rule.update np opt.step_count (w.dict opt.state p) (w.value p) g
      = some (entry, x)) :
    ∃ e w', opt.tensorTurn np w p = (some e, w') ∧ w'.value = w.value ∧
      w'.dict = Function.update w.dict opt.state
        (Function.update (w.dict opt.state) p entry) := by
  unfold tensorTurn
  rw [hgrad]
  simp only [hupdate]
  have hraise := writeBack_raises np (p := p) (w := { w with
    dict := Function.update w.dict opt.state (Function.update (w.dict opt.state) p entry) }) hdata x
  exact ⟨_, _, hraise, rfl, rfl⟩

/-- The parameters before the first one with a gradient are passed over. -/
theorem tensorTurns_append {before rest : List ParamId} (h : ∀ q ∈ before, w.grad q = none) :
    opt.tensorTurns np (before ++ rest) w = opt.tensorTurns np rest w := by
  induction before with
  | nil => rfl
  | cons q before ih =>
    rw [List.cons_append, tensorTurns, tensorTurn_of_none np (h q (List.mem_cons_self ..))]
    exact ih fun q' hq' => h q' (List.mem_cons_of_mem _ hq')

theorem tensorStep_of_none (h : ∀ q ∈ opt.params, w.grad q = none) :
    opt.tensorStep np w = (none, w, opt.count) := by
  have hturns : opt.count.tensorTurns np opt.params w = (none, w) := by
    have hall : opt.count.tensorTurns np (opt.params ++ []) w = (none, w) :=
      tensorTurns_append np h
    rwa [List.append_nil] at hall
  unfold tensorStep
  rw [hturns]

/-- A step raises at the first parameter with a gradient. -/
theorem tensorStep_of_some {before rest : List ParamId} (hparams : opt.params = before ++ p :: rest)
    (hbefore : ∀ q ∈ before, w.grad q = none) (hdata : w.data p = none) {g x : A}
    (hgrad : w.grad p = some g) {entry : Option (ParamState A)}
    (hupdate : opt.rule.update np opt.count.step_count (w.dict opt.state p) (w.value p) g
      = some (entry, x)) :
    ∃ e w', opt.tensorStep np w = (some e, w', opt.count) ∧ w'.value = w.value ∧
      w'.dict = Function.update w.dict opt.state
        (Function.update (w.dict opt.state) p entry) := by
  have hupdate' : opt.count.rule.update np opt.count.step_count (w.dict opt.count.state p)
      (w.value p) g = some (entry, x) := by
    rw [count_rule, count_state]
    exact hupdate
  obtain ⟨e, w', hturn, hvalue, hdict⟩ := tensorTurn_of_some np hdata hgrad hupdate'
  rw [count_state] at hdict
  refine ⟨e, w', ?_, hvalue, hdict⟩
  unfold tensorStep
  rw [hparams, tensorTurns_append np hbefore, tensorTurns, hturn]

/-- The first parameter with a gradient, where there is one. -/
theorem exists_first {params : List ParamId} {grads : ParamId → Option A}
    (h : ¬ ∀ q ∈ params, grads q = none) : ∃ before p rest g, params = before ++ p :: rest ∧
      (∀ q ∈ before, grads q = none) ∧ grads p = some g := by
  induction params with
  | nil => simp at h
  | cons q params ih =>
    cases hq : grads q with
    | some g => exact ⟨[], q, params, g, rfl, by simp, hq⟩
    | none =>
      have hrest : ¬ ∀ q' ∈ params, grads q' = none := by
        intro hall
        apply h
        intro q' hq'
        rcases List.mem_cons.mp hq' with rfl | hq'
        · exact hq
        · exact hall q' hq'
      obtain ⟨before, p, rest, g, rfl, hbefore, hgrad⟩ := ih hrest
      refine ⟨q :: before, p, rest, g, rfl, ?_, hgrad⟩
      intro q' hq'
      rcases List.mem_cons.mp hq' with rfl | hq'
      · exact hq
      · exact hbefore q' hq'

/-- A parameter without state has a first update. -/
theorem exists_update_none (rule : UpdateRule F) (t : ℕ) (x g : A) :
    ∃ entry y, rule.update np t none x g = some (entry, y) := by
  cases rule with
  | adam h =>
    cases hams : h.amsgrad <;>
      simp [UpdateRule.update, AdamHyper.updateAdam, AdamHyper.momentsOf, AdamHyper.moments, hams]
  | adamW h =>
    cases hams : h.amsgrad <;>
      simp [UpdateRule.update, AdamHyper.updateAdamW, AdamHyper.momentsOf, AdamHyper.moments, hams]
  | sgd h =>
    by_cases hm : np.eq h.momentum np.zero = true
    · simp [UpdateRule.update, SGDHyper.update, hm]
    · simp [UpdateRule.update, SGDHyper.update, SGDHyper.bufferOf, hm]

end Turns

/-! ### Steps and runs -/

section Runs

variable {np : ArrayOps F A} {opt : Optimizer F} {w : TensorHeap A}
  {gs : List (ParamId → Option A)}

/-- A step in which no parameter has a gradient keeps its promise. -/
theorem contract_of_none (h : ∀ q ∈ opt.params, w.grad q = none) :
    StepContract np opt w none w opt.count := by
  unfold StepContract
  rw [if_pos rfl]
  refine ⟨_, step_of_none np h, fun p => ?_⟩
  split_ifs <;> rfl

/-- An optimizer that keeps state does not keep its promise in its first step with a gradient: the
    count or the dictionary has changed. -/
theorem not_contract_of_keepsState (hkeeps : opt.rule.keepsState np = true)
    (hdata : ∀ q, w.data q = none) (hdict : w.dict opt.state = fun _ => none)
    (h : ¬ ∀ q ∈ opt.params, w.grad q = none) :
    ¬ StepContract np opt w (opt.tensorStep np w).1 (opt.tensorStep np w).2.1
      (opt.tensorStep np w).2.2 := by
  obtain ⟨before, p, rest, g, hparams, hbefore, hgrad⟩ := exists_first h
  obtain ⟨entry, x, hupdate⟩ :=
    exists_update_none np opt.rule opt.count.step_count (w.value p) g
  have hentry := update_isSome hkeeps hupdate
  rw [← congrFun hdict p] at hupdate
  obtain ⟨e, w', hstep, -, hdict'⟩ := tensorStep_of_some np hparams hbefore (hdata p) hgrad hupdate
  rw [hstep]
  unfold StepContract
  rw [if_neg (Option.some_ne_none e)]
  rintro ⟨-, hsame, -⟩
  -- the parameter has got an entry
  have hnow := congrFun hsame p
  rw [hdict', Function.update_self, Function.update_self, hdict] at hnow
  exact hentry hnow

/-- A step of SGD without momentum changes nothing, whether it returns or raises. -/
theorem tensorStep_plain {h : SGDHyper F} (hrule : opt.rule = .sgd h)
    (hm : np.eq h.momentum np.zero = true) (hdata : ∀ q, w.data q = none) :
    (∃ raised, opt.tensorStep np w = (raised, w, opt)) ∧
      StepContract np opt w (opt.tensorStep np w).1 (opt.tensorStep np w).2.1
        (opt.tensorStep np w).2.2 := by
  have hcount : opt.count = opt := by
    unfold count
    rw [hrule]
  by_cases hnone : ∀ q ∈ opt.params, w.grad q = none
  · have hstep := tensorStep_of_none np hnone
    rw [hstep]
    exact ⟨⟨none, by rw [hcount]⟩, contract_of_none hnone⟩
  · obtain ⟨before, p, rest, g, hparams, hbefore, hgrad⟩ := exists_first hnone
    obtain ⟨x, hupdate, -⟩ := update_plain hm opt.count.step_count (w.dict opt.state p) (w.value p) g
    rw [← hrule] at hupdate
    have hturns : opt.tensorStep np w
        = (some (.TypeError "'Tensor' object does not support item assignment"), w, opt) := by
      have hupdate' : opt.count.rule.update np opt.count.step_count (w.dict opt.count.state p)
          (w.value p) g = some (w.dict opt.state p, x) := by
        rw [count_rule, count_state]
        exact hupdate
      have hraise := writeBack_raises np (p := p) (w := { w with
        dict := Function.update w.dict opt.count.state
          (Function.update (w.dict opt.count.state) p (w.dict opt.state p)) }) (hdata p) x
      unfold tensorStep
      rw [hparams, tensorTurns_append np hbefore, tensorTurns, tensorTurn,
        hgrad]
      simp only [hupdate']
      rw [hraise, count_state, Function.update_eq_self, Function.update_eq_self, hcount]
    rw [hturns]
    refine ⟨⟨_, rfl⟩, ?_⟩
    unfold StepContract
    rw [if_neg (Option.some_ne_none _)]
    exact ⟨rfl, rfl, rfl⟩

/-- Every run of SGD without momentum keeps the promise. -/
theorem keepsContract_plain {h : SGDHyper F} (hrule : opt.rule = .sgd h)
    (hm : np.eq h.momentum np.zero = true) (hdata : ∀ q, w.data q = none) :
    opt.KeepsContract np w gs := by
  induction gs generalizing w with
  | nil => trivial
  | cons grads rest ih =>
    obtain ⟨⟨raised, hstep⟩, hcontract⟩ :=
      tensorStep_plain (w := { w with grad := grads }) hrule hm hdata
    refine ⟨hcontract, ?_⟩
    rw [hstep]
    exact ih hdata

/-- A run that begins without state keeps the promise exactly if no parameter ever has a gradient,
    where the optimizer keeps state. -/
theorem keepsContract_iff (hkeeps : opt.rule.keepsState np = true) (hdata : ∀ q, w.data q = none)
    (hdict : w.dict opt.state = fun _ => none) :
    opt.KeepsContract np w gs ↔ ∀ grads ∈ gs, ∀ p ∈ opt.params, grads p = none := by
  induction gs generalizing opt w with
  | nil => simp [KeepsContract]
  | cons grads rest ih =>
    by_cases hnone : ∀ p ∈ opt.params, grads p = none
    · have hstep := tensorStep_of_none np (w := { w with grad := grads }) hnone
      have hrest : opt.count.KeepsContract np { w with grad := grads } rest ↔
          ∀ grads ∈ rest, ∀ p ∈ opt.count.params, grads p = none :=
        ih (by rw [count_rule]; exact hkeeps) hdata (by rw [count_state]; exact hdict)
      rw [count_params] at hrest
      rw [List.forall_mem_cons, ← hrest]
      show StepContract np opt _ _ _ _ ∧ _ ↔ _
      rw [hstep]
      exact and_congr_left fun _ => iff_of_true (contract_of_none hnone) hnone
    · constructor
      · rintro ⟨hcontract, -⟩
        exact absurd hcontract
          (not_contract_of_keepsState (w := { w with grad := grads }) hkeeps hdata hdict hnone)
      · intro hall
        exact absurd (hall grads (List.mem_cons_self ..)) hnone

end Runs

/-- **Steps over `Tensor` parameters.**  In a run of a new optimizer every step returns with all
    parameters updated, or raises with everything as it was, exactly if the optimizer is SGD without
    momentum or no parameter ever has a gradient: a `Tensor` is not written to, and the state has
    been advanced by then. -/
theorem tensor_steps_iff {np : ArrayOps F A} {rule : UpdateRule F} {params : List ParamId}
    {w₀ w : PyHeap A} {opt : Optimizer F}
    (hinit : Optimizer.init np rule params w₀ = .ok (w, opt)) (gs : List (ParamId → Option A)) :
    opt.KeepsContract np { w with data := fun _ => none : TensorHeap A } gs ↔
      rule.keepsState np = false ∨ ∀ grads ∈ gs, ∀ p ∈ params, grads p = none := by
  obtain ⟨-, -, hrule, hparams, hdict⟩ := init_ok hinit
  cases hkeeps : rule.keepsState np with
  | true =>
    rw [← hrule] at hkeeps
    rw [← hparams, keepsContract_iff hkeeps (fun _ => rfl) hdict]
    simp
  | false =>
    refine iff_of_true ?_ (.inl rfl)
    cases rule with
    | adam h => cases hkeeps
    | adamW h => cases hkeeps
    | sgd h =>
      have hm : np.eq h.momentum np.zero = true := by simpa [UpdateRule.keepsState] using hkeeps
      exact keepsContract_plain hrule hm fun _ => rfl

/-- SGD without momentum: the step raises. -/
theorem tensor_steps_plain : ∃ w opt,
    Optimizer.init integerOps plainSGD [0] zeroHeap = .ok (w, opt) ∧
      opt.KeepsContract integerOps { w with data := fun _ => none : TensorHeap ℤ }
        [onlyGrad 0 1] := by
  have hinit := @init_integerOps plainSGD rfl [0]
  exact ⟨_, _, hinit, (tensor_steps_iff hinit [onlyGrad 0 1]).mpr (.inl rfl)⟩

/-- Adam over one parameter with a gradient: the step raises, the parameter is as it was, and it has
    been counted. -/
theorem adam_step_half_done : ∃ w opt w' opt',
    Optimizer.init integerOps memorylessAdam [0] zeroHeap = .ok (w, opt) ∧
      opt.tensorStep integerOps
        { w with grad := onlyGrad 0 1, data := fun _ => none : TensorHeap ℤ }
        = (some (.TypeError "'Tensor' object does not support item assignment"), w', opt') ∧
      w'.value 0 = 0 ∧ opt.step_count = 0 ∧ opt'.step_count = 1 ∧
      ¬ opt.KeepsContract integerOps { w with data := fun _ => none : TensorHeap ℤ }
        [onlyGrad 0 1] := by
  have hinit := @init_integerOps memorylessAdam rfl [0]
  refine ⟨_, _, _, _, hinit, rfl, rfl, rfl, rfl, ?_⟩
  rintro ⟨hcontract, -⟩
  exact absurd hcontract.2.2 (by decide)

end MetalNative
