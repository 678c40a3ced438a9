import Mathlib.Data.List.Basic

namespace MetalNative

/-!
# The optimizers `MetalAdam`, `MetalAdamW` and `MetalSGD`

A translation of `optim/adam.py` and `optim/sgd.py` over a heap of Python objects: parameters, which
a step assigns to, and the dictionaries `state`, which an optimizer holds by reference.  The arrays
in a dictionary are never written in place, each step puts new ones there, so they are values.

* `ArrayOps` — the arithmetic of arrays and floats, a parameter.
* `UpdateRule.update` — one parameter's turn in `step` of each class.
* `Optimizer.step`, `state_dict`, `load_state_dict` — the methods.
-/

/-- What the optimizers use of NumPy arrays `A` and of Python floats `F`. -/
structure ArrayOps (F A : Type*) where
  /-- `0.0`, `1.0` and the operators on floats. -/
  zero : F
  one : F
  neg : F → F
  sub : F → F → F
  mul : F → F → F
  pow : F → ℕ → F
  eq : F → F → Bool
  lt : F → F → Bool
  le : F → F → Bool
  /-- `f"{x}"`. -/
  format : F → String
  zeros_like : A → A
  add : A → A → A
  subArray : A → A → A
  /-- `c * x`, with a float. -/
  scale : F → A → A
  /-- `x / c` and `x + c`, with a float. -/
  divFloat : A → F → A
  addFloat : A → F → A
  square : A → A
  sqrt : A → A
  div : A → A → A
  maximum : A → A → A
  /-- What `param.numpy()` is after `param.data = Tensor(x, dtype=param.dtype)`, or after
      `param[:] = x`, when it was the first argument before. -/
  assign : A → A → A

abbrev ParamId := ℕ
abbrev DictId := ℕ

/-- `state[param]`. -/
inductive ParamState (A : Type*) where
  | moments (m v : A) (v_max : Option A)
  | momentum_buffer (buf : A)
  deriving DecidableEq, Repr

/-- The objects: `param.numpy()`, `param.grad`, and the dictionaries by identity. -/
structure PyHeap (A : Type*) where
  value : ParamId → A
  grad : ParamId → Option A := fun _ => none
  dict : DictId → ParamId → Option (ParamState A) := fun _ _ => none
  nextDict : DictId := 0

/-- The hyper-parameters of `MetalAdam` and `MetalAdamW`. -/
structure AdamHyper (F : Type*) where
  lr : F
  betas : F × F
  eps : F
  weight_decay : F
  amsgrad : Bool

/-- The hyper-parameters of `MetalSGD`. -/
structure SGDHyper (F : Type*) where
  lr : F
  momentum : F
  dampening : F
  weight_decay : F
  nesterov : Bool

/-- The class of an optimizer and its hyper-parameters. -/
inductive UpdateRule (F : Type*) where
  | adam (h : AdamHyper F)
  | adamW (h : AdamHyper F)
  | sgd (h : SGDHyper F)

/-- The attributes of an optimizer.  A `MetalSGD` has no `_step_count`; there it stays 0. -/
structure Optimizer (F : Type*) where
  rule : UpdateRule F
  param_groups : List (List ParamId)
  state : DictId
  step_count : ℕ := 0

/-- What `state_dict` returns: references to the dictionary and to the groups. -/
structure StateDict where
  state : DictId
  param_groups : List (List ParamId)
  step_count : ℕ

section Methods

variable {F A : Type*} (np : ArrayOps F A)

/-! ### Construction -/

/-- The checks of `MetalAdam.__init__`. -/
def AdamHyper.check (h : AdamHyper F) : Except String Unit := do
  if np.lt h.lr np.zero then
    throw ("Invalid learning rate: " ++ np.format h.lr)
  if np.lt h.eps np.zero then
    throw ("Invalid epsilon value: " ++ np.format h.eps)
  if !(np.le np.zero h.betas.1 && np.lt h.betas.1 np.one) then
    throw ("Invalid beta parameter at index 0: " ++ np.format h.betas.1)
  if !(np.le np.zero h.betas.2 && np.lt h.betas.2 np.one) then
    throw ("Invalid beta parameter at index 1: " ++ np.format h.betas.2)
  if np.lt h.weight_decay np.zero then
    throw ("Invalid weight_decay value: " ++ np.format h.weight_decay)

/-- The checks of `MetalSGD.__init__`. -/
def SGDHyper.check (h : SGDHyper F) : Except String Unit := do
  if np.lt h.lr np.zero then
    throw ("Invalid learning rate: " ++ np.format h.lr)
  if np.lt h.momentum np.zero then
    throw ("Invalid momentum value: " ++ np.format h.momentum)
  if np.lt h.weight_decay np.zero then
    throw ("Invalid weight_decay value: " ++ np.format h.weight_decay)
  if h.nesterov && (np.le h.momentum np.zero || !np.eq h.dampening np.zero) then
    throw "Nesterov momentum requires a momentum and zero dampening"

def UpdateRule.check : UpdateRule F → Except String Unit
  | .adam h | .adamW h => h.check np
  | .sgd h => h.check np

/-- `__init__`: one group, and a new dictionary. -/
def Optimizer.init (rule : UpdateRule F) (params : List ParamId) (w : PyHeap A) :
    Except String (PyHeap A × Optimizer F) :=
  (rule.check np).map fun _ =>
    ({ w with
        dict := Function.update w.dict w.nextDict fun _ => none
        nextDict := w.nextDict + 1 },
      { rule, param_groups := [params], state := w.nextDict })

/-! ### One parameter's turn in `step` -/

/-- The state of a new parameter, or the one that is there; `none` is a `KeyError`. -/
def AdamHyper.momentsOf (h : AdamHyper F) (grad : A) : Option (ParamState A) →
    Option (A × A × Option A)
  | none => some (np.zeros_like grad, np.zeros_like grad,
      if h.amsgrad then some (np.zeros_like grad) else none)
  | some (.moments m v v_max) => some (m, v, v_max)
  | some (.momentum_buffer _) => none

/-- The moments after the gradient, and `m_hat` and `v_hat`. -/
def AdamHyper.moments (h : AdamHyper F) (step_count : ℕ) (grad_np : A) :
    A × A × Option A → Option (ParamState A × A × A)
  | (m, v, v_max) =>
    let m := np.add (np.scale h.betas.1 m) (np.scale (np.sub np.one h.betas.1) grad_np)
    let v := np.add (np.scale h.betas.2 v)
      (np.scale (np.sub np.one h.betas.2) (np.square grad_np))
    let m_hat := np.divFloat m (np.sub np.one (np.pow h.betas.1 step_count))
    let correction := np.sub np.one (np.pow h.betas.2 step_count)
    if h.amsgrad then
      v_max.map fun v_max =>
        let v_max := np.maximum v_max v
        (.moments m v (some v_max), m_hat, np.divFloat v_max correction)
    else some (.moments m v v_max, m_hat, np.divFloat v correction)

/-- `-self.lr * m_hat / (np.sqrt(v_hat) + self.eps)`. -/
def AdamHyper.delta (h : AdamHyper F) (m_hat v_hat : A) : A :=
  np.div (np.scale (np.neg h.lr) m_hat) (np.addFloat (np.sqrt v_hat) h.eps)

/-- `MetalAdam.step`. -/
def AdamHyper.updateAdam (h : AdamHyper F) (step_count : ℕ) (entry : Option (ParamState A))
    (value grad : A) : Option (Option (ParamState A) × A) := do
  let moments ← h.momentsOf np grad entry
  let grad_np :=
    if np.eq h.weight_decay np.zero then grad else np.add grad (np.scale h.weight_decay value)
  let (entry, m_hat, v_hat) ← h.moments np step_count grad_np moments
  return (some entry, np.add value (h.delta np m_hat v_hat))

/-- `MetalAdamW.step`. -/
def AdamHyper.updateAdamW (h : AdamHyper F) (step_count : ℕ) (entry : Option (ParamState A))
    (value grad : A) : Option (Option (ParamState A) × A) := do
  let moments ← h.momentsOf np grad entry
  let (entry, m_hat, v_hat) ← h.moments np step_count grad moments
  let param_np :=
    if np.eq h.weight_decay np.zero then value
    else np.scale (np.sub np.one (np.mul h.lr h.weight_decay)) value
  return (some entry, np.add param_np (h.delta np m_hat v_hat))

/-- `self.state[param]['momentum_buffer']`, created where it is missing. -/
def SGDHyper.bufferOf (grad_np : A) : Option (ParamState A) → Option A
  | none => some (np.zeros_like grad_np)
  | some (.momentum_buffer buf) => some buf
  | some (.moments _ _ _) => none

/-- `MetalSGD.step`. -/
def SGDHyper.update (h : SGDHyper F) (entry : Option (ParamState A)) (value grad : A) :
    Option (Option (ParamState A) × A) :=
  let grad_np :=
    if np.eq h.weight_decay np.zero then grad else np.add grad (np.scale h.weight_decay value)
  if np.eq h.momentum np.zero then
    some (entry, np.subArray value (np.scale h.lr grad_np))
  else
    (SGDHyper.bufferOf np grad_np entry).map fun buf =>
      let buf := np.add (np.scale h.momentum buf)
        (np.scale (np.sub np.one h.dampening) grad_np)
      let grad_np := if h.nesterov then np.add grad_np (np.scale h.momentum buf) else buf
      (some (.momentum_buffer buf), np.subArray value (np.scale h.lr grad_np))

/-- The state and the value of a parameter after its turn, from its state, value and gradient;
    `none` is a `KeyError`. -/
def UpdateRule.update (rule : UpdateRule F) (step_count : ℕ) (entry : Option (ParamState A))
    (value grad : A) :
    Option (Option (ParamState A) × A) :=
  match rule with
  | .adam h => h.updateAdam np step_count entry value grad
  | .adamW h => h.updateAdamW np step_count entry value grad
  | .sgd h => h.update np entry value grad

/-! ### The methods -/

/-- The turn of `param` in `step`. -/
def Optimizer.stepParam (opt : Optimizer F) (w : PyHeap A) (param : ParamId) : Option (PyHeap A) :=
  match w.grad param with
  | none => some w
  | some grad =>
    (opt.rule.update np opt.step_count (w.dict opt.state param) (w.value param) grad).map
      fun (entry, param_np) =>
        { w with
          dict := Function.update w.dict opt.state
            (Function.update (w.dict opt.state) param entry)
          value := Function.update w.value param (np.assign (w.value param) param_np) }

/-- `self._step_count += 1`, where there is one. -/
def Optimizer.count (opt : Optimizer F) : Optimizer F :=
  match opt.rule with
  | .adam _ | .adamW _ => { opt with step_count := opt.step_count + 1 }
  | .sgd _ => opt

/-- `step()`. -/
def Optimizer.step (opt : Optimizer F) (w : PyHeap A) : Option (PyHeap A × Optimizer F) :=
  (opt.param_groups.flatten.foldlM (opt.count.stepParam np) w).map fun w => (w, opt.count)

/-- `state_dict()`. -/
def Optimizer.state_dict (opt : Optimizer F) : StateDict :=
  { state := opt.state, param_groups := opt.param_groups, step_count := opt.step_count }

/-- `load_state_dict(sd)`. -/
def Optimizer.load_state_dict (opt : Optimizer F) (sd : StateDict) : Optimizer F where
  rule := opt.rule
  state := sd.state
  param_groups := sd.param_groups
  step_count := sd.step_count

/-- A training run: before each step all gradients are set. -/
def Optimizer.run (opt : Optimizer F) (w : PyHeap A) :
    List (ParamId → Option A) → Option (PyHeap A × Optimizer F)
  | [] => some (w, opt)
  | grads :: rest =>
    (opt.step np { w with grad := grads }).bind fun (w, opt) => opt.run w rest

end Methods

end MetalNative
