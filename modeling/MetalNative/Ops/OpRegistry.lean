import MetalNative.Core.Tensor
import MetalNative.Lib.Run

namespace MetalNative

open Run

/-!
# The operator registry and its callbacks

`dispatch` and `dispatch_backward` run the function of an operator under the mutex of the
registry, which is not recursive.

* `Code` — what a thread or a function does, as far as the registry sees it.
* `CallsTo` — the value of a function with its tree of calls, with no mutex.
* `OpSystem.step` — threads that share the registry and its mutex.
* `registry_reentrant_iff` — in every state of a run the dispatches come to their end exactly
  where the run enters no function that calls the registry.
-/

/-! ### Operators -/

/-- `OpSchema`. -/
structure OpSchema where
  name : String
  input_types : List MNDType
  output_types : List MNDType
  supports_backward : Bool := false
  deriving DecidableEq, Repr

/-- The functions of an operator: `ForwardFn` and `BackwardFn`. -/
inductive FnKind where
  | forward
  | backward

/-- What a function gives back; `T` are the tensors. -/
abbrev FnKind.Result (T : Type) : FnKind → Type
  | .forward => T
  | .backward => List T

/-- What a thread or a function does: it returns or throws, or it calls the registry and goes on
    with the answer, which is an exception where the call throws. -/
inductive Code (T : Type) : FnKind → Type where
  | ends {c : FnKind} (r : Except MNException (c.Result T)) : Code T c
  | register_op {c : FnKind} (name : String) (schema : OpSchema)
      (forward_fn : Option (List T → Code T .forward))
      (backward_fn : Option (List T → Code T .backward))
      (k : Except MNException Unit → Code T c) : Code T c
  | dispatch {c : FnKind} (name : String) (inputs : List T)
      (k : Except MNException (FnKind.forward.Result T) → Code T c) : Code T c
  | dispatch_backward {c : FnKind} (name : String) (grad_outputs : List T)
      (k : Except MNException (FnKind.backward.Result T) → Code T c) : Code T c
  | has_op {c : FnKind} (name : String) (k : Bool → Code T c) : Code T c
  | list_ops {c : FnKind} (k : List String → Code T c) : Code T c
  | get_schema {c : FnKind} (name : String) (k : Except MNException OpSchema → Code T c) :
      Code T c

/-- The code calls the registry no more. -/
def Code.isLeaf {T : Type} {c : FnKind} : Code T c → Bool
  | .ends _ => true
  | _ => false

/-- `OpEntry`. -/
structure OpEntry (T : Type) where
  schema : OpSchema
  forward_fn : List T → Code T .forward
  backward_fn : Option (List T → Code T .backward)

/-- `OpRegistry::Impl::ops`. -/
abbrev OpTable (T : Type) := List (String × OpEntry T)

variable {T : Type} {c d : FnKind}

namespace OpTable

/-- The entry of an operator, or the exception of the calls that look for it. -/
def entry (ops : OpTable T) (name : String) : Except MNException (OpEntry T) :=
  match ops.lookup name with
  | some e => .ok e
  | none => .error ⟨.InvalidArgument, "OpRegistry: operator '" ++ name ++ "' is not registered"⟩

/-- The function that `dispatch_backward` runs. -/
def backwardFn (ops : OpTable T) (name : String) :
    Except MNException (List T → Code T .backward) :=
  match ops.entry name with
  | .error e => .error e
  | .ok e =>
    match e.backward_fn with
    | some f => .ok f
    | none =>
      .error ⟨.InvalidArgument, "OpRegistry: operator '" ++ name ++ "' does not support backward"⟩

/-- `register_op`. -/
def register (ops : OpTable T) (name : String) (schema : OpSchema)
    (forward_fn : Option (List T → Code T .forward))
    (backward_fn : Option (List T → Code T .backward)) : Except MNException (OpTable T) :=
  if (ops.lookup name).isSome then
    .error ⟨.InvalidArgument, "OpRegistry: operator '" ++ name ++ "' is already registered"⟩
  else
    match forward_fn with
    | none =>
      .error ⟨.InvalidArgument,
        "OpRegistry: forward_fn cannot be null for operator '" ++ name ++ "'"⟩
    | some f => .ok ((name, ⟨schema, f, backward_fn⟩) :: ops)

/-- `list_ops`. -/
def list_ops (ops : OpTable T) : List String := (ops.map Prod.fst).mergeSort (· ≤ ·)

end OpTable

/-- What the first call of a code does. -/
inductive CallStep (T : Type) (c : FnKind) where
  /-- There is no call. -/
  | done
  /-- It comes to its end without a callback. -/
  | answered (ops : OpTable T) (next : Code T c)
  /-- It runs the function of an operator. -/
  | enters {d : FnKind} (callee : Code T d) (k : Except MNException (d.Result T) → Code T c)

/-- The sections of the registry. -/
def Code.call (ops : OpTable T) : Code T c → CallStep T c
  | .ends _ => .done
  | .register_op name schema forward_fn backward_fn k =>
    match ops.register name schema forward_fn backward_fn with
    | .ok ops' => .answered ops' (k (.ok ()))
    | .error e => .answered ops (k (.error e))
  | .dispatch name inputs k =>
    match ops.entry name with
    | .ok e => .enters (e.forward_fn inputs) k
    | .error e => .answered ops (k (.error e))
  | .dispatch_backward name grad_outputs k =>
    match ops.backwardFn name with
    | .ok f => .enters (f grad_outputs) k
    | .error e => .answered ops (k (.error e))
  | .has_op name k => .answered ops (k (ops.lookup name).isSome)
  | .list_ops k => .answered ops (k ops.list_ops)
  | .get_schema name k =>
    match ops.entry name with
    | .ok e => .answered ops (k (.ok e.schema))
    | .error e => .answered ops (k (.error e))

/-- A call of the registry is a step. -/
theorem Code.call_ne_done {code : Code T c} (ops : OpTable T) (h : code.isLeaf = false) :
    code.call ops ≠ .done := by
  cases code with
  | ends r => cases h
  | has_op | list_ops => exact nofun
  | register_op | dispatch | dispatch_backward | get_schema =>
    rw [Code.call]
    split <;> exact nofun

/-- The value of a code and the registry it leaves, by its finite tree of calls. -/
inductive CallsTo : {c : FnKind} → OpTable T → Code T c → OpTable T →
    Except MNException (c.Result T) → Prop where
  | ends {c : FnKind} {ops : OpTable T} {r : Except MNException (c.Result T)} :
      CallsTo ops (.ends r) ops r
  | answered {c : FnKind} {ops ops₁ ops₂ : OpTable T} {code next : Code T c}
      {r : Except MNException (c.Result T)} (h : code.call ops = .answered ops₁ next) :
      CallsTo ops₁ next ops₂ r → CallsTo ops code ops₂ r
  | enters {c d : FnKind} {ops ops₁ ops₂ : OpTable T} {code : Code T c} {callee : Code T d}
      {k : Except MNException (d.Result T) → Code T c} {v : Except MNException (d.Result T)}
      {r : Except MNException (c.Result T)} (h : code.call ops = .enters callee k) :
      CallsTo ops callee ops₁ v → CallsTo ops₁ (k v) ops₂ r → CallsTo ops code ops₂ r

/-! ### Threads -/

/-- What is left to do when the function that runs has returned. -/
inductive Stack (T : Type) : FnKind → Type where
  | main {c : FnKind} : Stack T c
  | call {c d : FnKind} (k : Except MNException (c.Result T) → Code T d) (below : Stack T d) :
      Stack T c

/-- A thread. -/
structure OpThread (T : Type) where
  {kind : FnKind}
  code : Code T kind
  stack : Stack T kind

/-- The thread runs the function of an operator. -/
def OpThread.inside : OpThread T → Bool
  | ⟨_, .main⟩ => false
  | ⟨_, .call _ _⟩ => true

/-- The threads, and the registry with its mutex. -/
structure OpSystem (T : Type) where
  ops : OpTable T
  locked : Bool := false
  threads : List (OpThread T)

namespace OpSystem

/-- The next step of a thread.  A function that returns or throws ends the `lock_guard` of the
    dispatch that runs it; a call locks the mutex first, whoever holds it, and a section without
    a callback comes to its end in one step. -/
def stepThread (s : OpSystem T) (t : ℕ) : OpThread T → Option (OpSystem T)
  | ⟨.ends r, .call k below⟩ =>
    some { s with locked := false, threads := s.threads.set t ⟨k r, below⟩ }
  | ⟨code, stack⟩ =>
    if s.locked then none
    else
      match code.call s.ops with
      | .done => none
      | .answered ops next => some { s with ops := ops, threads := s.threads.set t ⟨next, stack⟩ }
      | .enters callee k =>
        some { s with locked := true, threads := s.threads.set t ⟨callee, .call k stack⟩ }

/-- Thread `t` makes its next step. -/
def step (s : OpSystem T) (t : ℕ) : Option (OpSystem T) :=
  s.threads[t]?.bind (s.stepThread t)

/-- The mutex is free, and no thread runs the function of an operator. -/
structure Quiet (s : OpSystem T) : Prop where
  free : s.locked = false
  outside : ∀ (t : ℕ) (th : OpThread T), s.threads[t]? = some th → th.inside = false

/-- The dispatch whose function thread `t` runs comes to its end, with the value of the function
    and with the mutex free. -/
def Answers (s : OpSystem T) (t : ℕ) : OpThread T → Prop
  | ⟨_, .main⟩ => True
  | ⟨code, .call k below⟩ =>
    ∃ ops v f, CallsTo s.ops code ops v ∧ Reaches step s f ∧ f.locked = false ∧
      f.threads[t]? = some ⟨k v, below⟩

/-- The registry is re-entrant: every dispatch that has begun comes to its end with the value of
    its function, and no call waits for the mutex forever. -/
structure Responsive (s : OpSystem T) : Prop where
  answers : ∀ t th, s.threads[t]? = some th → s.Answers t th
  unblocked : ∀ t th, s.threads[t]? = some th → th.code.isLeaf = false →
    ∃ f, Reaches step s f ∧ f.threads[t]? = some th ∧ (f.step t).isSome

end OpSystem

/-- A function that is entered does not call the registry. -/
def CallStep.Leaf : CallStep T c → Prop
  | .enters callee _ => callee.isLeaf = true
  | _ => True

instance : (e : CallStep T c) → Decidable e.Leaf
  | .enters callee _ => inferInstanceAs (Decidable (callee.isLeaf = true))
  | .done => isTrue trivial
  | .answered _ _ => isTrue trivial

/-- The condition on a step of thread `t`. -/
def EntersLeaf (s : OpSystem T) (t : ℕ) : Prop :=
  ∀ th ∈ s.threads[t]?, (th.code.call s.ops).Leaf

instance (s : OpSystem T) (t : ℕ) : Decidable (EntersLeaf s t) :=
  inferInstanceAs (Decidable (∀ th ∈ s.threads[t]?, _))

/-! ### Steps -/

namespace OpSystem

variable {s s' : OpSystem T} {t : ℕ} {th : OpThread T}

/-- The steps of a thread. -/
inductive Moves (s : OpSystem T) (t : ℕ) : OpThread T → OpSystem T → Prop where
  | leaves {c d : FnKind} {r : Except MNException (c.Result T)}
      {k : Except MNException (c.Result T) → Code T d} {below : Stack T d} :
      Moves s t ⟨.ends r, .call k below⟩
        { s with locked := false, threads := s.threads.set t ⟨k r, below⟩ }
  | answered {c : FnKind} {code next : Code T c} {stack : Stack T c} {ops : OpTable T}
      (hfree : s.locked = false) (hcall : code.call s.ops = .answered ops next) :
      Moves s t ⟨code, stack⟩ { s with ops := ops, threads := s.threads.set t ⟨next, stack⟩ }
  | enters {c d : FnKind} {code : Code T c} {callee : Code T d}
      {k : Except MNException (d.Result T) → Code T c} {stack : Stack T c}
      (hfree : s.locked = false) (hcall : code.call s.ops = .enters callee k) :
      Moves s t ⟨code, stack⟩
        { s with locked := true, threads := s.threads.set t ⟨callee, .call k stack⟩ }

theorem step_cases (h : s.step t = some s') : ∃ th, s.threads[t]? = some th ∧ Moves s t th s' := by
  obtain ⟨th, hth, hs⟩ := Option.bind_eq_some_iff.mp h
  refine ⟨th, hth, ?_⟩
  unfold stepThread at hs
  split at hs
  · obtain rfl := Option.some.inj hs
    exact .leaves
  · split at hs
    · cases hs
    · rename_i hfree
      rw [Bool.not_eq_true] at hfree
      split at hs
      · cases hs
      · obtain rfl := Option.some.inj hs
        exact .answered hfree ‹_›
      · obtain rfl := Option.some.inj hs
        exact .enters hfree ‹_›

/-- A function that has returned gives the mutex back. -/
theorem step_leaves {r : Except MNException (c.Result T)}
    {k : Except MNException (c.Result T) → Code T d} {below : Stack T d}
    (h : s.threads[t]? = some ⟨.ends r, .call k below⟩) :
    s.step t = some { s with locked := false, threads := s.threads.set t ⟨k r, below⟩ } := by
  simp [step, h, stepThread]

/-- A call gets a mutex that is free. -/
theorem step_isSome (hfree : s.locked = false) (h : s.threads[t]? = some th)
    (hcalls : th.code.isLeaf = false) : (s.step t).isSome := by
  have hcall := Code.call_ne_done s.ops hcalls
  simp only [step, h, Option.bind_some]
  unfold stepThread
  split
  · rfl
  · rw [if_neg (by simp [hfree])]
    split
    · exact absurd ‹_› hcall
    · rfl
    · rfl

/-- Nothing moves while the mutex is held by a function that waits for it. -/
theorem step_eq_none (hlocked : s.locked = true) (hth : s.threads[t]? = some th)
    (hcalls : th.inside = true → th.code.isLeaf = false) : s.step t = none := by
  simp only [step, hth, Option.bind_some]
  unfold stepThread
  split
  · exact absurd (hcalls rfl) nofun
  · exact if_pos hlocked

/-- A function under way holds the mutex, it has returned already, and it is the only one. -/
structure Running (s : OpSystem T) (i : ℕ) (r : Except MNException (c.Result T))
    (k : Except MNException (c.Result T) → Code T d) : Prop where
  locked : s.locked = true
  holder : s.threads[i]? = some ⟨.ends r, .call k .main⟩
  outside : ∀ t th, t ≠ i → s.threads[t]? = some th → th.inside = false

/-- The invariant of the runs that enter no function with calls. -/
def RegistryInv (s : OpSystem T) : Prop :=
  s.Quiet ∨ ∃ (c d : FnKind) (i : ℕ) (r : Except MNException (c.Result T))
    (k : Except MNException (c.Result T) → Code T d), s.Running i r k

theorem RegistryInv.quiet (h : s.RegistryInv) (hfree : s.locked = false) : s.Quiet := by
  rcases h with hq | ⟨c, d, i, r, k, hr⟩
  · exact hq
  · rw [hr.locked] at hfree
    cases hfree

/-- What a thread outside has below it. -/
theorem stack_eq_main {code : Code T c} {stack : Stack T c}
    (h : OpThread.inside ⟨code, stack⟩ = false) : stack = .main := by
  cases stack with
  | main => rfl
  | call k below => cases h

/-- A thread outside takes the place of another one. -/
theorem inside_set (hq : ∀ j th, j ≠ t → s.threads[j]? = some th → th.inside = false)
    (hnew : th.inside = false) {j : ℕ} {th' : OpThread T}
    (h : (s.threads.set t th)[j]? = some th') : th'.inside = false := by
  by_cases hj : t = j
  · subst hj
    have hlt : t < (s.threads.set t th).length := (List.getElem?_eq_some_iff.mp h).1
    rw [List.length_set] at hlt
    rw [List.getElem?_set_self hlt] at h
    obtain rfl := Option.some.inj h
    exact hnew
  · rw [List.getElem?_set_ne hj] at h
    exact hq j th' (Ne.symm hj) h

/-- What a run whose functions make no calls keeps. -/
theorem RegistryInv.step (h : s.RegistryInv) (hleaf : EntersLeaf s t)
    (hs : s.step t = some s') : s'.RegistryInv := by
  obtain ⟨th, hth, hmove⟩ := step_cases hs
  cases hmove with
  | leaves =>
    left
    rcases h with hq | ⟨c, d, i, r, k, hr⟩
    · cases hq.outside t _ hth
    · obtain rfl : t = i := by
        by_contra hne
        cases hr.outside t _ hne hth
      have hsame := hr.holder.symm.trans hth
      cases hsame
      exact ⟨rfl, fun j th' h' => inside_set hr.outside rfl h'⟩
  | answered hfree hcall =>
    have hq := h.quiet hfree
    obtain rfl := stack_eq_main (hq.outside t _ hth)
    exact .inl ⟨hfree, fun j th' h' => inside_set (fun j th _ => hq.outside j th) rfl h'⟩
  | @enters c d code callee k stack hfree hcall =>
    have hq := h.quiet hfree
    obtain rfl := stack_eq_main (hq.outside t _ hth)
    have hcallee : callee.isLeaf = true := by
      have := hleaf _ hth
      rwa [hcall] at this
    cases callee with
    | ends r =>
      refine .inr ⟨_, _, t, r, k, rfl, ?_, ?_⟩
      · exact List.getElem?_set_self (List.getElem?_eq_some_iff.mp hth).1
      · intro j th' hj h'
        rw [List.getElem?_set_ne (Ne.symm hj)] at h'
        exact hq.outside j th' h'
    | _ => cases hcallee

/-- **Calls come to their end** while no function with calls is under way. -/
theorem RegistryInv.responsive (h : s.RegistryInv) : s.Responsive := by
  rcases h with hq | ⟨c, d, i, r, k, hr⟩
  · constructor
    · rintro t ⟨code, stack⟩ hth
      obtain rfl := stack_eq_main (hq.outside t _ hth)
      trivial
    · intro t th hth hcalls
      exact ⟨s, .refl, hth, step_isSome hq.free hth hcalls⟩
  · -- the function under way returns, and the mutex is free
    have hstep := step_leaves hr.holder
    have hreach := Runs.tail .refl trivial hstep (G := fun _ _ => True)
    constructor
    · intro t th hth
      by_cases hti : t = i
      · subst hti
        obtain rfl := Option.some.inj (hr.holder.symm.trans hth)
        exact ⟨s.ops, r, _, .ends, hreach, rfl,
          List.getElem?_set_self (List.getElem?_eq_some_iff.mp hth).1⟩
      · obtain ⟨code, stack⟩ := th
        obtain rfl := stack_eq_main (hr.outside t _ hti hth)
        trivial
    · intro t th hth hcalls
      have hti : i ≠ t := by
        rintro rfl
        obtain rfl := Option.some.inj (hr.holder.symm.trans hth)
        cases hcalls
      have hsame := (List.getElem?_set_ne hti (a := ⟨k r, .main⟩)).trans hth
      exact ⟨_, hreach, hsame, step_isSome rfl hsame hcalls⟩

/-- **A function with calls deadlocks**: nothing moves any more once it has been entered. -/
theorem RegistryInv.not_responsive (h : s.RegistryInv) (hs : s.step t = some s')
    (hleaf : ¬ EntersLeaf s t) : ¬ s'.Responsive := by
  intro hresp
  obtain ⟨th, hth, hmove⟩ := step_cases hs
  have hcallee : ¬ (th.code.call s.ops).Leaf := by
    intro hl
    refine hleaf fun th' hth' => ?_
    obtain rfl := Option.some.inj (hth.symm.trans hth')
    exact hl
  cases hmove with
  | leaves => exact hcallee trivial
  | answered hfree hcall =>
    rw [hcall] at hcallee
    exact hcallee trivial
  | @enters c d code callee k stack hfree hcall =>
    have hq := h.quiet hfree
    rw [hcall] at hcallee
    have hcalls : callee.isLeaf = false := Bool.eq_false_iff.mpr hcallee
    have hat := List.getElem?_set_self (a := (⟨callee, .call k stack⟩ : OpThread T))
      (List.getElem?_eq_some_iff.mp hth).1
    have hstuck : ∀ j, OpSystem.step { s with
        locked := true, threads := s.threads.set t ⟨callee, .call k stack⟩ } j = none := by
      intro j
      by_cases hj : t = j
      · subst hj
        exact step_eq_none rfl hat fun _ => hcalls
      · cases hthj : s.threads[j]? with
        | none => simp [OpSystem.step, List.getElem?_set_ne hj, hthj]
        | some thj =>
          refine step_eq_none rfl ((List.getElem?_set_ne hj).trans hthj) fun hin => ?_
          rw [hq.outside j thj hthj] at hin
          cases hin
    obtain ⟨f, hreach, -, hsome⟩ := hresp.unblocked t _ hat hcalls
    have hf : f = _ := hreach.invariant (P := fun f => f = _) rfl fun u a v hu _ hv => by
      rw [hu, hstuck a] at hv
      cases hv
    rw [hf, hstuck t] at hsome
    cases hsome

end OpSystem

/-- **The registry is re-entrant** in every state of a run of any number of threads exactly where
    no step of the run enters a function that calls the registry. -/
theorem registry_reentrant_iff {s final : OpSystem T} {schedule : List ℕ} (hquiet : s.Quiet)
    (hrun : exec OpSystem.step s schedule = some final) :
    Along OpSystem.step OpSystem.Responsive s schedule ↔
      GuardedAlong OpSystem.step EntersLeaf s schedule := by
  refine along_iff_guardedAlong (I := OpSystem.RegistryInv) (F := fun _ _ => True) (.inl hquiet)
    (fun u h => h.responsive) (fun u t v h _ hleaf hs => h.step hleaf hs) ?_
    (guardedAlong_true s schedule) hrun
  intro u t v h _ hs hresp
  by_contra hleaf
  exact h.not_responsive hs hleaf hresp

/-- An operator that adds its inputs, and one that dispatches it. -/
def compositeOps : OpTable ℕ :=
  [("add", ⟨⟨"add", [], [.Float32], false⟩, fun inputs => .ends (.ok inputs.sum), none⟩),
    ("sum", ⟨⟨"sum", [], [.Float32], false⟩, fun inputs => .dispatch "add" inputs .ends, none⟩)]

/-- Two threads that dispatch an operator each. -/
def twoDispatches (first second : String) : OpSystem ℕ where
  ops := compositeOps
  threads := [⟨.dispatch first [1, 2] .ends, .main⟩, ⟨.dispatch second [3] .ends, .main⟩]

theorem twoDispatches_quiet (first second : String) : (twoDispatches first second).Quiet := by
  refine ⟨rfl, fun t th h => ?_⟩
  have hmem : th ∈ (twoDispatches first second).threads := List.mem_of_getElem? h
  simp only [twoDispatches, List.mem_cons, List.not_mem_nil, or_false] at hmem
  obtain rfl | rfl := hmem
  · rfl
  · rfl

theorem registry_reentrant_leaves :
    ∃ final, exec OpSystem.step (twoDispatches "add" "add") [0, 0, 1, 1] = some final ∧
      Along OpSystem.step OpSystem.Responsive (twoDispatches "add" "add") [0, 0, 1, 1] := by
  have hsome : (exec OpSystem.step (twoDispatches "add" "add") [0, 0, 1, 1]).isSome = true := by
    decide
  obtain ⟨final, hrun⟩ := Option.isSome_iff_exists.mp hsome
  have hleaf : GuardedAlong OpSystem.step EntersLeaf (twoDispatches "add" "add") [0, 0, 1, 1] := by
    decide
  exact ⟨final, hrun, (registry_reentrant_iff (twoDispatches_quiet _ _) hrun).mpr hleaf⟩

/-- A composite operator has a value, but once its function runs nothing moves any more: neither
    its own thread nor the other one. -/
theorem composite_operator_deadlocks :
    CallsTo compositeOps (.dispatch (c := .forward) "sum" [1, 2] .ends) compositeOps (.ok 3) ∧
      ∃ s, exec OpSystem.step (twoDispatches "sum" "add") [0] = some s ∧
        s.step 0 = none ∧ s.step 1 = none ∧ ¬ s.Responsive := by
  refine ⟨.enters rfl (.enters rfl .ends .ends) .ends, _, rfl, rfl, rfl, ?_⟩
  have hcalls : ¬ EntersLeaf (twoDispatches "sum" "add") 0 := by decide
  exact OpSystem.RegistryInv.not_responsive (.inl (twoDispatches_quiet _ _)) rfl hcalls

end MetalNative
