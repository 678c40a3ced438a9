import MetalNative.Dispatch.EncoderValidity
import MetalNative.Dispatch.Synchronize

namespace MetalNative

open Run Pipeline List Option

/-!
# Nested `BatchScope` and `EncoderScope` guards on one thread

The system is that of the command pipeline with one thread, beside what its client sees: the two
flags when a guard was entered, the guard that has just ended, and the command buffer of every
operation encoded so far.

* `NestedScopes` — when a guard ends, the flags are those of its entry, an enclosing encoder scope
  has a usable encoder, and nothing is left uncommitted after the outermost guard.
* `ScopeSafeAt` — the condition on a step: no `BatchScope` ends inside an encoder scope, and an
  encoder scope gets its buffers.
* `ScopeInv` — the flags, the guards and what they saved, point by point.
* `nested_scopes` — every run of such steps.
* `batch_in_encoder_scope` — a `BatchScope` inside an `EncoderScope`.
-/

/-! ### The system -/

/-- The pipeline with one client, the flags `lazy_commit` and `encoder_scope_active` at the entry
    of every guard that is open (the innermost first), those of the guard that has just ended, and
    the buffer of every operation, `none` when that buffer had been committed before. -/
structure ScopeSystem where
  sys : System
  entered : List (Bool × Bool) := []
  ended : Option (Bool × Bool) := none
  encoded : List (Option ObjId) := []

namespace ScopeSystem

/-- The entries of the open guards after a step of the thread: a constructor begins, throws, or a
    destructor returns. -/
def nextEntered (p : Pipeline) (th th' : Thread) (entered : List (Bool × Bool)) :
    List (Bool × Bool) :=
  match th.pc, th'.pc with
  | .idle, .bsRead | .idle, .esReadScope => (p.lazyCommit, p.encoderScopeActive) :: entered
  | .esSetScope _ _, _ =>
    if th'.scopes.length = th.scopes.length then entered.tail else entered
  | .restoreLazy _, _ => entered.tail
  | _, _ => entered

/-- The entry of the guard whose destructor returns with this step. -/
def nextEnded (th : Thread) (entered : List (Bool × Bool)) : Option (Bool × Bool) :=
  match th.pc with
  | .restoreLazy _ => entered.head?
  | _ => none

/-- The command buffer that a call hands out with this step, for one operation:
    `current_encoder` by its encoder, `current_buffer` by itself. -/
def handsOut (env : Env) (p' : Pipeline) (th th' : Thread) : Option ObjId :=
  match th.pc, th'.pc with
  | .ceLock, .idle => th'.encoder.map Encoder.buffer
  | .ceCommit, .idle => if env.createOk then th'.encoder.map Encoder.buffer else none
  | .currentBuffer, .idle => if p'.hasActive then p'.activeBuffer else none
  | _, _ => none

/-- The operations after a step that hands out `buf`. -/
def nextEncoded (p' : Pipeline) (encoded : List (Option ObjId)) :
    Option ObjId → List (Option ObjId)
  | some buf => (if buf ∈ p'.committed then none else some buf) :: encoded
  | none => encoded

/-- One step of the pipeline, and what its client sees of it. -/
def step (s : ScopeSystem) (a : Action) : Option ScopeSystem :=
  (MetalNative.step s.sys a).map fun sys =>
    match a with
    | .complete _ => { s with sys, ended := none }
    | .run t env =>
      match s.sys.threads[t]?, sys.threads[t]? with
      | some th, some th' =>
        { sys
          entered := nextEntered s.sys.pipe th th' s.entered
          ended := nextEnded th s.entered
          encoded := nextEncoded sys.pipe s.encoded (handsOut env sys.pipe th th') }
      | _, _ => { s with sys }

/-- One client, which may have made the pipeline lazy before. -/
def init (bufferCount : ℕ) (lazy : Bool) (prog : List Op) : ScopeSystem where
  sys := ⟨{ bufferCount, lazyCommit := lazy }, [{ prog }]⟩

end ScopeSystem

/-- The calls that operators make, and those that make and end guards. -/
def Op.nested : Op → Bool
  | .beginBatch | .beginEncoder | .endScope => true
  | .currentEncoder | .recordOp | .commitAndContinue | .currentBuffer => true
  | .setAutoFlushThreshold _ | .setEncoderMaxOps _ => true
  | _ => false

def Scope.isEncoder : Scope → Bool
  | .batch _ => false
  | .encoder _ _ => true

/-- An encoder scope is open. -/
def encoderIn (scopes : List Scope) : Bool := scopes.any Scope.isEncoder

/-- What holds when a guard has just ended. -/
structure NestedScopes (s : ScopeSystem) : Prop where
  restored : ∀ flags ∈ s.ended,
    s.sys.pipe.lazyCommit = flags.1 ∧ s.sys.pipe.encoderScopeActive = flags.2
  usable : s.ended ≠ none → ∀ th ∈ s.sys.threads, encoderIn th.scopes = true →
    ∃ e, s.sys.pipe.activeEncoder = some e ∧ OpenOnActive s.sys.pipe e
  flushed : s.ended ≠ none → ∀ th ∈ s.sys.threads, th.scopes = [] →
    ∀ op ∈ s.encoded, ∃ buf ∈ op, buf ∈ s.sys.pipe.committed

/-! ### The condition -/

/-- The condition on the step from `pc`: no guard flushes under an active encoder; the buffer after
    a long encoder is created, and so is the one that an encoder scope needs; an encoder is opened,
    and an operation encoded, on an active buffer that is not committed. -/
def ScopeSafeAt (p : Pipeline) (env : Env) : PC → Prop
  | .flCommit _ => p.activeEncoder = none
  | .ceCommit => env.createOk = true
  | .esSetScope _ _ => p.activeEncoder = none →
    (p.hasActive = false → env.createOk = true) ∧
      (p.hasActive = true → ∀ buf ∈ p.activeBuffer, buf ∉ p.committed)
  | .edLock outer _ => outer = true → p.hasActive = true → ∀ buf ∈ p.activeBuffer, buf ∉ p.committed
  | .currentBuffer => p.hasActive = true → ∀ buf ∈ p.activeBuffer, buf ∉ p.committed
  | _ => True

instance (p : Pipeline) (env : Env) (pc : PC) : Decidable (ScopeSafeAt p env pc) := by
  apply @PC.casesOn (fun pc => Decidable (ScopeSafeAt p env pc)) pc <;> intros <;>
    unfold ScopeSafeAt <;> infer_instance

/-- The condition on a step of the system. -/
def ScopeSafe (s : ScopeSystem) : Action → Prop
  | .run t env => ∀ th ∈ s.sys.threads[t]?, ScopeSafeAt s.sys.pipe env th.pc
  | .complete _ => True

instance (s : ScopeSystem) : ∀ a : Action, Decidable (ScopeSafe s a)
  | .run t env =>
    inferInstanceAs (Decidable (∀ th ∈ s.sys.threads[t]?, ScopeSafeAt s.sys.pipe env th.pc))
  | .complete _ => inferInstanceAs (Decidable True)

/-! ### The flags at every point -/

/-- `lazy_commit` inside these guards, when it is `base` outside. -/
def lazyIn (base : Bool) : List Scope → Bool
  | [] => base
  | _ :: _ => true

/-- The flags at the entry of each of these guards. -/
def levels (base : Bool) : List Scope → List (Bool × Bool)
  | [] => []
  | _ :: rest => (lazyIn base rest, encoderIn rest) :: levels base rest

/-- Every guard has saved the flags of its entry. -/
def Saved (base : Bool) : List Scope → Prop
  | [] => True
  | .batch prev :: rest => prev = lazyIn base rest ∧ Saved base rest
  | .encoder prevEncoder prev :: rest =>
    prevEncoder = encoderIn rest ∧ prev = lazyIn base rest ∧ Saved base rest

namespace PC

/-- The points of a destructor, and of a constructor after it has set the flag. -/
def forcedLazy : PC → Bool
  | .esSetScope _ _ | .edLock _ _ | .flLock (.endScope _) | .flCommit (.endScope _)
  | .restoreLazy _ => true
  | _ => false

/-- The points of a constructor or a destructor. -/
def inGuard : PC → Bool
  | .bsRead | .bsSet _ | .esReadScope | .esReadLazy _ | .esLock _ _ | .esSetScope _ _
  | .edLock _ _ | .flLock (.endScope _) | .flCommit (.endScope _) | .restoreLazy _ => true
  | _ => false

/-- The points where `encoder_scope_active` has been seen to be false, or `lazy_commit` has. -/
def outside : PC → Bool
  | .cacThreshold _ | .cacReset | .cacAcquire | .cacLocked | .roThreshold _ | .roExchange _
  | .flLock .done | .flLock .resetCount | .flCommit .done | .flCommit .resetCount => true
  | _ => false

/-- What a call of a constructor or a destructor carries along is what the flags were, and
    `current_encoder` commits only inside an encoder scope. -/
def Carries (base : Bool) (scopes : List Scope) : PC → Prop
  | .bsSet prev | .flLock (.endScope prev) | .flCommit (.endScope prev) | .restoreLazy prev =>
    prev = lazyIn base scopes
  | .esReadLazy prevEncoder => prevEncoder = encoderIn scopes
  | .esLock prevEncoder prev | .esSetScope prevEncoder prev | .edLock prevEncoder prev =>
    prevEncoder = encoderIn scopes ∧ prev = lazyIn base scopes
  | .ceCommit => encoderIn scopes = true
  | _ => True

/-- The points of the calls of a client of guards. -/
def nested : PC → Bool
  | .cmAcquire | .cmLocked | .syLock | .syCommit | .syTake _ | .syGive _ => false
  | _ => true

/-- The encoder scope that is being ended still has its encoder. -/
def closing : PC → Bool
  | .edLock _ _ => true
  | _ => false

end PC

/-- The flags, the guards and what has been saved, where the thread stands. -/
structure ScopeFlags (base : Bool) (p : Pipeline) (entered : List (Bool × Bool)) (th : Thread) :
    Prop where
  prog : ∀ op ∈ th.prog, op.nested = true
  pc : th.pc.nested = true
  saved : Saved base th.scopes
  carries : th.pc.Carries base th.scopes
  lazy : p.lazyCommit = (th.pc.forcedLazy || lazyIn base th.scopes)
  scope : p.encoderScopeActive = (th.pc.closing || encoderIn th.scopes)
  entered : entered =
    if th.pc.inGuard then (lazyIn base th.scopes, encoderIn th.scopes) :: levels base th.scopes
    else levels base th.scopes
  outside : th.pc.outside = true → encoderIn th.scopes = false
  encoder : p.activeEncoder.isSome = (th.pc.closing || encoderIn th.scopes)
  buffer : p.hasActive = true → p.activeBuffer ≠ none

open ScopeSystem

section Flags

variable {base : Bool} {env : Env} {p p' : Pipeline} {th th' : Thread}
  {entered entered' : List (Bool × Bool)}

@[simp] theorem commitActive_lazyCommit (p : Pipeline) :
    p.commitActive.lazyCommit = p.lazyCommit := by
  unfold commitActive
  split <;> rfl

@[simp] theorem commitActive_encoderScopeActive (p : Pipeline) :
    p.commitActive.encoderScopeActive = p.encoderScopeActive := by
  unfold commitActive
  split <;> rfl

@[simp] theorem openEncoder_lazyCommit (env : Env) (p : Pipeline) :
    (p.openEncoder env).lazyCommit = p.lazyCommit := by
  unfold openEncoder
  split <;> rfl

@[simp] theorem openEncoder_encoderScopeActive (env : Env) (p : Pipeline) :
    (p.openEncoder env).encoderScopeActive = p.encoderScopeActive := by
  unfold openEncoder
  split <;> rfl

theorem openEncoder_activeBuffer (env : Env) (p : Pipeline) :
    (p.openEncoder env).activeBuffer = p.activeBuffer := (openEncoder_fixed env p).2.2.2.2.2.1

/-- An encoder is opened when there is a buffer to open it on. -/
theorem openEncoder_isSome (env : Env) (h : p.activeBuffer ≠ none) :
    (p.openEncoder env).activeEncoder.isSome = true := by
  unfold openEncoder
  split
  · rename_i hnone
    exact absurd hnone h
  · rfl

@[simp] theorem updateEncoderTiming_lazyCommit (env : Env) (p : Pipeline) :
    (p.updateEncoderTiming env).lazyCommit = p.lazyCommit := by
  unfold updateEncoderTiming
  split_ifs <;> rfl

@[simp] theorem updateEncoderTiming_encoderScopeActive (env : Env) (p : Pipeline) :
    (p.updateEncoderTiming env).encoderScopeActive = p.encoderScopeActive := by
  unfold updateEncoderTiming
  split_ifs <;> rfl

@[simp] theorem endEncoding_lazyCommit (env : Env) (p : Pipeline) (e : Encoder) :
    (p.endEncoding env e).lazyCommit = p.lazyCommit := by
  simp [endEncoding]

@[simp] theorem endEncoding_encoderScopeActive (env : Env) (p : Pipeline) (e : Encoder) :
    (p.endEncoding env e).encoderScopeActive = p.encoderScopeActive := by
  simp [endEncoding]

@[simp] theorem closeEncoder_lazyCommit (env : Env) (p : Pipeline) :
    (p.closeEncoder env).lazyCommit = p.lazyCommit := by
  unfold closeEncoder
  split <;> simp

/-- A step inside a call that leaves the flags alone. -/
theorem ScopeFlags.move (hf : ScopeFlags base p entered th) (hprog : th'.prog = th.prog)
    (hscopes : th'.scopes = th.scopes) (hnested : th'.pc.nested = true)
    (hcarries : th'.pc.Carries base th.scopes)
    (hforced : th'.pc.forcedLazy = th.pc.forcedLazy) (hclosing : th'.pc.closing = th.pc.closing)
    (hguard : th'.pc.inGuard = th.pc.inGuard)
    (hout : th'.pc.outside = true → encoderIn th.scopes = false)
    (hlazy : p'.lazyCommit = p.lazyCommit)
    (hscope : p'.encoderScopeActive = p.encoderScopeActive)
    (hencoder : p'.activeEncoder.isSome = p.activeEncoder.isSome)
    (hbuffer : p'.hasActive = true → p'.activeBuffer ≠ none) :
    ScopeFlags base p' entered th' where
  prog := hprog ▸ hf.prog
  pc := hnested
  saved := hscopes ▸ hf.saved
  carries := hscopes ▸ hcarries
  lazy := by rw [hlazy, hforced, hscopes, hf.lazy]
  scope := by rw [hscope, hclosing, hscopes, hf.scope]
  entered := by rw [hguard, hscopes, hf.entered]
  outside := by rw [hscopes]; exact hout
  encoder := by rw [hencoder, hclosing, hscopes, hf.encoder]
  buffer := hbuffer

/-- Only constructors and destructors force a flag. -/
theorem PC.flags_of_not_inGuard {pc : PC} (h : pc.inGuard = false) :
    pc.forcedLazy = false ∧ pc.closing = false := by
  cases pc with
  | flLock ret | flCommit ret => cases ret <;> first | exact ⟨rfl, rfl⟩ | cases h
  | _ => first | exact ⟨rfl, rfl⟩ | cases h

/-- A step between points outside the guards. -/
theorem ScopeFlags.rest (hf : ScopeFlags base p entered th) (q : Pipeline) (pc : PC)
    (hat : th.pc.inGuard = false) (hnested : pc.nested = true)
    (hcarries : pc.Carries base th.scopes) (hto : pc.inGuard = false)
    (hout : pc.outside = true → encoderIn th.scopes = false)
    (hlazy : q.lazyCommit = p.lazyCommit) (hscope : q.encoderScopeActive = p.encoderScopeActive)
    (hencoder : q.activeEncoder.isSome = p.activeEncoder.isSome)
    (hbuffer : q.hasActive = true → q.activeBuffer ≠ none) (e : Option Encoder) :
    ScopeFlags base q entered { th with pc, encoder := e } := by
  obtain ⟨hforced, hclosing⟩ := PC.flags_of_not_inGuard hat
  obtain ⟨hforced', hclosing'⟩ := PC.flags_of_not_inGuard hto
  exact hf.move rfl rfl hnested hcarries (hforced'.trans hforced.symm)
    (hclosing'.trans hclosing.symm) (hto.trans hat.symm) hout hlazy hscope hencoder hbuffer

/-- Where `lazy_commit` is false no guard is open. -/
theorem encoderIn_of_lazyIn {scopes : List Scope} (h : lazyIn base scopes = false) :
    encoderIn scopes = false := by
  cases scopes with
  | nil => rfl
  | cons scope rest => cases h

/-- A call begins. -/
theorem ScopeFlags.begin (hf : ScopeFlags base p entered th) (hpc : th.pc = .idle)
    (h : BodyStep env p th .idle p' th') :
    ScopeFlags base p' (nextEntered p th th' entered) th' := by
  obtain ⟨prog, pc, scopes, encoder⟩ := th
  obtain rfl : pc = .idle := hpc
  have ⟨hops, _, hsaved, _, hlazy, hscope, hentered, _, hencoder, hbuffer⟩ := hf
  have hrest : ∀ {op : Op} {ops : List Op}, prog = op :: ops →
      op.nested = true ∧ ∀ o ∈ ops, o.nested = true := by
    rintro op ops rfl
    exact forall_mem_cons.mp hops
  cases h with
  | call hprog hop =>
    rename_i op ops pc
    obtain ⟨hnested, hrest⟩ := hrest hprog
    have hfirst : ScopeFlags base p entered ⟨ops, .idle, scopes, encoder⟩ :=
      { hf with prog := hrest }
    -- the calls that open or end no guard
    have hcall : pc.nested = true → pc.Carries base scopes → pc.inGuard = false →
        pc.outside = false → ScopeFlags base p entered ⟨ops, pc, scopes, encoder⟩ := by
      intro hnested hcarries hguard hout
      refine hfirst.rest p pc rfl hnested hcarries hguard ?_ rfl rfl rfl hbuffer _
      exact fun h => absurd (h.symm.trans hout) Bool.noConfusion
    cases op with
    | beginBatch | beginEncoder =>
      -- the constructors note the flags
      cases hop
      exact
        { prog := hrest
          pc := rfl
          saved := hsaved
          carries := trivial
          lazy := hlazy
          scope := hscope
          entered := by
            show (p.lazyCommit, p.encoderScopeActive) :: entered = _
            rw [hlazy, hscope, hentered]
            rfl
          outside := fun h => by cases h
          encoder := hencoder
          buffer := hbuffer }
    | currentBuffer | commitAndContinue | recordOp | currentEncoder | setEncoderMaxOps =>
      cases hop
      exact hcall rfl trivial rfl rfl
    | setAutoFlushThreshold | endScope => cases hop
    | _ => cases hnested
  | setLazy hprog => cases (hrest hprog).1
  | setThreshold hprog =>
    exact { hf with prog := (hrest hprog).2 }
  | endBatch hprog hscopes =>
    obtain rfl : scopes = _ := hscopes
    exact
      { prog := (hrest hprog).2
        pc := rfl
        saved := hsaved.2
        carries := hsaved.1
        lazy := hlazy
        scope := hscope
        entered := hentered
        outside := fun h => by cases h
        encoder := hencoder
        buffer := hbuffer }
  | endEncoder hprog hscopes =>
    obtain rfl : scopes = _ := hscopes
    exact
      { prog := (hrest hprog).2
        pc := rfl
        saved := hsaved.2.2
        carries := ⟨hsaved.1, hsaved.2.1⟩
        lazy := hlazy
        scope := hscope
        entered := hentered
        outside := fun h => by cases h
        encoder := hencoder
        buffer := hbuffer }
  | goes h => cases h

/-- Only a call that begins, the last step of `EncoderScope` and the end of a destructor change the
    notes. -/
def PC.notes : PC → Bool
  | .idle | .esSetScope _ _ | .restoreLazy _ => true
  | _ => false

theorem nextEntered_eq (h : th.pc.notes = false) :
    nextEntered p th th' entered = entered := by
  cases hpc : th.pc with
  | idle | esSetScope | restoreLazy =>
    rw [hpc] at h
    cases h
  | _ => simp only [nextEntered, hpc]

/-- `flush` returns to its caller. -/
theorem ScopeFlags.flush (hf : ScopeFlags base p entered th) {ret : FlushRet}
    (hpc : th.pc = .flLock ret ∨ th.pc = .flCommit ret)
    (hlazy : p'.lazyCommit = p.lazyCommit)
    (hscope : p'.encoderScopeActive = p.encoderScopeActive)
    (hencoder : p'.activeEncoder = p.activeEncoder)
    (hbuffer : p'.hasActive = true → p'.activeBuffer ≠ none) :
    ScopeFlags base p' entered (th.goto ret.next) := by
  have hcarries := hf.carries
  have hout := hf.outside
  cases ret <;> rcases hpc with hpc | hpc
  all_goals
    rw [hpc] at hcarries hout
    refine hf.move rfl rfl rfl ?_ (by rw [hpc]; rfl) (by rw [hpc]; rfl) (by rw [hpc]; rfl) ?_ hlazy
      hscope (by rw [hencoder]) hbuffer
    · exact hcarries
    · exact fun h => by first | exact hout rfl | cases h

/-- The destructor of `EncoderScope` ends its encoder; an outer scope gets another one. -/
theorem ScopeFlags.edLock (hf : ScopeFlags base p entered th) {outer prev : Bool}
    (hpc : th.pc = .edLock outer prev) (hhas : p.activeEncoder ≠ none → p.hasActive = true)
    {q : Pipeline} (hq : q = { p.closeEncoder env with encoderScopeActive := outer }) :
    ScopeFlags base (if outer && q.hasActive then q.openEncoder env else q) entered
      (th.goto (if outer then .restoreLazy prev else .flLock (.endScope prev))) := by
  obtain ⟨hops, -, hsaved, hcarries, hlazy, hscope, hentered, -, hencoder, hbuffer⟩ := hf
  rw [hpc] at hcarries hlazy hscope hentered hencoder
  have hclosed := closeEncoder_sameMetal env p
  have hactive : p.hasActive = true := hhas (isSome_iff_ne_none.mp hencoder)
  have hbuf : q.activeBuffer ≠ none := by
    rw [hq]
    exact hclosed.activeBuffer.trans_ne (hbuffer hactive)
  have hqhas : q.hasActive = true := by
    rw [hq]
    exact hclosed.hasActive.trans hactive
  have hqlazy : q.lazyCommit = true := by
    rw [hq]
    exact (closeEncoder_lazyCommit env p).trans hlazy
  have hqscope : q.encoderScopeActive = outer := by rw [hq]
  cases outer with
  | true =>
    simp only [Bool.true_and, hqhas, if_true]
    exact
      { prog := hops
        pc := rfl
        saved := hsaved
        carries := hcarries.2
        lazy := by rw [openEncoder_lazyCommit]; exact hqlazy
        scope := by rw [openEncoder_encoderScopeActive, hqscope]; exact hcarries.1
        entered := hentered
        outside := fun h => by cases h
        encoder := by rw [openEncoder_isSome env hbuf]; exact hcarries.1
        buffer := fun _ => by rw [openEncoder_activeBuffer]; exact hbuf }
  | false =>
    simp only [Bool.false_and, Bool.false_eq_true, if_false]
    exact
      { prog := hops
        pc := rfl
        saved := hsaved
        carries := hcarries.2
        lazy := hqlazy
        scope := hqscope.trans hcarries.1
        entered := hentered
        outside := fun h => by cases h
        encoder := by
          rw [hq]
          exact (congrArg isSome hclosed.activeEncoder).trans hcarries.1
        buffer := fun _ => hbuf }

/-- `EncoderScope` has set the flags, and opens an encoder when none is active. -/
theorem ScopeFlags.esSetScope (hf : ScopeFlags base p entered th) {outer prev : Bool}
    (hpc : th.pc = .esSetScope outer prev) (hsafe : ScopeSafeAt p env (.esSetScope outer prev))
    (h : BodyStep env p th (.esSetScope outer prev) p' th') :
    ScopeFlags base p' (nextEntered p th th' entered) th' := by
  obtain ⟨hops, -, hsaved, hcarries, hlazy, hscope, hentered, -, hencoder, hbuffer⟩ := hf
  rw [hpc] at hcarries hlazy hscope hentered hencoder
  -- the guard is on the stack, and an encoder is active
  have hdone : ∀ q : Pipeline, q.lazyCommit = true → q.encoderScopeActive = true →
      q.activeEncoder.isSome = true → (q.hasActive = true → q.activeBuffer ≠ none) →
      ScopeFlags base q (nextEntered p th (th.retScope (.encoder outer prev))
        entered) (th.retScope (.encoder outer prev)) := by
    intro q h1 h2 h3 h4
    have hnext : nextEntered p th (th.retScope (.encoder outer prev)) entered =
        entered := by
      simp [nextEntered, hpc, Thread.retScope]
    rw [hnext]
    exact
      { prog := hops
        pc := rfl
        saved := ⟨hcarries.1, hcarries.2, hsaved⟩
        carries := trivial
        lazy := h1
        scope := h2
        entered := hentered
        outside := fun h => by cases h
        encoder := h3
        buffer := h4 }
  have hopen : ∀ q : Pipeline, q.lazyCommit = true → q.encoderScopeActive = true →
      q.activeBuffer ≠ none → ScopeFlags base (q.openEncoder env)
        (nextEntered p th (th.retScope (.encoder outer prev)) entered)
        (th.retScope (.encoder outer prev)) := by
    intro q h1 h2 h3
    refine hdone _ ?_ ?_ (openEncoder_isSome env h3) fun _ => ?_
    · rw [openEncoder_lazyCommit, h1]
    · rw [openEncoder_encoderScopeActive, h2]
    · rw [openEncoder_activeBuffer]
      exact h3
  cases h with
  | esOld henc hactive => exact hopen _ hlazy rfl (hbuffer hactive)
  | esNew => exact hopen _ hlazy rfl (some_ne_none _)
  | esKeep hsome => exact hdone _ hlazy rfl (isSome_iff_ne_none.mpr hsome) hbuffer
  | esFail henc hno hok =>
    rw [(hsafe henc).1 hno] at hok
    cases hok
  | goes h => cases h

/-- Control moves on between points outside the guards. -/
theorem ScopeFlags.goes (hf : ScopeFlags base p entered th) (pc : PC)
    (hat : th.pc.inGuard = false) (hnested : pc.nested = true)
    (hcarries : pc.Carries base th.scopes) (hto : pc.inGuard = false)
    (hout : pc.outside = true → encoderIn th.scopes = false) :
    ScopeFlags base p entered (th.goto pc) :=
  hf.rest p pc hat hnested hcarries hto hout rfl rfl rfl hf.buffer th.encoder

/-- A call returns, outside the guards; what it leaves of the pipeline is `q`. -/
theorem ScopeFlags.returns (hf : ScopeFlags base p entered th) (q : Pipeline)
    (hat : th.pc.inGuard = false) (hlazy : q.lazyCommit = p.lazyCommit)
    (hscope : q.encoderScopeActive = p.encoderScopeActive)
    (hencoder : q.activeEncoder.isSome = p.activeEncoder.isSome)
    (hbuffer : q.hasActive = true → q.activeBuffer ≠ none) : ScopeFlags base q entered th.ret :=
  hf.rest q .idle hat rfl trivial rfl (fun h => by cases h) hlazy hscope hencoder hbuffer
    th.encoder

/-- The steps that only decide where a call goes on. -/
theorem ScopeFlags.goesOn (hf : ScopeFlags base p entered th) {pc : PC}
    (h : p.Goes th.pc pc) : ScopeFlags base p entered (th.goto pc) := by
  have hout := hf.outside
  have hlazy := hf.lazy
  have hscope := hf.scope
  have hcarries := hf.carries
  have hnested := hf.pc
  obtain ⟨prog, at', scopes, encoder⟩ := th
  dsimp only at h
  cases h with
  | cacAcquire | cacFlush | roFlush => exact hf.goes _ rfl rfl trivial rfl fun _ => hout rfl
  | cacLazy | roLazy => exact hf.goes _ rfl rfl trivial rfl fun h => by cases h
  | cacEager hoff =>
    -- an eager commit is made outside all guards
    refine hf.goes _ rfl rfl trivial rfl fun _ => @encoderIn_of_lazyIn base _ ?_
    simpa [PC.forcedLazy, hoff] using hlazy.symm
  | cacOutside hoff | roOutside hoff =>
    refine hf.goes _ rfl rfl trivial rfl fun _ => ?_
    simpa [PC.closing, hoff] using hscope.symm
  | flActive =>
    rename_i ret _
    refine hf.move rfl rfl rfl ?_ (by cases ret <;> rfl) rfl (by cases ret <;> rfl) ?_ rfl rfl rfl
      hf.buffer
    · cases ret <;> exact hcarries
    · cases ret <;> exact hout
  | flNone => exact hf.flush (.inl rfl) rfl rfl rfl hf.buffer
  | bsRead => exact hf.move rfl rfl rfl hlazy rfl rfl rfl (fun h => by cases h) rfl rfl rfl hf.buffer
  | esReadScope =>
    exact hf.move rfl rfl rfl hscope rfl rfl rfl (fun h => by cases h) rfl rfl rfl hf.buffer
  | esReadLazy =>
    exact hf.move rfl rfl rfl ⟨hcarries, hlazy⟩ rfl rfl rfl (fun h => by cases h) rfl rfl rfl
      hf.buffer
  | cmAcquire | cmLeak | syActive | syNone | syTake | syTaken | syUnderflow => cases hnested
  | _ => exact hf.returns p rfl rfl rfl rfl hf.buffer

/-- **Step.**  Every step that meets the condition keeps the flags in order. -/
theorem ScopeFlags.body (hf : ScopeFlags base p entered th)
    (hhas : p.activeEncoder ≠ none → p.hasActive = true) (hsafe : ScopeSafeAt p env th.pc)
    (h : MetalNative.body env p th = some (p', th')) :
    ScopeFlags base p' (nextEntered p th th' entered) th' := by
  obtain ⟨hcbuf, hchas, -, -, hcenc, -⟩ := commitActive_fixed p
  have hcommit : p.commitActive.hasActive = true → p.commitActive.activeBuffer ≠ none := by
    rw [hchas, hcbuf]
    exact hf.buffer
  have hstep := body_step h
  have ⟨hops, hnested, hsaved, hcarries, hlazy, hscope, hentered, hout, hencoder, hbuffer⟩ := hf
  cases hnotes : th.pc.notes with
  | true =>
    cases hpc : th.pc with
    | idle => exact hf.begin hpc (hpc ▸ hstep)
    | esSetScope outer prev => exact hf.esSetScope hpc (hpc ▸ hsafe) (hpc ▸ hstep)
    | restoreLazy prev =>
      rw [hpc] at hstep hcarries hscope hentered hencoder
      cases hstep with
      | goes hgoes => cases hgoes
      | restoreLazy =>
        simp only [nextEntered, hpc, hentered]
        exact
          { prog := hops
            pc := rfl
            saved := hsaved
            carries := trivial
            lazy := hcarries
            scope := hscope
            entered := rfl
            outside := fun h => by cases h
            encoder := hencoder
            buffer := hbuffer }
    | _ =>
      rw [hpc] at hnotes
      cases hnotes
  | false =>
    rw [nextEntered_eq hnotes]
    obtain ⟨prog, pc, scopes, encoder⟩ := th
    have hstep : BodyStep env p _ pc p' th' := hstep
    cases hstep with
    | goes hgoes => exact hf.goesOn hgoes
    | edLock hq => exact hf.edLock rfl hhas hq
    | bsSet =>
      exact
        { prog := hops
          pc := rfl
          saved := ⟨hcarries, hsaved⟩
          carries := trivial
          lazy := rfl
          scope := hscope
          entered := hentered
          outside := fun h => by cases h
          encoder := hencoder
          buffer := hbuffer }
    | esLock =>
      exact
        { prog := hops
          pc := rfl
          saved := hsaved
          carries := hcarries
          lazy := rfl
          scope := hscope
          entered := hentered
          outside := fun h => by cases h
          encoder := hencoder
          buffer := hbuffer }
    | flFail hr =>
      rcases hr with rfl | rfl
      all_goals
        exact hf.move rfl rfl rfl trivial rfl rfl rfl (fun h => by cases h) (by simp) (by simp)
          (by rw [hcenc]) hcommit
    | flCommit =>
      exact hf.flush (.inr rfl) (commitActive_lazyCommit p) (commitActive_encoderScopeActive p)
        hcenc fun _ => some_ne_none _
    | noBuffer => exact hf.returns p rfl rfl rfl rfl hbuffer
    | newBuffer => exact hf.returns _ rfl rfl rfl rfl fun _ => some_ne_none _
    | cacCount =>
      exact hf.rest { p with opCount := p.opCount + 1 } (.cacLazy _) rfl rfl trivial rfl
        (fun h => by cases h) rfl rfl rfl hbuffer encoder
    | roCount =>
      exact hf.rest { p with opCount := p.opCount + 1 } (.roLazy _) rfl rfl trivial rfl
        (fun h => by cases h) rfl rfl rfl hbuffer encoder
    | roExchange =>
      exact hf.rest { p with opCount := 0 } (.flLock .done) rfl rfl trivial rfl
        (fun _ => hout rfl) rfl rfl rfl hbuffer encoder
    | cacReset | maxOps => exact hf.returns _ rfl rfl rfl rfl hbuffer
    | cacFail => exact hf.returns _ rfl (by simp) (by simp) (by rw [hcenc]) hcommit
    | cacCommit =>
      exact hf.returns _ rfl (commitActive_lazyCommit p) (commitActive_encoderScopeActive p)
        (congrArg isSome hcenc) fun _ => some_ne_none _
    | ceLong hactive =>
      have hend := endEncoding_sameMetal env p ‹_›
      refine hf.rest _ .ceCommit rfl rfl (hscope.symm.trans hactive) rfl
        (fun h => by cases h) (by simp) (by simp) (congrArg isSome hend.activeEncoder)
        (fun hhas => ?_) encoder
      rw [hend.activeBuffer]
      exact hbuffer (hend.hasActive.symm.trans hhas)
    | ceHeld =>
      exact hf.rest { p with encoderOpCount := p.encoderOpCount + 1 } .idle rfl rfl
        trivial rfl (fun h => by cases h) rfl rfl rfl hbuffer (some _)
    | ceNone =>
      exact hf.rest p .idle rfl rfl trivial rfl (fun h => by cases h) rfl rfl rfl hbuffer none
    | ceFail hok =>
      have hcreate : env.createOk = true := hsafe
      rw [hcreate] at hok
      cases hok
    | ceNew hok hq =>
      rename_i q
      have hlong : p.activeEncoder.isSome = true := hencoder.trans hcarries
      have hbuf : q.activeBuffer ≠ none := by
        rw [hq, openEncoder_activeBuffer]
        exact some_ne_none _
      refine hf.rest { q with encoderOpCount := q.encoderOpCount + 1 } .idle rfl rfl trivial rfl
        (fun h => by cases h) ?_ ?_ ?_ (fun _ => hbuf) _
      · rw [hq]
        exact (openEncoder_lazyCommit env _).trans (commitActive_lazyCommit p)
      · rw [hq]
        exact (openEncoder_encoderScopeActive env _).trans (commitActive_encoderScopeActive p)
      · rw [hq, hlong]
        exact openEncoder_isSome env (some_ne_none _)
    | call | setLazy | setThreshold | endBatch | endEncoder | esOld | esNew | esKeep | esFail
    | restoreLazy => cases hnotes
    | _ => cases hnested

/-- How a destructor comes to its last step. -/
theorem body_restoreLazy {prev : Bool} (h : MetalNative.body env p th = some (p', th'))
    (hnested : th.pc.nested = true) (hpc' : th'.pc = .restoreLazy prev) :
    th.pc = .edLock true prev ∨
      th.pc = .flLock (.endScope prev) ∧ p.hasActive = false ∧ p' = p ∨
      th.pc = .flCommit (.endScope prev) ∧ p'.committed = p.commitActive.committed := by
  have hret : ∀ {ret : FlushRet}, ret.next = .restoreLazy prev → ret = .endScope prev := by
    intro ret heq
    cases ret <;> cases heq
    rfl
  obtain ⟨prog, pc, scopes, encoder⟩ := th
  have hstep : BodyStep env p _ pc p' th' := body_step h
  cases hstep with
  | edLock =>
    rename_i outer _ _ _
    cases outer <;> cases hpc'
    exact .inl rfl
  | flCommit =>
    obtain rfl := hret hpc'
    exact .inr (.inr ⟨rfl, rfl⟩)
  | goes hgoes =>
    obtain rfl : _ = PC.restoreLazy prev := hpc'
    generalize hlast : PC.restoreLazy prev = last at hgoes
    cases hgoes with
    | flNone hno =>
      obtain rfl := hret hlast.symm
      exact .inr (.inl ⟨rfl, hno, rfl⟩)
    | _ => cases hlast
  | call hprog hop =>
    rename_i op _ _
    obtain rfl : _ = PC.restoreLazy prev := hpc'
    cases op <;> cases hop
  | _ => cases hpc'

end Flags

/-! ### The buffers -/

/-- The active buffer is given up only when it is committed. -/
theorem Effect.underway {p p' : Pipeline} {pc pc' : PC} (h : Effect p p' pc pc') {buf : ObjId}
    (hbuf : p.Underway buf) : p'.Underway buf := by
  have hcommit : buf ∈ p.commitActive.committed := by
    rcases hbuf with hbuf | ⟨-, hactive⟩
    · unfold commitActive
      split
      · exact hbuf
      · exact mem_cons_of_mem _ hbuf
    · rw [(commitActive_some hactive).1]
      exact mem_cons_self ..
  have hsame : p'.committed = p.committed → p'.activeBuffer = p.activeBuffer →
      p'.hasActive = p.hasActive → p'.Underway buf := by
    intro h1 h2 h3
    unfold Underway
    rw [h1, h2, h3]
    exact hbuf
  have hnone : p.hasActive = false → p'.committed = p.committed → p'.Underway buf := by
    intro h1 h2
    rcases hbuf with hbuf | ⟨hhas, -⟩
    · exact .inl (h2 ▸ hbuf)
    · rw [h1] at hhas
      cases hhas
  cases h with
  | quiet same | leak same | release _ _ _ same | underflow _ _ _ _ same
  | rollover _ _ _ _ _ same =>
    exact hsame same.committed same.activeBuffer same.hasActive
  | create _ hno _ same | openNew _ _ _ _ hno _ same => exact hnone hno same.committed
  | commit _ _ _ _ _ _ _ same | rolloverFail _ _ same | rolloverOk _ _ same =>
    exact .inl (same.committed.symm ▸ hcommit)
  | openOld _ _ _ _ _ _ env same =>
    obtain ⟨-, -, -, -, h1, h2, h3, -⟩ := openEncoder_fixed env p
    exact hsame (same.committed.trans h1) (same.activeBuffer.trans h2) (same.hasActive.trans h3)
  | close _ _ _ _ env q hq same =>
    obtain ⟨-, -, -, -, h1, h2, h3, -⟩ := openEncoder_fixed env q
    split_ifs at same
    · exact hsame (same.committed.trans (h1.trans hq.committed))
        (same.activeBuffer.trans (h2.trans hq.activeBuffer))
        (same.hasActive.trans (h3.trans hq.hasActive))
    · exact hsame (same.committed.trans hq.committed) (same.activeBuffer.trans hq.activeBuffer)
        (same.hasActive.trans hq.hasActive)

/-! ### Runs -/

/-- The operations are in committed buffers or in the active one, and the guards are in order. -/
structure ScopeInv (base : Bool) (s : ScopeSystem) : Prop where
  enc : EncInv s.sys
  thread : ∃ th, s.sys.threads = [th]
  flags : ∀ th ∈ s.sys.threads, ScopeFlags base s.sys.pipe s.entered th
  encoded : ∀ op ∈ s.encoded, ∃ buf ∈ op, s.sys.pipe.Underway buf
  flushed : ∀ th ∈ s.sys.threads, ∀ prev, th.pc = .restoreLazy prev →
    encoderIn th.scopes = false → ∀ op ∈ s.encoded, ∃ buf ∈ op, buf ∈ s.sys.pipe.committed
  ended : ∀ flags ∈ s.ended, ∀ th ∈ s.sys.threads, th.pc = .idle ∧
    flags = (lazyIn base th.scopes, encoderIn th.scopes) ∧
      (encoderIn th.scopes = false →
        ∀ op ∈ s.encoded, ∃ buf ∈ op, buf ∈ s.sys.pipe.committed)

/-- A step of the thread, taken apart. -/
structure ScopeRan (s : ScopeSystem) (t : ℕ) (env : Env) (s' : ScopeSystem) (th th' : Thread)
    (p' : Pipeline) : Prop where
  step : MetalNative.step s.sys (.run t env) = some s'.sys
  ran : Ran s.sys t s'.sys th th' p'
  body : MetalNative.body env (running s.sys.pipe th.pc) th = some (p', th')
  entered : s'.entered = ScopeSystem.nextEntered s.sys.pipe th th' s.entered
  ended : s'.ended = ScopeSystem.nextEnded th s.entered
  encoded : s'.encoded = ScopeSystem.nextEncoded s'.sys.pipe s.encoded
    (ScopeSystem.handsOut env s'.sys.pipe th th')

theorem scopeStep_run {s s' : ScopeSystem} {t : ℕ} {env : Env}
    (h : ScopeSystem.step s (.run t env) = some s') :
    ∃ th th' p', ScopeRan s t env s' th th' p' := by
  obtain ⟨sys, hstep, rfl⟩ := map_eq_some_iff.mp h
  obtain ⟨th, th', p', hran, hbody⟩ := step_run hstep
  refine ⟨th, th', p', ?_⟩
  simp only [hran.at_t, hran.thread_self]
  exact ⟨hstep, hran, hbody, rfl, rfl, rfl⟩

section Runs

variable {base : Bool} {s : ScopeSystem} {s' : System} {t : ℕ} {env : Env} {th th' : Thread}
  {p' : Pipeline}

theorem ScopeInv.encoderSafe (hi : ScopeInv base s) {a : Action} (hg : ScopeSafe s a) :
    EncoderSafe s.sys a := by
  cases a with
  | complete buf => trivial
  | run t env =>
    intro th hth
    have hf := hi.flags th (mem_of_getElem? hth)
    have hsafe := hg th hth
    have hpc' := hf.pc
    cases hpc : th.pc with
    | cacLocked =>
      have henc := hf.encoder
      rw [hpc, hf.outside (by rw [hpc]; rfl)] at henc
      show s.sys.pipe.activeEncoder = none
      simpa [PC.closing] using henc
    | cmLocked | syCommit =>
      rw [hpc] at hpc'
      cases hpc'
    | flCommit ret =>
      rw [hpc] at hsafe
      exact hsafe
    | ceCommit =>
      rw [hpc] at hsafe
      exact hsafe
    | esSetScope prevEncoder prev =>
      rw [hpc] at hsafe
      exact fun hnone => (hsafe hnone).2
    | edLock prevEncoder prev =>
      rw [hpc] at hsafe
      exact hsafe
    | _ => trivial

/-- What `current_encoder` or `current_buffer` hands out is the active buffer, not yet committed. -/
theorem ScopeInv.handsOut (hi : ScopeInv base s) (hg : ScopeSafe s (.run t env))
    (hstep : MetalNative.step s.sys (.run t env) = some s') (hran : Ran s.sys t s' th th' p')
    (hbody : body env (running s.sys.pipe th.pc) th = some (p', th')) {buf : ObjId}
    (hbuf : handsOut env s'.pipe th th' = some buf) :
    buf ∉ s'.pipe.committed ∧ s'.pipe.Underway buf := by
  have henc' := hi.enc.step (hi.encoderSafe hg) hstep
  have hreturns := hi.enc.returns (hi.encoderSafe hg) hstep
  have hidle : ∀ x ∈ s'.threads, x.pc ≠ .ceCommit → ¬ Rolling s' := by
    intro x hx hne
    obtain ⟨y, hy⟩ := hi.thread
    rintro ⟨z, hz, hzpc⟩
    have hlen : s'.threads.length = 1 := by rw [hran.threads_eq, hy, length_set]; rfl
    obtain ⟨w, hw⟩ := length_eq_one_iff.mp hlen
    rw [hw, mem_singleton] at hx hz
    exact hne (hx.trans hz.symm ▸ hzpc)
  have hencoder : (th.pc = .ceLock ∨ th.pc = .ceCommit) → th'.pc = .idle →
      th'.encoder.map Encoder.buffer = some buf →
      buf ∉ s'.pipe.committed ∧ s'.pipe.Underway buf := by
    intro hpc hpc' hmap
    obtain ⟨e, he, rfl⟩ := map_eq_some_iff.mp hmap
    obtain ⟨hopen, hactive, hfresh⟩ := hreturns th hran.at_t hpc th' hran.thread_self hpc' e he
    have hmem' := mem_of_getElem? hran.thread_self
    have hr := hidle th' hmem' (by rw [hpc']; exact PC.noConfusion)
    rw [henc'.pipe.settled hr, mem_toList] at hopen
    have hne : s'.pipe.activeEncoder ≠ none := by
      rw [mem_def.mp hopen]
      exact some_ne_none e
    exact ⟨hfresh, .inr ⟨henc'.pipe.has_buffer hne, hactive⟩⟩
  unfold ScopeSystem.handsOut at hbuf
  split at hbuf
  · rename_i hpc hpc'
    exact hencoder (.inl hpc) hpc' hbuf
  · rename_i hpc hpc'
    split_ifs at hbuf
    exact hencoder (.inr hpc) hpc' hbuf
  · rename_i hpc hpc'
    split_ifs at hbuf with hhas
    refine ⟨?_, .inr ⟨hhas, hbuf⟩⟩
    have hsafe := hg th hran.at_t
    rw [hpc] at hsafe
    rw [hran.pipe_eq] at hbuf hhas ⊢
    cases body_at hpc hbody with
    | goes hgoes =>
      cases hgoes with
      | bufferHeld hactive => exact hsafe hactive buf hbuf
    | noBuffer hno =>
      rw [hno] at hhas
      cases hhas
    | newBuffer =>
      obtain rfl : s.sys.pipe.nextObject = buf := some.inj hbuf
      exact fun hmem => (hi.enc.pipe.committed_lt _ hmem).false
  · cases hbuf

/-- What the steps leave of the operations: the earlier ones are where they were, and a new one is
    in the active buffer. -/
theorem ScopeInv.nextEncoded (hi : ScopeInv base s) (hg : ScopeSafe s (.run t env))
    (hstep : MetalNative.step s.sys (.run t env) = some s') (hran : Ran s.sys t s' th th' p')
    (hbody : body env (running s.sys.pipe th.pc) th = some (p', th')) :
    ∀ op ∈ ScopeSystem.nextEncoded s'.pipe s.encoded (ScopeSystem.handsOut env s'.pipe th th'),
      ∃ buf ∈ op, s'.pipe.Underway buf := by
  have hold : ∀ op ∈ s.encoded, ∃ buf ∈ op, s'.pipe.Underway buf := by
    intro op hop
    obtain ⟨buf, hbuf, hunder⟩ := hi.encoded op hop
    refine ⟨buf, hbuf, ?_⟩
    rw [hran.pipe_eq]
    have hrun : (running s.sys.pipe th.pc).Underway buf := hunder
    exact hran.effect.underway hrun
  cases hout : ScopeSystem.handsOut env s'.pipe th th' with
  | none => exact hold
  | some buf =>
    obtain ⟨hfresh, hunder⟩ := hi.handsOut hg hstep hran hbody hout
    intro op hop
    rw [ScopeSystem.nextEncoded, if_neg hfresh] at hop
    rcases mem_cons.mp hop with rfl | hop
    · exact ⟨buf, rfl, hunder⟩
    · exact hold op hop

/-- Where the thread has not been handed a buffer the operations are those from before. -/
theorem handsOut_eq_none (hpc : th.pc ≠ .ceLock ∧ th.pc ≠ .ceCommit ∧ th.pc ≠ .currentBuffer)
    (p : Pipeline) : handsOut env p th th' = none := by
  unfold handsOut
  split
  · rename_i h _
    exact absurd h hpc.1
  · rename_i h _
    exact absurd h hpc.2.1
  · rename_i h _
    exact absurd h hpc.2.2
  · rfl

/-- **Step.**  Every step that meets the condition keeps the invariant. -/
theorem ScopeInv.step (hi : ScopeInv base s) {a : Action} {s'' : ScopeSystem} (hg : ScopeSafe s a)
    (h : ScopeSystem.step s a = some s'') : ScopeInv base s'' := by
  obtain ⟨x, hx⟩ := hi.thread
  cases a with
  | complete buf =>
    obtain ⟨s', hstep, rfl⟩ := map_eq_some_iff.mp h
    have henc := hi.enc.step (hi.encoderSafe hg) hstep
    obtain ⟨-, -, rfl⟩ := step_complete hstep
    refine ⟨henc, hi.thread, fun th hth => ?_, hi.encoded, hi.flushed, fun flags h => by cases h⟩
    have hf := hi.flags th hth
    exact ⟨hf.prog, hf.pc, hf.saved, hf.carries, hf.lazy, hf.scope, hf.entered, hf.outside,
      hf.encoder, hf.buffer⟩
  | run t env =>
    obtain ⟨th, th', p', hstep, hran, hbody, hentered', hended', hencoded'⟩ := scopeStep_run h
    have henc := hi.enc.step (hi.encoderSafe hg) hstep
    have hth : th ∈ s.sys.threads := mem_of_getElem? hran.at_t
    have hf := hi.flags th hth
    have hthreads : s''.sys.threads = [th'] := by
      have hself := hran.thread_self
      have hlen : s''.sys.threads.length = 1 := by
        rw [hran.threads_eq, hx, length_set]
        rfl
      obtain ⟨y, hy⟩ := length_eq_one_iff.mp hlen
      rw [hy] at hself ⊢
      have hmem := mem_of_getElem? hself
      rw [mem_singleton.mp hmem]
    have hrun : ScopeFlags base (running s.sys.pipe th.pc) s.entered th :=
      ⟨hf.prog, hf.pc, hf.saved, hf.carries, hf.lazy, hf.scope, hf.entered, hf.outside, hf.encoder,
        hf.buffer⟩
    have hsafe : ScopeSafeAt (running s.sys.pipe th.pc) env th.pc := by
      have hsafe := hg th hran.at_t
      cases hpc : th.pc <;> rw [hpc] at hsafe <;> exact hsafe
    have hflags := hrun.body hi.enc.pipe.has_buffer hsafe hbody
    have hencoded := hi.nextEncoded hg hstep hran hbody
    have hpipe := hran.pipe_eq
    refine
      { enc := henc
        thread := ⟨th', hthreads⟩
        flags := fun y hy => ?_
        encoded := by
          rw [hencoded']
          exact hencoded
        flushed := fun y hy prev hpc' hout => ?_
        ended := fun flags hflags' y hy => ?_ }
    · rw [hthreads, mem_singleton] at hy
      subst hy
      rw [hpipe, hentered']
      exact ⟨hflags.prog, hflags.pc, hflags.saved, hflags.carries, hflags.lazy, hflags.scope,
        hflags.entered, hflags.outside, hflags.encoder, hflags.buffer⟩
    · rw [hthreads, mem_singleton] at hy
      subst hy
      have hfrom := body_restoreLazy hbody hf.pc hpc'
      have hnone : ScopeSystem.handsOut env s''.sys.pipe th y = none := by
        refine handsOut_eq_none ?_ _
        rcases hfrom with hpc | ⟨hpc, -⟩ | ⟨hpc, -⟩ <;> rw [hpc] <;>
          exact ⟨PC.noConfusion, PC.noConfusion, PC.noConfusion⟩
      rw [hencoded', hnone]
      intro op hop
      obtain ⟨buf, hbuf, hunder⟩ := hi.encoded op hop
      refine ⟨buf, hbuf, ?_⟩
      rw [hpipe]
      rcases hfrom with hpc | ⟨hpc, hno, rfl⟩ | ⟨hpc, hcommitted⟩
      · -- an inner encoder scope has ended
        have hcarries := hf.carries
        rw [hpc] at hcarries
        have hscopes : y.scopes = th.scopes := by
          cases body_at hpc hbody with
          | edLock => rfl
          | goes hgoes => cases hgoes
        rw [hscopes, ← hcarries.1] at hout
        cases hout
      · rcases hunder with hmem | ⟨hhas, -⟩
        · exact hmem
        · rw [show s.sys.pipe.hasActive = false from hno] at hhas
          cases hhas
      · show buf ∈ p'.committed
        rw [hcommitted]
        rcases hunder with hmem | ⟨-, hactive⟩
        · unfold commitActive
          split
          · exact hmem
          · exact mem_cons_of_mem _ hmem
        · have hactive' : (running s.sys.pipe th.pc).activeBuffer = some buf := hactive
          rw [(commitActive_some hactive').1]
          exact mem_cons_self ..
    · rw [hthreads, mem_singleton] at hy
      subst hy
      rw [hended'] at hflags'
      have hends : ∃ prev, th.pc = .restoreLazy prev := by
        unfold ScopeSystem.nextEnded at hflags'
        split at hflags'
        · rename_i prev hpc
          exact ⟨prev, hpc⟩
        · cases hflags'
      obtain ⟨prev, hpc⟩ := hends
      have hnone : ScopeSystem.handsOut env s''.sys.pipe th y = none := by
        refine handsOut_eq_none ?_ _
        rw [hpc]
        exact ⟨PC.noConfusion, PC.noConfusion, PC.noConfusion⟩
      have hentered := hf.entered
      rw [hpc] at hentered
      have hfl : flags = (lazyIn base th.scopes, encoderIn th.scopes) := by
        simp only [ScopeSystem.nextEnded, hpc, hentered] at hflags'
        exact (some.inj hflags').symm
      have hflushed := hi.flushed th hth prev hpc
      cases body_at hpc hbody with
      | goes hgoes => cases hgoes
      | restoreLazy =>
        refine ⟨rfl, hfl, fun hout => ?_⟩
        rw [hencoded', hnone, hpipe]
        exact hflushed hout

end Runs

theorem ScopeInv.init (bufferCount : ℕ) (lazy : Bool) {prog : List Op}
    (hprog : ∀ op ∈ prog, op.nested = true) :
    ScopeInv lazy (init bufferCount lazy prog) where
  enc :=
    { mutex := ⟨fun t th hth => by
          obtain rfl : th = { prog } := mem_singleton.mp (mem_of_getElem? hth)
          exact iff_of_false Bool.false_ne_true (by simp [ScopeSystem.init]), fun t h => by cases h⟩
      pipe := .of_none (fun _ h => absurd h not_mem_nil) (fun _ h => by cases h) rfl rfl }
  thread := ⟨_, rfl⟩
  flags th hth := by
    obtain rfl : th = { prog } := mem_singleton.mp hth
    exact ⟨hprog, rfl, trivial, trivial, rfl, rfl, rfl, fun _ => rfl, rfl, fun h => by cases h⟩
  encoded op hop := absurd hop not_mem_nil
  flushed th hth prev hpc := by
    obtain rfl : th = { prog } := mem_singleton.mp hth
    cases hpc
  ended flags h := by cases h

theorem ScopeInv.nestedScopes {lazy : Bool} {s : ScopeSystem} (hi : ScopeInv lazy s) :
    NestedScopes s := by
  obtain ⟨th, hth⟩ := hi.thread
  have hmem : th ∈ s.sys.threads := by rw [hth]; exact mem_singleton_self th
  have hf := hi.flags th hmem
  refine
    { restored := fun flags hflags => ?_
      usable := fun hended x hx hin => ?_
      flushed := fun hended x hx hout => ?_ }
  · obtain ⟨hpc, rfl, -⟩ := hi.ended flags hflags th hmem
    have hlazy := hf.lazy
    have hscope := hf.scope
    rw [hpc] at hlazy hscope
    exact ⟨hlazy, hscope⟩
  · obtain ⟨flags, hflags⟩ := ne_none_iff_exists'.mp hended
    rw [hth, mem_singleton] at hx
    subst hx
    obtain ⟨hpc, -⟩ := hi.ended flags hflags x hmem
    have hsome := hf.encoder
    rw [hpc, hin] at hsome
    obtain ⟨e, he⟩ := isSome_iff_exists.mp hsome
    refine ⟨e, he, hi.enc.pipe.openOnActive ?_ he⟩
    rintro ⟨y, hy, hypc⟩
    rw [hth, mem_singleton] at hy
    subst hy
    rw [hpc] at hypc
    cases hypc
  · obtain ⟨flags, hflags⟩ := ne_none_iff_exists'.mp hended
    obtain ⟨-, -, hall⟩ := hi.ended flags hflags x hx
    exact hall (by rw [hout]; rfl)

/-- A guard is about to flush while an encoder is active. -/
def FlushesUnderEncoder (s : ScopeSystem) : Prop :=
  ∃ th ret, s.sys.threads[0]? = some th ∧ th.pc = .flCommit ret ∧ s.sys.pipe.activeEncoder ≠ none

/-- It is a `BatchScope` inside an encoder scope, and leaves that scope with an encoder on a
    committed buffer. -/
theorem ScopeInv.not_nestedScopes {base : Bool} {s s₁ s₂ : ScopeSystem} (hi : ScopeInv base s)
    (hflush : FlushesUnderEncoder s) {env env' : Env}
    (h₁ : ScopeSystem.step s (.run 0 env) = some s₁)
    (h₂ : ScopeSystem.step s₁ (.run 0 env') = some s₂) : ¬ NestedScopes s₂ := by
  obtain ⟨th, ret, hth, hpc, hne⟩ := hflush
  have hmem := mem_of_getElem? hth
  have hf := hi.flags th hmem
  obtain ⟨e, he⟩ := ne_none_iff_exists'.mp hne
  have hin : encoderIn th.scopes = true := by
    have henc := hf.encoder
    rw [hpc, he] at henc
    exact henc.symm
  have hbuf : s.sys.pipe.activeBuffer = some e.buffer := hi.enc.pipe.on_active e he
  cases ret with
  | done | resetCount =>
    rw [hf.outside (by rw [hpc]; rfl)] at hin
    cases hin
  | endScope prev =>
    obtain ⟨x, th₁, p₁, -, hran₁, hbody₁, hentered₁, -, -⟩ := scopeStep_run h₁
    obtain ⟨y, th₂, p₂, -, hran₂, hbody₂, -, hended₂, -⟩ := scopeStep_run h₂
    obtain rfl : x = th := some.inj (hran₁.at_t.symm.trans hth)
    obtain rfl : y = th₁ := some.inj (hran₂.at_t.symm.trans hran₁.thread_self)
    obtain ⟨-, -, -, -, hcenc, -⟩ := commitActive_fixed (running s.sys.pipe x.pc)
    -- the flush commits the buffer of the encoder and leaves the encoder
    have hfirst : y.pc = .restoreLazy prev ∧ y.scopes = x.scopes ∧ p₁.activeEncoder = some e ∧
        e.buffer ∈ p₁.committed := by
      have hcommitted : e.buffer ∈ (running s.sys.pipe x.pc).commitActive.committed := by
        have hbuf' : (running s.sys.pipe x.pc).activeBuffer = some e.buffer := hbuf
        rw [(commitActive_some hbuf').1]
        exact mem_cons_self ..
      cases body_at hpc hbody₁ with
      | flFail hr => rcases hr with hr | hr <;> cases hr
      | flCommit => exact ⟨rfl, rfl, hcenc.trans he, hcommitted⟩
      | goes hgoes => cases hgoes
    obtain ⟨hpc₁, hscopes₁, henc₁, hcommitted₁⟩ := hfirst
    have hsecond : th₂.scopes = y.scopes ∧ p₂.activeEncoder = s₁.sys.pipe.activeEncoder ∧
        p₂.committed = s₁.sys.pipe.committed := by
      cases body_at hpc₁ hbody₂ with
      | restoreLazy => exact ⟨rfl, rfl, rfl⟩
      | goes hgoes => cases hgoes
    have hentered := hf.entered
    rw [hpc] at hentered
    intro hnested
    have hended : s₂.ended ≠ none := by
      rw [hended₂, hentered₁, nextEntered_eq (by rw [hpc]; rfl), hentered]
      simp [nextEnded, hpc₁, PC.inGuard]
    obtain ⟨e', he', hvalid⟩ := hnested.usable hended th₂
      (mem_of_getElem? hran₂.thread_self) (by rw [hsecond.1, hscopes₁]; exact hin)
    have heq : e' = e := by
      have h' : s₂.sys.pipe.activeEncoder = some e := by
        rw [hran₂.pipe_eq]
        show p₂.activeEncoder = some e
        rw [hsecond.2.1, hran₁.pipe_eq]
        exact henc₁
      exact some.inj (he'.symm.trans h')
    subst heq
    refine hvalid.2.2 ?_
    show e'.buffer ∈ s₂.sys.pipe.committed
    rw [hran₂.pipe_eq]
    show e'.buffer ∈ p₂.committed
    rw [hsecond.2.2, hran₁.pipe_eq]
    exact hcommitted₁

/-- **Nested scopes.**  In every run whose steps meet the condition, whenever a guard has just ended
    the flags are those of its entry, an enclosing encoder scope has a usable encoder, and after the
    outermost guard every operation is committed; and a `BatchScope` that ends inside an encoder
    scope ends that. -/
theorem nested_scopes (bufferCount : ℕ) (lazy : Bool) (prog : List Op)
    (hprog : ∀ op ∈ prog, op.nested = true) {s : ScopeSystem}
    (h : Runs ScopeSystem.step ScopeSafe (ScopeSystem.init bufferCount lazy prog) s) :
    NestedScopes s ∧ (FlushesUnderEncoder s → ∀ env env' s₁ s₂,
      ScopeSystem.step s (.run 0 env) = some s₁ → ScopeSystem.step s₁ (.run 0 env') = some s₂ →
        ¬ NestedScopes s₂) := by
  have hi : ScopeInv lazy s :=
    h.invariant (ScopeInv.init bufferCount lazy hprog) fun _ _ _ hi hg hstep => hi.step hg hstep
  exact ⟨hi.nestedScopes, fun hflush _ _ _ _ h₁ h₂ => hi.not_nestedScopes hflush h₁ h₂⟩

/-- An encoder scope inside a batch scope, with an operation. -/
def nestedProgram : List Op :=
  [.beginBatch, .beginEncoder, .currentEncoder, .recordOp, .endScope, .endScope]

theorem nested_scopes_run :
    ∃ s, exec ScopeSystem.step (ScopeSystem.init 3 false nestedProgram)
        (List.replicate 23 (.run 0 {})) = some s ∧
      (s.ended = some (false, false) ∧ s.encoded = [some 0] ∧ s.sys.pipe.committed = [2, 0]) ∧
      NestedScopes s := by
  have hsome : (exec ScopeSystem.step (ScopeSystem.init 3 false nestedProgram)
      (replicate 23 (.run 0 {}))).any (fun s => decide (s.ended = some (false, false) ∧
        s.encoded = [some 0] ∧ s.sys.pipe.committed = [2, 0])) = true := by decide
  obtain ⟨s, hs, hfinal⟩ := (any_eq_true _ _).mp hsome
  have hguard : GuardedAlong ScopeSystem.step ScopeSafe
      (ScopeSystem.init 3 false nestedProgram) (replicate 23 (.run 0 {})) := by decide
  exact ⟨s, hs, of_decide_eq_true hfinal,
    (nested_scopes 3 false nestedProgram (by decide) (runs_exec hs hguard)).1⟩

/-- A `BatchScope` inside an `EncoderScope`, which goes on with an operation. -/
def batchInsideProgram : List Op :=
  [.beginEncoder, .beginBatch, .endScope, .currentEncoder, .endScope]

/-- After the inner guard the encoder of the outer scope is on a committed buffer; the operation
    that follows is encoded there, and is lost when the outer guard ends. -/
theorem batch_in_encoder_scope :
    (∃ s, Reaches ScopeSystem.step (ScopeSystem.init 3 false batchInsideProgram) s ∧
      s.ended = some (true, true) ∧ ¬ NestedScopes s) ∧
    ∃ s, Reaches ScopeSystem.step (ScopeSystem.init 3 false batchInsideProgram) s ∧
      s.sys.threads.all (fun th => decide (th.scopes = [])) = true ∧ s.encoded = [none] ∧
        ¬ NestedScopes s := by
  have hinner : ∃ s, Reaches ScopeSystem.step (ScopeSystem.init 3 false batchInsideProgram) s ∧
      (s.ended = some (true, true) ∧ s.sys.pipe.activeEncoder = some ⟨1, 0⟩ ∧
        0 ∈ s.sys.pipe.committed ∧ ∃ th ∈ s.sys.threads, encoderIn th.scopes = true) :=
    exists_reaches (replicate 12 (.run 0 {})) (by decide)
  have houter : ∃ s, Reaches ScopeSystem.step (ScopeSystem.init 3 false batchInsideProgram) s ∧
      (s.sys.threads.all (fun th => decide (th.scopes = [])) = true ∧ s.encoded = [none] ∧
        s.ended = some (false, false) ∧ ∃ th ∈ s.sys.threads, th.scopes = []) :=
    exists_reaches (replicate 19 (.run 0 {})) (by decide)
  constructor
  · obtain ⟨s, hs, hended, henc, hcommitted, th, hth, hin⟩ := hinner
    refine ⟨s, hs, hended, fun hnested => ?_⟩
    obtain ⟨e, he, hvalid⟩ := hnested.usable (by rw [hended]; exact some_ne_none _) th
      hth hin
    rw [henc, some.injEq] at he
    subst he
    exact hvalid.2.2 hcommitted
  · obtain ⟨s, hs, hall, hencoded, hended, th, hth, hscopes⟩ := houter
    refine ⟨s, hs, hall, hencoded, fun hnested => ?_⟩
    obtain ⟨buf, hbuf, -⟩ := hnested.flushed (by rw [hended]; exact some_ne_none _) th hth
      hscopes none (by rw [hencoded]; exact mem_singleton_self none)
    cases hbuf

end MetalNative
