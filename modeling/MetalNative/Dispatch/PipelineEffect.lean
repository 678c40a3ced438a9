import MetalNative.Dispatch.CommandPipeline
import MetalNative.Lib.Run

namespace MetalNative

open LockSem (Need)

/-!
# What one step of a call can do

Most steps of a call only move control or touch counters.  `Effect` lists the few ways in which
a step changes what Metal and the slot counter know; `body_effect` shows that there are no
others.  Every invariant of the pipeline is proved by cases on `Effect`, not on the calls.
-/

/-- The slots a thread holds while its step runs: those it had and the one just granted. -/
def PC.running (pc : PC) : ℕ := pc.slots + if pc.need = .slot then 1 else 0

/-- Two pipelines that agree on buffers, encoders, slots and the mutex. -/
structure SameMetal (p q : Pipeline) : Prop where
  bufferCount : p.bufferCount = q.bufferCount
  mu : p.mu = q.mu
  inFlight : p.inFlight = q.inFlight
  activeBuffer : p.activeBuffer = q.activeBuffer
  hasActive : p.hasActive = q.hasActive
  activeEncoder : p.activeEncoder = q.activeEncoder
  nextObject : p.nextObject = q.nextObject
  committed : p.committed = q.committed
  pending : p.pending = q.pending
  openEncoders : p.openEncoders = q.openEncoders

theorem SameMetal.refl (p : Pipeline) : SameMetal p p :=
  ⟨rfl, rfl, rfl, rfl, rfl, rfl, rfl, rfl, rfl, rfl⟩

/-- The calls that commit the active buffer, at the step that does it. -/
def PC.commits : PC → Bool
  | .cacLocked | .cmLocked | .syCommit | .flCommit _ | .ceCommit => true
  | _ => false

/-- The calls that lock the mutex, find something to commit, and then wait for a slot inside. -/
def Pipeline.WaitsInside (p : Pipeline) : PC → Prop
  | .syLock | .flLock _ => p.hasActive = true
  | .ceLock =>
    p.encoderScopeActive = true ∧ p.activeEncoder ≠ none ∧
      p.encoderOpCount ≥ p.adaptiveEncoderMaxOps
  | _ => False

instance (p : Pipeline) (pc : PC) : Decidable (p.WaitsInside pc) := by
  cases pc <;> unfold Pipeline.WaitsInside <;> infer_instance

/-- A thread that holds the mutex at `pc'` held it at `pc` or has just locked it; and there it
    waits for a slot only if it had something to commit. -/
def PC.LocksFrom (p : Pipeline) (pc' pc : PC) : Prop :=
  pc'.holdsMu = true →
    (pc.holdsMu = true ∨ pc.need = .mutex) ∧ (pc'.need = .slot → p.WaitsInside pc)

theorem PC.LocksFrom.unlocked {p : Pipeline} {pc pc' : PC} (h : pc'.holdsMu = false) :
    PC.LocksFrom p pc' pc := by
  intro h'
  rw [h] at h'
  cases h'

theorem PC.LocksFrom.locked {p : Pipeline} {pc pc' : PC} (h : pc.need = .mutex)
    (hwait : pc'.need = .slot → p.WaitsInside pc) : PC.LocksFrom p pc' pc :=
  fun _ => ⟨.inr h, hwait⟩

/-- The ways in which a step from `pc` to `pc'` changes what Metal and the slot counter know. -/
inductive Effect (p p' : Pipeline) (pc pc' : PC) : Prop
  /-- Nothing that matters here happens. -/
  | quiet (same : SameMetal p' p) (slots : pc'.slots = pc.running) (hcommit : pc.commits = false)
      (hce : pc' ≠ .ceCommit) (hpc' : PC.LocksFrom p pc' pc)
  /-- `commit` or `commit_and_continue` throws because there is no active buffer. -/
  | leak (same : SameMetal p' p) (hpc : pc = .cacLocked ∨ pc = .cmLocked)
      (hactive : p.hasActive = false) (hpc' : pc' = .idle)
  /-- `synchronize` gives one slot back. -/
  | release (more : ℕ) (hpc : pc = .syGive more) (hpos : 0 < p.inFlight)
      (same : SameMetal p' { p with inFlight := p.inFlight - 1 }) (slots : pc'.slots = more)
      (hpc' : pc'.holdsMu = false ∧ pc'.need = .nothing)
  /-- `synchronize` finds no slot in use. -/
  | underflow (more : ℕ) (hpc : pc = .syGive more) (hpc' : pc' = .idle) (hzero : p.inFlight = 0)
      (same : SameMetal p' p)
  /-- `current_buffer` creates a buffer. -/
  | create (hpc : pc = .currentBuffer) (hactive : p.hasActive = false) (hpc' : pc' = .idle)
      (same : SameMetal p'
        { p with
          activeBuffer := some p.nextObject
          hasActive := true
          nextObject := p.nextObject + 1 })
  /-- A commit that leaves no buffer, a new one, or (when it cannot be created) the old one. -/
  | commit (hpc : pc.commits = true) (hce : pc ≠ .ceCommit)
      (hactive : pc = .cacLocked ∨ pc = .cmLocked → p.hasActive = true)
      (active : Option ObjId) (has : Bool) (next : ObjId)
      (hnext : active = none ∧ has = false ∧ next = p.nextObject ∨
        active = some p.nextObject ∧ has = p.hasActive ∧ next = p.nextObject + 1 ∨
        active = p.activeBuffer ∧ has = p.hasActive ∧ next = p.nextObject)
      (same : SameMetal p'
        { p.commitActive with activeBuffer := active, hasActive := has, nextObject := next })
      (slots : pc'.slots = 0) (hpc' : pc'.holdsMu = false)
  /-- `current_encoder` ends a long encoder before it commits. -/
  | rollover (e : Encoder) (hpc : pc = .ceLock) (henc : p.activeEncoder = some e)
      (hlong : p.WaitsInside .ceLock) (hpc' : pc' = .ceCommit)
      (same : SameMetal p' { p with openEncoders := p.openEncoders.erase e })
  /-- `current_encoder` commits and cannot create the next buffer. -/
  | rolloverFail (hpc : pc = .ceCommit) (hpc' : pc' = .idle) (same : SameMetal p' p.commitActive)
  /-- `current_encoder` commits and goes on with an encoder on a new buffer. -/
  | rolloverOk (hpc : pc = .ceCommit) (hpc' : pc' = .idle)
      (same : SameMetal p'
        { p.commitActive with
          activeBuffer := some p.nextObject
          hasActive := true
          activeEncoder := some ⟨p.nextObject + 1, p.nextObject⟩
          openEncoders := ⟨p.nextObject + 1, p.nextObject⟩ :: p.openEncoders
          nextObject := p.nextObject + 2 })
  /-- `EncoderScope` opens an encoder on the active buffer. -/
  | openOld (a b : Bool) (hpc : pc = .esSetScope a b) (hpc' : pc' = .idle)
      (hactive : p.hasActive = true) (henc : p.activeEncoder = none)
      (env : Env) (same : SameMetal p' (p.openEncoder env))
  /-- `EncoderScope` opens an encoder on a buffer that it creates. -/
  | openNew (a b : Bool) (hpc : pc = .esSetScope a b) (hpc' : pc' = .idle)
      (hactive : p.hasActive = false) (henc : p.activeEncoder = none)
      (same : SameMetal p'
        { p with
          activeBuffer := some p.nextObject
          hasActive := true
          activeEncoder := some ⟨p.nextObject + 1, p.nextObject⟩
          openEncoders := ⟨p.nextObject + 1, p.nextObject⟩ :: p.openEncoders
          nextObject := p.nextObject + 2 })
  /-- `~EncoderScope` ends the active encoder, and reopens one for an outer scope. -/
  | close (a b : Bool) (hpc : pc = .edLock a b) (hpc' : pc'.slots = 0 ∧ pc'.holdsMu = false)
      (env : Env) (q : Pipeline)
      (hq : SameMetal q
        { p with
          activeEncoder := none
          openEncoders := p.activeEncoder.elim p.openEncoders p.openEncoders.erase })
      (same : SameMetal p' (if a && q.hasActive then q.openEncoder env else q))

/-! ### The building blocks -/

section Blocks

variable (env : Env) (p : Pipeline)

@[simp] theorem updateEncoderTiming_sameMetal :
    SameMetal (p.updateEncoderTiming env) p := by
  unfold Pipeline.updateEncoderTiming
  split_ifs
  · exact ⟨rfl, rfl, rfl, rfl, rfl, rfl, rfl, rfl, rfl, rfl⟩
  · exact .refl p

/-- Ending an encoder only takes it off the open ones. -/
theorem endEncoding_sameMetal (e : Encoder) :
    SameMetal (p.endEncoding env e) { p with openEncoders := p.openEncoders.erase e } :=
  updateEncoderTiming_sameMetal env _

/-- Ending the active encoder, if there is one. -/
theorem closeEncoder_sameMetal :
    SameMetal (p.closeEncoder env)
      { p with
        activeEncoder := none
        openEncoders := p.activeEncoder.elim p.openEncoders p.openEncoders.erase } := by
  unfold Pipeline.closeEncoder
  cases henc : p.activeEncoder with
  | none => exact ⟨rfl, rfl, rfl, rfl, rfl, henc, rfl, rfl, rfl, rfl⟩
  | some e =>
    have hend := endEncoding_sameMetal env p e
    exact ⟨hend.bufferCount, hend.mu, hend.inFlight, hend.activeBuffer, hend.hasActive, rfl,
      hend.nextObject, hend.committed, hend.pending, hend.openEncoders⟩

end Blocks

/-! ### What every effect keeps -/

section Effects

variable {p p' : Pipeline} {pc pc' : PC}

theorem commitActive_fixed (p : Pipeline) :
    p.commitActive.activeBuffer = p.activeBuffer ∧ p.commitActive.hasActive = p.hasActive ∧
      p.commitActive.nextObject = p.nextObject ∧ p.commitActive.inFlight = p.inFlight ∧
      p.commitActive.activeEncoder = p.activeEncoder ∧
      p.commitActive.openEncoders = p.openEncoders ∧ p.commitActive.mu = p.mu ∧
      p.commitActive.bufferCount = p.bufferCount := by
  unfold Pipeline.commitActive
  split <;> exact ⟨rfl, rfl, rfl, rfl, rfl, rfl, rfl, rfl⟩

/-- Opening an encoder touches no buffer, no slot and no lock. -/
theorem openEncoder_fixed (env : Env) (p : Pipeline) :
    (p.openEncoder env).mu = p.mu ∧ (p.openEncoder env).bufferCount = p.bufferCount ∧
      (p.openEncoder env).inFlight = p.inFlight ∧ (p.openEncoder env).pending = p.pending ∧
      (p.openEncoder env).committed = p.committed ∧
      (p.openEncoder env).activeBuffer = p.activeBuffer ∧
      (p.openEncoder env).hasActive = p.hasActive ∧
      p.nextObject ≤ (p.openEncoder env).nextObject := by
  unfold Pipeline.openEncoder
  split
  · exact ⟨rfl, rfl, rfl, rfl, rfl, rfl, rfl, le_rfl⟩
  · exact ⟨rfl, rfl, rfl, rfl, rfl, rfl, rfl, Nat.le_succ _⟩

/-- The body of a call leaves the mutex and the number of slots alone. -/
theorem Effect.lock_eq (h : Effect p p' pc pc') :
    p'.mu = p.mu ∧ p'.bufferCount = p.bufferCount := by
  obtain ⟨-, -, -, -, -, -, hcmu, hcn⟩ := commitActive_fixed p
  cases h with
  | quiet same | leak same | release more _ _ same | underflow more _ _ _ same | create _ _ _ same
  | rollover e _ _ _ _ same | openNew a b _ _ _ _ same =>
    exact ⟨same.mu, same.bufferCount⟩
  | commit _ _ _ active has next _ same | rolloverFail _ _ same | rolloverOk _ _ same =>
    exact ⟨same.mu.trans hcmu, same.bufferCount.trans hcn⟩
  | openOld a b _ _ _ _ env same =>
    obtain ⟨hmu, hn, -⟩ := openEncoder_fixed env p
    exact ⟨same.mu.trans hmu, same.bufferCount.trans hn⟩
  | close a b _ _ env q hq same =>
    obtain ⟨hmu, hn, -⟩ := openEncoder_fixed env q
    split_ifs at same
    · exact ⟨same.mu.trans (hmu.trans hq.mu), same.bufferCount.trans (hn.trans hq.bufferCount)⟩
    · exact ⟨same.mu.trans hq.mu, same.bufferCount.trans hq.bufferCount⟩

/-- How a thread comes to hold the mutex after a step. -/
theorem Effect.locksFrom (h : Effect p p' pc pc') : PC.LocksFrom p pc' pc := by
  cases h with
  | quiet same slots hcommit hce hpc' => exact hpc'
  | leak same hpc hactive hpc' | underflow more hpc hpc' | create hpc hactive hpc'
  | rolloverFail hpc hpc' | rolloverOk hpc hpc' | openOld a b hpc hpc' | openNew a b hpc hpc' =>
    exact .unlocked (by rw [hpc']; rfl)
  | release more hpc hpos same slots hpc' => exact .unlocked hpc'.1
  | commit hpc hce hactive active has next hnext same slots hpc' => exact .unlocked hpc'
  | rollover e hpc henc hlong =>
    subst hpc
    exact .locked rfl fun _ => hlong
  | close a b hpc hpc' => exact .unlocked hpc'.2

end Effects

/-! ### Every step -/

/-- Where a call starts that does nothing else at once. -/
def Op.entry : Op → Option PC
  | .currentBuffer => some .currentBuffer
  | .commitAndContinue => some .cacCount
  | .commit => some .cmAcquire
  | .synchronize => some .syLock
  | .flush => some (.flLock .done)
  | .recordOp => some .roCount
  | .beginBatch => some .bsRead
  | .beginEncoder => some .esReadScope
  | .currentEncoder => some .ceLock
  | .setEncoderMaxOps maxOps => some (.maxOps maxOps)
  | _ => none

/-- Where `flush` returns to. -/
def FlushRet.next : FlushRet → PC
  | .done => .idle
  | .resetCount => .cacReset
  | .endScope prev => .restoreLazy prev

/-- The steps that only decide where a call goes on. -/
inductive Pipeline.Goes (p : Pipeline) : PC → PC → Prop
  | bufferHeld (h : p.hasActive = true) : p.Goes .currentBuffer .idle
  | cacLazy {c : UInt64} (h : p.lazyCommit = true) : p.Goes (.cacLazy c) (.cacScope c)
  | cacEager {c : UInt64} (h : p.lazyCommit = false) : p.Goes (.cacLazy c) .cacAcquire
  | cacInside {c : UInt64} (h : p.encoderScopeActive = true) : p.Goes (.cacScope c) .idle
  | cacOutside {c : UInt64} (h : p.encoderScopeActive = false) :
    p.Goes (.cacScope c) (.cacThreshold c)
  | cacFlush {c : UInt64} (h : c ≥ p.autoFlushThreshold) :
    p.Goes (.cacThreshold c) (.flLock .resetCount)
  | cacBelow {c : UInt64} (h : ¬ c ≥ p.autoFlushThreshold) : p.Goes (.cacThreshold c) .idle
  | cacAcquire : p.Goes .cacAcquire .cacLocked
  | cacLeak (h : p.hasActive = false) : p.Goes .cacLocked .idle
  | cmAcquire : p.Goes .cmAcquire .cmLocked
  | cmLeak (h : p.hasActive = false) : p.Goes .cmLocked .idle
  | syActive (h : p.hasActive = true) : p.Goes .syLock .syCommit
  | syNone (h : p.hasActive = false) : p.Goes .syLock (.syTake 0)
  | syTake {n : ℕ} (h : n + 1 < p.bufferCount) : p.Goes (.syTake n) (.syTake (n + 1))
  | syTaken {n : ℕ} (h : p.bufferCount ≤ n + 1) : p.Goes (.syTake n) (.syGive n)
  | syUnderflow {n : ℕ} (h : p.inFlight = 0) : p.Goes (.syGive n) .idle
  | flActive {r : FlushRet} (h : p.hasActive = true) : p.Goes (.flLock r) (.flCommit r)
  | flNone {r : FlushRet} (h : p.hasActive = false) : p.Goes (.flLock r) r.next
  | roLazy {c : UInt64} (h : p.lazyCommit = true) : p.Goes (.roLazy c) (.roScope c)
  | roEager {c : UInt64} (h : p.lazyCommit = false) : p.Goes (.roLazy c) .idle
  | roInside {c : UInt64} (h : p.encoderScopeActive = true) : p.Goes (.roScope c) .idle
  | roOutside {c : UInt64} (h : p.encoderScopeActive = false) :
    p.Goes (.roScope c) (.roThreshold c)
  | roFlush {c : UInt64} (h : c ≥ p.autoFlushThreshold) : p.Goes (.roThreshold c) (.roExchange c)
  | roBelow {c : UInt64} (h : ¬ c ≥ p.autoFlushThreshold) : p.Goes (.roThreshold c) .idle
  | roLost {c : UInt64} (h : p.opCount ≠ c) : p.Goes (.roExchange c) .idle
  | bsRead : p.Goes .bsRead (.bsSet p.lazyCommit)
  | esReadScope : p.Goes .esReadScope (.esReadLazy p.encoderScopeActive)
  | esReadLazy {outer : Bool} : p.Goes (.esReadLazy outer) (.esLock outer p.lazyCommit)

/-- The active buffer is a new one. -/
def Pipeline.withBuffer (p : Pipeline) : Pipeline :=
  { p with activeBuffer := some p.nextObject, nextObject := p.nextObject + 1 }

/-- The steps from each point, with what has been seen there. -/
inductive BodyStep (env : Env) (p : Pipeline) (th : Thread) : PC → Pipeline → Thread → Prop
  | call {op : Op} {prog : List Op} {pc : PC} (hprog : th.prog = op :: prog)
      (hop : op.entry = some pc) : BodyStep env p th .idle p { th with prog, pc }
  | setLazy {enable : Bool} {prog : List Op} (hprog : th.prog = .setLazyCommit enable :: prog) :
    BodyStep env p th .idle { p with lazyCommit := enable } { th with prog }
  | setThreshold {threshold : UInt64} {prog : List Op}
      (hprog : th.prog = .setAutoFlushThreshold threshold :: prog) :
    BodyStep env p th .idle { p with autoFlushThreshold := threshold } { th with prog }
  | endBatch {prev : Bool} {prog : List Op} {scopes : List Scope}
      (hprog : th.prog = .endScope :: prog) (hscopes : th.scopes = .batch prev :: scopes) :
    BodyStep env p th .idle p { th with prog, scopes, pc := .flLock (.endScope prev) }
  | endEncoder {outer prev : Bool} {prog : List Op} {scopes : List Scope}
      (hprog : th.prog = .endScope :: prog)
      (hscopes : th.scopes = .encoder outer prev :: scopes) :
    BodyStep env p th .idle p { th with prog, scopes, pc := .edLock outer prev }
  | noBuffer (hno : p.hasActive = false) (hok : env.createOk = false) :
    BodyStep env p th .currentBuffer p th.ret
  | newBuffer (hno : p.hasActive = false) (hok : env.createOk = true) :
    BodyStep env p th .currentBuffer { p.withBuffer with hasActive := true } th.ret
  | cacCount : BodyStep env p th .cacCount { p with opCount := p.opCount + 1 }
      (th.goto (.cacLazy (p.opCount + 1)))
  | cacReset : BodyStep env p th .cacReset { p with opCount := 0 } th.ret
  | cacFail (hactive : p.hasActive = true) (hok : env.createOk = false) :
    BodyStep env p th .cacLocked p.commitActive th.ret
  | cacCommit (hactive : p.hasActive = true) (hok : env.createOk = true) :
    BodyStep env p th .cacLocked { p.commitActive.withBuffer with opCount := 0 } th.ret
  | cmCommit (hactive : p.hasActive = true) : BodyStep env p th .cmLocked
      { p.commitActive with activeBuffer := none, hasActive := false, opCount := 0 } th.ret
  | syCommit : BodyStep env p th .syCommit
      { p.commitActive with activeBuffer := none, hasActive := false } (th.goto (.syTake 0))
  | syGive {n : ℕ} (h : p.inFlight ≠ 0) :
    BodyStep env p th (.syGive (n + 1)) { p with inFlight := p.inFlight - 1 } (th.goto (.syGive n))
  | syGiven (h : p.inFlight ≠ 0) :
    BodyStep env p th (.syGive 0) { p with inFlight := p.inFlight - 1 } th.ret
  | flFail {r : FlushRet} (hr : r = .done ∨ r = .resetCount) (hok : env.createOk = false) :
    BodyStep env p th (.flCommit r) p.commitActive th.ret
  | flCommit {r : FlushRet} (hok : env.createOk = true) : BodyStep env p th (.flCommit r)
      { p.commitActive.withBuffer with opCount := 0 } (th.goto r.next)
  | roCount : BodyStep env p th .roCount { p with opCount := p.opCount + 1 }
      (th.goto (.roLazy (p.opCount + 1)))
  | roExchange {c : UInt64} (h : p.opCount = c) :
    BodyStep env p th (.roExchange c) { p with opCount := 0 } (th.goto (.flLock .done))
  | bsSet {prev : Bool} :
    BodyStep env p th (.bsSet prev) { p with lazyCommit := true } (th.retScope (.batch prev))
  | esLock {outer prev : Bool} : BodyStep env p th (.esLock outer prev)
      { p with lazyCommit := true } (th.goto (.esSetScope outer prev))
  | esOld {outer prev : Bool} (henc : p.activeEncoder = none) (hactive : p.hasActive = true) :
    BodyStep env p th (.esSetScope outer prev)
      ({ p with encoderScopeActive := true }.openEncoder env) (th.retScope (.encoder outer prev))
  | esFail {outer prev : Bool} (henc : p.activeEncoder = none) (hno : p.hasActive = false)
      (hok : env.createOk = false) :
    BodyStep env p th (.esSetScope outer prev) { p with encoderScopeActive := true } th.ret
  | esNew {outer prev : Bool} (henc : p.activeEncoder = none) (hno : p.hasActive = false)
      (hok : env.createOk = true) : BodyStep env p th (.esSetScope outer prev)
      ({ p.withBuffer with encoderScopeActive := true, hasActive := true }.openEncoder env)
      (th.retScope (.encoder outer prev))
  | esKeep {outer prev : Bool} (henc : p.activeEncoder ≠ none) :
    BodyStep env p th (.esSetScope outer prev) { p with encoderScopeActive := true }
      (th.retScope (.encoder outer prev))
  | edLock {outer prev : Bool} {q : Pipeline}
      (hq : q = { p.closeEncoder env with encoderScopeActive := outer }) :
    BodyStep env p th (.edLock outer prev) (if outer && q.hasActive then q.openEncoder env else q)
      (th.goto (if outer then .restoreLazy prev else .flLock (.endScope prev)))
  | restoreLazy {prev : Bool} :
    BodyStep env p th (.restoreLazy prev) { p with lazyCommit := prev } th.ret
  | ceLong {e : Encoder} (hscope : p.encoderScopeActive = true) (henc : p.activeEncoder = some e)
      (hlong : p.encoderOpCount ≥ p.adaptiveEncoderMaxOps) :
    BodyStep env p th .ceLock (p.endEncoding env e) (th.goto .ceCommit)
  | ceHeld {e : Encoder} (hscope : p.encoderScopeActive = true) (henc : p.activeEncoder = some e) :
    BodyStep env p th .ceLock { p with encoderOpCount := p.encoderOpCount + 1 }
      (th.retEncoder (some e))
  | ceNone : BodyStep env p th .ceLock p (th.retEncoder none)
  | ceFail (hok : env.createOk = false) : BodyStep env p th .ceCommit p.commitActive th.ret
  | ceNew {q : Pipeline} (hok : env.createOk = true)
      (hq : q = { p.commitActive.withBuffer with hasActive := true }.openEncoder env) :
    BodyStep env p th .ceCommit { q with encoderOpCount := q.encoderOpCount + 1 }
      (th.retEncoder q.activeEncoder)
  | maxOps {maxOps : UInt64} : BodyStep env p th (.maxOps maxOps)
      { p with
        encoderMaxOps := max 1 (min maxOps 512)
        adaptiveEncoderMaxOps := max 1 (min maxOps 512) } th.ret
  | goes {pc pc' : PC} (h : p.Goes pc pc') : BodyStep env p th pc p (th.goto pc')

section Body

variable {env : Env} {p p' : Pipeline} {th th' : Thread}

/-- **No other steps.** -/
theorem body_step (h : body env p th = some (p', th')) : BodyStep env p th th.pc p' th' := by
  obtain ⟨prog, pc, scopes, encoder⟩ := th
  have hnext : ∀ (th : Thread) r, th.flushRet r = th.goto r.next := by
    intro th r
    cases r <;> rfl
  unfold body at h
  cases hok : env.createOk
  all_goals
    cases pc with
    | idle =>
      rcases prog with - | ⟨op, prog⟩
      · cases h
      · cases op with
        | endScope =>
          rcases scopes with - | ⟨scope | scope, scopes⟩ <;> cases h
          · exact .endBatch rfl rfl
          · exact .endEncoder rfl rfl
        | _ =>
          cases h
          first | exact .call rfl rfl | exact .setLazy rfl | exact .setThreshold rfl
    | flCommit r =>
      simp only [Pipeline.createBuffer, hok, Bool.false_eq_true, if_true, if_false, hnext] at h
      first
        | cases h
          exact .flCommit hok
        | cases r <;> cases h
          · exact .flFail (.inl rfl) hok
          · exact .flFail (.inr rfl) hok
    | edLock =>
      cases h
      exact .edLock rfl
    | syGive more =>
      simp only at h
      split_ifs at h with hzero <;> cases h
      · exact .goes (.syUnderflow hzero)
      · cases more
        · exact .syGiven hzero
        · exact .syGive hzero
    | _ =>
      -- the branch of the code is known, and so is its constructor
      simp only [Pipeline.createBuffer, hok, Bool.false_eq_true, if_true, if_false, hnext] at h
      (repeat' split at h) <;> cases h
      all_goals first
        | (refine .goes ?_; constructor <;> simp_all; done)
        | (constructor <;> first | rfl | simp_all)

theorem body_at {pc : PC} (hpc : th.pc = pc) (h : body env p th = some (p', th')) :
    BodyStep env p th pc p' th' := hpc ▸ body_step h

theorem ne_ceCommit {pc : PC} (h : pc.holdsMu = false) : pc ≠ .ceCommit := by
  rintro rfl
  cases h

/-- Where a call starts, nothing is held. -/
theorem entry_pc {op : Op} {pc : PC} (h : op.entry = some pc) :
    pc.slots = 0 ∧ pc.holdsMu = false := by
  cases op <;> cases h <;> exact ⟨rfl, rfl⟩

/-- Where `flush` returns to, nothing is held. -/
theorem FlushRet.next_pc (r : FlushRet) : r.next.slots = 0 ∧ r.next.holdsMu = false := by
  cases r <;> exact ⟨rfl, rfl⟩

/-- **No other effects.** -/
theorem body_effect (h : body env p th = some (p', th')) : Effect p p' th.pc th'.pc := by
  obtain ⟨hbuf, hhas, hnxt, -, -, hopen, -, -⟩ := commitActive_fixed p
  have hflush : ∀ r, PC.flCommit r = .cacLocked ∨ PC.flCommit r = .cmLocked →
      p.hasActive = true := by
    rintro r (h | h) <;> cases h
  obtain ⟨prog, pc, scopes, encoder⟩ := th
  have hstep : BodyStep env p _ pc p' th' := body_step h
  cases hstep with
  | call hprog hop =>
    obtain ⟨hslots, hmu⟩ := entry_pc hop
    exact .quiet (.refl _) hslots rfl (ne_ceCommit hmu) (.unlocked hmu)
  | goes hgoes =>
    cases hgoes with
    | cacLeak hno => exact .leak (.refl _) (.inl rfl) hno rfl
    | cmLeak hno => exact .leak (.refl _) (.inr rfl) hno rfl
    | syUnderflow hzero => exact .underflow _ rfl rfl hzero (.refl _)
    | syActive hactive | flActive hactive =>
      exact .quiet (.refl _) rfl rfl PC.noConfusion (.locked rfl fun _ => hactive)
    | flNone =>
      obtain ⟨hslots, hmu⟩ := FlushRet.next_pc ‹_›
      exact .quiet (.refl _) hslots rfl (ne_ceCommit hmu) (.unlocked hmu)
    | _ => exact .quiet (.refl _) rfl rfl PC.noConfusion (.unlocked rfl)
  | noBuffer | endBatch | endEncoder | ceNone =>
    exact .quiet (.refl _) rfl rfl PC.noConfusion (.unlocked rfl)
  | newBuffer hno =>
    exact .create rfl hno rfl ⟨rfl, rfl, rfl, rfl, rfl, rfl, rfl, rfl, rfl, rfl⟩
  | cacFail hactive =>
    exact .commit rfl PC.noConfusion (fun _ => hactive) _ _ _ (.inr (.inr ⟨hbuf, hhas, hnxt⟩))
      (.refl _) rfl rfl
  | cacCommit hactive =>
    exact .commit rfl PC.noConfusion (fun _ => hactive) _ _ _
      (.inr (.inl ⟨congrArg some hnxt, hhas, congrArg (· + 1) hnxt⟩))
      ⟨rfl, rfl, rfl, rfl, rfl, rfl, rfl, rfl, rfl, rfl⟩ rfl rfl
  | cmCommit hactive =>
    exact .commit rfl PC.noConfusion (fun _ => hactive) _ _ _ (.inl ⟨rfl, rfl, hnxt⟩)
      ⟨rfl, rfl, rfl, rfl, rfl, rfl, rfl, rfl, rfl, rfl⟩ rfl rfl
  | syCommit =>
    exact .commit rfl PC.noConfusion (by rintro (h | h) <;> cases h) _ _ _
      (.inl ⟨rfl, rfl, hnxt⟩) ⟨rfl, rfl, rfl, rfl, rfl, rfl, rfl, rfl, rfl, rfl⟩ rfl rfl
  | syGive hpos | syGiven hpos =>
    exact .release _ rfl (Nat.pos_of_ne_zero hpos)
      ⟨rfl, rfl, rfl, rfl, rfl, rfl, rfl, rfl, rfl, rfl⟩ rfl ⟨rfl, rfl⟩
  | flFail =>
    exact .commit rfl PC.noConfusion (hflush _) _ _ _ (.inr (.inr ⟨hbuf, hhas, hnxt⟩)) (.refl _)
      rfl rfl
  | flCommit =>
    exact .commit rfl PC.noConfusion (hflush _) _ _ _
      (.inr (.inl ⟨congrArg some hnxt, hhas, congrArg (· + 1) hnxt⟩))
      ⟨rfl, rfl, rfl, rfl, rfl, rfl, rfl, rfl, rfl, rfl⟩ (FlushRet.next_pc _).1
      (FlushRet.next_pc _).2
  | esLock =>
    exact .quiet ⟨rfl, rfl, rfl, rfl, rfl, rfl, rfl, rfl, rfl, rfl⟩ rfl rfl PC.noConfusion
      (.locked rfl Need.noConfusion)
  | esOld henc hactive =>
    refine .openOld _ _ rfl rfl hactive henc env ?_
    unfold Pipeline.openEncoder
    dsimp only
    split <;> exact ⟨rfl, rfl, rfl, rfl, rfl, rfl, rfl, rfl, rfl, rfl⟩
  | esNew henc hno =>
    exact .openNew _ _ rfl rfl hno henc ⟨rfl, rfl, rfl, rfl, rfl, rfl, rfl, rfl, rfl, rfl⟩
  | edLock hq =>
    rename_i outer prev q
    have hclosed := closeEncoder_sameMetal env p
    refine .close outer prev rfl ?_ env q ?_ (.refl _)
    · cases outer <;> exact ⟨rfl, rfl⟩
    · rw [hq]
      exact ⟨hclosed.bufferCount, hclosed.mu, hclosed.inFlight, hclosed.activeBuffer,
        hclosed.hasActive, hclosed.activeEncoder, hclosed.nextObject, hclosed.committed,
        hclosed.pending, hclosed.openEncoders⟩
  | ceLong hscope henc hlong =>
    exact .rollover _ rfl henc ⟨hscope, by rw [henc]; exact Option.some_ne_none _, hlong⟩ rfl
      (endEncoding_sameMetal env p _)
  | ceFail => exact .rolloverFail rfl rfl (.refl _)
  | ceNew hok hq =>
    subst hq
    refine .rolloverOk rfl rfl ?_
    unfold Pipeline.openEncoder Pipeline.withBuffer
    dsimp only
    rw [hnxt, hopen]
    exact ⟨rfl, rfl, rfl, rfl, rfl, rfl, rfl, rfl, rfl, rfl⟩
  | _ =>
    exact .quiet ⟨rfl, rfl, rfl, rfl, rfl, rfl, rfl, rfl, rfl, rfl⟩ rfl rfl PC.noConfusion
      (.unlocked rfl)

end Body

end MetalNative
