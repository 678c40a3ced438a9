import MetalNative.Core.Error
import MetalNative.Lib.LockSem

namespace MetalNative

open LockSem (Need)

/-!
# `CommandPipeline`: threads over one mutex and one slot counter

A translation of `command_pipeline.mm` and `backpressure.cpp` as a small-step system.  A call is
cut where another thread can run: before it locks `mu`, before it waits for a backpressure slot,
and around the flags that it reads without the lock.  The stretch up to the next cut is one
atomic step: everything it touches is protected by `mu` or is one atomic variable.

* `PC` — where a call stands; `need` is what its next step waits for, `holdsMu` and `slots` what
  the thread holds meanwhile.
* `body` — what the next step does, in the source's order.
* `step` — a thread runs its next step when what it needs is free, or the GPU completes a
  committed buffer.

Metal answers through `Env`: whether a command buffer is created, and the clock.
-/

/-! ### The data -/

/-- A compute encoder and the command buffer it was created on. -/
structure Encoder where
  id : ObjId
  buffer : ObjId
  deriving DecidableEq, Repr

/-- What the environment answers during one step. -/
structure Env where
  /-- `[commandQueue commandBuffer]` returns a buffer. -/
  createOk : Bool := true
  /-- `mach_absolute_time()`. -/
  now : UInt64 := 0
  /-- `mach_timebase_info`. -/
  numer : UInt32 := 1
  denom : UInt32 := 1

/-- `CommandPipeline::Impl` with the counter of its `BackpressureController`, and what Metal
    knows: the buffers ever committed, those not yet completed, the encoders not yet ended. -/
structure Pipeline where
  bufferCount : ℕ
  inFlight : ℕ := 0
  mu : Option ℕ := none
  activeBuffer : Option ObjId := none
  hasActive : Bool := false
  lazyCommit : Bool := false
  opCount : UInt64 := 0
  autoFlushThreshold : UInt64 := 64
  activeEncoder : Option Encoder := none
  encoderScopeActive : Bool := false
  encoderOpCount : UInt64 := 0
  encoderMaxOps : UInt64 := 32
  encoderStartTime : UInt64 := 0
  encoderDurationEma : Float := 1.0
  adaptiveEncoderMaxOps : UInt64 := 32
  nextObject : ObjId := 0
  committed : List ObjId := []
  pending : List ObjId := []
  openEncoders : List Encoder := []

/-- An RAII guard on a thread's stack. -/
inductive Scope where
  | batch (previousLazyState : Bool)
  | encoder (previousEncoderState previousLazyState : Bool)
  deriving DecidableEq, Repr

/-- A call of a client thread.  `endScope` runs the destructor of its innermost guard. -/
inductive Op where
  | currentBuffer
  | commitAndContinue
  | commit
  | synchronize
  | setLazyCommit (enable : Bool)
  | flush
  | recordOp
  | setAutoFlushThreshold (threshold : UInt64)
  | beginBatch
  | beginEncoder
  | endScope
  | currentEncoder
  | setEncoderMaxOps (maxOps : UInt64)
  deriving DecidableEq, Repr

/-- Who called `flush`, and so what follows it: nothing, the counter reset of
    `commit_and_continue`, or the rest of a destructor. -/
inductive FlushRet where
  | done
  | resetCount
  | endScope (previousLazyState : Bool)
  deriving DecidableEq, Repr

/-- Where a thread stands. -/
inductive PC where
  | idle
  | currentBuffer
  -- `commit_and_continue`
  | cacCount
  | cacLazy (count : UInt64)
  | cacScope (count : UInt64)
  | cacThreshold (count : UInt64)
  | cacReset
  | cacAcquire
  | cacLocked
  -- `commit`
  | cmAcquire
  | cmLocked
  -- `synchronize`
  | syLock
  | syCommit
  | syTake (taken : ℕ)
  | syGive (more : ℕ)
  -- `flush`
  | flLock (ret : FlushRet)
  | flCommit (ret : FlushRet)
  -- `record_op`
  | roCount
  | roLazy (count : UInt64)
  | roScope (count : UInt64)
  | roThreshold (count : UInt64)
  | roExchange (count : UInt64)
  -- `BatchScope`
  | bsRead
  | bsSet (previousLazyState : Bool)
  -- `EncoderScope`
  | esReadScope
  | esReadLazy (previousEncoderState : Bool)
  | esLock (previousEncoderState previousLazyState : Bool)
  | esSetScope (previousEncoderState previousLazyState : Bool)
  | edLock (previousEncoderState previousLazyState : Bool)
  | restoreLazy (previousLazyState : Bool)
  -- `current_encoder`
  | ceLock
  | ceCommit
  -- `set_encoder_max_ops`
  | maxOps (maxOps : UInt64)
  deriving DecidableEq, Repr

/-- A client thread: the calls it has still to make, where it stands, its guards with the
    innermost first, and what its last `current_encoder` returned. -/
structure Thread where
  prog : List Op := []
  pc : PC := .idle
  scopes : List Scope := []
  encoder : Option Encoder := none
  deriving DecidableEq, Repr

namespace PC

/-- What the next step waits for: `std::lock_guard` or `backpressure.acquire()`. -/
def need : PC → Need
  | currentBuffer | cacLocked | cmLocked | syLock | flLock _ | esLock _ _ | edLock _ _ | ceLock
  | maxOps _ => .mutex
  | cacAcquire | cmAcquire | syCommit | syTake _ | flCommit _ | ceCommit => .slot
  | _ => .nothing

/-- The thread holds `mu` here. -/
def holdsMu : PC → Bool
  | syCommit | flCommit _ | ceCommit | esSetScope _ _ => true
  | _ => false

/-- The backpressure slots that the thread holds here.  `syGive more` has the slot it is about to
    release and `more` others. -/
def slots : PC → ℕ
  | cacLocked | cmLocked => 1
  | syTake taken => taken
  | syGive more => more + 1
  | _ => 0

end PC

/-! ### The building blocks of the calls -/

namespace Pipeline

/-- `create_buffer`; `none` is the exception. -/
def createBuffer (env : Env) (p : Pipeline) : Option (ObjId × Pipeline) :=
  if env.createOk then some (p.nextObject, { p with nextObject := p.nextObject + 1 }) else none

/-- `[buf addCompletedHandler: release]; [buf commit]` for the active buffer; a message to `nil`
    does nothing, and then nobody will release the slot. -/
def commitActive (p : Pipeline) : Pipeline :=
  match p.activeBuffer with
  | none => p
  | some buf => { p with committed := buf :: p.committed, pending := p.pending ++ [buf] }

/-- `[active_buffer computeCommandEncoder]` with the fields set beside it. -/
def openEncoder (env : Env) (p : Pipeline) : Pipeline :=
  match p.activeBuffer with
  | none => { p with activeEncoder := none, encoderOpCount := 0, encoderStartTime := env.now }
  | some buf =>
    { p with
      activeEncoder := some ⟨p.nextObject, buf⟩
      openEncoders := ⟨p.nextObject, buf⟩ :: p.openEncoders
      nextObject := p.nextObject + 1
      encoderOpCount := 0
      encoderStartTime := env.now }

/-- `update_encoder_timing`. -/
def updateEncoderTiming (env : Env) (p : Pipeline) : Pipeline :=
  if p.encoderStartTime > 0 then
    let durationMs := (env.now - p.encoderStartTime).toFloat * env.numer.toFloat
      / env.denom.toFloat / 1e6
    let ema := 0.3 * durationMs + (1.0 - 0.3) * p.encoderDurationEma
    { p with
      encoderDurationEma := ema
      adaptiveEncoderMaxOps :=
        if ema > 2.0 then max 8 (p.adaptiveEncoderMaxOps * 3 / 4)
        else if ema < 0.5 then min 128 (p.adaptiveEncoderMaxOps * 5 / 4)
        else p.adaptiveEncoderMaxOps
      encoderStartTime := 0 }
  else p

/-- `[active_encoder endEncoding]` and the timing update after it. -/
def endEncoding (env : Env) (p : Pipeline) (e : Encoder) : Pipeline :=
  updateEncoderTiming env { p with openEncoders := p.openEncoders.erase e }

/-- `~EncoderScope` ends the active encoder, if there is one. -/
def closeEncoder (env : Env) (p : Pipeline) : Pipeline :=
  match p.activeEncoder with
  | none => p
  | some e => { endEncoding env p e with activeEncoder := none, encoderOpCount := 0 }

end Pipeline

namespace Thread

/-- The thread goes on at `pc`. -/
def goto (th : Thread) (pc : PC) : Thread := { th with pc }

/-- The call returns, or its exception reaches the client. -/
def ret (th : Thread) : Thread := th.goto .idle

/-- `current_encoder` returns `e`. -/
def retEncoder (th : Thread) (e : Option Encoder) : Thread := { th with pc := .idle, encoder := e }

/-- A constructor returns and its guard is on the stack. -/
def retScope (th : Thread) (s : Scope) : Thread :=
  { th with pc := .idle, scopes := s :: th.scopes }

/-- `flush` returns to its caller. -/
def flushRet (th : Thread) : FlushRet → Thread
  | .done => th.ret
  | .resetCount => th.goto .cacReset
  | .endScope prev => th.goto (.restoreLazy prev)

/-- `flush` throws into its caller; out of a destructor this is `std::terminate`. -/
def flushThrow (th : Thread) : FlushRet → Option Thread
  | .done => some th.ret
  | .resetCount => some th.ret
  | .endScope _ => none

end Thread

/-! ### One step of a call -/

/-- The first step of a call. -/
def begin (p : Pipeline) (th : Thread) : Op → Option (Pipeline × Thread)
  | .currentBuffer => some (p, th.goto .currentBuffer)
  | .commitAndContinue => some (p, th.goto .cacCount)
  | .commit => some (p, th.goto .cmAcquire)
  | .synchronize => some (p, th.goto .syLock)
  | .setLazyCommit enable => some ({ p with lazyCommit := enable }, th)
  | .flush => some (p, th.goto (.flLock .done))
  | .recordOp => some (p, th.goto .roCount)
  | .setAutoFlushThreshold threshold => some ({ p with autoFlushThreshold := threshold }, th)
  | .beginBatch => some (p, th.goto .bsRead)
  | .beginEncoder => some (p, th.goto .esReadScope)
  | .endScope =>
    match th.scopes with
    | [] => none
    | .batch prev :: scopes => some (p, { th with scopes, pc := .flLock (.endScope prev) })
    | .encoder prevEncoder prev :: scopes =>
      some (p, { th with scopes, pc := .edLock prevEncoder prev })
  | .currentEncoder => some (p, th.goto .ceLock)
  | .setEncoderMaxOps maxOps => some (p, th.goto (.maxOps maxOps))

open Pipeline in
/-- What the next step of a thread does once it has what `need` says; `none` is no step. -/
def body (env : Env) (p : Pipeline) (th : Thread) : Option (Pipeline × Thread) :=
  match th.pc with
  | .idle =>
    match th.prog with
    | [] => none
    | op :: prog => begin p { th with prog } op
  | .currentBuffer =>
    if p.hasActive then some (p, th.ret)
    else
      match createBuffer env p with
      | none => some (p, th.ret)
      | some (buf, p) => some ({ p with activeBuffer := some buf, hasActive := true }, th.ret)
  -- `commit_and_continue`
  | .cacCount => some ({ p with opCount := p.opCount + 1 }, th.goto (.cacLazy (p.opCount + 1)))
  | .cacLazy count => some (p, th.goto (if p.lazyCommit then .cacScope count else .cacAcquire))
  | .cacScope count =>
    some (p, if p.encoderScopeActive then th.ret else th.goto (.cacThreshold count))
  | .cacThreshold count =>
    some (p, if count ≥ p.autoFlushThreshold then th.goto (.flLock .resetCount) else th.ret)
  | .cacReset => some ({ p with opCount := 0 }, th.ret)
  | .cacAcquire => some (p, th.goto .cacLocked)
  | .cacLocked =>
    if p.hasActive then
      let p := commitActive p
      match createBuffer env p with
      | none => some (p, th.ret)
      | some (buf, p) => some ({ p with activeBuffer := some buf, opCount := 0 }, th.ret)
    else some (p, th.ret)
  -- `commit`
  | .cmAcquire => some (p, th.goto .cmLocked)
  | .cmLocked =>
    if p.hasActive then
      some ({ commitActive p with activeBuffer := none, hasActive := false, opCount := 0 }, th.ret)
    else some (p, th.ret)
  -- `synchronize`
  | .syLock => some (p, th.goto (if p.hasActive then .syCommit else .syTake 0))
  | .syCommit =>
    some ({ commitActive p with activeBuffer := none, hasActive := false }, th.goto (.syTake 0))
  | .syTake taken =>
    some (p, th.goto (if taken + 1 < p.bufferCount then .syTake (taken + 1) else .syGive taken))
  | .syGive more =>
    if p.inFlight = 0 then some (p, th.ret)
    else
      some ({ p with inFlight := p.inFlight - 1 },
        match more with
        | 0 => th.ret
        | more + 1 => th.goto (.syGive more))
  -- `flush`
  | .flLock r => some (p, if p.hasActive then th.goto (.flCommit r) else th.flushRet r)
  | .flCommit r =>
    let p := commitActive p
    match createBuffer env p with
    | none => (th.flushThrow r).map fun th => (p, th)
    | some (buf, p) => some ({ p with activeBuffer := some buf, opCount := 0 }, th.flushRet r)
  -- `record_op`
  | .roCount => some ({ p with opCount := p.opCount + 1 }, th.goto (.roLazy (p.opCount + 1)))
  | .roLazy count => some (p, if p.lazyCommit then th.goto (.roScope count) else th.ret)
  | .roScope count =>
    some (p, if p.encoderScopeActive then th.ret else th.goto (.roThreshold count))
  | .roThreshold count =>
    some (p, if count ≥ p.autoFlushThreshold then th.goto (.roExchange count) else th.ret)
  | .roExchange count =>
    if p.opCount = count then some ({ p with opCount := 0 }, th.goto (.flLock .done))
    else some (p, th.ret)
  -- `BatchScope`
  | .bsRead => some (p, th.goto (.bsSet p.lazyCommit))
  | .bsSet prev => some ({ p with lazyCommit := true }, th.retScope (.batch prev))
  -- `EncoderScope`
  | .esReadScope => some (p, th.goto (.esReadLazy p.encoderScopeActive))
  | .esReadLazy prevEncoder => some (p, th.goto (.esLock prevEncoder p.lazyCommit))
  | .esLock prevEncoder prev =>
    some ({ p with lazyCommit := true }, th.goto (.esSetScope prevEncoder prev))
  | .esSetScope prevEncoder prev =>
    let p := { p with encoderScopeActive := true }
    let th' := th.retScope (.encoder prevEncoder prev)
    if p.activeEncoder = none then
      if p.hasActive then some (openEncoder env p, th')
      else
        match createBuffer env p with
        | none => some (p, th.ret)
        | some (buf, p) =>
          some (openEncoder env { p with activeBuffer := some buf, hasActive := true }, th')
    else some (p, th')
  | .edLock prevEncoder prev =>
    let p := { closeEncoder env p with encoderScopeActive := prevEncoder }
    let p := if prevEncoder && p.hasActive then openEncoder env p else p
    some (p, th.goto (if prevEncoder then .restoreLazy prev else .flLock (.endScope prev)))
  | .restoreLazy prev => some ({ p with lazyCommit := prev }, th.ret)
  -- `current_encoder`
  | .ceLock =>
    match p.encoderScopeActive, p.activeEncoder with
    | true, some e =>
      if p.encoderOpCount ≥ p.adaptiveEncoderMaxOps then
        some (endEncoding env p e, th.goto .ceCommit)
      else some ({ p with encoderOpCount := p.encoderOpCount + 1 }, th.retEncoder (some e))
    | _, _ => some (p, th.retEncoder none)
  | .ceCommit =>
    let p := commitActive p
    match createBuffer env p with
    | none => some (p, th.ret)
    | some (buf, p) =>
      let p := openEncoder env { p with activeBuffer := some buf, hasActive := true }
      some ({ p with encoderOpCount := p.encoderOpCount + 1 }, th.retEncoder p.activeEncoder)
  -- `set_encoder_max_ops`
  | .maxOps maxOps =>
    let clamped := max 1 (min maxOps 512)
    some ({ p with encoderMaxOps := clamped, adaptiveEncoderMaxOps := clamped }, th.ret)

/-! ### The system -/

/-- The pipeline and its client threads. -/
structure System where
  pipe : Pipeline
  threads : List Thread

/-- A thread runs its next step, or the GPU completes a committed buffer. -/
inductive Action where
  | run (t : ℕ) (env : Env)
  | complete (buf : ObjId)

/-- What the step of a thread waits for is free; a slot is taken as the step begins. -/
def grant (p : Pipeline) : Need → Option Pipeline
  | .nothing => some p
  | .mutex => if p.mu = none then some p else none
  | .slot => if p.inFlight < p.bufferCount then some { p with inFlight := p.inFlight + 1 } else none

/-- The mutex after a step of thread `t` from `pc` to `pc'`. -/
def muAfter (t : ℕ) (pc pc' : PC) (mu : Option ℕ) : Option ℕ :=
  if pc'.holdsMu then some t else if pc.holdsMu then none else mu

/-- One step of the system. -/
def step (s : System) : Action → Option System
  | .run t env => do
    let th ← s.threads[t]?
    let p ← grant s.pipe th.pc.need
    let (p, th') ← body env p th
    some ⟨{ p with mu := muAfter t th.pc th'.pc p.mu }, s.threads.set t th'⟩
  | .complete buf =>
    if buf ∈ s.pipe.pending ∧ s.pipe.inFlight > 0 then
      some { s with
        pipe :=
          { s.pipe with
            pending := s.pipe.pending.erase buf
            inFlight := s.pipe.inFlight - 1 } }
    else none

/-- A pipeline of `bufferCount` slots and its clients, each with the calls it will make. -/
def System.init (bufferCount : ℕ) (progs : List (List Op)) : System :=
  ⟨{ bufferCount }, progs.map fun prog => { prog }⟩

end MetalNative
