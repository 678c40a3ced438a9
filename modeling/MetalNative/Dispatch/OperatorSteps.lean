import MetalNative.Core.Tensor
import MetalNative.Dispatch.EncoderValidity

namespace MetalNative

open Run Pipeline

/-!
# Operators that fail

An operator checks its arguments, allocates its output and chooses a kernel; it takes the active
command buffer, opens an encoder on it, encodes, ends the encoder and calls `commit_and_continue()`.
It can throw in all of this, and nothing ends an encoder that is open when it does.

* `Pipeline.currentBuffer`, `Pipeline.commitAndContinue` — the calls of the pipeline when no other
  thread takes a step in between and a slot is free.
* `OperatorStep` — a kernel of an operator, with its throw sites before and behind the opening of
  the encoder, or a check outside of any.
* `Pipeline.Usable` — what the next operator relies on.
* `OperatorStep.Spoils` — the condition under which a list of steps throws where it must not.
* `runAll_usable` — steps that throw leave the pipeline usable, unless they spoil it.
-/

/-! ### `current_buffer` and `commit_and_continue` on an undisturbed thread -/

namespace Pipeline

/-- What `create_buffer` throws. -/
def createFailed : MNException :=
  ⟨.InternalError, "CommandPipeline: failed to create MTLCommandBuffer"⟩

/-- `current_buffer`. -/
def currentBuffer (env : Env) (p : Pipeline) : Outcome Pipeline (Option ObjId) :=
  if p.hasActive then (.ok p.activeBuffer, p)
  else
    match p.createBuffer env with
    | none => (.error createFailed, p)
    | some (buf, p) => (.ok (some buf), { p with activeBuffer := some buf, hasActive := true })

/-- A free slot is taken. -/
def acquire (p : Pipeline) : Pipeline := { p with inFlight := p.inFlight + 1 }

/-- The active buffer is committed and the next one created; then the counter is reset. -/
def submit (env : Env) (p : Pipeline) : Outcome Pipeline Unit :=
  match p.commitActive.createBuffer env with
  | none => (.error createFailed, p.commitActive)
  | some (buf, p) => (.ok (), { p with activeBuffer := some buf, opCount := 0 })

/-- `flush`. -/
def flush (env : Env) (p : Pipeline) : Outcome Pipeline Unit :=
  if p.hasActive then p.acquire.submit env else (.ok (), p)

/-- `commit_and_continue` resets the counter once more when `flush` has returned. -/
def resetCount : Outcome Pipeline Unit → Outcome Pipeline Unit
  | (.ok (), p) => (.ok (), { p with opCount := 0 })
  | (.error e, p) => (.error e, p)

/-- `commit_and_continue`. -/
def commitAndContinue (env : Env) (p : Pipeline) : Outcome Pipeline Unit :=
  let count := p.opCount + 1
  let p := { p with opCount := count }
  if p.lazyCommit then
    -- an encoder scope keeps its encoder
    if p.encoderScopeActive then (.ok (), p)
    else if count ≥ p.autoFlushThreshold then resetCount (p.flush env)
    else (.ok (), p)
  else if p.hasActive then p.acquire.submit env
  else
    (.error ⟨.InternalError,
      "CommandPipeline::commit_and_continue: no active buffer to commit"⟩, p.acquire)

/-- `commit_and_continue` will submit the active buffer. -/
def submits (p : Pipeline) : Bool :=
  !p.lazyCommit || (!p.encoderScopeActive && decide (p.autoFlushThreshold ≤ p.opCount + 1))

end Pipeline

/-! ### The encoders of operators -/

namespace Pipeline

/-- `[command_buffer computeCommandEncoder]`; a message to `nil` returns `nil`. -/
def computeCommandEncoder (p : Pipeline) : Option ObjId → Option Encoder × Pipeline
  | none => (none, p)
  | some buf =>
    (some ⟨p.nextObject, buf⟩,
      { p with
        openEncoders := ⟨p.nextObject, buf⟩ :: p.openEncoders
        nextObject := p.nextObject + 1 })

/-- `[encoder endEncoding]`. -/
def endOwnEncoder (p : Pipeline) : Option Encoder → Pipeline
  | none => p
  | some e => { p with openEncoders := p.openEncoders.erase e }

end Pipeline

/-! ### The steps of an operator -/

/-- A kernel by its name, and the throw sites between `computeCommandEncoder` and `endEncoding`, in
    the order of the source. -/
structure KernelEncoding where
  name : String
  inside : List (Except MNException Unit)

/-- A part of an operator, with what its callees answer. -/
inductive OperatorStep where
  /-- A throw site while no encoder of the operator is open. -/
  | check (result : Except MNException Unit)
  /-- A kernel.  What comes before `current_buffer()` chooses it, or throws; `current` and `next`
      are there when `current_buffer()` and `commit_and_continue()` create a buffer. -/
  | kernel (before : Except MNException KernelEncoding) (current next : Env)

/-- The pipeline, and the kernels that have been encoded, each with its command buffer. -/
structure OperatorState where
  pipe : Pipeline
  dispatched : List (ObjId × String) := []

/-- The first exception of a list of throw sites. -/
def firstThrow : List (Except MNException Unit) → Except MNException Unit
  | [] => .ok ()
  | .ok () :: rest => firstThrow rest
  | .error e :: _ => .error e

namespace OperatorStep

/-- A kernel from `computeCommandEncoder` on. -/
def encodeOn (name : String) (inside : List (Except MNException Unit)) (next : Env)
    (s : OperatorState) (buf : Option ObjId) : Outcome OperatorState Unit :=
  let (encoder, p) := s.pipe.computeCommandEncoder buf
  match firstThrow inside with
  -- the encoder is released as it is
  | .error e => (.error e, { s with pipe := p })
  | .ok () =>
    let (result, p) := (p.endOwnEncoder encoder).commitAndContinue next
    (result, { pipe := p, dispatched := s.dispatched ++ (buf.map fun buf => (buf, name)).toList })

/-- A kernel from `current_buffer()` on. -/
def encode (name : String) (inside : List (Except MNException Unit)) (current next : Env)
    (s : OperatorState) : Outcome OperatorState Unit :=
  match s.pipe.currentBuffer current with
  | (.error e, p) => (.error e, { s with pipe := p })
  | (.ok buf, p) => encodeOn name inside next { s with pipe := p } buf

/-- One step. -/
def run (s : OperatorState) : OperatorStep → Outcome OperatorState Unit
  | .check result => (result, s)
  | .kernel (.error e) _ _ => (.error e, s)
  | .kernel (.ok k) current next => encode k.name k.inside current next s

/-- The steps of an operator, up to the first exception. -/
def runAll (s : OperatorState) : List OperatorStep → Outcome OperatorState Unit
  | [] => (.ok (), s)
  | step :: rest =>
    match run s step with
    | (.ok (), s) => runAll s rest
    | (.error e, s) => (.error e, s)

end OperatorStep

/-! ### A usable pipeline -/

/-- The next operator can encode: a buffer that `current_buffer()` hands out is there, has no open
    encoder and has not been committed.  Metal's objects are numbered as they are created. -/
structure Pipeline.Usable (p : Pipeline) : Prop where
  buffer : p.hasActive = true → p.activeBuffer.isSome = true
  closed : p.hasActive = true → ∀ e ∈ p.openEncoders, p.activeBuffer ≠ some e.buffer
  uncommitted : p.hasActive = true → ∀ buf ∈ p.activeBuffer, buf ∉ p.committed
  active_lt : ∀ buf ∈ p.activeBuffer, buf < p.nextObject
  committed_lt : ∀ buf ∈ p.committed, buf < p.nextObject
  open_lt : ∀ e ∈ p.openEncoders, e.buffer < p.nextObject

/-- What decides about the next submission. -/
structure SubmitsAlike (p q : Pipeline) : Prop where
  hasActive : p.hasActive = q.hasActive
  lazyCommit : p.lazyCommit = q.lazyCommit
  encoderScopeActive : p.encoderScopeActive = q.encoderScopeActive
  opCount : p.opCount = q.opCount
  autoFlushThreshold : p.autoFlushThreshold = q.autoFlushThreshold

/-- What decides about it after a kernel has been encoded. -/
def Pipeline.counted (p : Pipeline) : Pipeline :=
  { p with hasActive := true, opCount := if p.submits then 0 else p.opCount + 1 }

section Calls

variable {p q : Pipeline} {env : Env} {buf : ObjId}

theorem SubmitsAlike.submits (h : SubmitsAlike p q) : p.submits = q.submits := by
  unfold Pipeline.submits
  rw [h.lazyCommit, h.encoderScopeActive, h.opCount, h.autoFlushThreshold]

theorem SubmitsAlike.trans {r : Pipeline} (h : SubmitsAlike p q) (h' : SubmitsAlike q r) :
    SubmitsAlike p r where
  hasActive := h.hasActive.trans h'.hasActive
  lazyCommit := h.lazyCommit.trans h'.lazyCommit
  encoderScopeActive := h.encoderScopeActive.trans h'.encoderScopeActive
  opCount := h.opCount.trans h'.opCount
  autoFlushThreshold := h.autoFlushThreshold.trans h'.autoFlushThreshold

theorem SubmitsAlike.counted (h : SubmitsAlike p q) : SubmitsAlike p.counted q.counted where
  hasActive := rfl
  lazyCommit := h.lazyCommit
  encoderScopeActive := h.encoderScopeActive
  opCount := by
    show (if p.submits then 0 else p.opCount + 1) = if q.submits then 0 else q.opCount + 1
    rw [h.submits, h.opCount]
  autoFlushThreshold := h.autoFlushThreshold

/-- The buffer of an operator is the active one, or a new one. -/
theorem Pipeline.Usable.current (h : p.Usable) (env : Env) :
    (p.hasActive = false ∧ env.createOk = false ∧
      p.currentBuffer env = (.error createFailed, p)) ∨
    ((p.hasActive = true ∨ env.createOk = true) ∧ ∃ buf q,
      p.currentBuffer env = (.ok (some buf), q) ∧
      q.Usable ∧ q.hasActive = true ∧ q.activeBuffer = some buf ∧
        SubmitsAlike q { p with hasActive := true } ∧
          q.committed = p.committed ∧ q.openEncoders = p.openEncoders) := by
  unfold currentBuffer
  split_ifs with hactive
  · obtain ⟨buf, hbuf⟩ := Option.isSome_iff_exists.mp (h.buffer hactive)
    exact .inr ⟨.inl hactive, buf, p, by rw [hbuf], h, hactive, hbuf, ⟨hactive, rfl, rfl, rfl, rfl⟩,
      rfl, rfl⟩
  · unfold createBuffer
    split_ifs with hok
    · refine .inr ⟨.inr hok, p.nextObject, _, rfl, ?_, rfl, rfl, ⟨rfl, rfl, rfl, rfl, rfl⟩,
        rfl, rfl⟩
      -- the new buffer is older than nothing
      constructor
      · exact fun _ => rfl
      · intro _ e he heq
        exact absurd (Option.some.inj heq) (Nat.ne_of_gt (h.open_lt e he))
      · intro _ buf hbuf hcommitted
        obtain rfl := Option.some.inj hbuf
        exact absurd (h.committed_lt _ hcommitted) (Nat.lt_irrefl _)
      · intro buf hbuf
        obtain rfl := Option.some.inj hbuf
        exact Nat.lt_succ_self _
      · exact fun buf hbuf => Nat.lt_succ_of_lt (h.committed_lt buf hbuf)
      · exact fun e he => Nat.lt_succ_of_lt (h.open_lt e he)
    · exact .inl ⟨by simpa using hactive, by simpa using hok, rfl⟩

/-- A submission creates the next buffer, or leaves the committed one where it is. -/
theorem Pipeline.Usable.submit (h : p.Usable) (hactive : p.hasActive = true) (env : Env) :
    (env.createOk = true ∧ (p.submit env).1 = .ok () ∧ (p.submit env).2.Usable ∧
      SubmitsAlike (p.submit env).2 { p with opCount := 0 }) ∨
    (env.createOk = false ∧ (p.submit env).1 = .error createFailed ∧
      ¬ (p.submit env).2.Usable) := by
  obtain ⟨buf, hbuf⟩ := Option.isSome_iff_exists.mp (h.buffer hactive)
  have hlt : buf < p.nextObject := h.active_lt buf hbuf
  have hcommit : p.commitActive
      = { p with committed := buf :: p.committed, pending := p.pending ++ [buf] } := by
    unfold commitActive
    rw [hbuf]
  unfold Pipeline.submit Pipeline.createBuffer
  rw [hcommit]
  split_ifs with hok
  · refine .inl ⟨hok, rfl, ?_, ⟨rfl, rfl, rfl, rfl, rfl⟩⟩
    constructor
    · exact fun _ => rfl
    · intro _ e he heq
      exact absurd (Option.some.inj heq) (Nat.ne_of_gt (h.open_lt e he))
    · intro _ b hb hcommitted
      obtain rfl := Option.some.inj hb
      obtain heq | hold := List.mem_cons.mp hcommitted
      · exact absurd heq (Nat.ne_of_gt hlt)
      · exact absurd (h.committed_lt _ hold) (Nat.lt_irrefl _)
    · intro b hb
      obtain rfl := Option.some.inj hb
      exact Nat.lt_succ_self _
    · intro b hb
      obtain rfl | hold := List.mem_cons.mp hb
      · exact Nat.lt_succ_of_lt hlt
      · exact Nat.lt_succ_of_lt (h.committed_lt b hold)
    · exact fun e he => Nat.lt_succ_of_lt (h.open_lt e he)
  · refine .inr ⟨by simpa using hok, rfl, fun husable => ?_⟩
    exact husable.uncommitted hactive buf hbuf List.mem_cons_self

/-- What `commit_and_continue` does to a usable pipeline with an active buffer. -/
theorem Pipeline.Usable.commitAndContinue (h : p.Usable) (hactive : p.hasActive = true)
    (env : Env) :
    (¬ (p.submits = true ∧ env.createOk = false) ∧ (p.commitAndContinue env).1 = .ok () ∧
      (p.commitAndContinue env).2.Usable ∧ SubmitsAlike (p.commitAndContinue env).2 p.counted) ∨
    ((p.submits = true ∧ env.createOk = false) ∧
      (p.commitAndContinue env).1 = .error createFailed ∧
        ¬ (p.commitAndContinue env).2.Usable) := by
  let counted : Pipeline := { p with opCount := p.opCount + 1 }
  have hcount : counted.Usable :=
    ⟨h.buffer, h.closed, h.uncommitted, h.active_lt, h.committed_lt, h.open_lt⟩
  have hacquired : counted.acquire.Usable :=
    ⟨h.buffer, h.closed, h.uncommitted, h.active_lt, h.committed_lt, h.open_lt⟩
  -- without a submission only the counter changes
  have hquiet : p.submits = false → p.commitAndContinue env = (.ok (), counted) →
      (¬ (p.submits = true ∧ env.createOk = false) ∧ (p.commitAndContinue env).1 = .ok () ∧
        (p.commitAndContinue env).2.Usable ∧ SubmitsAlike
          (p.commitAndContinue env).2 p.counted) := by
    intro hno heq
    rw [heq]
    refine ⟨by simp [hno], rfl, hcount, ⟨hactive, rfl, rfl, ?_, rfl⟩⟩
    show p.opCount + 1 = if p.submits then 0 else p.opCount + 1
    simp [hno]
  have hzero : p.submits = true → SubmitsAlike { counted.acquire with opCount := 0 } p.counted := by
    intro hyes
    refine ⟨hactive, rfl, rfl, ?_, rfl⟩
    show (0 : UInt64) = if p.submits then 0 else p.opCount + 1
    simp [hyes]
  cases hlazy : p.lazyCommit with
  | false =>
    have hyes : p.submits = true := by simp [submits, hlazy]
    have heq : p.commitAndContinue env = counted.acquire.submit env := by
      simp [Pipeline.commitAndContinue, hlazy, hactive, counted]
    rw [heq]
    obtain ⟨hok, hresult, husable, halike⟩ | ⟨hno, hresult, hspoiled⟩ :=
      hacquired.submit hactive env
    · exact .inl ⟨by simp [hok], hresult, husable, halike.trans (hzero hyes)⟩
    · exact .inr ⟨⟨hyes, hno⟩, hresult, hspoiled⟩
  | true =>
    cases hscope : p.encoderScopeActive with
    | true =>
      refine .inl (hquiet (by simp [submits, hlazy, hscope]) ?_)
      simp [Pipeline.commitAndContinue, hlazy, hscope, counted]
    | false =>
      by_cases hreached : p.autoFlushThreshold ≤ p.opCount + 1
      · have hyes : p.submits = true := by simp [submits, hscope, hreached]
        have heq : p.commitAndContinue env = Pipeline.resetCount (counted.acquire.submit env) := by
          simp [Pipeline.commitAndContinue, Pipeline.flush, hlazy, hscope, hreached, hactive,
            counted]
        rw [heq]
        have hsubmit := hacquired.submit hactive env
        generalize counted.acquire.submit env = r at hsubmit ⊢
        obtain ⟨result, q⟩ := r
        obtain ⟨hok, rfl, husable, halike⟩ | ⟨hno, rfl, hspoiled⟩ := hsubmit
        · refine .inl ⟨by simp [hok], rfl, ?_, ?_⟩
          · exact ⟨husable.buffer, husable.closed, husable.uncommitted, husable.active_lt,
              husable.committed_lt, husable.open_lt⟩
          · exact SubmitsAlike.trans ⟨halike.hasActive, halike.lazyCommit,
              halike.encoderScopeActive,
              rfl, halike.autoFlushThreshold⟩ (hzero hyes)
        · exact .inr ⟨⟨hyes, hno⟩, rfl, hspoiled⟩
      · refine .inl (hquiet (by simp [Pipeline.submits, hlazy, hreached]) ?_)
        simp [Pipeline.commitAndContinue, hlazy, hscope, hreached, counted]

end Calls

/-! ### Steps that fail -/

theorem firstThrow_eq_ok {sites : List (Except MNException Unit)} :
    firstThrow sites = .ok () ↔ ∀ e, .error e ∉ sites := by
  induction sites with
  | nil => simp [firstThrow]
  | cons r rest ih =>
    obtain e | ⟨⟨⟩⟩ := r
    · exact iff_of_false nofun fun h => h e List.mem_cons_self
    · simp [firstThrow, ih]

namespace OperatorStep

variable {s : OperatorState} {name : String} {inside : List (Except MNException Unit)}
  {current next : Env}

/-- A buffer for the next kernel is there, or can be created. -/
def Available (p : Pipeline) (current : Env) : Prop := p.hasActive = true ∨ current.createOk = true

/-- What becomes of a kernel on a usable pipeline. -/
inductive EncodeEffect (s : OperatorState) (name : String) (inside : List (Except MNException Unit))
    (current next : Env) (r : Outcome OperatorState Unit) : Prop
  /-- There is no buffer, and nothing has happened. -/
  | noBuffer (hno : ¬ Available s.pipe current) (hr : ∃ e, r = (.error e, s))
  /-- It throws with its encoder open, or when the active buffer has been committed. -/
  | spoiled (hbuffer : Available s.pipe current)
      (hwhy : (∃ e, .error e ∈ inside) ∨ (s.pipe.submits = true ∧ next.createOk = false))
      (hr : ∃ e, r.1 = .error e) (hspoiled : ¬ r.2.pipe.Usable)
  /-- It is encoded. -/
  | encoded (hbuffer : Available s.pipe current) (hinside : ∀ e, .error e ∉ inside)
      (hnext : ¬ (s.pipe.submits = true ∧ next.createOk = false)) (hr : r.1 = .ok ())
      (husable : r.2.pipe.Usable) (halike : SubmitsAlike r.2.pipe s.pipe.counted)
      (hkept : ∃ buf, r.2.dispatched = s.dispatched ++ [(buf, name)] ∧
        buf ∉ s.pipe.committed ∧ ∀ e ∈ s.pipe.openEncoders, e.buffer ≠ buf)

/-- A throw site fails with the encoder open. -/
theorem encodeOn_throws {e : MNException} (hthrow : firstThrow inside = .error e)
    (s : OperatorState) (buf : ObjId) :
    encodeOn name inside next s (some buf)
      = (.error e, { s with pipe := (s.pipe.computeCommandEncoder (some buf)).2 }) := by
  unfold encodeOn
  rw [hthrow]

/-- The encoder is ended, and what is left of it is its number. -/
theorem encodeOn_ends (hok : firstThrow inside = .ok ()) (s : OperatorState) (buf : ObjId) :
    encodeOn name inside next s (some buf)
      = ((({ s.pipe with nextObject := s.pipe.nextObject + 1 } : Pipeline).commitAndContinue
        next).1,
          { pipe :=
              (({ s.pipe with nextObject := s.pipe.nextObject + 1 } : Pipeline).commitAndContinue
                next).2
            dispatched := s.dispatched ++ [(buf, name)] }) := by
  unfold encodeOn
  rw [hok]
  simp [computeCommandEncoder, endOwnEncoder]

/-- **No other effects.** -/
theorem encode_effect (h : s.pipe.Usable) (name : String) (inside : List (Except MNException Unit))
    (current next : Env) :
    EncodeEffect s name inside current next (encode name inside current next s) := by
  obtain ⟨hnone, hfail, hcurrent⟩ | ⟨hbuffer, buf, p, hcurrent, husable, hactive, hbuf, halike,
    hcommitted, hopen⟩ := h.current current
  · refine .noBuffer (by simp [Available, hnone, hfail]) ⟨createFailed, ?_⟩
    unfold encode
    rw [hcurrent]
  · have hencode : encode name inside current next s
        = encodeOn name inside next { s with pipe := p } (some buf) := by
      unfold encode
      rw [hcurrent]
    rw [hencode]
    have hnumbered : ({ p with nextObject := p.nextObject + 1 } : Pipeline).Usable :=
      ⟨husable.buffer, husable.closed, husable.uncommitted,
        fun b hb => Nat.lt_succ_of_lt (husable.active_lt b hb),
        fun b hb => Nat.lt_succ_of_lt (husable.committed_lt b hb),
        fun e he => Nat.lt_succ_of_lt (husable.open_lt e he)⟩
    have halike' : SubmitsAlike { p with nextObject := p.nextObject + 1 }
        { s.pipe with hasActive := true } :=
      ⟨halike.hasActive, halike.lazyCommit, halike.encoderScopeActive, halike.opCount,
        halike.autoFlushThreshold⟩
    have hsubmits : ({ p with nextObject := p.nextObject + 1 } : Pipeline).submits
        = s.pipe.submits := halike'.submits
    cases hthrow : firstThrow inside with
    | error e =>
      have hmem : ∃ e, .error e ∈ inside := by
        by_contra hno
        have hok := firstThrow_eq_ok.mpr fun e he => hno ⟨e, he⟩
        rw [hthrow] at hok
        cases hok
      rw [encodeOn_throws hthrow]
      refine .spoiled hbuffer (.inl hmem) ⟨e, rfl⟩ fun hbad => ?_
      -- the encoder is still open, on the active buffer
      exact hbad.closed hactive ⟨p.nextObject, buf⟩ List.mem_cons_self hbuf
    | ok _ =>
      have hinside := firstThrow_eq_ok.mp hthrow
      rw [encodeOn_ends hthrow]
      obtain ⟨hnext, hresult, hu, ha⟩ | ⟨hnext, hresult, hbad⟩ :=
        hnumbered.commitAndContinue hactive next
      · rw [hsubmits] at hnext
        have hcounted := ha.trans (halike'.counted.trans ⟨rfl, rfl, rfl, rfl, rfl⟩)
        refine .encoded hbuffer hinside hnext hresult hu hcounted ⟨buf, rfl, ?_, ?_⟩
        · rw [← hcommitted]
          exact husable.uncommitted hactive buf hbuf
        · intro e he heq
          rw [← hopen] at he
          exact husable.closed hactive e he (by rw [hbuf, heq])
      · rw [hsubmits] at hnext
        exact .spoiled hbuffer (.inr hnext) ⟨_, hresult⟩ hbad

/-! ### Whole operators -/

/-- The condition on a list of steps and on the pipeline before them: it gets as far as a kernel
    whose encoder it leaves open, or whose submission it cannot follow by a new buffer. -/
def Spoils (p : Pipeline) : List OperatorStep → Prop
  | [] => False
  | .check result :: rest => result = .ok () ∧ Spoils p rest
  | .kernel before current next :: rest =>
    ∃ k, before = .ok k ∧ Available p current ∧
      ((∃ e, .error e ∈ k.inside) ∨ (p.submits = true ∧ next.createOk = false) ∨
        Spoils p.counted rest)

variable {steps : List OperatorStep}

theorem Spoils.congr {p q : Pipeline} (h : SubmitsAlike p q) :
    Spoils p steps ↔ Spoils q steps := by
  induction steps generalizing p q with
  | nil => exact Iff.rfl
  | cons step rest ih =>
    cases step with
    | check result => exact and_congr_right fun _ => ih h
    | kernel before current next =>
      unfold Spoils Available
      rw [h.hasActive, h.submits]
      simp only [ih h.counted]

/-- What an operator that has thrown must leave: a pipeline on which the next operator can encode
    and commit, with all that has been encoded before. -/
structure LeavesUsable (s t : OperatorState) : Prop where
  usable : t.pipe.Usable
  kept : s.dispatched <+: t.dispatched
  next : ∀ (name : String) (current next : Env), current.createOk = true → next.createOk = true →
    ∃ buf u, encode name [] current next t = (.ok (), u) ∧ u.pipe.Usable ∧
      u.dispatched = t.dispatched ++ [(buf, name)] ∧ buf ∉ t.pipe.committed ∧
        ∀ e ∈ t.pipe.openEncoders, e.buffer ≠ buf

/-- A usable pipeline is all that the next operator needs. -/
theorem leavesUsable_of_usable {s t : OperatorState} (h : t.pipe.Usable)
    (hkept : s.dispatched <+: t.dispatched) : LeavesUsable s t := by
  refine ⟨h, hkept, fun name current next hcurrent hnext => ?_⟩
  have heffect := encode_effect h name [] current next
  generalize encode name [] current next t = r at heffect ⊢
  obtain ⟨result, u⟩ := r
  cases heffect with
  | noBuffer hno => exact absurd (.inr hcurrent) hno
  | spoiled _ hwhy =>
    obtain ⟨e, he⟩ | ⟨-, hfail⟩ := hwhy
    · cases he
    · rw [hnext] at hfail
      cases hfail
  | encoded _ _ _ hr husable _ hkept =>
    obtain ⟨buf, hdispatched, hfresh, hclosed⟩ := hkept
    obtain rfl : result = .ok () := hr
    exact ⟨buf, u, rfl, husable, hdispatched, hfresh, hclosed⟩

/-- A run keeps the pipeline usable, or spoils it and throws. -/
theorem runAll_cases (h : s.pipe.Usable) :
    (¬ Spoils s.pipe steps ∧ (runAll s steps).2.pipe.Usable ∧
      s.dispatched <+: (runAll s steps).2.dispatched) ∨
    (Spoils s.pipe steps ∧ (∃ e, (runAll s steps).1 = .error e) ∧
      ¬ (runAll s steps).2.pipe.Usable) := by
  induction steps generalizing s with
  | nil => exact .inl ⟨id, h, List.prefix_refl _⟩
  | cons step rest ih =>
    cases step with
    | check result =>
      obtain e | ⟨⟨⟩⟩ := result
      · refine .inl ⟨?_, h, List.prefix_refl _⟩
        rintro ⟨hok, -⟩
        cases hok
      · have hrun : runAll s (.check (.ok ()) :: rest) = runAll s rest := rfl
        have hspoils : Spoils s.pipe (.check (.ok ()) :: rest) ↔ Spoils s.pipe rest :=
          ⟨fun h => h.2, fun h => ⟨rfl, h⟩⟩
        rw [hrun, hspoils]
        exact ih h
    | kernel before current next =>
      cases before with
      | error e =>
        refine .inl ⟨?_, h, List.prefix_refl _⟩
        rintro ⟨k, hk, -⟩
        cases hk
      | ok k =>
        have heffect := encode_effect h k.name k.inside current next
        have hstep : run s (.kernel (.ok k) current next)
            = encode k.name k.inside current next s := rfl
        have hspoils : Spoils s.pipe (.kernel (.ok k) current next :: rest) ↔
            Available s.pipe current ∧ ((∃ e, .error e ∈ k.inside) ∨
              (s.pipe.submits = true ∧ next.createOk = false) ∨ Spoils s.pipe.counted rest) := by
          constructor
          · rintro ⟨k', hk, hrest⟩
            obtain rfl := Except.ok.inj hk
            exact hrest
          · exact fun hrest => ⟨k, rfl, hrest⟩
        rw [hspoils]
        unfold runAll
        rw [hstep]
        generalize encode k.name k.inside current next s = r at heffect ⊢
        obtain ⟨result, t⟩ := r
        cases heffect with
        | noBuffer hno hr =>
          obtain ⟨e, he⟩ := hr
          obtain ⟨rfl, rfl⟩ := Prod.mk.inj he
          exact .inl ⟨fun hspoils => hno hspoils.1, h, List.prefix_refl _⟩
        | spoiled hbuffer hwhy hr hbad =>
          obtain ⟨e, rfl⟩ := hr
          exact .inr ⟨⟨hbuffer, hwhy.imp id .inl⟩, ⟨e, rfl⟩, hbad⟩
        | encoded hbuffer hinside hnext hr husable halike hkept =>
          obtain rfl : result = .ok () := hr
          obtain ⟨buf, hdispatched, -⟩ := hkept
          have hprefix : s.dispatched <+: t.dispatched := ⟨[(buf, k.name)], hdispatched.symm⟩
          -- what is left decides
          obtain ⟨hno, hu, hk⟩ | ⟨hyes, hthrow, hbad⟩ := ih husable
          · refine .inl ⟨?_, hu, hprefix.trans hk⟩
            rintro ⟨-, hin | hsub | hrest⟩
            · exact hin.elim hinside
            · exact hnext hsub
            · exact hno ((Spoils.congr halike).mpr hrest)
          · exact .inr ⟨⟨hbuffer, .inr (.inr ((Spoils.congr halike).mp hyes))⟩, hthrow, hbad⟩

/-- **Operators that fail.**  An operator that throws leaves the pipeline usable exactly where its
    steps do not spoil it. -/
theorem runAll_usable (h : s.pipe.Usable) :
    ((∃ e, (runAll s steps).1 = .error e) → LeavesUsable s (runAll s steps).2)
      ↔ ¬ Spoils s.pipe steps := by
  obtain ⟨hno, husable, hkept⟩ | ⟨hyes, hthrow, hbad⟩ := @runAll_cases s steps h
  · exact iff_of_true (fun _ => leavesUsable_of_usable husable hkept) hno
  · exact iff_of_false (fun hleaves => hbad (hleaves hthrow).usable) fun hno => hno hyes

end OperatorStep

end MetalNative
