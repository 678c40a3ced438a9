import MetalNative.Dispatch.NestedScopes

namespace MetalNative

open LockSem Run

/-!
# The operation counter of the pipeline

`op_count` is an atomic that is incremented and reset without regard to the mutex: `flush`, `commit`
and `commit_and_continue` submit the active buffer first and reset the counter afterwards, and
another thread can count an operation in between.  `Counting.step` takes these two apart, on top of
the steps of the pipeline, and records how many operations have been counted since the last
submission.

* `PC.records`, `PC.resetsAfter` — where an operation is counted, and where a reset follows a
  submission.
* `CountEffect`, `body_count` — what a step can do to the counter and to what decides about it.
-/

/-- The steps that count an operation. -/
def PC.records : PC → Bool
  | .cacCount | .roCount => true
  | _ => false

/-- The submissions after which the counter is reset. -/
def PC.resetsAfter (p : Pipeline) (env : Env) : PC → Bool
  | .flCommit _ => env.createOk
  | .cmLocked => p.hasActive
  | .cacLocked => p.hasActive && env.createOk
  | _ => false

/-- The system, the thread that has submitted and has yet to reset the counter, and the number of
    operations counted since the last submission. -/
structure Counting where
  sys : System
  late : Option ℕ := none
  since : ℕ := 0

namespace Counting

/-- The thread that has submitted resets the counter and releases the mutex. -/
def reset (s : Counting) : Counting :=
  { s with
    sys := { s.sys with pipe := { s.sys.pipe with opCount := 0, mu := none } }
    late := none }

/-- The operations since the last submission after a step. -/
def sinceAfter (s : Counting) (pc : PC) (sys : System) : ℕ :=
  if pc.records then s.since + 1
  else if sys.pipe.committed = s.sys.pipe.committed then s.since
  else 0

/-- One step. -/
def step (s : Counting) : Action → Option Counting
  | .complete buf => (MetalNative.step s.sys (.complete buf)).map fun sys => { s with sys }
  | .run t env =>
    if s.late = some t then some s.reset
    else do
      let th ← s.sys.threads[t]?
      let sys ← MetalNative.step s.sys (.run t env)
      let since := s.sinceAfter th.pc sys
      if th.pc.resetsAfter s.sys.pipe env then
        let pipe := { sys.pipe with opCount := s.sys.pipe.opCount, mu := some t }
        some { sys := { sys with pipe }, late := some t, since }
      else some { s with sys, since }

/-- A pipeline in lazy mode with a threshold, and its clients. -/
def init (bufferCount : ℕ) (threshold : UInt64) (progs : List (List Op)) : Counting where
  sys :=
    { System.init bufferCount progs with
      pipe := { bufferCount, lazyCommit := true, autoFlushThreshold := threshold } }

/-- No call is in progress. -/
def Quiet (s : Counting) : Prop := s.late = none ∧ ∀ th ∈ s.sys.threads, th.pc = .idle

instance (s : Counting) : Decidable s.Quiet := inferInstanceAs (Decidable (_ ∧ _))

/-- The counter is the number of operations since the last submission, none of which is missing in
    it and none of which has been submitted, and it is below the threshold. -/
def Counted (s : Counting) (threshold : UInt64) : Prop :=
  s.sys.pipe.opCount.toNat = s.since ∧ s.since < threshold.toNat

end Counting

/-! ### What a step can do to the counter -/

/-- A call of `flush` that has not submitted yet. -/
def PC.flushing : PC → Bool
  | .flLock _ | .flCommit _ => true
  | _ => false

/-- A call that will reset the counter, or go on to flush, as long as nothing changes. -/
def PC.Pending (threshold : UInt64) (p : Pipeline) : PC → Prop
  | .roLazy c | .roScope c | .roThreshold c | .roExchange c => c = p.opCount
  | .cacLazy c | .cacScope c | .cacThreshold c => threshold ≤ c
  | .flLock .resetCount | .flCommit _ | .cacReset => True
  | .flLock _ => p.hasActive = true
  | _ => False

/-- The submissions that leave the counter as it is. -/
def PC.leavesCount (env : Env) : PC → Prop
  | .syCommit | .ceCommit => True
  | .flCommit _ | .cacLocked => env.createOk = false
  | _ => False

/-- The ways in which a step in lazy mode changes the counter and what decides about it. -/
inductive CountEffect (threshold : UInt64) (env : Env) (p p' : Pipeline) (pc pc' : PC) : Prop
  /-- Control moves; what was pending is, unless an encoder scope is active. -/
  | control (count : p'.opCount = p.opCount) (committed : p'.committed = p.committed)
      (active : p'.hasActive = p.hasActive) (buffer : p'.activeBuffer = p.activeBuffer)
      (scope : p'.encoderScopeActive = p.encoderScopeActive)
      (pending : threshold ≤ p.opCount → pc.Pending threshold p →
        pc'.Pending threshold p ∨ p.encoderScopeActive = true)
      (flushing : pc.flushing = true → p.hasActive = true → pc'.flushing = true)
      (inside : (∃ r, pc' = .flCommit r) ∨ pc' = .syCommit → p.hasActive = true)
      (hpc : pc.records = false ∧ pc.resetsAfter p env = false)
  /-- An operation is counted. -/
  | count (hpc : pc.records = true) (hp : p' = { p with opCount := p.opCount + 1 })
      (pending : threshold ≤ p'.opCount → pc'.Pending threshold p')
      (inside : pc'.holdsMu = false)
  /-- `record_op` takes the count and goes on to flush. -/
  | exchange (hpc : pc = .roExchange p.opCount) (hp : p' = { p with opCount := 0 })
      (hpc' : pc' = .flLock .done)
  /-- `commit_and_continue` resets the counter after its flush. -/
  | reset (hpc : pc = .cacReset) (hp : p' = { p with opCount := 0 }) (hpc' : pc' = .idle)
  /-- A submission that is followed by a reset. -/
  | submit (hpc : pc.resetsAfter p env = true)
    (scope : p'.encoderScopeActive = p.encoderScopeActive)
      (buffer : p'.hasActive = true → p'.activeBuffer.isSome = true) (inside : pc'.holdsMu = false)
  /-- A submission that is not. -/
  | leave (hpc : pc.leavesCount env) (hreset : pc.resetsAfter p env = false)
      (count : p'.opCount = p.opCount)
      (committed : p'.committed = p.commitActive.committed)
      (scope : p'.encoderScopeActive = p.encoderScopeActive)
      (active : pc ≠ .syCommit → p.hasActive = true → p'.hasActive = true)
      (buffer : (p.hasActive = true → p.activeBuffer.isSome = true) →
        p'.hasActive = true → p'.activeBuffer.isSome = true)
      (inside : pc'.holdsMu = false)
  /-- A buffer becomes active, or an encoder scope does. -/
  | activate (hpc : pc.need = .mutex ∨ pc.holdsMu = true)
      (hquiet : pc.records = false ∧ pc.resetsAfter p env = false ∧ pc.flushing = false ∧
        ¬ pc.Pending threshold p)
      (count : p'.opCount = p.opCount)
      (committed : p'.committed = p.committed)
      (active : p.hasActive = true → p'.hasActive = true)
      (scope : p.encoderScopeActive = true → p'.encoderScopeActive = true)
      (buffer : (p.hasActive = true → p.activeBuffer.isSome = true) →
        p'.hasActive = true → p'.activeBuffer.isSome = true)
      (inside : pc'.holdsMu = false)
  /-- `~EncoderScope` puts the flag back, and flushes if it is not set. -/
  | close (outer prev : Bool) (hpc : pc = .edLock outer prev)
      (count : p'.opCount = p.opCount) (committed : p'.committed = p.committed)
      (active : p'.hasActive = p.hasActive) (buffer : p'.activeBuffer = p.activeBuffer)
      (scope : p'.encoderScopeActive = outer)
      (hpc' : pc' = if outer then .restoreLazy prev else .flLock (.endScope prev))

section Body

variable {threshold : UInt64} {env : Env} {p p' : Pipeline} {th th' : Thread}

@[simp] theorem commitActive_opCount (p : Pipeline) : p.commitActive.opCount = p.opCount := by
  unfold Pipeline.commitActive
  split <;> rfl

@[simp] theorem openEncoder_opCount (env : Env) (p : Pipeline) :
    (p.openEncoder env).opCount = p.opCount := by
  unfold Pipeline.openEncoder
  split <;> rfl

@[simp] theorem endEncoding_opCount (env : Env) (p : Pipeline) (e : Encoder) :
    (p.endEncoding env e).opCount = p.opCount := by
  unfold Pipeline.endEncoding Pipeline.updateEncoderTiming
  split <;> rfl

@[simp] theorem closeEncoder_opCount (env : Env) (p : Pipeline) :
    (p.closeEncoder env).opCount = p.opCount := by
  unfold Pipeline.closeEncoder
  split
  · rfl
  · exact endEncoding_opCount env p _

/-- Control moves on from a point at which nothing is pending. -/
theorem CountEffect.moves {pc pc' : PC} (hcount : p'.opCount = p.opCount)
    (hcommitted : p'.committed = p.committed) (hactive : p'.hasActive = p.hasActive)
    (hbuffer : p'.activeBuffer = p.activeBuffer)
    (hscope : p'.encoderScopeActive = p.encoderScopeActive)
    (hpending : ¬ pc.Pending threshold p) (hflushing : pc.flushing = false)
    (hinside : (∃ r, pc' = .flCommit r) ∨ pc' = .syCommit → p.hasActive = true)
    (hpc : pc.records = false ∧ pc.resetsAfter p env = false) :
    CountEffect threshold env p p' pc pc' := by
  refine .control hcount hcommitted hactive hbuffer hscope (fun _ h => absurd h hpending) ?_
    hinside hpc
  intro h
  rw [hflushing] at h
  cases h

/-- A call decides how it goes on. -/
theorem CountEffect.decides {pc pc' : PC} (hpending : threshold ≤ p.opCount →
      pc.Pending threshold p → pc'.Pending threshold p ∨ p.encoderScopeActive = true)
    (hflushing : pc.flushing = false) (hinside : pc'.holdsMu = false)
    (hpc : pc.records = false ∧ pc.resetsAfter p env = false) :
    CountEffect threshold env p p pc pc' := by
  refine .control rfl rfl rfl rfl rfl hpending ?_ ?_ hpc
  · intro h
    rw [hflushing] at h
    cases h
  · rintro (⟨r, rfl⟩ | rfl) <;> cases hinside

theorem not_inside {pc : PC} (h : pc.holdsMu = false) {P : Prop} :
    (∃ r, pc = .flCommit r) ∨ pc = .syCommit → P := by
  rintro (⟨r, rfl⟩ | rfl) <;> cases h

/-- A step that only decides where a call goes on. -/
theorem Pipeline.Goes.countEffect {pc pc' : PC} (h : p.Goes pc pc') (hlazy : p.lazyCommit = true)
    (hthreshold : p.autoFlushThreshold = threshold) : CountEffect threshold env p p pc pc' := by
  cases h with
  | cacEager hoff | roEager hoff =>
    rw [hlazy] at hoff
    cases hoff
  | cacInside hscope | roInside hscope => exact .decides (fun _ _ => .inr hscope) rfl rfl ⟨rfl, rfl⟩
  | cacLazy | roLazy | cacOutside | roOutside | roFlush =>
    exact .decides (fun _ hc => .inl hc) rfl rfl ⟨rfl, rfl⟩
  | cacFlush => exact .decides (fun _ _ => .inl trivial) rfl rfl ⟨rfl, rfl⟩
  | cacBelow hlt => exact .decides (fun _ hc => absurd hc (hthreshold ▸ hlt)) rfl rfl ⟨rfl, rfl⟩
  | roBelow hlt =>
    refine .decides (fun hle hc => ?_) rfl rfl ⟨rfl, rfl⟩
    -- the count is the counter, which is not below the threshold
    have hcount := hc.symm ▸ hle
    exact absurd hcount (hthreshold ▸ hlt)
  | roLost hne =>
    exact .moves rfl rfl rfl rfl rfl (fun hc => hne (Eq.symm hc)) rfl (not_inside rfl) ⟨rfl, rfl⟩
  | flActive hactive =>
    exact .control rfl rfl rfl rfl rfl (fun _ _ => .inl trivial) (fun _ _ => rfl)
      (fun _ => hactive) ⟨rfl, rfl⟩
  | flNone hno =>
    rename_i r
    have hactive : ¬ p.hasActive = true := by simpa using hno
    -- nothing to submit: only `commit_and_continue` still resets the counter
    refine .control rfl rfl rfl rfl rfl (fun _ hpending => ?_) (fun _ h => absurd h hactive)
      (not_inside (FlushRet.next_pc r).2) ⟨rfl, rfl⟩
    cases r with
    | resetCount => exact .inl trivial
    | done | endScope => exact absurd hpending hactive
  | cacLeak hno =>
    exact .moves rfl rfl rfl rfl rfl id rfl (not_inside rfl) ⟨rfl, by simp [PC.resetsAfter, hno]⟩
  | cmLeak hno => exact .moves rfl rfl rfl rfl rfl id rfl (not_inside rfl) ⟨rfl, hno⟩
  | syActive hactive => exact .moves rfl rfl rfl rfl rfl id rfl (fun _ => hactive) ⟨rfl, rfl⟩
  | esReadLazy =>
    refine .moves rfl rfl rfl rfl rfl id rfl ?_ ⟨rfl, rfl⟩
    rintro (⟨r, hr⟩ | hr) <;> cases hr
  | _ => exact .moves rfl rfl rfl rfl rfl id rfl (not_inside rfl) ⟨rfl, rfl⟩

/-- `EncoderScope` opens an encoder on the active buffer. -/
theorem CountEffect.opens {a b : Bool} {q : Pipeline} (hcount : q.opCount = p.opCount)
    (hcommitted : q.committed = p.committed) (hscope : q.encoderScopeActive = true)
    (hactive : p.hasActive = true → q.hasActive = true)
    (hbuffer : (p.hasActive = true → p.activeBuffer.isSome = true) →
      q.hasActive = true → q.activeBuffer.isSome = true) :
    CountEffect threshold env p (q.openEncoder env) (.esSetScope a b) .idle := by
  obtain ⟨-, -, -, -, hc, hb, ha, -⟩ := openEncoder_fixed env q
  refine .activate (.inr rfl) ⟨rfl, rfl, rfl, id⟩ (by simp [hcount]) (hc.trans hcommitted)
    (fun h => ha.trans (hactive h)) (fun _ => by simp [hscope]) ?_ rfl
  rw [hb, ha]
  exact hbuffer

/-- **No other effects.** -/
theorem body_count (hlazy : p.lazyCommit = true) (hthreshold : p.autoFlushThreshold = threshold)
    (h : body env p th = some (p', th')) : CountEffect threshold env p p' th.pc th'.pc := by
  obtain ⟨hbuf, hhas, -⟩ := commitActive_fixed p
  -- a submission after which no buffer could be created
  have hfail : ∀ {pc pc' : PC}, pc.leavesCount env → pc.resetsAfter p env = false →
      pc'.holdsMu = false → CountEffect threshold env p p.commitActive pc pc' :=
    fun hpc hreset hmu => .leave hpc hreset (commitActive_opCount p) rfl
      (commitActive_encoderScopeActive p) (fun _ h => hhas.trans h)
      (fun hb h => by rw [hbuf]; exact hb (hhas.symm.trans h)) hmu
  obtain ⟨prog, pc, scopes, encoder⟩ := th
  have hstep : BodyStep env p _ pc p' th' := body_step h
  cases hstep with
  | call hprog hop =>
    exact .moves rfl rfl rfl rfl rfl id rfl (not_inside (entry_pc hop).2) ⟨rfl, rfl⟩
  | goes hgoes => exact hgoes.countEffect hlazy hthreshold
  | cacCount => exact .count rfl rfl id rfl
  | roCount => exact .count rfl rfl (fun _ => rfl) rfl
  | roExchange heq => exact .exchange (by rw [heq]) rfl rfl
  | cacReset => exact .reset rfl rfl rfl
  | newBuffer =>
    exact .activate (.inl rfl) ⟨rfl, rfl, rfl, id⟩ rfl rfl (fun _ => rfl) id (fun _ _ => rfl) rfl
  | cacFail hactive hok => exact hfail hok (by simp [PC.resetsAfter, hok]) rfl
  | flFail hr hok => exact hfail hok hok rfl
  | ceFail => exact hfail trivial rfl rfl
  | cacCommit hactive hok =>
    exact .submit (by simp [PC.resetsAfter, hok, hactive]) (commitActive_encoderScopeActive p)
      (fun _ => rfl) rfl
  | flCommit hok =>
    exact .submit hok (commitActive_encoderScopeActive p) (fun _ => rfl) (FlushRet.next_pc _).2
  | cmCommit hactive =>
    exact .submit hactive (commitActive_encoderScopeActive p) (fun h => nomatch h) rfl
  | syCommit =>
    exact .leave trivial rfl (commitActive_opCount p) rfl (commitActive_encoderScopeActive p)
      (fun h => absurd rfl h) (fun _ h => nomatch h) rfl
  | esLock =>
    refine .moves rfl rfl rfl rfl rfl id rfl ?_ ⟨rfl, rfl⟩
    rintro (⟨r, hr⟩ | hr) <;> cases hr
  | esOld => exact .opens rfl rfl rfl id id
  | esNew => exact .opens rfl rfl rfl (fun _ => rfl) fun _ _ => rfl
  | esFail | esKeep =>
    exact .activate (.inr rfl) ⟨rfl, rfl, rfl, id⟩ rfl rfl id (fun _ => rfl) id rfl
  | edLock hq =>
    rename_i outer prev q
    have hclosed := closeEncoder_sameMetal env p
    have hq' : q.opCount = p.opCount ∧ q.committed = p.committed ∧ q.hasActive = p.hasActive ∧
        q.activeBuffer = p.activeBuffer ∧ q.encoderScopeActive = outer := by
      rw [hq]
      exact ⟨closeEncoder_opCount env p, hclosed.committed, hclosed.hasActive,
        hclosed.activeBuffer, rfl⟩
    obtain ⟨hcount, hcommitted, hactive, hbuffer, hscope⟩ := hq'
    cases outer with
    | false => exact .close false prev rfl hcount hcommitted hactive hbuffer hscope rfl
    | true =>
      obtain ⟨-, -, -, -, hc, hb, ha, -⟩ := openEncoder_fixed env q
      simp only [Bool.true_and, if_true]
      split_ifs
      · exact .close true prev rfl (by simp [hcount]) (hc.trans hcommitted) (ha.trans hactive)
          (hb.trans hbuffer) (by simp [hscope]) rfl
      · exact .close true prev rfl hcount hcommitted hactive hbuffer hscope rfl
  | ceLong =>
    have hended := endEncoding_sameMetal env p ‹_›
    refine .moves (by simp) hended.committed hended.hasActive hended.activeBuffer (by simp) id
      rfl ?_ ⟨rfl, rfl⟩
    rintro (⟨r, hr⟩ | hr) <;> cases hr
  | ceNew hok hq =>
    subst hq
    exact .leave trivial rfl ((openEncoder_opCount env _).trans (commitActive_opCount p)) rfl
      ((openEncoder_encoderScopeActive env _).trans (commitActive_encoderScopeActive p))
      (fun _ _ => rfl) (fun _ _ => rfl) rfl
  | _ => exact .moves rfl rfl rfl rfl rfl id rfl (not_inside rfl) ⟨rfl, rfl⟩

end Body

end MetalNative
