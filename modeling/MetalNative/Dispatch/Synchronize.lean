import MetalNative.Dispatch.SlotAccounting

namespace MetalNative

open LockSem Run List

/-!
# `synchronize` is a barrier

A thread that holds every backpressure slot knows that no buffer is in flight, because a committed
buffer keeps its slot until it has completed.  The system here is that of the command pipeline
with a note of what each call of `synchronize` has to wait for, taken when the call begins.

* `Op.plain`, `PC.plain` — the calls that open no encoder scope.
* `NoThrow` — the condition on a step: the call does not throw.
* `PlainChange` — what a step of such a call does to the buffers.
* `SyncInv` — what a thread inside `synchronize` can count on, point by point.
* `synchronize_barrier` — every run, for any number of threads.
-/

/-! ### The calls -/

/-- The calls that have nothing to do with encoder scopes. -/
def Op.plain : Op → Bool
  | .beginEncoder | .currentEncoder => false
  | _ => true

/-- Their points. -/
def PC.plain : PC → Bool
  | .esReadScope | .esReadLazy _ | .esLock _ _ | .esSetScope _ _ | .edLock _ _
  | .ceLock | .ceCommit => false
  | _ => true

/-- The points of `synchronize`. -/
def PC.inSynchronize : PC → Bool
  | .syLock | .syCommit | .syTake _ | .syGive _ => true
  | _ => false

/-- A thread that makes plain calls only. -/
structure PlainThread (th : Thread) : Prop where
  prog : ∀ op ∈ th.prog, op.plain = true
  scopes : ∀ scope ∈ th.scopes, ∃ prev, scope = .batch prev
  pc : th.pc.plain = true

/-- The step of a plain call throws: there is nothing to commit, or no buffer is created. -/
def Pipeline.throws (p : Pipeline) (env : Env) : PC → Bool
  | .currentBuffer => ! p.hasActive && ! env.createOk
  | .cacLocked => ! p.hasActive || ! env.createOk
  | .cmLocked => ! p.hasActive
  | .flCommit _ => ! env.createOk
  | _ => false

/-! ### The system -/

/-- The command pipeline, and what the last `synchronize` of each thread has to wait for. -/
structure SyncSystem where
  sys : System
  awaited : ℕ → List ObjId

/-- The buffers committed so far, and the active one. -/
def Pipeline.underway (p : Pipeline) : List ObjId :=
  p.committed ++ if p.hasActive then p.activeBuffer.toList else []

/-- The thread whose call of `synchronize` begins with this step. -/
def System.startsSynchronize (s : System) : Action → Option ℕ
  | .run t _ =>
    if s.threads[t]?.any fun th => th.pc = .idle ∧ th.prog.head? = some .synchronize then some t
    else none
  | .complete _ => none

namespace SyncSystem

/-- The notes, when a thread begins a call of `synchronize` or none does. -/
def noteAwaited (awaited : ℕ → List ObjId) (underway : List ObjId) : Option ℕ → ℕ → List ObjId
  | some t => Function.update awaited t underway
  | none => awaited

/-- One step of the pipeline; a call of `synchronize` that begins notes what is underway. -/
def step (s : SyncSystem) (a : Action) : Option SyncSystem :=
  (MetalNative.step s.sys a).map fun sys =>
    ⟨sys, noteAwaited s.awaited s.sys.pipe.underway (s.sys.startsSynchronize a)⟩

def init (bufferCount : ℕ) (progs : List (List Op)) : SyncSystem :=
  ⟨System.init bufferCount progs, fun _ => []⟩

/-- No call throws. -/
def NoThrow (s : SyncSystem) : Action → Prop
  | .run t env => ∀ th ∈ s.sys.threads[t]?, s.sys.pipe.throws env th.pc = false
  | .complete _ => True

instance (s : SyncSystem) : ∀ a : Action, Decidable (NoThrow s a)
  | .run t env =>
    inferInstanceAs (Decidable (∀ th ∈ s.sys.threads[t]?, s.sys.pipe.throws env th.pc = false))
  | .complete _ => inferInstanceAs (Decidable True)

end SyncSystem

/-- The buffer was committed, and the GPU has completed it. -/
def Pipeline.Completed (p : Pipeline) (buf : ObjId) : Prop := buf ∈ p.committed ∧ buf ∉ p.pending

/-- A thread that is not inside `synchronize` has nothing left to wait for, and every slot in use
    belongs to a committed buffer that has not completed or to a call in progress. -/
structure Barrier (s : SyncSystem) : Prop where
  returned : ∀ t th, s.sys.threads[t]? = some th → th.pc.inSynchronize = false →
    ∀ buf ∈ s.awaited t, s.sys.pipe.Completed buf
  account : s.sys.pipe.inFlight = s.sys.pipe.pending.length + held profile s.sys.pcs
  bounded : s.sys.pipe.inFlight ≤ s.sys.pipe.bufferCount
  committed_once : s.sys.pipe.committed.Nodup
  pending_once : s.sys.pipe.pending.Nodup
  pending_committed : s.sys.pipe.pending ⊆ s.sys.pipe.committed

/-! ### What a step does to the buffers -/

/-- What a step of a plain call does to the buffers: nothing, or it creates the active one, or it
    commits the active one and goes on without a buffer or with a new one. -/
inductive PlainChange (p p' : Pipeline) (pc : PC) : Prop
  | same (hcommits : pc.commits = false) (hcommitted : p'.committed = p.committed)
      (hpending : p'.pending = p.pending) (hactive : p'.activeBuffer = p.activeBuffer)
      (hhas : p'.hasActive = p.hasActive) (hnext : p'.nextObject = p.nextObject)
  | create (hpc : pc = .currentBuffer) (hno : p.hasActive = false)
      (hcommitted : p'.committed = p.committed) (hpending : p'.pending = p.pending)
      (hactive : p'.activeBuffer = some p.nextObject) (hnext : p'.nextObject = p.nextObject + 1)
  | commit (hcommits : pc.commits = true)
      (hcommitted : p'.committed = p.commitActive.committed)
      (hpending : p'.pending = p.commitActive.pending)
      (hnext : p'.hasActive = false ∧ p'.nextObject = p.nextObject ∨
        p'.activeBuffer = some p.nextObject ∧ p'.nextObject = p.nextObject + 1)

section Steps

variable {env : Env} {p p' : Pipeline} {th th' : Thread}

/-- A step that commits nothing changes the buffers only by creating the active one. -/
theorem Effect.plainChange {pc pc' : PC} (h : Effect p p' pc pc') (hplain : pc.plain = true)
    (hcommits : pc.commits = false) : PlainChange p p' pc := by
  cases h with
  | quiet same | leak same | release more hpc hpos same | underflow more hpc hpc' hzero same =>
    exact .same hcommits same.committed same.pending same.activeBuffer same.hasActive
      same.nextObject
  | create hpc hactive hpc' same =>
    exact .create hpc hactive same.committed same.pending same.activeBuffer same.nextObject
  | commit hpc =>
    rw [hpc] at hcommits
    cases hcommits
  | rollover e hpc | rolloverFail hpc | rolloverOk hpc | openOld a b hpc | openNew a b hpc
  | close a b hpc =>
    subst hpc
    cases hplain

theorem body_plainChange (h : body env p th = some (p', th')) (hplain : th.pc.plain = true)
    (hthrow : p.throws env th.pc = false) : PlainChange p p' th.pc := by
  obtain ⟨-, -, hnxt, -⟩ := commitActive_fixed p
  by_cases hcommits : th.pc.commits = true
  · obtain ⟨prog, pc, scopes, encoder⟩ := th
    have hstep : BodyStep env p _ pc p' th' := body_step h
    cases hstep with
    | cacCommit | flCommit =>
      exact .commit rfl rfl rfl (.inr ⟨congrArg some hnxt, congrArg (· + 1) hnxt⟩)
    | cmCommit | syCommit => exact .commit rfl rfl rfl (.inl ⟨rfl, hnxt⟩)
    | cacFail hactive hok => simp [Pipeline.throws, hok] at hthrow
    | flFail hr hok => simp [Pipeline.throws, hok] at hthrow
    | goes hgoes =>
      cases hgoes with
      | cacLeak hno | cmLeak hno => simp [Pipeline.throws, hno] at hthrow
      | _ => cases hcommits
    | ceFail | ceNew => cases hplain
    | _ => cases hcommits
  · exact (body_effect h).plainChange hplain (by simpa using hcommits)

/-- A plain thread makes plain calls only. -/
theorem body_plainThread (h : body env p th = some (p', th')) (hth : PlainThread th) :
    PlainThread th' := by
  obtain ⟨hprog, hscopes, hplain⟩ := hth
  have hrest : ∀ {op : Op} {ops : List Op}, th.prog = op :: ops →
      op.plain = true ∧ ∀ o ∈ ops, o.plain = true := by
    intro op ops hops
    rw [hops] at hprog
    exact forall_mem_cons.mp hprog
  obtain ⟨prog, pc, scopes, encoder⟩ := th
  have hstep : BodyStep env p _ pc p' th' := body_step h
  cases hstep with
  | call hops hop =>
    rename_i op _ _
    obtain ⟨hop', hrest⟩ := hrest hops
    refine ⟨hrest, hscopes, ?_⟩
    cases op <;> cases hop <;> first | rfl | cases hop'
  | setLazy hops | setThreshold hops => exact ⟨(hrest hops).2, hscopes, rfl⟩
  | endBatch hops heq =>
    refine ⟨(hrest hops).2, fun scope hs => hscopes scope ?_, rfl⟩
    exact heq ▸ mem_cons_of_mem _ hs
  | endEncoder hops heq =>
    obtain ⟨_, hbatch⟩ := hscopes _ (heq ▸ mem_cons_self ..)
    cases hbatch
  | bsSet =>
    exact ⟨hprog, forall_mem_cons.mpr ⟨⟨_, rfl⟩, hscopes⟩, rfl⟩
  | flCommit =>
    refine ⟨hprog, hscopes, ?_⟩
    rename_i r _
    cases r <;> rfl
  | goes hgoes =>
    refine ⟨hprog, hscopes, ?_⟩
    cases hgoes with
    | flNone =>
      rename_i r _
      cases r <;> rfl
    | esReadScope | esReadLazy => cases hplain
    | _ => rfl
  | esLock | esOld | esFail | esNew | esKeep | edLock | ceLong | ceHeld | ceNone | ceFail | ceNew =>
    cases hplain
  | _ => exact ⟨hprog, hscopes, rfl⟩

/-- A thread comes to be inside `synchronize` only by calling it. -/
theorem body_inSynchronize (h : body env p th = some (p', th')) (hout : th.pc.inSynchronize = false)
    (hin : th'.pc.inSynchronize = true) :
    th.pc = .idle ∧ th.prog.head? = some .synchronize ∧ th'.pc = .syLock ∧ p' = p := by
  obtain ⟨prog, pc, scopes, encoder⟩ := th
  have hstep : BodyStep env p _ pc p' th' := body_step h
  cases hstep with
  | call hprog hop =>
    rename_i op ops pc'
    obtain rfl : prog = op :: ops := hprog
    cases op <;> cases hop <;> cases hin
    exact ⟨rfl, rfl, rfl, rfl⟩
  | goes hgoes =>
    cases hgoes with
    | flNone =>
      rename_i r _
      cases r <;> cases hin
    | syActive | syNone | syTake | syTaken => cases hout
    | _ => cases hin
  | flCommit =>
    rename_i r _
    cases r <;> cases hin
  | edLock =>
    rename_i outer _ _ _
    cases outer <;> cases hin
  | syCommit | syGive => cases hout
  | _ => cases hin

end Steps

/-! ### The buffers -/

/-- The active buffer exists and has not been committed. -/
structure FreshActive (p : Pipeline) : Prop where
  lt : ∀ buf ∈ p.committed, buf < p.nextObject
  active : p.hasActive = true → ∃ buf, p.activeBuffer = some buf ∧ buf < p.nextObject ∧
    buf ∉ p.committed

section Buffers

variable {p p' : Pipeline} {pc : PC} {buf : ObjId}

/-- The step commits only when there is an active buffer. -/
theorem FreshActive.plainChange (hf : FreshActive p) (h : PlainChange p p' pc)
    (hready : pc.commits = true → p.hasActive = true) : FreshActive p' := by
  cases h with
  | same hcommits hcommitted hpending hactive hhas hnext =>
    constructor
    · rw [hcommitted, hnext]
      exact hf.lt
    · rw [hhas, hactive, hnext, hcommitted]
      exact hf.active
  | create hpc hno hcommitted hpending hactive hnext =>
    constructor
    · intro b hb
      rw [hcommitted] at hb
      rw [hnext]
      exact (hf.lt b hb).trans (Nat.lt_succ_self _)
    · intro _
      rw [hactive, hnext, hcommitted]
      exact ⟨p.nextObject, rfl, Nat.lt_succ_self _, fun hb => (hf.lt _ hb).false⟩
  | commit hcommits hcommitted hpending hnext =>
    obtain ⟨old, hold, hlt, -⟩ := hf.active (hready hcommits)
    rw [(commitActive_some hold).1] at hcommitted
    have hall : ∀ b ∈ p'.committed, b < p.nextObject := by
      intro b hb
      rw [hcommitted] at hb
      rcases mem_cons.mp hb with rfl | hb
      · exact hlt
      · exact hf.lt b hb
    rcases hnext with ⟨hno, hnext⟩ | ⟨hactive, hnext⟩
    · refine ⟨fun b hb => hnext ▸ hall b hb, fun hhas => ?_⟩
      rw [hno] at hhas
      cases hhas
    · refine ⟨fun b hb => ?_, fun _ => ?_⟩
      · rw [hnext]
        exact (hall b hb).trans (Nat.lt_succ_self _)
      · rw [hactive, hnext]
        exact ⟨p.nextObject, rfl, Nat.lt_succ_self _, fun hb => (hall _ hb).false⟩

/-- The buffer was committed, or it is the active one. -/
def Pipeline.Underway (p : Pipeline) (buf : ObjId) : Prop :=
  buf ∈ p.committed ∨ p.hasActive = true ∧ p.activeBuffer = some buf

theorem Pipeline.mem_underway : buf ∈ p.underway ↔ p.Underway buf := by
  unfold Pipeline.underway Pipeline.Underway
  rw [mem_append]
  by_cases hactive : p.hasActive = true
  · simp [hactive]
  · simp [hactive]

/-- What is committed stays so. -/
theorem PlainChange.committed (h : PlainChange p p' pc) (hbuf : buf ∈ p.committed) :
    buf ∈ p'.committed := by
  cases h with
  | same _ hcommitted | create _ _ hcommitted => rwa [hcommitted]
  | commit _ hcommitted =>
    rw [hcommitted]
    unfold Pipeline.commitActive
    split
    · exact hbuf
    · exact mem_cons_of_mem _ hbuf

/-- The active buffer is given up only when it is committed. -/
theorem PlainChange.underway (h : PlainChange p p' pc) (hbuf : p.Underway buf) :
    p'.Underway buf := by
  rcases hbuf with hbuf | ⟨hhas, hactive⟩
  · exact .inl (h.committed hbuf)
  · cases h with
    | same _ _ _ hactive' hhas' => exact .inr ⟨hhas'.trans hhas, hactive'.trans hactive⟩
    | create _ hno =>
      rw [hno] at hhas
      cases hhas
    | commit _ hcommitted =>
      rw [Pipeline.Underway, hcommitted, (commitActive_some hactive).1]
      exact .inl (mem_cons_self ..)

/-- A buffer that has completed is not committed again. -/
theorem PlainChange.completed (h : PlainChange p p' pc) (hf : FreshActive p)
    (hready : pc.commits = true → p.hasActive = true) (hbuf : p.Completed buf) :
    p'.Completed buf := by
  refine ⟨h.committed hbuf.1, ?_⟩
  cases h with
  | same _ _ hpending | create _ _ _ hpending =>
    rw [hpending]
    exact hbuf.2
  | commit hcommits _ hpending =>
    obtain ⟨old, hold, -, hnew⟩ := hf.active (hready hcommits)
    rw [hpending, (commitActive_some hold).2, mem_append, mem_singleton]
    rintro (hmem | rfl)
    · exact hbuf.2 hmem
    · exact hnew hbuf.1

end Buffers

/-! ### Inside `synchronize` -/

/-- What a thread knows of the buffers that its last `synchronize` waits for. -/
def Awaits (p : Pipeline) (awaited : List ObjId) : PC → Prop
  | .syLock | .syCommit => ∀ buf ∈ awaited, p.Underway buf
  | .syTake _ => ∀ buf ∈ awaited, buf ∈ p.committed
  | _ => ∀ buf ∈ awaited, p.Completed buf

variable {awaited : List ObjId} {p : Pipeline}

theorem awaits_of_completed
    (h : ∀ buf ∈ awaited, p.Completed buf) (pc : PC) : Awaits p awaited pc := by
  cases pc with
  | syLock | syCommit => exact fun buf hbuf => .inl (h buf hbuf).1
  | syTake taken => exact fun buf hbuf => (h buf hbuf).1
  | _ => exact h

variable {pc : PC}

theorem Awaits.completed (h : Awaits p awaited pc)
    (hout : pc.inSynchronize = false) : ∀ buf ∈ awaited, p.Completed buf := by
  cases pc with
  | syLock | syCommit | syTake | syGive => cases hout
  | _ => exact h

/-- Only the buffers matter. -/
theorem Awaits.congr {p q : Pipeline} (h : Awaits p awaited pc)
    (hcommitted : q.committed = p.committed) (hpending : q.pending = p.pending)
    (hactive : q.activeBuffer = p.activeBuffer) (hhas : q.hasActive = p.hasActive) :
    Awaits q awaited pc := by
  cases pc with
  | syLock | syCommit =>
    simp only [Awaits, Pipeline.Underway, hcommitted, hactive, hhas] at h ⊢
    exact h
  | syTake taken =>
    simp only [Awaits, hcommitted] at h ⊢
    exact h
  | _ =>
    simp only [Awaits, Pipeline.Completed, hcommitted, hpending] at h ⊢
    exact h

/-- The step of another thread. -/
theorem Awaits.plainChange {p p' : Pipeline} {pc pc' : PC}
    (h : Awaits p awaited pc) (hc : PlainChange p p' pc') (hf : FreshActive p)
    (hready : pc'.commits = true → p.hasActive = true) : Awaits p' awaited pc := by
  cases pc with
  | syLock | syCommit => exact fun buf hbuf => hc.underway (h buf hbuf)
  | syTake taken => exact fun buf hbuf => hc.committed (h buf hbuf)
  | _ => exact fun buf hbuf => hc.completed hf hready (h buf hbuf)

/-- The step of the thread itself.  With all slots in hand no buffer is in flight. -/
theorem Awaits.body {env : Env} {p p' : Pipeline} {th th' : Thread}
    (h : Awaits p awaited th.pc) (hbody : MetalNative.body env p th = some (p', th'))
    (hc : PlainChange p p' th.pc) (hf : FreshActive p)
    (hready : th.pc.commits = true → p.hasActive = true)
    (hbegin : th'.pc = .syLock → th.pc ≠ .idle)
    (hall : ∀ taken, th.pc = .syTake taken → th'.pc = .syGive taken → p'.pending = []) :
    Awaits p' awaited th'.pc := by
  by_cases hout : th.pc.inSynchronize = false
  · refine awaits_of_completed (fun buf hbuf => hc.completed hf hready ?_) _
    exact h.completed hout buf hbuf
  · have hpoints := hbody
    unfold MetalNative.body at hpoints
    cases hpc : th.pc with
    | syLock =>
      rw [hpc] at h
      simp only [hpc] at hpoints
      obtain ⟨rfl, rfl⟩ := some_mk_inj hpoints
      by_cases hactive : p.hasActive = true
      · rw [if_pos hactive]
        exact h
      · rw [if_neg hactive]
        intro buf hbuf
        rcases h buf hbuf with hcommitted | ⟨hhas, -⟩
        · exact hcommitted
        · exact absurd hhas hactive
    | syCommit =>
      rw [hpc] at h
      simp only [hpc] at hpoints
      obtain ⟨rfl, rfl⟩ := some_mk_inj hpoints
      intro buf hbuf
      rcases hc.underway (h buf hbuf) with hcommitted | ⟨hhas, -⟩
      · exact hcommitted
      · cases hhas
    | syTake taken =>
      rw [hpc] at h
      simp only [hpc] at hpoints
      obtain ⟨rfl, rfl⟩ := some_mk_inj hpoints
      split_ifs with hmore
      · exact h
      · have hempty := hall taken hpc (by rw [if_neg hmore]; rfl)
        intro buf hbuf
        refine ⟨h buf hbuf, ?_⟩
        rw [hempty]
        exact not_mem_nil
    | syGive more =>
      rw [hpc] at h
      exact awaits_of_completed (fun buf hbuf => hc.completed hf hready (h buf hbuf)) _
    | _ =>
      rw [hpc] at hout
      exact absurd rfl hout

/-! ### Runs -/

/-- The invariant of a run of plain calls. -/
structure SyncInv (s : SyncSystem) : Prop where
  mutex : MutexInv s.sys
  slot : SlotInv s.sys
  once : CommitInv s.sys
  fresh : FreshActive s.sys.pipe
  plain : ∀ th ∈ s.sys.threads, PlainThread th
  locked : ∀ th ∈ s.sys.threads, th.pc.holdsMu = true → s.sys.pipe.hasActive = true
  awaits : ∀ t th, s.sys.threads[t]? = some th → Awaits s.sys.pipe (s.awaited t) th.pc

/-- A plain call that commits has locked the mutex, or waits for it. -/
theorem PC.plain_commits (hplain : pc.plain = true) (hcommits : pc.commits = true) :
    pc.holdsMu = true ∨ (pc = .cacLocked ∨ pc = .cmLocked) ∧ pc.need = .mutex := by
  cases pc with
  | cacLocked => exact .inr ⟨.inl rfl, rfl⟩
  | cmLocked => exact .inr ⟨.inr rfl, rfl⟩
  | syCommit | flCommit => exact .inl rfl
  | ceCommit => cases hplain
  | _ => cases hcommits

/-- A plain call waits for a slot wherever it holds the mutex. -/
theorem PC.plain_holdsMu (hplain : pc.plain = true) (hholds : pc.holdsMu = true) :
    pc.need = .slot := by
  cases pc with
  | syCommit | flCommit => rfl
  | ceCommit | esSetScope => cases hplain
  | _ => cases hholds

open SyncSystem

section Run

variable {s : SyncSystem} {s' : System} {t : ℕ} {env : Env} {th th' : Thread} {p' : Pipeline}

/-- The call that takes the step finds an active buffer when it commits. -/
theorem SyncInv.ready (hi : SyncInv s) (hth : s.sys.threads[t]? = some th)
    (hthrow : s.sys.pipe.throws env th.pc = false) (hcommits : th.pc.commits = true) :
    s.sys.pipe.hasActive = true := by
  have hmem := mem_of_getElem? hth
  rcases PC.plain_commits (hi.plain th hmem).pc hcommits with hholds | ⟨hpc | hpc, -⟩
  · exact hi.locked th hmem hholds
  · rw [hpc] at hthrow
    simp only [Pipeline.throws, Bool.or_eq_false_iff, Bool.not_eq_false'] at hthrow
    exact hthrow.1
  · rw [hpc] at hthrow
    simpa only [Pipeline.throws, Bool.not_eq_false'] using hthrow

theorem SyncInv.freshCommit (hi : SyncInv s) {a : Action} (hg : s.NoThrow a) :
    FreshCommit s.sys a := by
  cases a with
  | complete buf => trivial
  | run t env =>
    intro th hth hcommits
    have hactive := hi.ready hth (hg th hth) hcommits
    obtain ⟨buf, hbuf, -, hnew⟩ := hi.fresh.active hactive
    exact ⟨hactive, buf, hbuf, hnew⟩

/-- Where another thread holds the mutex, the step leaves the active buffer alone. -/
theorem PlainChange.hasActive_of_locked (h : PlainChange (running s.sys.pipe pc) p' pc)
    (hplain : pc.plain = true) (hmu : pc.holdsMu = false) (hneed : pc.need ≠ .mutex) :
    p'.hasActive = s.sys.pipe.hasActive := by
  cases h with
  | same _ _ _ _ hhas => exact hhas
  | create hpc =>
    subst hpc
    exact absurd rfl hneed
  | commit hcommits =>
    rcases PC.plain_commits hplain hcommits with hholds | ⟨-, hmutex⟩
    · rw [hmu] at hholds
      cases hholds
    · exact absurd hmutex hneed

/-- A thread that holds the mutex after the step has seen an active buffer. -/
theorem SyncInv.locked_step (hi : SyncInv s) (hran : Ran s.sys t s' th th' p')
    (hchange : PlainChange (running s.sys.pipe th.pc) p' th.pc) (hplain : PlainThread th')
    {x : Thread} {u : ℕ} (hx : s'.threads[u]? = some x) (hholds : x.pc.holdsMu = true) :
    p'.hasActive = true := by
  have hth := hi.plain th (mem_of_getElem? hran.at_t)
  rcases hran.thread_cases hx with ⟨rfl, rfl⟩ | ⟨hut, hold⟩
  · -- the thread itself went on only because it found something to commit
    have hwait := (hran.effect.locksFrom hholds).2 (PC.plain_holdsMu hplain.pc hholds)
    have hsame : th.pc.commits = false → th.pc ≠ .currentBuffer →
        p'.hasActive = s.sys.pipe.hasActive := by
      intro hno hcb
      cases hchange with
      | same _ _ _ _ hhas => exact hhas
      | create hpc => exact absurd hpc hcb
      | commit hcommits =>
        rw [hno] at hcommits
        cases hcommits
    have hpc : th.pc.plain = true := hth.pc
    cases hth' : th.pc with
    | syLock | flLock =>
      rw [hth'] at hsame hwait
      exact (hsame rfl PC.noConfusion).trans hwait
    | ceLock =>
      rw [hth'] at hpc
      cases hpc
    | _ =>
      rw [hth'] at hwait
      exact hwait.elim
  · have hu : s.sys.pipe.mu = some u := (hi.mutex.owner u x hold).mp hholds
    have hmu : th.pc.holdsMu = false := by
      by_contra h
      have ht := (hi.mutex.owner t th hran.at_t).mp (by simpa using h)
      rw [hu, Option.some.injEq] at ht
      exact hut ht
    have hneed : th.pc.need ≠ .mutex := by
      intro h
      rw [hran.mutex_free h] at hu
      cases hu
    rw [hchange.hasActive_of_locked hth.pc hmu hneed]
    exact hi.locked x (mem_of_getElem? hold) hholds

/-- A thread that has just taken the last slot finds no buffer in flight. -/
theorem SlotInv.pending_nil {s : System} (hs : SlotInv s) {th : Thread} {more : ℕ}
    (hth : th ∈ s.threads) (hpc : th.pc = .syGive more) (hmore : s.pipe.bufferCount ≤ more + 1) :
    s.pipe.pending = [] := by
  have hmem : PC.syGive more ∈ s.pcs := hpc ▸ mem_map_of_mem hth
  have hheld : more + 1 ≤ held profile s.pcs := slots_le_held (P := profile) hmem
  have haccount := hs.account
  have hbounded := hs.bounded
  exact eq_nil_of_length_eq_zero (by omega)

/-- The thread whose `synchronize` begins is the one that runs. -/
theorem startsSynchronize_run {s : System} {t : ℕ} {env : Env} {th : Thread}
    (hth : s.threads[t]? = some th) :
    s.startsSynchronize (.run t env) =
      if th.pc = .idle ∧ th.prog.head? = some .synchronize then some t else none := by
  simp [System.startsSynchronize, hth]

/-- A call of `synchronize` that begins awaits everything underway. -/
theorem awaits_begin (hbody : body env p th = some (p', th'))
    (hcall : th.pc = .idle ∧ th.prog.head? = some .synchronize) : Awaits p' p.underway th'.pc := by
  have hbegin : p' = p ∧ th'.pc = .syLock := by
    have hcalls := hcall.2
    cases body_at hcall.1 hbody with
    | call hprog hop =>
      rw [hprog] at hcalls
      obtain rfl := Option.some.inj hcalls
      exact ⟨rfl, (Option.some.inj hop).symm⟩
    | setLazy hprog | setThreshold hprog | endBatch hprog | endEncoder hprog =>
      rw [hprog] at hcalls
      cases hcalls
    | goes hgoes => cases hgoes
  rw [hbegin.1, hbegin.2]
  exact fun buf hbuf => Pipeline.mem_underway.mp hbuf

/-- After the last slot has been taken. -/
theorem body_syTake {taken : ℕ} (hbody : body env p th = some (p', th'))
    (hpc : th.pc = .syTake taken) (hpc' : th'.pc = .syGive taken) : p.bufferCount ≤ taken + 1 := by
  cases body_at hpc hbody with
  | goes hgoes =>
    obtain rfl : _ = PC.syGive taken := hpc'
    cases hgoes with
    | syTaken hlast => exact hlast

/-- **Step.**  Every step that does not throw keeps the invariant. -/
theorem SyncInv.step (hi : SyncInv s) {a : Action} {s'' : SyncSystem} (hg : s.NoThrow a)
    (h : SyncSystem.step s a = some s'') : SyncInv s'' := by
  obtain ⟨s', hstep, rfl⟩ := Option.map_eq_some_iff.mp h
  have hcommit := hi.freshCommit hg
  have hmutex := hi.mutex.step hstep
  have hslot := hi.slot.step hcommit.ready hstep
  have honce := hi.once.step hcommit hstep
  cases a with
  | complete buf =>
    obtain ⟨-, -, rfl⟩ := step_complete hstep
    refine ⟨hmutex, hslot, honce, ⟨hi.fresh.lt, hi.fresh.active⟩, hi.plain, hi.locked,
      fun t th hth => ?_⟩
    have hold := hi.awaits t th hth
    -- a completion takes a buffer out of those in flight
    have herase : ∀ b, s.sys.pipe.Completed b → b ∈ s.sys.pipe.committed ∧
        b ∉ s.sys.pipe.pending.erase buf :=
      fun b hb => ⟨hb.1, fun hmem => hb.2 (mem_of_mem_erase hmem)⟩
    show Awaits _ (s.awaited t) th.pc
    cases hpc : th.pc with
    | syLock | syCommit | syTake =>
      rw [hpc] at hold
      exact hold
    | _ =>
      rw [hpc] at hold
      exact fun b hb => herase b (hold b hb)
  | run t env =>
    obtain ⟨th, th', p', hran, hbody⟩ := step_run hstep
    have hth := hi.plain th (mem_of_getElem? hran.at_t)
    have hthrow := hg th hran.at_t
    have hplain' := body_plainThread hbody hth
    have hchange := body_plainChange hbody hth.pc hthrow
    have hready := hi.ready hran.at_t hthrow
    have hfresh : FreshActive (running s.sys.pipe th.pc) := ⟨hi.fresh.lt, hi.fresh.active⟩
    have hfresh' := hfresh.plainChange hchange hready
    have hpipe := hran.pipe_eq
    have hawaits : ∀ u x, s'.threads[u]? = some x → Awaits p' (noteAwaited s.awaited
        s.sys.pipe.underway (s.sys.startsSynchronize (.run t env)) u) x.pc := by
      intro u x hx
      rw [startsSynchronize_run hran.at_t]
      rcases hran.thread_cases hx with ⟨rfl, rfl⟩ | ⟨hut, hold⟩
      · split_ifs with hcall
        · rw [noteAwaited, Function.update_self]
          show Awaits p' (running s.sys.pipe th.pc).underway x.pc
          exact awaits_begin hbody hcall
        · have haw := (hi.awaits u th hran.at_t).congr (q := running s.sys.pipe th.pc)
            rfl rfl rfl rfl
          refine haw.body hbody hchange hfresh hready ?_ ?_
          · intro hpc hidle
            have hin := body_inSynchronize hbody (by rw [hidle]; rfl) (by rw [hpc]; rfl)
            exact hcall ⟨hin.1, hin.2.1⟩
          · intro taken hpc hpc'
            have hfull := body_syTake hbody hpc hpc'
            have hnil : s'.pipe.pending = [] := by
              refine hslot.pending_nil (mem_of_getElem? hx) hpc' ?_
              rw [hpipe]
              exact hran.effect.lock_eq.2.trans_le hfull
            rw [hpipe] at hnil
            exact hnil
      · have haw := (hi.awaits u x hold).congr (q := running s.sys.pipe th.pc) rfl rfl rfl rfl
        have hother := haw.plainChange hchange hfresh hready
        split_ifs
        · rwa [noteAwaited, Function.update_of_ne hut]
        · exact hother
    refine
      { mutex := hmutex
        slot := hslot
        once := honce
        fresh := ?_
        plain := fun x hx => ?_
        locked := fun x hx hholds => ?_
        awaits := fun u x hx => ?_ }
    · show FreshActive s'.pipe
      rw [hpipe]
      exact ⟨hfresh'.lt, hfresh'.active⟩
    · obtain ⟨u, hu⟩ := mem_iff_getElem?.mp hx
      rcases hran.thread_cases hu with ⟨-, rfl⟩ | ⟨-, hold⟩
      · exact hplain'
      · exact hi.plain x (mem_of_getElem? hold)
    · obtain ⟨u, hu⟩ := mem_iff_getElem?.mp hx
      have hlocked := hi.locked_step hran hchange hplain' hu hholds
      show s'.pipe.hasActive = true
      rw [hpipe]
      exact hlocked
    · exact (hawaits u x hx).congr (by rw [hpipe]) (by rw [hpipe]) (by rw [hpipe]) (by rw [hpipe])

end Run

theorem SyncInv.init (bufferCount : ℕ) {progs : List (List Op)}
    (hplain : ∀ prog ∈ progs, ∀ op ∈ prog, op.plain = true) :
    SyncInv (init bufferCount progs) where
  mutex := MutexInv.init bufferCount progs
  slot := SlotInv.init bufferCount progs
  once := ⟨nodup_nil, nodup_nil, nil_subset _⟩
  fresh := ⟨fun b hb => absurd hb not_mem_nil, fun h => by cases h⟩
  plain th hth := by
    obtain ⟨prog, hprog, rfl⟩ := mem_map.mp hth
    exact ⟨hplain prog hprog, fun scope h => absurd h not_mem_nil, rfl⟩
  locked th hth hholds := by
    obtain ⟨prog, -, rfl⟩ := mem_map.mp hth
    cases hholds
  awaits t th hth := awaits_of_completed (fun buf hbuf => absurd hbuf not_mem_nil) _

/-- **`synchronize` is a barrier.**  For any number of threads, calls and schedules in which no call
    throws: when a call of `synchronize` has returned, the buffers that were committed before it
    began and the one that was active have completed; and the slots in use are always those of the
    committed buffers that have not completed and of the calls in progress. -/
theorem synchronize_barrier (bufferCount : ℕ) (progs : List (List Op))
    (hplain : ∀ prog ∈ progs, ∀ op ∈ prog, op.plain = true) {s : SyncSystem}
    (h : Runs SyncSystem.step SyncSystem.NoThrow (SyncSystem.init bufferCount progs) s) :
    Barrier s := by
  have hi : SyncInv s :=
    h.invariant (SyncInv.init bufferCount hplain) fun _ _ _ hi hg hstep => hi.step hg hstep
  exact
    { returned := fun t th hth hout => (hi.awaits t th hth).completed hout
      account := hi.slot.account
      bounded := hi.slot.bounded
      committed_once := hi.once.committed
      pending_once := hi.once.pending
      pending_committed := hi.once.subset }

/-- Thread 0 commits a buffer, thread 1 flushes the next one, and while thread 0 synchronizes the
    three buffers complete, the second one first. -/
def synchronizeSchedule : List Action :=
  List.replicate 7 (go 0) ++ List.replicate 3 (go 1) ++ List.replicate 3 (go 0) ++
    [.complete 1, go 0, .complete 2, go 0, .complete 0] ++ List.replicate 4 (go 0)

theorem synchronize_barrier_run :
    ∃ s, exec SyncSystem.step
      (SyncSystem.init 3 [[.currentBuffer, .commitAndContinue, .synchronize], [.flush]])
        synchronizeSchedule = some s ∧
      ((s.sys.threads.all fun th => decide (th.pc = .idle)) = true ∧ s.awaited 0 = [1, 0, 2]) ∧
        Barrier s := by
  have hsome : (exec SyncSystem.step
      (SyncSystem.init 3 [[.currentBuffer, .commitAndContinue, .synchronize], [.flush]])
        synchronizeSchedule).any (fun s => decide
          ((s.sys.threads.all fun th => decide (th.pc = .idle)) = true ∧
            s.awaited 0 = [1, 0, 2])) = true := by decide
  obtain ⟨s, hs, hidle⟩ := (Option.any_eq_true _ _).mp hsome
  have hguard : GuardedAlong SyncSystem.step SyncSystem.NoThrow
      (init 3 [[.currentBuffer, .commitAndContinue, .synchronize], [.flush]])
        synchronizeSchedule := by decide
  exact ⟨s, hs, of_decide_eq_true hidle,
    synchronize_barrier 3 _ (by decide) (runs_exec hs hguard)⟩

end MetalNative
