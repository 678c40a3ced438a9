import MetalNative.Dispatch.NestedScopes

namespace MetalNative

open LockSem Run List Option

/-!
# The encoders of operators

An operator takes `current_buffer()`, opens a compute encoder of its own on it, encodes, ends the
encoder and calls `commit_and_continue()`.  The lock of the pipeline is held inside each call, not
from the first to the last, and no operator asks for `current_encoder()`.  The system is that of the
command pipeline; beside every thread stands its client, which makes operators and other calls.

* `OneEncoder` — a command buffer has at most one open encoder, and none once it is committed.
* `OperatorSafe` — the condition on a step: an operator opens its encoder on a buffer that has not
  been committed since, while no encoder is open; and no other call commits or opens meanwhile.
* `one_open_encoder` — every run of such steps, and the first step that is not one.
* `overlapping_operators` — one operator inside an encoder scope, and two threads without any.
-/

/-! ### The system -/

/-- What a client does next: an operator, or a call of the pipeline. -/
inductive Call where
  | operator
  | pipeline (op : Op)
  deriving DecidableEq, Repr

/-- Where a client stands in an operator. -/
inductive OperatorSpan where
  | outside
  /-- `current_buffer()` has not returned. -/
  | taking
  /-- `current_buffer()` has returned this buffer. -/
  | taken (buf : ObjId)
  /-- `[command_buffer computeCommandEncoder]` has, and `[encoder endEncoding]` has not. -/
  | encoding (e : Encoder)
  deriving DecidableEq, Repr

/-- The operator's own encoder, while it is open. -/
def OperatorSpan.encoder : OperatorSpan → Option Encoder
  | .encoding e => some e
  | _ => none

structure Client where
  calls : List Call := []
  span : OperatorSpan := .outside
  deriving DecidableEq, Repr

/-- The client after a step of its thread inside a call.  `current_buffer` returns the active
    buffer, or throws, and with it the operator. -/
def Client.after (c : Client) (pc : PC) (p : Pipeline) : Client :=
  match c.span, pc with
  | .taking, .currentBuffer =>
    { c with
      span :=
        match p.hasActive, p.activeBuffer with
        | true, some buf => .taken buf
        | _, _ => .outside }
  | _, _ => c

/-- The pipeline with its threads, and the client on each of them. -/
structure OperatorSystem where
  sys : System
  clients : List Client

namespace OperatorSystem

/-- The client on thread `t` makes a call of the pipeline and stands at `c`. -/
def call (s : OperatorSystem) (t : ℕ) (th : Thread) (op : Op) (c : Client) : OperatorSystem where
  sys := { s.sys with threads := s.sys.threads.set t { th with prog := [op] } }
  clients := s.clients.set t c

/-- `[command_buffer computeCommandEncoder]`, by the client on thread `t`. -/
def openEncoder (s : OperatorSystem) (t : ℕ) (c : Client) (buf : ObjId) : OperatorSystem where
  sys := { s.sys with pipe := { s.sys.pipe with nextObject := s.sys.pipe.nextObject + 1 } }
  clients := s.clients.set t { c with span := .encoding ⟨s.sys.pipe.nextObject, buf⟩ }

/-- The client goes on with its call, or makes the next one; an operator begins with
    `current_buffer()`. -/
def advance (s : OperatorSystem) (t : ℕ) (env : Env) (th : Thread) (c : Client) :
    Option OperatorSystem :=
  if th.pc = .idle ∧ th.prog = [] then
    match c.calls with
    | [] => none
    | .operator :: calls => some (s.call t th .currentBuffer { calls, span := .taking })
    | .pipeline op :: calls => some (s.call t th op { calls })
  else
    (MetalNative.step s.sys (.run t env)).map fun sys =>
      { sys, clients := s.clients.set t (c.after th.pc sys.pipe) }

/-- A client goes on with its operator or with its call, or the GPU completes a buffer. -/
def step (s : OperatorSystem) : Action → Option OperatorSystem
  | .complete buf => (MetalNative.step s.sys (.complete buf)).map fun sys => { s with sys }
  | .run t env => do
    let th ← s.sys.threads[t]?
    let c ← s.clients[t]?
    match c.span with
    | .taken buf => some (s.openEncoder t c buf)
    -- `[encoder endEncoding]`
    | .encoding _ => some (s.call t th .commitAndContinue { c with span := .outside })
    | .outside | .taking => s.advance t env th c

/-- A pipeline of `bufferCount` slots, and clients that make these calls. -/
def init (bufferCount : ℕ) (calls : List (List Call)) : OperatorSystem where
  sys := System.init bufferCount (calls.map fun _ => [])
  clients := calls.map fun calls => { calls }

/-- The encoders that operators have open. -/
def own (s : OperatorSystem) : List Encoder := s.clients.filterMap fun c => c.span.encoder

/-- All open encoders: that of an encoder scope, and those of operators. -/
def openEncoders (s : OperatorSystem) : List Encoder := s.sys.pipe.openEncoders ++ s.own

end OperatorSystem

/-- No command buffer has two open encoders, a committed one has none, and the encoder that
    `current_encoder()` hands out is not on a committed buffer either. -/
structure OneEncoder (s : OperatorSystem) : Prop where
  single : (s.openEncoders.map Encoder.buffer).Nodup
  uncommitted : ∀ e ∈ s.openEncoders, e.buffer ∉ s.sys.pipe.committed
  active : ¬ Rolling s.sys → ∀ e ∈ s.sys.pipe.activeEncoder, e.buffer ∉ s.sys.pipe.committed

/-! ### The condition -/

/-- The next step commits the active buffer or opens an encoder on it. -/
def PC.takesActive (p : Pipeline) : PC → Prop
  | .cacLocked | .cmLocked | .syCommit | .flCommit _ | .ceCommit => True
  | .esSetScope _ _ => p.activeEncoder = none
  | .edLock outer _ => outer = true
  | _ => False

instance (p : Pipeline) (pc : PC) : Decidable (pc.takesActive p) := by
  apply @PC.casesOn (fun pc => Decidable (pc.takesActive p)) pc <;> intros <;>
    unfold PC.takesActive <;> infer_instance

/-- The condition on the step of a thread at `pc`, of a client in `span`. -/
def OperatorSafeAt (s : OperatorSystem) (env : Env) (pc : PC) : OperatorSpan → Prop
  | .taken buf => buf ∉ s.sys.pipe.committed ∧ s.openEncoders = []
  | .encoding _ => True
  | .outside | .taking =>
    EncoderSafeAt s.sys.pipe env pc ∧ (pc.takesActive s.sys.pipe → s.own = [])

instance (s : OperatorSystem) (env : Env) (pc : PC) :
    ∀ span : OperatorSpan, Decidable (OperatorSafeAt s env pc span)
  | .taken buf =>
    inferInstanceAs (Decidable (buf ∉ s.sys.pipe.committed ∧ s.openEncoders = []))
  | .encoding _ => inferInstanceAs (Decidable True)
  | .outside | .taking => inferInstanceAs
    (Decidable (EncoderSafeAt s.sys.pipe env pc ∧ (pc.takesActive s.sys.pipe → s.own = [])))

/-- The condition on a step of the system. -/
def OperatorSafe (s : OperatorSystem) : Action → Prop
  | .run t env => ∀ th ∈ s.sys.threads[t]?, ∀ c ∈ s.clients[t]?, OperatorSafeAt s env th.pc c.span
  | .complete _ => True

instance (s : OperatorSystem) : ∀ a : Action, Decidable (OperatorSafe s a)
  | .run t env => inferInstanceAs (Decidable (∀ th ∈ s.sys.threads[t]?, ∀ c ∈ s.clients[t]?,
      OperatorSafeAt s env th.pc c.span))
  | .complete _ => inferInstanceAs (Decidable True)

/-! ### Steps taken apart -/

open OperatorSystem

section Steps

variable {s s' : OperatorSystem} {t : ℕ} {env : Env}

/-- The step of the client `c` on thread `t`. -/
inductive OperatorRan (s : OperatorSystem) (t : ℕ) (env : Env) (s' : OperatorSystem) (th : Thread)
    (c : Client) : Prop
  /-- It opens the encoder of its operator. -/
  | opens (buf : ObjId) (hspan : c.span = .taken buf) (hs' : s' = s.openEncoder t c buf)
  /-- It begins a call, after it has ended the encoder of its operator or outside of one. -/
  | calls (op : Op) (c' : Client) (hspan : ∀ buf, c.span ≠ .taken buf)
      (hspan' : c'.span = .outside ∨ c'.span = .taking)
      (hidle : c.span = .outside ∨ c.span = .taking → th.pc = .idle) (hs' : s' = s.call t th op c')
  /-- It goes on in its call. -/
  | steps (hspan : c.span = .outside ∨ c.span = .taking)
      (hstep : MetalNative.step s.sys (.run t env) = some s'.sys)
      (hclients : s'.clients = s.clients.set t (c.after th.pc s'.sys.pipe))

theorem operatorStep_run (h : OperatorSystem.step s (.run t env) = some s') :
    ∃ th c, s.sys.threads[t]? = some th ∧ s.clients[t]? = some c ∧
      OperatorRan s t env s' th c := by
  simp only [OperatorSystem.step, bind_eq_bind, bind_eq_some_iff] at h
  obtain ⟨th, hth, c, hc, h⟩ := h
  refine ⟨th, c, hth, hc, ?_⟩
  have hadvance : c.span = .outside ∨ c.span = .taking → s.advance t env th c = some s' →
      OperatorRan s t env s' th c := by
    intro hspan h
    have hne : ∀ buf, c.span ≠ .taken buf := by
      intro buf htaken
      rcases hspan with hspan | hspan <;> rw [hspan] at htaken <;> cases htaken
    unfold advance at h
    split_ifs at h with hidle
    · split at h
      · cases h
      · obtain rfl := some.inj h
        exact .calls _ _ hne (.inr rfl) (fun _ => hidle.1) rfl
      · obtain rfl := some.inj h
        exact .calls _ _ hne (.inl rfl) (fun _ => hidle.1) rfl
    · obtain ⟨sys, hstep, rfl⟩ := map_eq_some_iff.mp h
      exact .steps hspan hstep rfl
  cases hspan : c.span with
  | taken buf =>
    simp only [hspan] at h
    exact .opens buf hspan (some.inj h).symm
  | encoding e =>
    simp only [hspan] at h
    refine .calls .commitAndContinue { c with span := .outside } ?_ (.inl rfl) ?_
      (some.inj h).symm
    · intro buf htaken
      rw [hspan] at htaken
      cases htaken
    · intro hout
      rw [hspan] at hout
      rcases hout with hout | hout <;> cases hout
  | outside =>
    simp only [hspan] at h
    exact hadvance (.inl hspan) h
  | taking =>
    simp only [hspan] at h
    exact hadvance (.inr hspan) h

/-- A client inside a call has no encoder of its own, before and after the step. -/
theorem Client.after_encoder {c : Client} (hspan : c.span = .outside ∨ c.span = .taking) (pc : PC)
    (p : Pipeline) : (c.after pc p).span.encoder = none := by
  unfold Client.after
  split
  · show OperatorSpan.encoder _ = none
    dsimp only
    split <;> rfl
  · rcases hspan with hspan | hspan <;> rw [hspan] <;> rfl

/-- What `current_buffer` returns is the active buffer. -/
theorem Client.after_taken {c : Client} (hspan : c.span = .outside ∨ c.span = .taking) {pc : PC}
    {p : Pipeline} {buf : ObjId} (h : (c.after pc p).span = .taken buf) :
    p.hasActive = true ∧ p.activeBuffer = some buf := by
  unfold Client.after at h
  split at h
  · dsimp only at h
    split at h
    · rename_i hhas hactive
      obtain rfl := OperatorSpan.taken.inj h
      exact ⟨hhas, hactive⟩
    · cases h
  · rw [h] at hspan
    rcases hspan with hspan | hspan <;> cases hspan

/-- The encoders of the other clients stay around that of the client on thread `t`. -/
theorem own_set {c : Client} (hc : s.clients[t]? = some c) :
    ∃ before after, s.own = before ++ c.span.encoder.toList ++ after ∧
      ∀ c' : Client, (s.clients.set t c').filterMap (fun c => c.span.encoder)
        = before ++ c'.span.encoder.toList ++ after := by
  obtain ⟨ht, hget⟩ := List.getElem?_eq_some_iff.mp hc
  have hsingle : ∀ (c : Client) (rest : List Client),
      (c :: rest).filterMap (fun c => c.span.encoder)
        = c.span.encoder.toList ++ rest.filterMap fun c => c.span.encoder := by
    intro c rest
    rw [filterMap_cons]
    cases c.span.encoder <;> rfl
  refine ⟨(s.clients.take t).filterMap fun c => c.span.encoder,
    (s.clients.drop (t + 1)).filterMap fun c => c.span.encoder, ?_, fun c' => ?_⟩
  · have hsplit : s.clients = s.clients.take t ++ c :: s.clients.drop (t + 1) := by
      rw [← hget, getElem_cons_drop, take_append_drop]
    show s.clients.filterMap _ = _
    conv_lhs => rw [hsplit]
    rw [filterMap_append, hsingle, append_assoc]
  · rw [set_eq_take_append_cons_drop, if_pos ht, filterMap_append, hsingle,
      append_assoc]

/-- A client that has no encoder before and after the step. -/
theorem own_set_of_none {c c' : Client} (hc : s.clients[t]? = some c)
    (hnone : c.span.encoder = none) (hnone' : c'.span.encoder = none) :
    (s.clients.set t c').filterMap (fun c => c.span.encoder) = s.own := by
  obtain ⟨before, after, hown, hset⟩ := own_set hc
  rw [hset, hown, hnone, hnone']

end Steps

/-! ### The invariant -/

/-- Operators open their encoders one at a time, on an active buffer on which nothing else is
    open. -/
structure OperatorInv (s : OperatorSystem) : Prop where
  enc : EncInv s.sys
  rolling : Rolling s.sys → s.sys.pipe.activeEncoder ≠ none
  taken : ∀ c ∈ s.clients, ∀ buf, c.span = .taken buf → s.sys.pipe.Underway buf
  one : s.own.length ≤ 1
  fresh : ∀ e ∈ s.own, e.buffer ∉ s.sys.pipe.committed ∧ s.sys.pipe.Underway e.buffer
  alone : s.own ≠ [] → s.sys.pipe.openEncoders = []

section Effects

variable {r : Prop} {p p' : Pipeline} {pc pc' : PC} {buf : ObjId}

theorem PC.takesActive_of_commits (h : pc.commits = true) (p : Pipeline) : pc.takesActive p := by
  cases pc <;> trivial

/-- A buffer underway that has not been committed is active. -/
theorem Pipeline.Underway.active (h : p.Underway buf) (hfresh : buf ∉ p.committed) :
    p.hasActive = true ∧ p.activeBuffer = some buf := h.resolve_left hfresh

/-- A step that does not take the active buffer commits nothing and opens nothing. -/
theorem Effect.undisturbed (h : Effect p p' pc pc') (hp : PipeEnc r p)
    (hlock : pc.need = .mutex → ¬ r) (hhas : p.hasActive = true) (hopen : p.openEncoders = [])
    (hno : ¬ pc.takesActive p) : p'.openEncoders = [] ∧ p'.committed = p.committed := by
  cases h with
  | quiet same | leak same | release _ _ _ same | underflow _ _ _ _ same | create _ _ _ same =>
    exact ⟨same.openEncoders.trans hopen, same.committed⟩
  | commit hpc => exact absurd (PC.takesActive_of_commits hpc p) hno
  | rollover e hpc henc =>
    -- the encoder of the scope is open
    subst hpc
    rw [hp.settled (hlock rfl), henc] at hopen
    cases hopen
  | rolloverFail hpc | rolloverOk hpc =>
    exact absurd (PC.takesActive_of_commits (by rw [hpc]; rfl) p) hno
  | openOld a b hpc hpc' hactive henc =>
    subst hpc
    exact absurd henc hno
  | openNew a b hpc hpc' hactive =>
    rw [hhas] at hactive
    cases hactive
  | close a b hpc hpc' env q hq same =>
    subst hpc
    have hclosed : q.openEncoders = [] := by
      rw [hq.openEncoders]
      show p.activeEncoder.elim p.openEncoders p.openEncoders.erase = []
      rw [hopen]
      cases p.activeEncoder <;> rfl
    cases a with
    | true => exact absurd rfl hno
    | false => exact ⟨same.openEncoders.trans hclosed, same.committed.trans hq.committed⟩

/-- Only calls that hold the mutex, or lock it, change the active encoder. -/
theorem Effect.sameEncoder (h : Effect p p' pc pc') (hheld : pc.holdsMu = false)
    (hneed : pc.need ≠ .mutex) : p'.activeEncoder = p.activeEncoder := by
  have hcommits : ∀ {pc : PC}, pc.commits = true → pc.holdsMu = true ∨ pc.need = .mutex := by
    intro pc hpc
    cases pc <;> first | exact .inl rfl | exact .inr rfl | cases hpc
  have hnot : ¬ (pc.holdsMu = true ∨ pc.need = .mutex) := by
    rw [hheld]
    exact fun h => h.elim Bool.false_ne_true hneed
  cases h with
  | quiet same | leak same | release _ _ _ same | underflow _ _ _ _ same | create _ _ _ same
  | rollover e hpc henc hlong hpc' same =>
    exact same.activeEncoder
  | commit hpc => exact absurd (hcommits hpc) hnot
  | rolloverFail hpc | rolloverOk hpc => exact absurd (hcommits (by rw [hpc]; rfl)) hnot
  | openOld a b hpc | openNew a b hpc => exact absurd (.inl (by rw [hpc]; rfl)) hnot
  | close a b hpc => exact absurd (.inr (by rw [hpc]; rfl)) hnot

/-- `current_encoder` rolls over from an active encoder. -/
theorem Effect.rolls (h : Effect p p' pc .ceCommit) : p'.activeEncoder ≠ none := by
  cases h with
  | quiet _ _ _ hce => exact absurd rfl hce
  | rollover e hpc henc hlong hpc' same =>
    rw [same.activeEncoder]
    show p.activeEncoder ≠ none
    rw [henc]
    exact some_ne_none e
  | leak _ _ _ hpc' | underflow _ _ hpc' | create _ _ hpc' | commit _ _ _ _ _ _ _ _ _ hpc'
  | rolloverFail _ hpc' | rolloverOk _ hpc' | openOld _ _ _ hpc' | openNew _ _ _ hpc' =>
    cases hpc'
  | release _ _ _ _ _ hpc' => cases hpc'.1
  | close _ _ _ hpc' => cases hpc'.2

/-- A call that commits the active buffer leaves the active encoder, unless it is
    `current_encoder`. -/
theorem Effect.commits (h : Effect p p' pc pc') (hpc : pc.commits = true)
    (hhas : p.hasActive = true)
    (hbuf : p.activeBuffer = some buf) :
    buf ∈ p'.committed ∧ (pc ≠ .ceCommit → p'.activeEncoder = p.activeEncoder) ∧
      pc' ≠ .ceCommit := by
  obtain ⟨-, -, -, -, hcenc, -⟩ := commitActive_fixed p
  have hmem : buf ∈ p.commitActive.committed := by
    rw [(commitActive_some hbuf).1]
    exact mem_cons_self ..
  cases h with
  | quiet same slots hno =>
    rw [hpc] at hno
    cases hno
  | leak same _ hactive =>
    rw [hhas] at hactive
    cases hactive
  | release _ h | underflow _ h | create h | rollover _ h | openOld _ _ h | openNew _ _ h
  | close _ _ h =>
    subst h; cases hpc
  | commit _ _ _ active has next hnext same slots hpc' =>
    refine ⟨same.committed ▸ hmem, fun _ => same.activeEncoder.trans hcenc, ?_⟩
    rintro rfl
    cases hpc'
  | rolloverFail hce hpc' same | rolloverOk hce hpc' same =>
    refine ⟨same.committed ▸ hmem, fun h => absurd hce h, ?_⟩
    rw [hpc']
    exact PC.noConfusion

/-- An encoder scope opens an encoder: on entry when none is active, on return to an outer one. -/
def PC.opensScope (p : Pipeline) : PC → Prop
  | .esSetScope _ _ => p.activeEncoder = none
  | .edLock outer _ => outer = true
  | _ => False

/-- It does so on the active buffer. -/
theorem body_opensScope {env : Env} {th th' : Thread} (h : body env p th = some (p', th'))
    (hpc : th.pc.opensScope p) (hhas : p.hasActive = true) (hbuf : p.activeBuffer = some buf) :
    (∃ e ∈ p'.openEncoders, e.buffer = buf) ∧ p'.committed = p.committed := by
  have hopen : ∀ q : Pipeline, q.activeBuffer = some buf →
      (∃ e ∈ (q.openEncoder env).openEncoders, e.buffer = buf) ∧
        (q.openEncoder env).committed = q.committed := by
    intro q hq
    unfold Pipeline.openEncoder
    rw [hq]
    exact ⟨⟨_, mem_cons_self .., rfl⟩, rfl⟩
  cases hth : th.pc <;> rw [hth] at hpc
  case esSetScope outer prev =>
    have hnone : p.activeEncoder = none := hpc
    simp only [body, hth, hnone, hhas, if_true] at h
    obtain ⟨rfl, -⟩ := some_mk_inj h
    exact hopen _ hbuf
  case edLock outer prev =>
    obtain rfl : outer = true := hpc
    have hclosed := closeEncoder_sameMetal env p
    have hhas' : (p.closeEncoder env).hasActive = true := hclosed.hasActive.trans hhas
    simp only [body, hth, hhas', Bool.and_self, if_true] at h
    obtain ⟨rfl, -⟩ := some_mk_inj h
    refine ⟨(hopen _ ?_).1, (hopen _ ?_).2.trans hclosed.committed⟩ <;>
      exact hclosed.activeBuffer.trans hbuf
  all_goals cases hpc

theorem PC.takesActive_iff : pc.takesActive p ↔ pc.commits = true ∨ pc.opensScope p := by
  cases pc <;> simp [PC.takesActive, PC.commits, PC.opensScope]

/-- What it means that a step of the pipeline does not meet its condition. -/
theorem not_encoderSafeAt {env : Env} (h : ¬ EncoderSafeAt p env pc) :
    (pc.commits = true ∧ pc ≠ .ceCommit ∧ p.activeEncoder ≠ none) ∨
      (pc = .ceCommit ∧ env.createOk = false) ∨
      pc.opensScope p ∧ p.hasActive = true ∧ ∃ buf ∈ p.activeBuffer, buf ∈ p.committed := by
  cases pc
  case ceCommit => exact .inr (.inl ⟨rfl, Bool.eq_false_iff.mpr h⟩)
  case esSetScope a b =>
    simp only [EncoderSafeAt, not_forall, not_not] at h
    obtain ⟨henc, hhas, buf, hbuf, hmem⟩ := h
    exact .inr (.inr ⟨henc, hhas, buf, hbuf, hmem⟩)
  case edLock a b =>
    simp only [EncoderSafeAt, not_forall, not_not] at h
    obtain ⟨houter, hhas, buf, hbuf, hmem⟩ := h
    exact .inr (.inr ⟨houter, hhas, buf, hbuf, hmem⟩)
  case cacLocked => exact .inl ⟨rfl, PC.noConfusion, h⟩
  case cmLocked => exact .inl ⟨rfl, PC.noConfusion, h⟩
  case syCommit => exact .inl ⟨rfl, PC.noConfusion, h⟩
  case flCommit ret => exact .inl ⟨rfl, PC.noConfusion, h⟩
  all_goals exact absurd trivial h

end Effects

section Invariant

variable {s s' : OperatorSystem} {t : ℕ} {env : Env} {th : Thread} {c : Client} {c' : Client}

/-- The threads after a client has made a call stand where they stood. -/
theorem call_threads {op : Op} (hth : s.sys.threads[t]? = some th) {u : ℕ}
    {x : Thread} (hx : (s.call t th op c').sys.threads[u]? = some x) :
    ∃ y, s.sys.threads[u]? = some y ∧ x.pc = y.pc := by
  have hx' : (s.sys.threads.set t { th with prog := [op] })[u]? = some x := hx
  by_cases hut : u = t
  · subst hut
    rw [List.getElem?_set_self (List.getElem?_eq_some_iff.mp hth).1] at hx'
    exact ⟨th, hth, by rw [← some.inj hx']⟩
  · rw [getElem?_set_ne fun h => hut h.symm] at hx'
    exact ⟨x, hx', rfl⟩

theorem call_rolling {op : Op} (hth : s.sys.threads[t]? = some th) :
    Rolling (s.call t th op c').sys ↔ Rolling s.sys := by
  rw [rolling_iff, rolling_iff]
  constructor
  · rintro ⟨u, x, hx, hpc⟩
    obtain ⟨y, hy, hxy⟩ := call_threads hth hx
    exact ⟨u, y, hy, hxy ▸ hpc⟩
  · rintro ⟨u, x, hx, hpc⟩
    by_cases hut : u = t
    · subst hut
      obtain rfl := some.inj (hth.symm.trans hx)
      refine ⟨u, { th with prog := [op] }, ?_, hpc⟩
      exact List.getElem?_set_self (List.getElem?_eq_some_iff.mp hth).1
    · refine ⟨u, x, ?_, hpc⟩
      show (s.sys.threads.set t _)[u]? = some x
      rw [getElem?_set_ne fun h => hut h.symm]
      exact hx

theorem EncInv.call {op : Op} (h : EncInv s.sys)
    (hth : s.sys.threads[t]? = some th) : EncInv (s.call t th op c').sys where
  mutex :=
    { owner := fun u x hx => by
        obtain ⟨y, hy, hxy⟩ := call_threads hth hx
        rw [hxy]
        exact h.mutex.owner u y hy
      inside := fun u hu => by
        show u < (s.sys.threads.set t _).length
        rw [length_set]
        exact h.mutex.inside u hu }
  pipe := h.pipe.congr (.refl _) (call_rolling hth)

theorem EncInv.openEncoder (h : EncInv s.sys) (buf : ObjId) :
    EncInv (s.openEncoder t c buf).sys where
  mutex := ⟨h.mutex.owner, h.mutex.inside⟩
  pipe :=
    { h.pipe with
      committed_lt := fun b hb => Nat.lt_succ_of_lt (h.pipe.committed_lt b hb)
      active_lt := fun b hb => Nat.lt_succ_of_lt (h.pipe.active_lt b hb) }

/-- A client after a step is the one that moved or another one, unchanged. -/
theorem mem_clients_set {c' x : Client} (h : x ∈ s.clients.set t c') : x = c' ∨ x ∈ s.clients :=
  (mem_or_eq_of_mem_set h).symm

/-- A client opens its encoder. -/
theorem OperatorInv.opens (hi : OperatorInv s) (hc : s.clients[t]? = some c) {buf : ObjId}
    (hspan : c.span = .taken buf) (hfresh : buf ∉ s.sys.pipe.committed)
    (hopen : s.openEncoders = []) : OperatorInv (s.openEncoder t c buf) := by
  obtain ⟨hpipe, hown⟩ := append_eq_nil_iff.mp hopen
  obtain ⟨before, after, hsplit, hset⟩ := own_set hc
  have hnew : (s.openEncoder t c buf).own = [⟨s.sys.pipe.nextObject, buf⟩] := by
    show (s.clients.set t _).filterMap _ = _
    rw [hown] at hsplit
    obtain ⟨hleft, rfl⟩ := append_eq_nil_iff.mp hsplit.symm
    obtain ⟨rfl, -⟩ := append_eq_nil_iff.mp hleft
    rw [hset]
    rfl
  refine
    { enc := hi.enc.openEncoder buf
      rolling := hi.rolling
      taken := fun x hx b hb => ?_
      one := by rw [hnew]; exact le_rfl
      fresh := fun e he => ?_
      alone := fun _ => hpipe }
  · rcases mem_clients_set hx with rfl | hx
    · cases hb
    · exact hi.taken x hx b hb
  · rw [hnew, mem_singleton] at he
    subst he
    exact ⟨hfresh, hi.taken c (mem_of_getElem? hc) buf hspan⟩

/-- A client makes a call, after its own encoder has ended. -/
theorem OperatorInv.calls (hi : OperatorInv s) (hth : s.sys.threads[t]? = some th)
    (hc : s.clients[t]? = some c) (op : Op)
    (hspan : c'.span = .outside ∨ c'.span = .taking) : OperatorInv (s.call t th op c') := by
  obtain ⟨before, after, hsplit, hset⟩ := own_set hc
  have hnone : c'.span.encoder = none := by
    rcases hspan with hspan | hspan <;> rw [hspan] <;> rfl
  have hsub : (s.call t th op c').own.Sublist s.own := by
    show ((s.clients.set t _).filterMap _).Sublist _
    rw [hset, hsplit, hnone]
    exact ((Sublist.refl before).append (nil_sublist _)).append_right after
  refine
    { enc := hi.enc.call hth
      rolling := fun h => hi.rolling ((call_rolling hth).mp h)
      taken := fun x hx b hb => ?_
      one := hsub.length_le.trans hi.one
      fresh := fun e he => hi.fresh e (hsub.subset he)
      alone := fun hne => hi.alone fun hnil => hne (sublist_nil.mp (hnil ▸ hsub)) }
  rcases mem_clients_set hx with rfl | hx
  · rcases hspan with hspan | hspan <;> rw [hspan] at hb <;> cases hb
  · exact hi.taken x hx b hb

/-- A client goes on in its call. -/
theorem OperatorInv.steps (hi : OperatorInv s) (hc : s.clients[t]? = some c)
    (hth : s.sys.threads[t]? = some th) (hspan : c.span = .outside ∨ c.span = .taking)
    (hstep : MetalNative.step s.sys (.run t env) = some s'.sys)
    (hclients : s'.clients = s.clients.set t (c.after th.pc s'.sys.pipe))
    (hsafe : EncoderSafeAt s.sys.pipe env th.pc)
    (hown : th.pc.takesActive s.sys.pipe → s.own = []) : OperatorInv s' := by
  obtain ⟨x, th', p', hran, -⟩ := step_run hstep
  obtain rfl : x = th := some.inj (hran.at_t.symm.trans hth)
  have hnone : c.span.encoder = none := by
    rcases hspan with hspan | hspan <;> rw [hspan] <;> rfl
  have hsame : s'.own = s.own := by
    show s'.clients.filterMap _ = _
    rw [hclients]
    exact own_set_of_none hc hnone (Client.after_encoder hspan _ _)
  have hunder : ∀ buf, s.sys.pipe.Underway buf → s'.sys.pipe.Underway buf := by
    intro buf hbuf
    have hrun : (running s.sys.pipe x.pc).Underway buf := hbuf
    rw [hran.pipe_eq]
    exact hran.effect.underway hrun
  -- while an operator's encoder is open the step leaves the active buffer alone
  have hstill : s.own ≠ [] → s'.sys.pipe.openEncoders = [] ∧
      s'.sys.pipe.committed = s.sys.pipe.committed := by
    intro hne
    obtain ⟨e, he⟩ := exists_mem_of_ne_nil _ hne
    obtain ⟨hfresh, hactive⟩ := hi.fresh e he
    have hpipe := hi.enc.pipe
    have hp : PipeEnc (Rolling s.sys) (running s.sys.pipe x.pc) :=
      ⟨hpipe.committed_lt, hpipe.active_lt, hpipe.has_buffer, hpipe.on_active, hpipe.fresh,
        hpipe.settled, hpipe.ended⟩
    rw [hran.pipe_eq]
    refine hran.effect.undisturbed hp ?_ (hactive.active hfresh).1 (hi.alone hne) ?_
    · intro hneed
      exact hran.not_rolling_before hi.enc.mutex (.inr hneed)
        fun hpc => by rw [hpc] at hneed; cases hneed
    · intro htakes
      refine hne (hown ?_)
      cases hpc : x.pc <;> rw [hpc] at htakes <;> exact htakes
  refine
    { enc := hi.enc.step ?_ hstep
      rolling := fun hr => ?_
      taken := fun y hy buf hbuf => ?_
      one := hsame ▸ hi.one
      fresh := fun e he => ?_
      alone := fun hne => (hstill (hsame ▸ hne)).1 }
  · intro y hy
    obtain rfl : y = x := some.inj (hy.symm.trans hth)
    exact hsafe
  · by_cases hpc' : th'.pc = .ceCommit
    · have heffect := hran.effect
      rw [hpc'] at heffect
      rw [hran.pipe_eq]
      exact heffect.rolls
    · -- another thread rolls over, so this one neither holds the mutex nor locks it
      have hidle : ¬ (x.pc.holdsMu = true ∨ x.pc.need = .mutex) :=
        fun hlock => hran.not_rolling_after hi.enc.mutex hlock hpc' hr
      obtain ⟨hheld, hneed⟩ := not_or.mp hidle
      have hpc : x.pc ≠ .ceCommit := fun hpc => hheld (by rw [hpc]; rfl)
      rw [hran.pipe_eq]
      show p'.activeEncoder ≠ none
      rw [hran.effect.sameEncoder (Bool.eq_false_iff.mpr hheld) hneed]
      exact hi.rolling ((hran.rolling_congr hpc hpc').mp hr)
  · rw [hclients] at hy
    rcases mem_clients_set hy with rfl | hy
    · exact .inr (Client.after_taken hspan hbuf)
    · exact hunder buf (hi.taken y hy buf hbuf)
  · rw [hsame] at he
    obtain ⟨hfresh, hactive⟩ := hi.fresh e he
    refine ⟨?_, hunder _ hactive⟩
    rw [(hstill (ne_nil_of_mem he)).2]
    exact hfresh

/-- **Step.**  A step that meets the condition keeps the invariant. -/
theorem OperatorInv.step {a : Action} (hi : OperatorInv s) (hg : OperatorSafe s a)
    (h : OperatorSystem.step s a = some s') : OperatorInv s' := by
  cases a with
  | complete buf =>
    obtain ⟨sys, hstep, rfl⟩ := map_eq_some_iff.mp h
    have henc := hi.enc.step (a := .complete buf) trivial hstep
    obtain ⟨-, -, rfl⟩ := step_complete hstep
    exact ⟨henc, hi.rolling, hi.taken, hi.one, hi.fresh, hi.alone⟩
  | run t env =>
    obtain ⟨th, c, hth, hc, hran⟩ := operatorStep_run h
    have hsafe := hg th hth c hc
    cases hran with
    | opens buf hspan hs' =>
      rw [hspan] at hsafe
      subst hs'
      exact hi.opens hc hspan hsafe.1 hsafe.2
    | calls op c' hspan hspan' hidle hs' =>
      subst hs'
      exact hi.calls hth hc op hspan'
    | steps hspan hstep hclients =>
      have hsafe' : EncoderSafeAt s.sys.pipe env th.pc ∧
          (th.pc.takesActive s.sys.pipe → s.own = []) := by
        rcases hspan with hspan | hspan <;> rw [hspan] at hsafe <;> exact hsafe
      exact hi.steps hc hth hspan hstep hclients hsafe'.1 hsafe'.2

theorem OperatorInv.init (bufferCount : ℕ) (calls : List (List Call)) :
    OperatorInv (OperatorSystem.init bufferCount calls) := by
  have hspan : ∀ c ∈ (OperatorSystem.init bufferCount calls).clients, c.span = .outside := by
    intro c hc
    obtain ⟨l, -, rfl⟩ := mem_map.mp hc
    rfl
  have hown : (OperatorSystem.init bufferCount calls).own = [] := by
    refine filterMap_eq_nil_iff.mpr fun c hc => ?_
    rw [hspan c hc]
    rfl
  have henc : EncInv (OperatorSystem.init bufferCount calls).sys := EncInv.init _ _
  refine
    { enc := henc
      rolling := fun hr => ?_
      taken := fun c hc buf hbuf => ?_
      one := by rw [hown]; exact Nat.zero_le 1
      fresh := fun e he => ?_
      alone := fun _ => rfl }
  · obtain ⟨th, hth, hpc⟩ := hr
    obtain ⟨prog, -, rfl⟩ := mem_map.mp hth
    cases hpc
  · rw [hspan c hc] at hbuf
    cases hbuf
  · rw [hown] at he
    cases he

/-- **The invariant says what was wanted.** -/
theorem OperatorInv.oneEncoder (hi : OperatorInv s) : OneEncoder s := by
  have hvalid := hi.enc.valid
  refine ⟨?_, fun e he => ?_, fun hr e he => (hvalid.active hr e he).2.2⟩
  · by_cases hne : s.own = []
    · unfold openEncoders
      rw [hne, append_nil]
      by_cases hr : Rolling s.sys
      · rw [hi.enc.pipe.ended hr]
        exact nodup_nil
      · rw [hi.enc.pipe.settled hr]
        cases s.sys.pipe.activeEncoder with
        | none => exact nodup_nil
        | some e => exact nodup_singleton e.buffer
    · unfold openEncoders
      rw [hi.alone hne, nil_append]
      obtain ⟨e, he⟩ := length_eq_one_iff.mp
        (le_antisymm hi.one (length_pos_iff.mpr hne))
      rw [he]
      exact nodup_singleton e.buffer
  · rcases mem_append.mp he with he | he
    · exact hvalid.committed e he
    · exact (hi.fresh e he).1

/-! ### The first step that does not meet the condition -/

/-- An operator opens its encoder on a committed buffer, or beside another one. -/
theorem OperatorInv.opens_violated (hi : OperatorInv s) (hc : s.clients[t]? = some c)
    {buf : ObjId} (hspan : c.span = .taken buf)
    (hbroken : ¬ (buf ∉ s.sys.pipe.committed ∧ s.openEncoders = [])) :
    ¬ OneEncoder (s.openEncoder t c buf) := by
  obtain ⟨before, after, hsplit, hset⟩ := own_set hc
  rw [hspan] at hsplit
  have hnew : (s.openEncoder t c buf).openEncoders.Perm
      (⟨s.sys.pipe.nextObject, buf⟩ :: s.openEncoders) := by
    show (s.sys.pipe.openEncoders ++ (s.clients.set t _).filterMap _).Perm
      (_ :: (s.sys.pipe.openEncoders ++ s.own))
    rw [hset, hsplit]
    have hmid : (s.sys.pipe.openEncoders ++ before ++ ⟨s.sys.pipe.nextObject, buf⟩ :: after).Perm
        (⟨s.sys.pipe.nextObject, buf⟩ :: (s.sys.pipe.openEncoders ++ before ++ after)) :=
      perm_middle
    simpa [OperatorSpan.encoder] using hmid
  intro hone
  by_cases hfresh : buf ∈ s.sys.pipe.committed
  · exact hone.uncommitted ⟨s.sys.pipe.nextObject, buf⟩
      (hnew.symm.subset (mem_cons_self ..)) hfresh
  · obtain ⟨e, he⟩ := exists_mem_of_ne_nil _ fun hnil => hbroken ⟨hfresh, hnil⟩
    have hactive := (hi.taken c (mem_of_getElem? hc) buf hspan).active hfresh
    -- whatever is open is on the active buffer, which the operator has taken
    have hbuf : s.sys.pipe.activeBuffer = some e.buffer := by
      rcases mem_append.mp he with he | he
      · by_cases hr : Rolling s.sys
        · rw [hi.enc.pipe.ended hr] at he
          cases he
        · rw [hi.enc.pipe.settled hr, mem_toList] at he
          exact hi.enc.pipe.on_active e he
      · obtain ⟨hfresh', hactive'⟩ := hi.fresh e he
        exact (hactive'.active hfresh').2
    have heq : e.buffer = buf := some.inj (hbuf.symm.trans hactive.2)
    have hnodup := (hnew.map Encoder.buffer).nodup_iff.mp hone.single
    rw [map_cons, nodup_cons] at hnodup
    have hmem : e.buffer ∈ s.openEncoders.map Encoder.buffer := mem_map_of_mem he
    rw [heq] at hmem
    exact hnodup.1 hmem

/-- A call commits the active buffer, or opens an encoder on it, where it must not. -/
theorem OperatorInv.steps_violated (hi : OperatorInv s) (hc : s.clients[t]? = some c)
    (hth : s.sys.threads[t]? = some th) (hspan : c.span = .outside ∨ c.span = .taking)
    (hstep : MetalNative.step s.sys (.run t env) = some s'.sys)
    (hclients : s'.clients = s.clients.set t (c.after th.pc s'.sys.pipe))
    (hbroken : ¬ (EncoderSafeAt s.sys.pipe env th.pc ∧
      (th.pc.takesActive s.sys.pipe → s.own = []))) : ¬ OneEncoder s' := by
  obtain ⟨x, th', p', hran, hbody⟩ := step_run hstep
  obtain rfl : x = th := some.inj (hran.at_t.symm.trans hth)
  have hnone : c.span.encoder = none := by
    rcases hspan with hspan | hspan <;> rw [hspan] <;> rfl
  have hsame : s'.own = s.own := by
    show s'.clients.filterMap _ = _
    rw [hclients]
    exact own_set_of_none hc hnone (Client.after_encoder hspan _ _)
  have hcommitted : s'.sys.pipe.committed = p'.committed := by rw [hran.pipe_eq]
  have hopened : s'.sys.pipe.openEncoders = p'.openEncoders := by rw [hran.pipe_eq]
  have hencoder : s'.sys.pipe.activeEncoder = p'.activeEncoder := by rw [hran.pipe_eq]
  intro hone
  have hscope : x.pc.opensScope s.sys.pipe → s.sys.pipe.hasActive = true →
      ∀ buf, s.sys.pipe.activeBuffer = some buf →
        (∃ e ∈ s'.sys.pipe.openEncoders, e.buffer = buf) ∧
          s'.sys.pipe.committed = s.sys.pipe.committed := by
    intro hpc hhas buf hbuf
    rw [hopened, hcommitted]
    have hpc' : x.pc.opensScope (running s.sys.pipe x.pc) := by
      cases hpcx : x.pc <;> rw [hpcx] at hpc <;> exact hpc
    exact body_opensScope (p := running s.sys.pipe x.pc) hbody hpc' hhas hbuf
  by_cases hsafe : EncoderSafeAt s.sys.pipe env x.pc
  · -- an operator's encoder is open
    obtain ⟨htakes, hne⟩ := Classical.not_imp.mp fun h => hbroken ⟨hsafe, h⟩
    obtain ⟨e, he⟩ := exists_mem_of_ne_nil _ hne
    obtain ⟨hfresh, hunder⟩ := hi.fresh e he
    obtain ⟨hhas, hbuf⟩ := hunder.active hfresh
    have he' : e ∈ s'.own := hsame ▸ he
    rcases PC.takesActive_iff.mp htakes with hcommits | hopens
    · refine hone.uncommitted e (mem_append_right _ he') ?_
      rw [hcommitted]
      exact (hran.effect.commits hcommits hhas hbuf).1
    · obtain ⟨⟨e', he'', heq⟩, -⟩ := hscope hopens hhas e.buffer hbuf
      have hnodup := hone.single
      unfold openEncoders at hnodup
      rw [map_append] at hnodup
      exact (nodup_append.mp hnodup).2.2 e'.buffer (mem_map_of_mem he'') e.buffer
        (mem_map_of_mem he') heq
  · rcases not_encoderSafeAt hsafe with ⟨hcommits, hce, henc⟩ | ⟨hce, hcreate⟩ |
      ⟨hopens, hhas, buf, hbuf, hmem⟩
    · -- the encoder of the scope is left on a committed buffer
      obtain ⟨e, he⟩ := ne_none_iff_exists'.mp henc
      obtain ⟨hin, hkept, hpc'⟩ := hran.effect.commits hcommits (hi.enc.pipe.has_buffer henc)
        (hi.enc.pipe.on_active e he)
      have hlock : x.pc.holdsMu = true ∨ x.pc.need = .mutex := by
        cases hpc : x.pc <;> rw [hpc] at hcommits <;>
          first | exact .inl rfl | exact .inr rfl | cases hcommits
      have hr : ¬ Rolling s'.sys := hran.not_rolling_after hi.enc.mutex hlock hpc'
      refine hone.active hr e ?_ (hcommitted ▸ hin)
      rw [hencoder, hkept hce]
      exact he
    · -- `current_encoder` throws, and the encoder that it ended stays the active one
      have hr : Rolling s.sys := ⟨x, mem_of_getElem? hth, hce⟩
      obtain ⟨e, he⟩ := ne_none_iff_exists'.mp (hi.rolling hr)
      have hfail : p' = (running s.sys.pipe x.pc).commitActive := by
        cases body_at hce hbody with
        | ceFail => rfl
        | ceNew hok =>
          rw [hcreate] at hok
          cases hok
        | goes hgoes => cases hgoes
      have hcommits : x.pc.commits = true := by rw [hce]; rfl
      obtain ⟨hin, -, hpc'⟩ := hran.effect.commits hcommits
        (hi.enc.pipe.has_buffer (hi.rolling hr)) (hi.enc.pipe.on_active e he)
      have hr' : ¬ Rolling s'.sys :=
        hran.not_rolling_after hi.enc.mutex (.inl (by rw [hce]; rfl)) hpc'
      refine hone.active hr' e ?_ (hcommitted ▸ hin)
      rw [hencoder, hfail]
      exact (commitActive_fixed _).2.2.2.2.1.trans he
    · obtain ⟨⟨e, he, heq⟩, hcomm⟩ := hscope hopens hhas buf hbuf
      refine hone.uncommitted e (mem_append_left _ he) ?_
      rw [hcomm, heq]
      exact hmem

/-- The property ends with the first step that does not meet the condition. -/
theorem OperatorInv.violated {a : Action} (hi : OperatorInv s) (hg : ¬ OperatorSafe s a)
    (h : OperatorSystem.step s a = some s') : ¬ OneEncoder s' := by
  cases a with
  | complete buf => exact absurd trivial hg
  | run t env =>
    obtain ⟨th, c, hth, hc, hran⟩ := operatorStep_run h
    have hbroken : ¬ OperatorSafeAt s env th.pc c.span := by
      refine fun hsafe => hg fun y hy d hd => ?_
      obtain rfl : y = th := some.inj (hy.symm.trans hth)
      obtain rfl : d = c := some.inj (hd.symm.trans hc)
      exact hsafe
    cases hran with
    | opens buf hspan hs' =>
      rw [hspan] at hbroken
      subst hs'
      exact hi.opens_violated hc hspan hbroken
    | calls op c' hspan hspan' hidle hs' =>
      refine absurd ?_ hbroken
      cases hc' : c.span with
      | taken buf => exact absurd hc' (hspan buf)
      | encoding e => trivial
      | outside =>
        rw [hidle (.inl hc')]
        exact ⟨trivial, fun h => absurd h id⟩
      | taking =>
        rw [hidle (.inr hc')]
        exact ⟨trivial, fun h => absurd h id⟩
    | steps hspan hstep hclients =>
      refine hi.steps_violated hc hth hspan hstep hclients fun hsafe => hbroken ?_
      rcases hspan with hspan | hspan <;> rw [hspan] <;> exact hsafe

end Invariant

/-- **One open encoder per command buffer.**  In every run whose steps meet the condition no command
    buffer has two open encoders and no committed one has any; and the first step that does not meet
    it ends that. -/
theorem one_open_encoder (bufferCount : ℕ) (calls : List (List Call)) {s : OperatorSystem}
    (h : Runs OperatorSystem.step OperatorSafe (OperatorSystem.init bufferCount calls) s) :
    OneEncoder s ∧ ∀ a s', OperatorSystem.step s a = some s' → ¬ OperatorSafe s a →
      ¬ OneEncoder s' := by
  have hi : OperatorInv s :=
    h.invariant (OperatorInv.init bufferCount calls) fun _ _ _ hi hg hstep => hi.step hg hstep
  exact ⟨hi.oneEncoder, fun _ _ hstep hbroken => hi.violated hbroken hstep⟩

/-- Two threads, each with one operator. -/
def twoOperators : List (List Call) := [[.operator], [.operator]]

/-- The operator of one thread after that of the other. -/
theorem one_open_encoder_serial :
    ∃ s, exec OperatorSystem.step (OperatorSystem.init 3 twoOperators)
        (List.replicate 10 (go 0) ++ List.replicate 10 (go 1)) = some s ∧
      s.sys.pipe.committed = [2, 0] ∧ OneEncoder s := by
  have hsome : (exec OperatorSystem.step (OperatorSystem.init 3 twoOperators)
      (replicate 10 (go 0) ++ replicate 10 (go 1))).any
        (fun s => decide (s.sys.pipe.committed = [2, 0])) = true := by decide
  obtain ⟨s, hs, hcommitted⟩ := (any_eq_true _ _).mp hsome
  have hguard : GuardedAlong OperatorSystem.step OperatorSafe (OperatorSystem.init 3 twoOperators)
      (replicate 10 (go 0) ++ replicate 10 (go 1)) := by decide
  exact ⟨s, hs, of_decide_eq_true hcommitted,
    (one_open_encoder 3 twoOperators (runs_exec hs hguard)).1⟩

/-- An operator inside an encoder scope. -/
def scopedOperator : List (List Call) := [[.pipeline .beginEncoder, .operator]]

/-- Inside an encoder scope the operator opens a second encoder on the active buffer.  In eager
    mode two threads open theirs on the same buffer, or one commits the buffer that the other has
    taken. -/
theorem overlapping_operators :
    (∃ s, Reaches OperatorSystem.step (OperatorSystem.init 3 scopedOperator) s ∧
      s.openEncoders = [⟨1, 0⟩, ⟨2, 0⟩] ∧ ¬ OneEncoder s) ∧
    (∃ s, Reaches OperatorSystem.step (OperatorSystem.init 3 twoOperators) s ∧
      s.openEncoders = [⟨1, 0⟩, ⟨2, 0⟩] ∧ ¬ OneEncoder s) ∧
    ∃ s, Reaches OperatorSystem.step (OperatorSystem.init 3 twoOperators) s ∧
      (s.openEncoders = [⟨3, 0⟩] ∧ 0 ∈ s.sys.pipe.committed) ∧ ¬ OneEncoder s := by
  have hscope : ∃ s, Reaches OperatorSystem.step (OperatorSystem.init 3 scopedOperator) s ∧
      s.openEncoders = [⟨1, 0⟩, ⟨2, 0⟩] :=
    exists_reaches (replicate 10 (go 0)) (by decide)
  have hboth : ∃ s, Reaches OperatorSystem.step (OperatorSystem.init 3 twoOperators) s ∧
      s.openEncoders = [⟨1, 0⟩, ⟨2, 0⟩] :=
    exists_reaches (replicate 4 (go 0) ++ replicate 4 (go 1)) (by decide)
  have hstale : ∃ s, Reaches OperatorSystem.step (OperatorSystem.init 3 twoOperators) s ∧
      (s.openEncoders = [⟨3, 0⟩] ∧ 0 ∈ s.sys.pipe.committed) :=
    exists_reaches (replicate 3 (go 0) ++ replicate 10 (go 1) ++ [go 0]) (by decide)
  have htwo : ∀ s : OperatorSystem, s.openEncoders = [⟨1, 0⟩, ⟨2, 0⟩] → ¬ OneEncoder s := by
    intro s hs hone
    have hnodup := hone.single
    rw [hs] at hnodup
    exact absurd hnodup (by decide)
  refine ⟨?_, ?_, ?_⟩
  · obtain ⟨s, hs, hopen⟩ := hscope
    exact ⟨s, hs, hopen, htwo s hopen⟩
  · obtain ⟨s, hs, hopen⟩ := hboth
    exact ⟨s, hs, hopen, htwo s hopen⟩
  · obtain ⟨s, hs, hopen, hmem⟩ := hstale
    refine ⟨s, hs, ⟨hopen, hmem⟩, fun hone => ?_⟩
    exact hone.uncommitted ⟨3, 0⟩ (by rw [hopen]; exact mem_singleton_self _) hmem

end MetalNative
