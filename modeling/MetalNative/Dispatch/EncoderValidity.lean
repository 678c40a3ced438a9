import MetalNative.Dispatch.PipelineInvariant

namespace MetalNative

open LockSem Run List Option

/-!
# Validity of the active encoder

The active buffer is replaced in five calls, the active encoder in three.

* `EncoderValid` — the active encoder is open on the active buffer, which is not committed.
* `EncoderSafeAt` — the condition on a step: nothing but `current_encoder` commits while an
  encoder is active, its next buffer is created, and no encoder is opened on a committed buffer.
* `encoder_validity` — every run of such steps keeps the encoder valid, and `current_encoder`
  returns no other.
* `flush_invalidates_encoder` — `flush` inside an encoder scope.
-/

/-- `current_encoder` has ended its long encoder and has not opened the next one. -/
def Rolling (s : System) : Prop := ∃ th ∈ s.threads, th.pc = .ceCommit

/-- The active encoder is open, on the active buffer, and that buffer is not committed. -/
def OpenOnActive (p : Pipeline) (e : Encoder) : Prop :=
  e ∈ p.openEncoders ∧ p.activeBuffer = some e.buffer ∧ e.buffer ∉ p.committed

/-- Outside `current_encoder` the active encoder is nil or valid, and at no time a committed
    buffer has an open encoder. -/
structure EncoderValid (s : System) : Prop where
  active : ¬ Rolling s → ∀ e ∈ s.pipe.activeEncoder, OpenOnActive s.pipe e
  committed : ∀ e ∈ s.pipe.openEncoders, e.buffer ∉ s.pipe.committed

/-- When the call of thread `t` that leads to `s'` is `current_encoder`, and it returns an encoder,
    then a valid one. -/
def ReturnsValid (s : System) (t : ℕ) (s' : System) : Prop :=
  ∀ th ∈ s.threads[t]?, th.pc = .ceLock ∨ th.pc = .ceCommit →
    ∀ th' ∈ s'.threads[t]?, th'.pc = .idle → ∀ e ∈ th'.encoder, OpenOnActive s'.pipe e

/-- The condition on the step from `pc`. -/
def EncoderSafeAt (p : Pipeline) (env : Env) : PC → Prop
  | .cacLocked | .cmLocked | .syCommit | .flCommit _ => p.activeEncoder = none
  | .ceCommit => env.createOk = true
  | .esSetScope _ _ =>
    p.activeEncoder = none → p.hasActive = true → ∀ buf ∈ p.activeBuffer, buf ∉ p.committed
  | .edLock outer _ => outer = true → p.hasActive = true → ∀ buf ∈ p.activeBuffer, buf ∉ p.committed
  | _ => True

instance (p : Pipeline) (env : Env) (pc : PC) : Decidable (EncoderSafeAt p env pc) := by
  apply @PC.casesOn (fun pc => Decidable (EncoderSafeAt p env pc)) pc <;> intros <;>
    unfold EncoderSafeAt <;> infer_instance

/-- The condition on a step of the system. -/
def EncoderSafe (s : System) : Action → Prop
  | .run t env => ∀ th ∈ s.threads[t]?, EncoderSafeAt s.pipe env th.pc
  | .complete _ => True

instance (s : System) : ∀ a : Action, Decidable (EncoderSafe s a)
  | .run t env => inferInstanceAs (Decidable (∀ th ∈ s.threads[t]?, EncoderSafeAt s.pipe env th.pc))
  | .complete _ => inferInstanceAs (Decidable True)

/-! ### The invariant of the pipeline -/

/-- The encoders and buffers of a pipeline in which `current_encoder` is `rolling` over or not. -/
structure PipeEnc (rolling : Prop) (p : Pipeline) : Prop where
  committed_lt : ∀ b ∈ p.committed, b < p.nextObject
  active_lt : ∀ b ∈ p.activeBuffer, b < p.nextObject
  has_buffer : p.activeEncoder ≠ none → p.hasActive = true
  on_active : ∀ e ∈ p.activeEncoder, p.activeBuffer = some e.buffer
  fresh : ∀ e ∈ p.activeEncoder, e.buffer ∉ p.committed
  settled : ¬ rolling → p.openEncoders = p.activeEncoder.toList
  ended : rolling → p.openEncoders = []

open PipeEnc

section Pipe

variable {r r' : Prop} {p p' : Pipeline}

theorem PipeEnc.congr (hp : PipeEnc r p) (same : SameMetal p' p) (hr : r' ↔ r) : PipeEnc r' p' where
  committed_lt := by
    rw [same.committed, same.nextObject]
    exact hp.committed_lt
  active_lt := by
    rw [same.activeBuffer, same.nextObject]
    exact hp.active_lt
  has_buffer := by
    rw [same.activeEncoder, same.hasActive]
    exact hp.has_buffer
  on_active := by
    rw [same.activeEncoder, same.activeBuffer]
    exact hp.on_active
  fresh := by
    rw [same.activeEncoder, same.committed]
    exact hp.fresh
  settled := by
    rw [same.activeEncoder, same.openEncoders, hr]
    exact hp.settled
  ended := by
    rw [same.openEncoders, hr]
    exact hp.ended

/-- With no active encoder no encoder is open. -/
theorem PipeEnc.none_open (hp : PipeEnc r p) (hnone : p.activeEncoder = none) :
    p.openEncoders = [] := by
  by_cases hr : r
  · exact hp.ended hr
  · rw [hp.settled hr, hnone]
    rfl

/-- Without an active buffer there is no active encoder. -/
theorem PipeEnc.no_encoder (hp : PipeEnc r p) (hactive : p.hasActive = false) :
    p.activeEncoder = none := by
  by_contra henc
  rw [hp.has_buffer henc] at hactive
  cases hactive

theorem PipeEnc.openOnActive (hp : PipeEnc r p) (hr : ¬ r) {e : Encoder}
    (he : p.activeEncoder = some e) : OpenOnActive p e := by
  refine ⟨?_, hp.on_active e he, hp.fresh e he⟩
  rw [hp.settled hr, he]
  exact mem_singleton_self e

/-- Ids of committed buffers stay below the next id. -/
theorem PipeEnc.commitActive_lt (hp : PipeEnc r p) :
    ∀ b ∈ p.commitActive.committed, b < p.nextObject := by
  intro b hb
  unfold Pipeline.commitActive at hb
  split at hb
  · exact hp.committed_lt b hb
  · rename_i buf hbuf
    rcases mem_cons.mp hb with rfl | hb
    · exact hp.active_lt b hbuf
    · exact hp.committed_lt b hb

/-- Any buffers without encoders. -/
theorem PipeEnc.of_none (hlt : ∀ b ∈ p.committed, b < p.nextObject)
    (hactive : ∀ b ∈ p.activeBuffer, b < p.nextObject) (hnone : p.activeEncoder = none)
    (hopen : p.openEncoders = []) : PipeEnc r p where
  committed_lt := hlt
  active_lt := hactive
  has_buffer h := absurd hnone h
  on_active e he := by
    rw [hnone] at he
    cases he
  fresh e he := by
    rw [hnone] at he
    cases he
  settled _ := by
    rw [hnone, hopen]
    rfl
  ended _ := hopen

/-- A new encoder on an active buffer that is not committed. -/
theorem PipeEnc.of_opened (hlt : ∀ b ∈ p.committed, b < p.nextObject) {e : Encoder}
    (hhas : p.hasActive = true) (henc : p.activeEncoder = some e)
    (hbuf : p.activeBuffer = some e.buffer) (hbound : e.buffer < p.nextObject)
    (hfresh : e.buffer ∉ p.committed) (hopen : p.openEncoders = [e]) (hr : ¬ r) : PipeEnc r p where
  committed_lt := hlt
  active_lt b hb := by
    rw [hbuf] at hb
    exact mem_some.mp hb ▸ hbound
  has_buffer _ := hhas
  on_active x hx := by
    rw [henc] at hx
    rw [hbuf, mem_some.mp hx]
  fresh x hx := by
    rw [henc] at hx
    exact mem_some.mp hx ▸ hfresh
  settled _ := by
    rw [henc, hopen]
    rfl
  ended h := absurd h hr

/-- An encoder opened where none is, on a buffer that is not committed; on nil it is nil. -/
theorem PipeEnc.openEncoder (hp : PipeEnc r p) (hnone : p.activeEncoder = none)
    (hhas : p.hasActive = true) (hfresh : ∀ buf ∈ p.activeBuffer, buf ∉ p.committed)
    (hr : ¬ r) (env : Env) : PipeEnc r (p.openEncoder env) := by
  have hopen := hp.none_open hnone
  unfold Pipeline.openEncoder
  split
  · rename_i hbuf
    refine .of_none hp.committed_lt ?_ rfl hopen
    intro b hb
    rw [show _ = _ from hbuf] at hb
    cases hb
  · rename_i buf hbuf
    refine .of_opened (e := ⟨p.nextObject, buf⟩) ?_ hhas rfl hbuf ?_ (hfresh buf hbuf) ?_ hr
    · exact fun b hb => Nat.lt_succ_of_lt (hp.committed_lt b hb)
    · exact Nat.lt_succ_of_lt (hp.active_lt buf hbuf)
    · rw [hopen]

/-- **What a step does to the encoders.**  `r` and `r'` say whether `current_encoder` is rolling
    over before and after the step. -/
theorem Effect.pipeEnc {pc pc' : PC} (h : Effect p p' pc pc') (hp : PipeEnc r p)
    {env : Env} (hsafe : EncoderSafeAt p env pc)
    (hcreated : pc = .ceCommit → p'.nextObject ≠ p.nextObject)
    (hother : pc ≠ .ceCommit → pc' ≠ .ceCommit → (r' ↔ r))
    (hbefore : pc.holdsMu = true ∨ pc.need = .mutex → pc ≠ .ceCommit → ¬ r)
    (hafter : pc.holdsMu = true ∨ pc.need = .mutex → pc' ≠ .ceCommit → ¬ r')
    (hroll : pc = .ceCommit → r) (hroll' : pc' = .ceCommit → r') : PipeEnc r' p' := by
  obtain ⟨hcbuf, hchas, hcnext, -, hcenc, hcopen, -, -⟩ := commitActive_fixed p
  cases h with
  | quiet same slots hcommit hce =>
    refine hp.congr same (hother ?_ hce)
    rintro rfl
    cases hcommit
  | leak same hpc hactive hpc' =>
    refine hp.congr same (hother ?_ ?_)
    · rcases hpc with rfl | rfl <;> exact PC.noConfusion
    · rw [hpc']
      exact PC.noConfusion
  | release more hpc hpos same slots hpc' =>
    have hr : r' ↔ r := hother (by rw [hpc]; exact PC.noConfusion) (ne_ceCommit hpc'.1)
    exact congr (p := { p with inFlight := p.inFlight - 1 })
      ⟨hp.committed_lt, hp.active_lt, hp.has_buffer, hp.on_active, hp.fresh, hp.settled, hp.ended⟩
      same hr
  | underflow more hpc hpc' hzero same =>
    refine hp.congr same (hother ?_ ?_)
    · rw [hpc]
      exact PC.noConfusion
    · rw [hpc']
      exact PC.noConfusion
  | create hpc hactive hpc' same =>
    -- the first buffer; there is no encoder
    have hnone := hp.no_encoder hactive
    refine congr (r := r') ?_ same .rfl
    refine .of_none ?_ ?_ hnone (hp.none_open hnone)
    · exact fun b hb => Nat.lt_succ_of_lt (hp.committed_lt b hb)
    · rintro b hb
      exact mem_some.mp hb ▸ Nat.lt_succ_self _
  | commit hpc hce hactive active has next hnext same slots hpc' =>
    -- no encoder is active, and none becomes so
    have hnone : p.activeEncoder = none := by
      cases pc <;> first | exact hsafe | exact absurd rfl hce | cases hpc
    have hle : p.nextObject ≤ next := by
      rcases hnext with ⟨-, -, h⟩ | ⟨-, -, h⟩ | ⟨-, -, h⟩ <;> rw [h]
      exact Nat.le_succ _
    refine congr (r := r') ?_ same .rfl
    refine .of_none ?_ ?_ (hcenc.trans hnone) ?_
    · exact fun b hb => lt_of_lt_of_le (hp.commitActive_lt b hb) hle
    · intro b hb
      rcases hnext with ⟨h, -, -⟩ | ⟨h, -, hn⟩ | ⟨h, -, -⟩
      · rw [show active = none from h] at hb
        cases hb
      · rw [show active = some p.nextObject from h] at hb
        show b < next
        rw [hn]
        exact mem_some.mp hb ▸ Nat.lt_succ_self _
      · exact lt_of_lt_of_le (hp.active_lt b (h ▸ hb)) hle
    · exact hcopen.trans (hp.none_open hnone)
  | rollover e hpc henc hlong hpc' same =>
    have hr : ¬ r := hbefore (.inr (by rw [hpc]; rfl)) (by rw [hpc]; exact PC.noConfusion)
    have hr' : r' := hroll' hpc'
    have hopen : p.openEncoders.erase e = [] := by
      rw [hp.settled hr, henc]
      exact erase_cons_head ..
    refine congr (r := r') ?_ same .rfl
    exact ⟨hp.committed_lt, hp.active_lt, hp.has_buffer, hp.on_active, hp.fresh,
      fun h => absurd hr' h, fun _ => hopen⟩
  | rolloverFail hpc hpc' same =>
    exact absurd (same.nextObject.trans hcnext) (hcreated hpc)
  | rolloverOk hpc hpc' same =>
    have hr : r := hroll hpc
    have hr' : ¬ r' := hafter (.inl (by rw [hpc]; rfl)) (by rw [hpc']; exact PC.noConfusion)
    refine congr (r := r') ?_ same .rfl
    refine .of_opened (e := ⟨p.nextObject + 1, p.nextObject⟩) ?_ rfl rfl rfl ?_ ?_ ?_ hr'
    · exact fun b hb => Nat.lt_add_right 2 (hp.commitActive_lt b hb)
    · exact Nat.lt_add_of_pos_right Nat.two_pos
    · exact fun hmem => lt_irrefl _ (hp.commitActive_lt _ hmem)
    · rw [hp.ended hr]
  | openOld a b hpc hpc' hactive henc env' same =>
    have hr : ¬ r := hbefore (.inl (by rw [hpc]; rfl)) (by rw [hpc]; exact PC.noConfusion)
    have hr' : ¬ r' := hafter (.inl (by rw [hpc]; rfl)) (by rw [hpc']; exact PC.noConfusion)
    rw [hpc] at hsafe
    exact (hp.openEncoder henc hactive (hsafe henc hactive) hr env').congr same
      (iff_of_false hr' hr)
  | openNew a b hpc hpc' hactive henc same =>
    have hr' : ¬ r' := hafter (.inl (by rw [hpc]; rfl)) (by rw [hpc']; exact PC.noConfusion)
    refine congr (r := r') ?_ same .rfl
    refine .of_opened (e := ⟨p.nextObject + 1, p.nextObject⟩) ?_ rfl rfl rfl ?_ ?_ ?_ hr'
    · exact fun b hb => Nat.lt_add_right 2 (hp.committed_lt b hb)
    · exact Nat.lt_add_of_pos_right Nat.two_pos
    · exact fun hmem => lt_irrefl _ (hp.committed_lt _ hmem)
    · rw [hp.none_open henc]
  | close a b hpc hpc' env' q hq same =>
    have hr : ¬ r := hbefore (.inr (by rw [hpc]; rfl)) (by rw [hpc]; exact PC.noConfusion)
    have hr' : ¬ r' := hafter (.inr (by rw [hpc]; rfl)) (ne_ceCommit hpc'.2)
    rw [hpc] at hsafe
    -- ending the active encoder leaves none open
    have hclosed : PipeEnc r q := by
      refine congr (r := r) ?_ hq .rfl
      refine .of_none hp.committed_lt hp.active_lt rfl ?_
      show p.activeEncoder.elim p.openEncoders p.openEncoders.erase = []
      rw [hp.settled hr]
      cases p.activeEncoder with
      | none => rfl
      | some e => exact erase_cons_head ..
    refine congr (r := r) ?_ same (iff_of_false hr' hr)
    split_ifs with hreopen
    · obtain ⟨ha, hhas⟩ := Bool.and_eq_true_iff.mp hreopen
      refine hclosed.openEncoder hq.activeEncoder hhas ?_ hr env'
      rw [hq.activeBuffer, hq.committed]
      exact hsafe ha (hq.hasActive.symm.trans hhas)
    · exact hclosed

end Pipe

/-! ### Who is inside `current_encoder` -/

section Step

variable {s s' : System} {t : ℕ} {th th' : Thread} {p' : Pipeline}

/-- While a thread holds the mutex, or can lock it, no other thread holds it. -/
theorem Ran.alone (h : Ran s t s' th th' p') (hm : MutexInv s)
    (hlock : th.pc.holdsMu = true ∨ th.pc.need = .mutex) {u : ℕ} {x : Thread}
    (hx : s.threads[u]? = some x) (hut : u ≠ t) : x.pc ≠ .ceCommit := by
  intro hpc
  have hu : s.pipe.mu = some u := (hm.owner u x hx).mp (by rw [hpc]; rfl)
  rcases hlock with hholds | hneed
  · have ht := (hm.owner t th h.at_t).mp hholds
    rw [hu, some.injEq] at ht
    exact hut ht
  · rw [h.mutex_free hneed] at hu
    cases hu

theorem rolling_iff : Rolling s ↔ ∃ (u : ℕ) (x : Thread), s.threads[u]? = some x ∧
    x.pc = .ceCommit := by
  unfold Rolling
  constructor
  · rintro ⟨x, hx, hpc⟩
    obtain ⟨u, hu⟩ := mem_iff_getElem?.mp hx
    exact ⟨u, x, hu, hpc⟩
  · rintro ⟨u, x, hx, hpc⟩
    exact ⟨x, mem_of_getElem? hx, hpc⟩

/-- A thread that is not there before and after the step changes nothing. -/
theorem Ran.rolling_congr (h : Ran s t s' th th' p') (hpc : th.pc ≠ .ceCommit)
    (hpc' : th'.pc ≠ .ceCommit) : Rolling s' ↔ Rolling s := by
  rw [rolling_iff, rolling_iff]
  constructor
  · rintro ⟨u, x, hx, hx'⟩
    rcases h.thread_cases hx with ⟨-, rfl⟩ | ⟨-, hold⟩
    · exact absurd hx' hpc'
    · exact ⟨u, x, hold, hx'⟩
  · rintro ⟨u, x, hx, hx'⟩
    have hut : t ≠ u := by
      rintro rfl
      rw [h.at_t, some.injEq] at hx
      exact hpc (hx ▸ hx')
    refine ⟨u, x, ?_, hx'⟩
    rw [h.threads_eq, getElem?_set_ne hut]
    exact hx

theorem Ran.not_rolling_before (h : Ran s t s' th th' p') (hm : MutexInv s)
    (hlock : th.pc.holdsMu = true ∨ th.pc.need = .mutex) (hpc : th.pc ≠ .ceCommit) :
    ¬ Rolling s := by
  rw [rolling_iff]
  rintro ⟨u, x, hx, hx'⟩
  by_cases hut : u = t
  · subst hut
    rw [h.at_t, some.injEq] at hx
    exact hpc (hx ▸ hx')
  · exact h.alone hm hlock hx hut hx'

theorem Ran.not_rolling_after (h : Ran s t s' th th' p') (hm : MutexInv s)
    (hlock : th.pc.holdsMu = true ∨ th.pc.need = .mutex) (hpc' : th'.pc ≠ .ceCommit) :
    ¬ Rolling s' := by
  rw [rolling_iff]
  rintro ⟨u, x, hx, hx'⟩
  rcases h.thread_cases hx with ⟨-, rfl⟩ | ⟨hut, hold⟩
  · exact hpc' hx'
  · exact h.alone hm hlock hold hut hx'

end Step

/-! ### Runs -/

/-- The invariant of the system. -/
structure EncInv (s : System) : Prop where
  mutex : MutexInv s
  pipe : PipeEnc (Rolling s) s.pipe

/-- When the next buffer is created `current_encoder` uses up identities. -/
theorem body_ceCommit {env : Env} {p p' : Pipeline} {th th' : Thread} (hpc : th.pc = .ceCommit)
    (henv : env.createOk = true) (h : body env p th = some (p', th')) :
    p'.nextObject ≠ p.nextObject ∧ th'.encoder = p'.activeEncoder := by
  have hnext := (commitActive_fixed p).2.2.1
  cases body_at hpc h with
  | ceNew hok hq =>
    subst hq
    refine ⟨?_, rfl⟩
    show p.commitActive.nextObject + 1 + 1 ≠ p.nextObject
    rw [hnext]
    exact Nat.ne_of_gt (Nat.lt_add_of_pos_right Nat.two_pos)
  | ceFail hok =>
    rw [henv] at hok
    cases hok
  | goes hgoes => cases hgoes

/-- What `current_encoder` returns without a roll-over is the active encoder or nil. -/
theorem body_ceLock {env : Env} {p p' : Pipeline} {th th' : Thread} (hpc : th.pc = .ceLock)
    (hpc' : th'.pc = .idle) (h : body env p th = some (p', th')) :
    th'.encoder = none ∨ th'.encoder = p'.activeEncoder := by
  cases body_at hpc h with
  | ceLong => cases hpc'
  | ceHeld hscope henc => exact .inr henc.symm
  | ceNone => exact .inl rfl
  | goes hgoes => cases hgoes

/-- **Step.**  A step that meets the condition keeps the encoders valid. -/
theorem EncInv.step {s s' : System} {a : Action} (hi : EncInv s) (hg : EncoderSafe s a)
    (h : MetalNative.step s a = some s') : EncInv s' := by
  refine ⟨hi.mutex.step h, ?_⟩
  cases a with
  | complete buf =>
    obtain ⟨-, -, rfl⟩ := step_complete h
    have hp := hi.pipe
    exact ⟨hp.committed_lt, hp.active_lt, hp.has_buffer, hp.on_active, hp.fresh, hp.settled,
      hp.ended⟩
  | run t env =>
    obtain ⟨th, th', p', hran, hbody⟩ := step_run h
    have hsafe := hg th hran.at_t
    have hp := hi.pipe
    have hbefore : PipeEnc (Rolling s) (running s.pipe th.pc) :=
      ⟨hp.committed_lt, hp.active_lt, hp.has_buffer, hp.on_active, hp.fresh, hp.settled, hp.ended⟩
    have hsafe' : EncoderSafeAt (running s.pipe th.pc) env th.pc := by
      cases hpc : th.pc <;> rw [hpc] at hsafe <;> exact hsafe
    have hafter : PipeEnc (Rolling s') p' := by
      refine hran.effect.pipeEnc hbefore hsafe' ?_ hran.rolling_congr
        (hran.not_rolling_before hi.mutex) (hran.not_rolling_after hi.mutex) ?_ ?_
      · intro hpc
        rw [hpc] at hsafe
        exact (body_ceCommit hpc hsafe hbody).1
      · exact fun hpc => ⟨th, mem_of_getElem? hran.at_t, hpc⟩
      · exact fun hpc => ⟨th', mem_of_getElem? hran.thread_self, hpc⟩
    rw [hran.pipe_eq]
    exact ⟨hafter.committed_lt, hafter.active_lt, hafter.has_buffer, hafter.on_active,
      hafter.fresh, hafter.settled, hafter.ended⟩

theorem EncInv.init (n : ℕ) (progs : List (List Op)) : EncInv (System.init n progs) where
  mutex := MutexInv.init n progs
  pipe := .of_none (fun _ h => nomatch h) (fun _ h => nomatch h) rfl rfl

theorem EncInv.valid {s : System} (hi : EncInv s) : EncoderValid s := by
  refine ⟨fun hr e he => hi.pipe.openOnActive hr he, fun e he => ?_⟩
  by_cases hr : Rolling s
  · rw [hi.pipe.ended hr] at he
    cases he
  · rw [hi.pipe.settled hr] at he
    exact hi.pipe.fresh e (mem_toList.mp he)

/-- What `current_encoder` returns is valid. -/
theorem EncInv.returns {s s' : System} {t : ℕ} {env : Env} (hi : EncInv s)
    (hg : EncoderSafe s (.run t env)) (h : MetalNative.step s (.run t env) = some s') :
    ReturnsValid s t s' := by
  intro x hx hpc y hy hidle e he
  obtain ⟨th, th', p', hran, hbody⟩ := step_run h
  obtain rfl : th = x := by
    rw [hran.at_t] at hx
    exact mem_some.mp hx
  obtain rfl : th' = y := by
    rw [hran.thread_self] at hy
    exact mem_some.mp hy
  have hafter := hi.step hg h
  have hlock : th.pc.holdsMu = true ∨ th.pc.need = .mutex := by
    rcases hpc with hpc | hpc <;> rw [hpc]
    · exact .inr rfl
    · exact .inl rfl
  have hr : ¬ Rolling s' :=
    hran.not_rolling_after hi.mutex hlock (by rw [hidle]; exact PC.noConfusion)
  have hret : th'.encoder = none ∨ th'.encoder = p'.activeEncoder := by
    rcases hpc with hpc | hpc
    · exact body_ceLock hpc hidle hbody
    · have hsafe := hg th hran.at_t
      rw [hpc] at hsafe
      exact .inr (body_ceCommit hpc hsafe hbody).2
  have hactive : s'.pipe.activeEncoder = some e := by
    rcases hret with hret | hret
    · rw [hret] at he
      cases he
    · rw [hran.pipe_eq]
      exact hret.symm.trans he
  exact hafter.pipe.openOnActive hr hactive

/-- **Encoder validity.**  In every run whose steps meet the condition the active encoder is valid
    in every state, and so is whatever `current_encoder` returns next. -/
theorem encoder_validity (bufferCount : ℕ) (progs : List (List Op)) {s : System}
    (hrun : Runs step EncoderSafe (System.init bufferCount progs) s) :
    EncoderValid s ∧ ∀ t env s', EncoderSafe s (.run t env) → step s (.run t env) = some s' →
      ReturnsValid s t s' := by
  have hinv : EncInv s :=
    hrun.invariant (EncInv.init bufferCount progs) fun u a v hu hg hs => hu.step hg hs
  exact ⟨hinv.valid, fun t env s' hg hs => hinv.returns hg hs⟩

/-- One thread opens a scope and asks for its encoder. -/
def scopeSchedule : List Action := List.replicate 7 (.run 0 {})

theorem encoder_validity_run :
    ∃ s, exec step (System.init 3 [[.beginEncoder, .currentEncoder, .endScope]]) scopeSchedule
        = some s ∧ EncoderValid s ∧ ∀ t env s', EncoderSafe s (.run t env) →
          step s (.run t env) = some s' → ReturnsValid s t s' := by
  have hsome : (exec step (System.init 3 [[.beginEncoder, .currentEncoder, .endScope]])
      scopeSchedule).isSome = true := by decide
  obtain ⟨s, hs⟩ := isSome_iff_exists.mp hsome
  have hguard : GuardedAlong step EncoderSafe
      (System.init 3 [[.beginEncoder, .currentEncoder, .endScope]]) scopeSchedule := by decide
  exact ⟨s, hs, encoder_validity 3 _ (runs_exec hs hguard)⟩

/-- `flush` inside an encoder scope commits the buffer under its open encoder and installs another
    one. -/
theorem flush_invalidates_encoder :
    ∃ s, Reaches step (System.init 3 [[.beginEncoder, .flush]]) s ∧
      (∀ th ∈ s.threads, th.pc = .idle) ∧ s.pipe.activeEncoder = some ⟨1, 0⟩ ∧
      s.pipe.openEncoders = [⟨1, 0⟩] ∧ s.pipe.committed = [0] ∧ s.pipe.activeBuffer = some 2 ∧
      ¬ EncoderValid s := by
  have hsome : (exec step (System.init 3 [[.beginEncoder, .flush]])
      (replicate 8 (.run 0 {}))).isSome = true := by decide
  obtain ⟨s, hs⟩ := isSome_iff_exists.mp hsome
  have hafter : (exec step (System.init 3 [[.beginEncoder, .flush]])
      (replicate 8 (.run 0 {}))).map (fun s =>
        (s.threads.all fun th => decide (th.pc = .idle), s.pipe.activeEncoder,
          s.pipe.openEncoders, s.pipe.committed, s.pipe.activeBuffer))
        = some (true, some ⟨1, 0⟩, [⟨1, 0⟩], [0], some 2) := by decide
  rw [hs, map_some, some.injEq, Prod.mk.injEq, Prod.mk.injEq, Prod.mk.injEq,
    Prod.mk.injEq] at hafter
  obtain ⟨hidle, henc, hopen, hcomm, hbuf⟩ := hafter
  have hidle' : ∀ th ∈ s.threads, th.pc = .idle := by simpa using hidle
  refine ⟨s, reaches_exec hs, hidle', henc, hopen, hcomm, hbuf, fun h => ?_⟩
  have hmem : (⟨1, 0⟩ : Encoder) ∈ s.pipe.openEncoders := by rw [hopen]; exact mem_cons_self ..
  have hnot := h.committed _ hmem
  rw [hcomm] at hnot
  exact hnot (mem_cons_self ..)

end MetalNative
