import MetalNative.Dispatch.OpCounting

namespace MetalNative

open LockSem Run Counting Option List

/-!
# What the operation counter counts

The counter is right whenever no call is in progress, as long as every submission that leaves the
counter alone finds it at zero, nothing is counted between a submission and the reset after it, and
what takes the count or ends an encoder scope has a buffer to submit.

* `Settled` — the condition on a step.
* `Inv` — the counter is behind only while a call is on its way to flush, and it is at the threshold
  only while an encoder scope is active or a call has still to decide.
* `op_count_counts` — the counter in quiet states of runs under the condition.
* `synchronize_keeps_count` — a run that breaks it.
-/

namespace Counting

/-- The condition on the step of a thread, before it. -/
def SettledAt (threshold : UInt64) (since : ℕ) (p : Pipeline) (env : Env) : PC → Prop
  -- the counter does not wrap
  | .cacCount | .roCount => p.opCount.toNat + 1 < 2 ^ 64
  -- a submission without a reset finds the counter at zero
  | .syCommit | .ceCommit => p.activeBuffer.isSome = true → p.opCount = 0
  | .flCommit _ | .cacLocked => env.createOk = false → p.opCount = 0
  -- `commit_and_continue` resets after its flush, when nothing has been counted since
  | .cacReset => p.opCount = 0 ∨ since = 0
  -- what `record_op` takes will be submitted
  | .roExchange count => count = p.opCount → p.hasActive = true ∨ since = 0
  -- so is what an encoder scope has held back
  | .edLock outer _ => outer = false → threshold ≤ p.opCount → p.hasActive = true
  | _ => True

instance (threshold : UInt64) (since : ℕ) (p : Pipeline) (env : Env) :
    (pc : PC) → Decidable (SettledAt threshold since p env pc)
  | .cacCount | .roCount => inferInstanceAs (Decidable (_ < _))
  | .syCommit | .ceCommit | .flCommit _ | .cacLocked => inferInstanceAs (Decidable (_ = _ → _ = _))
  | .cacReset => inferInstanceAs (Decidable (_ ∨ _))
  | .roExchange _ => inferInstanceAs (Decidable (_ = _ → _ ∨ _))
  | .edLock _ _ => inferInstanceAs (Decidable (_ = _ → _ ≤ _ → _ = _))
  | .idle | .currentBuffer | .cacLazy _ | .cacScope _ | .cacThreshold _ | .cacAcquire | .cmAcquire
  | .cmLocked | .syLock | .syTake _ | .syGive _ | .flLock _ | .roLazy _ | .roScope _
  | .roThreshold _ | .bsRead | .bsSet _ | .esReadScope | .esReadLazy _ | .esLock _ _
  | .esSetScope _ _ | .restoreLazy _ | .ceLock | .maxOps _ => inferInstanceAs (Decidable True)

/-- The condition on a step: lazy mode with this threshold; and nothing is counted between a
    submission and its reset. -/
def Settled (threshold : UInt64) (s : Counting) : Action → Prop
  | .complete _ => True
  | .run t env =>
    (s.sys.pipe.lazyCommit = true ∧ s.sys.pipe.autoFlushThreshold = threshold) ∧
      (s.late = some t → s.since = 0) ∧
      (s.late ≠ some t → ∀ th ∈ s.sys.threads[t]?,
        SettledAt threshold s.since s.sys.pipe env th.pc)

instance (threshold : UInt64) (s : Counting) : (a : Action) → Decidable (s.Settled threshold a)
  | .complete _ => inferInstanceAs (Decidable True)
  | .run t env => inferInstanceAs (Decidable ((_ = _ ∧ _ = _) ∧ (_ = _ → _ = _) ∧
      (_ ≠ _ → ∀ th ∈ s.sys.threads[t]?, SettledAt threshold s.since s.sys.pipe env th.pc)))

/-! ### Steps taken apart -/

variable {s s' : Counting} {t : ℕ} {env : Env}

/-- A step is a reset, or a step of the pipeline, which leaves the reset to the next one where it
    submits with a reset. -/
theorem step_run (h : s.step (.run t env) = some s') :
    (s.late = some t ∧ s' = s.reset) ∨
    (s.late ≠ some t ∧ ∃ th th' p' sys, Ran s.sys t sys th th' p' ∧
      body env (running s.sys.pipe th.pc) th = some (p', th') ∧
      ((th.pc.resetsAfter s.sys.pipe env = false ∧
          s' = { s with sys, since := s.sinceAfter th.pc sys }) ∨
        (th.pc.resetsAfter s.sys.pipe env = true ∧
          s' =
            { sys :=
                { sys with
                  pipe := { sys.pipe with opCount := s.sys.pipe.opCount, mu := some t } }
              late := some t
              since := s.sinceAfter th.pc sys }))) := by
  unfold step at h
  dsimp only at h
  split_ifs at h with hlate
  · exact .inl ⟨hlate, (some.inj h).symm⟩
  · obtain ⟨th, hth, h⟩ := bind_eq_some_iff.mp h
    obtain ⟨sys, hsys, h⟩ := bind_eq_some_iff.mp h
    obtain ⟨th₁, th', p', hran, hbody⟩ := MetalNative.step_run hsys
    obtain rfl : th = th₁ := some.inj (hth.symm.trans hran.at_t)
    refine .inr ⟨hlate, th, th', p', sys, hran, hbody, ?_⟩
    split_ifs at h with hreset
    · exact .inr ⟨hreset, (some.inj h).symm⟩
    · exact .inl ⟨by simpa using hreset, (some.inj h).symm⟩

/-! ### The mutex -/

/-- The mutex belongs to the thread that stands where it is held, or that has yet to reset. -/
structure Locks (s : Counting) : Prop where
  holder : ∀ i th, s.sys.threads[i]? = some th → th.pc.holdsMu = true →
    s.sys.pipe.mu = some i ∧ s.late ≠ some i
  late : ∀ i, s.late = some i → s.sys.pipe.mu = some i

theorem PC.commits_of_resetsAfter {pc : PC} {p : Pipeline} (h : pc.resetsAfter p env = true) :
    pc.need = .mutex ∨ pc.holdsMu = true := by
  cases pc <;> first | exact .inl rfl | exact .inr rfl | cases h

variable {sys : System} {th th' : Thread} {p' : Pipeline}

/-- While another thread has the mutex, a step neither needs nor takes it. -/
theorem Locks.outside (hl : s.Locks) (hran : Ran s.sys t sys th th' p') {j : ℕ} (hj : j ≠ t)
    (hmu : s.sys.pipe.mu = some j) :
    th.pc.need ≠ .mutex ∧ th.pc.holdsMu = false ∧ th'.pc.holdsMu = false ∧
      sys.pipe.mu = some j := by
  have hneed : th.pc.need ≠ .mutex := by
    intro h
    rw [hran.mutex_free h] at hmu
    cases hmu
  have hholds : th.pc.holdsMu = false := by
    by_contra hne
    have hown := (hl.holder t th hran.at_t (by simpa using hne)).1
    rw [hmu] at hown
    exact hj (some.inj hown)
  have hholds' : th'.pc.holdsMu = false := by
    by_contra hne
    obtain h | h := (hran.effect.locksFrom (by simpa using hne)).1
    · rw [hholds] at h
      cases h
    · exact hneed h
  refine ⟨hneed, hholds, hholds', ?_⟩
  rw [hran.pipe_eq]
  simp [muAfter, hholds, hholds', hmu]

/-- A step of the pipeline keeps the mutex with its owner. -/
theorem Locks.run (hl : s.Locks) (hlate : s.late ≠ some t) (hran : Ran s.sys t sys th th' p')
    (since : ℕ) : ({ s with sys, since } : Counting).Locks := by
  constructor
  · intro i x hx hholds
    rw [hran.threads_eq] at hx
    by_cases hi : i = t
    · subst hi
      have hlt : i < s.sys.threads.length := (List.getElem?_eq_some_iff.mp hran.at_t).1
      rw [getElem?_set_self hlt] at hx
      obtain rfl := some.inj hx
      refine ⟨?_, hlate⟩
      show sys.pipe.mu = some i
      rw [hran.pipe_eq]
      simp [muAfter, hholds]
    · rw [getElem?_set_ne (Ne.symm hi)] at hx
      obtain ⟨hmu, hne⟩ := hl.holder i x hx hholds
      exact ⟨(hl.outside hran hi hmu).2.2.2, hne⟩
  · intro i hi
    have hit : i ≠ t := by
      rintro rfl
      exact hlate hi
    exact (hl.outside hran hit (hl.late i hi)).2.2.2

/-- So does a submission, which leaves the mutex with the thread that has yet to reset. -/
theorem Locks.submit (hl : s.Locks) (hran : Ran s.sys t sys th th' p')
    (hreset : th.pc.resetsAfter s.sys.pipe env = true) (hinside : th'.pc.holdsMu = false)
    (opCount : UInt64) (since : ℕ) :
    ({ sys := { sys with pipe := { sys.pipe with opCount, mu := some t } }
       late := some t
       since } : Counting).Locks := by
  constructor
  · intro i x hx hholds
    rw [hran.threads_eq] at hx
    by_cases hi : i = t
    · subst hi
      have hlt : i < s.sys.threads.length := (List.getElem?_eq_some_iff.mp hran.at_t).1
      rw [getElem?_set_self hlt] at hx
      obtain rfl := some.inj hx
      rw [hinside] at hholds
      cases hholds
    · rw [getElem?_set_ne (Ne.symm hi)] at hx
      obtain ⟨hneed, hmu, -⟩ := hl.outside hran hi (hl.holder i x hx hholds).1
      obtain h | h := PC.commits_of_resetsAfter hreset
      · exact absurd h hneed
      · rw [hmu] at h
        cases h
  · exact fun i hi => hi

theorem Locks.reset (hl : s.Locks) (hlate : s.late = some t) : s.reset.Locks := by
  constructor
  · intro i x hx hholds
    obtain ⟨hmu, hne⟩ := hl.holder i x hx hholds
    exact absurd (hlate.trans ((hl.late t hlate).symm.trans hmu)) hne
  · intro i hi
    cases hi

/-! ### The active buffer -/

/-- An active buffer is there, and `flush` and `synchronize` have one where they submit it. -/
structure Ready (s : System) : Prop where
  buffer : s.pipe.hasActive = true → s.pipe.activeBuffer.isSome = true
  inside : ∀ th ∈ s.threads, (∃ r, th.pc = .flCommit r) ∨ th.pc = .syCommit →
    s.pipe.hasActive = true

variable {threshold : UInt64}

/-- A thread that is not inside keeps the active buffer of one that is. -/
theorem hasActive_of_outside {p q : Pipeline} {pc pc' : PC}
    (h : CountEffect threshold env p q pc pc')
    (hneed : pc.need ≠ .mutex) (hmu : pc.holdsMu = false) (hactive : p.hasActive = true) :
    q.hasActive = true := by
  cases h with
  | control _ _ active | close _ _ _ _ _ active => exact active.trans hactive
  | count _ hp | exchange _ hp | reset _ hp => exact hp ▸ hactive
  | submit hpc =>
    obtain h | h := PC.commits_of_resetsAfter hpc
    · exact absurd h hneed
    · rw [hmu] at h
      cases h
  | leave hpc _ _ _ _ active =>
    refine active ?_ hactive
    rintro rfl
    cases hmu
  | activate _ _ _ _ active => exact active hactive

/-- Where a step leaves its thread inside, there is an active buffer. -/
theorem hasActive_of_inside {p q : Pipeline} {pc pc' : PC}
    (h : CountEffect threshold env p q pc pc')
    (hinside : (∃ r, pc' = .flCommit r) ∨ pc' = .syCommit) : q.hasActive = true := by
  cases h with
  | control _ _ active _ _ _ _ inside => exact active.trans (inside hinside)
  | count _ _ _ hmu | submit _ _ _ hmu | leave _ _ _ _ _ _ _ hmu | activate _ _ _ _ _ _ _ hmu =>
    exact not_inside hmu hinside
  | exchange _ _ hpc' | reset _ _ hpc' =>
    subst hpc'
    exact not_inside rfl hinside
  | close outer prev _ _ _ _ _ _ hpc' =>
    subst hpc'
    cases outer <;> exact not_inside rfl hinside

theorem Ready.run (hr : Ready s.sys) (hl : s.Locks) (hran : Ran s.sys t sys th th' p')
    (heffect : CountEffect threshold env (running s.sys.pipe th.pc) p' th.pc th'.pc) :
    Ready sys := by
  have hhas : sys.pipe.hasActive = p'.hasActive := by rw [hran.pipe_eq]
  have hbuf : sys.pipe.activeBuffer = p'.activeBuffer := by rw [hran.pipe_eq]
  constructor
  · rw [hhas, hbuf]
    have hbefore : (running s.sys.pipe th.pc).hasActive = true →
        (running s.sys.pipe th.pc).activeBuffer.isSome = true := hr.buffer
    cases heffect with
    | control _ _ active buffer | close _ _ _ _ _ active buffer => rwa [active, buffer]
    | count _ hp | exchange _ hp | reset _ hp =>
      subst hp
      exact hbefore
    | submit _ _ buffer => exact buffer
    | leave _ _ _ _ _ _ buffer | activate _ _ _ _ _ _ buffer => exact buffer hbefore
  · intro x hx hinside
    rw [hhas]
    rw [hran.threads_eq] at hx
    obtain ⟨j, hj⟩ := mem_iff_getElem?.mp hx
    by_cases hjt : j = t
    · subst hjt
      have hlt : j < s.sys.threads.length := (List.getElem?_eq_some_iff.mp hran.at_t).1
      rw [getElem?_set_self hlt] at hj
      obtain rfl := some.inj hj
      exact hasActive_of_inside heffect hinside
    · rw [getElem?_set_ne (Ne.symm hjt)] at hj
      have hholds : x.pc.holdsMu = true := by
        obtain ⟨r, hr⟩ | hr := hinside <;> rw [hr] <;> rfl
      obtain ⟨hneed, hmu, -⟩ := hl.outside hran hjt (hl.holder j x hj hholds).1
      exact hasActive_of_outside heffect hneed hmu (hr.inside x (mem_of_getElem? hj) hinside)

/-! ### The counter -/

/-- The counter is the number of operations since the last submission, or it is behind and a call is
    on its way to submit them. -/
def Balanced (since : ℕ) (s : System) : Prop :=
  s.pipe.opCount.toNat = since ∨ (s.pipe.opCount.toNat ≤ since ∧ s.pipe.hasActive = true ∧
    ∃ th ∈ s.threads, th.pc.flushing = true)

/-- Outside an encoder scope the counter is at the threshold only while a call has still to decide
    or to reset it. -/
def Decided (threshold : UInt64) (s : System) : Prop :=
  s.pipe.encoderScopeActive = false → threshold ≤ s.pipe.opCount →
    ∃ th ∈ s.threads, th.pc.Pending threshold s.pipe

theorem exists_mem_set {P Q : Thread → Prop} {l : List Thread} (hat : l[t]? = some th)
    (hnew : P th → Q th') (hold : ∀ x, P x → Q x) (h : ∃ x ∈ l, P x) :
    ∃ x ∈ l.set t th', Q x := by
  have hlt : t < l.length := (List.getElem?_eq_some_iff.mp hat).1
  obtain ⟨x, hx, hP⟩ := h
  obtain ⟨j, hj⟩ := mem_iff_getElem?.mp hx
  by_cases hjt : j = t
  · subst hjt
    obtain rfl := some.inj (hat.symm.trans hj)
    exact ⟨th', mem_set hlt th', hnew hP⟩
  · refine ⟨x, mem_iff_getElem?.mpr ⟨j, ?_⟩, hold x hP⟩
    rw [getElem?_set_ne (Ne.symm hjt), hj]

/-- What is pending stays so while the counter is the same and an active buffer stays. -/
theorem PC.Pending.congr {p q : Pipeline} {pc : PC} (h : pc.Pending threshold p)
    (hcount : q.opCount = p.opCount) (hactive : p.hasActive = true → q.hasActive = true) :
    pc.Pending threshold q := by
  cases pc with
  | roLazy c | roScope c | roThreshold c | roExchange c => exact Eq.trans h hcount.symm
  | flLock r =>
    cases r with
    | resetCount => trivial
    | done | endScope prev => exact hactive h
  | _ => exact h

/-- A submission is seen in the committed buffers. -/
theorem commitActive_committed (p : Pipeline) :
    p.commitActive.committed = p.committed ↔ p.activeBuffer.isSome = false := by
  unfold Pipeline.commitActive
  cases p.activeBuffer <;> simp

/-- The counter where a submission leaves it alone. -/
theorem opCount_of_leaves {p : Pipeline} {pc : PC} (hleaves : pc.leavesCount env)
    (hset : SettledAt threshold s.since p env pc) (hbuffer : p.activeBuffer.isSome = true) :
    p.opCount = 0 := by
  cases pc <;> first | exact hset hbuffer | exact hset hleaves | exact absurd hleaves id

/-- Without a buffer, only a rollover or `commit_and_continue` gets to submit one. -/
theorem leaves_without_buffer {pc : PC} (hr : Ready s.sys) (hth : th ∈ s.sys.threads)
    (hpc : th.pc = pc) (hleaves : pc.leavesCount env)
    (hbuffer : s.sys.pipe.activeBuffer.isSome = false) : pc = .ceCommit ∨ pc = .cacLocked := by
  have hnot : ¬ ((∃ r, pc = .flCommit r) ∨ pc = .syCommit) := by
    intro hinside
    have hsome := hr.buffer (hr.inside th hth (hpc ▸ hinside))
    rw [hbuffer] at hsome
    cases hsome
  cases pc with
  | flCommit r => exact absurd (.inl ⟨r, rfl⟩) hnot
  | syCommit => exact absurd (.inr rfl) hnot
  | ceCommit => exact .inl rfl
  | cacLocked => exact .inr rfl
  | _ => exact absurd hleaves id

theorem sinceAfter_same (hpc : th.pc.records = false)
    (hcommitted : sys.pipe.committed = s.sys.pipe.committed) :
    s.sinceAfter th.pc sys = s.since := by
  simp [sinceAfter, hpc, hcommitted]

theorem Balanced.run (hb : Balanced s.since s.sys) (hr : Ready s.sys)
    (hran : Ran s.sys t sys th th' p')
    (heffect : CountEffect threshold env (running s.sys.pipe th.pc) p' th.pc th'.pc)
    (hset : SettledAt threshold s.since s.sys.pipe env th.pc)
    (hreset : th.pc.resetsAfter s.sys.pipe env = false) :
    Balanced (s.sinceAfter th.pc sys) sys := by
  have hop : sys.pipe.opCount = p'.opCount := by rw [hran.pipe_eq]
  have hcom : sys.pipe.committed = p'.committed := by rw [hran.pipe_eq]
  have hact : sys.pipe.hasActive = p'.hasActive := by rw [hran.pipe_eq]
  have hmem : th' ∈ sys.threads := by
    rw [hran.threads_eq]
    exact List.mem_set (List.getElem?_eq_some_iff.mp hran.at_t).1 th'
  -- a call on its way to submit stays on it, unless it is the one that takes the step
  have hkeeps : (th.pc.flushing = true → th'.pc.flushing = true) →
      (∃ x ∈ s.sys.threads, x.pc.flushing = true) → ∃ x ∈ sys.threads, x.pc.flushing = true := by
    intro hnew hsome
    rw [hran.threads_eq]
    exact exists_mem_set hran.at_t hnew (fun _ h => h) hsome
  have hsame : sys.pipe.opCount = s.sys.pipe.opCount →
      sys.pipe.committed = s.sys.pipe.committed → th.pc.records = false →
      (s.sys.pipe.hasActive = true → sys.pipe.hasActive = true) →
      (th.pc.flushing = true → s.sys.pipe.hasActive = true → th'.pc.flushing = true) →
      Balanced (s.sinceAfter th.pc sys) sys := by
    intro hcount hcommitted hrec hactive hflushing
    rw [sinceAfter_same hrec hcommitted]
    unfold Balanced
    rw [hcount]
    refine hb.imp id fun ⟨hle, hbefore, hsome⟩ => ⟨hle, hactive hbefore, ?_⟩
    exact hkeeps (fun h => hflushing h hbefore) hsome
  cases heffect with
  | control count committed active _ _ _ flushing _ hpc =>
    exact hsame (hop.trans count) (hcom.trans committed) hpc.1
      (fun h => (hact.trans active).trans h)
      flushing
  | count hpc hp =>
    subst hp
    have hnowrap : s.sys.pipe.opCount.toNat + 1 < 2 ^ 64 := by
      revert hset hpc
      cases th.pc <;> first | exact fun h _ => h | exact fun _ h => nomatch h
    have hnot : th.pc.flushing = false := by
      revert hpc
      cases th.pc <;> first | exact fun _ => rfl | exact fun h => nomatch h
    have hsucc : sys.pipe.opCount.toNat = s.sys.pipe.opCount.toNat + 1 := by
      rw [hop]
      show (s.sys.pipe.opCount + 1).toNat = _
      exact Nat.mod_eq_of_lt (by simpa using hnowrap)
    have hsince : s.sinceAfter th.pc sys = s.since + 1 := by simp [sinceAfter, hpc]
    unfold Balanced
    rw [hsucc, hsince]
    refine hb.imp (congrArg (· + 1)) fun ⟨hle, hbefore, hsome⟩ => ⟨by omega, hact.trans hbefore, ?_⟩
    exact hkeeps (fun h => nomatch hnot.symm.trans h) hsome
  | exchange hpc hp hpc' =>
    -- the count is taken, and its thread goes on to submit
    subst hp
    rw [sinceAfter_same (by rw [hpc]; rfl) hcom]
    unfold Balanced
    rw [hop]
    rw [hpc] at hset
    obtain hactive | hzero := hset rfl
    · exact .inr ⟨by simp, hact.trans hactive, th', hmem, by rw [hpc']; rfl⟩
    · exact .inl (by simp [hzero])
  | reset hpc hp hpc' =>
    subst hp
    rw [hpc] at hset
    obtain hzero | hsince := hset
    · exact hsame (hop.trans hzero.symm) hcom (by rw [hpc]; rfl) (fun h => hact.trans h) fun h => by
        rw [hpc] at h
        cases h
    · rw [sinceAfter_same (by rw [hpc]; rfl) hcom, hsince]
      exact .inl (by rw [hop]; rfl)
  | submit hpc => exact absurd (hpc.symm.trans hreset) (by decide)
  | leave hpc _ count committed _ active =>
    have hrec : th.pc.records = false := by
      revert hpc
      cases th.pc <;> first | exact fun _ => rfl | exact fun h => absurd h id
    by_cases hbuffer : s.sys.pipe.activeBuffer.isSome = true
    · -- a submission, of nothing that the counter still has
      have hzero := opCount_of_leaves hpc hset hbuffer
      have hne : sys.pipe.committed ≠ s.sys.pipe.committed := by
        rw [hcom, committed]
        intro heq
        rw [show s.sys.pipe.committed = (running s.sys.pipe th.pc).committed from rfl,
          commitActive_committed] at heq
        rw [show (running s.sys.pipe th.pc).activeBuffer = s.sys.pipe.activeBuffer from rfl,
          hbuffer] at heq
        cases heq
      refine .inl ?_
      rw [hop, count]
      show s.sys.pipe.opCount.toNat = _
      simp [sinceAfter, hrec, hne, hzero]
    · have hnone : s.sys.pipe.activeBuffer.isSome = false := by simpa using hbuffer
      have hwhere := leaves_without_buffer hr (mem_of_getElem? hran.at_t) rfl hpc hnone
      have hsyCommit : th.pc ≠ .syCommit := by
        obtain h | h := hwhere <;> rw [h] <;> exact nofun
      exact hsame (hop.trans count) (hcom.trans
        (committed.trans ((commitActive_committed _).mpr hnone)))
        hrec (fun h => hact.trans (active hsyCommit h)) fun h => by
          obtain hc | hc := hwhere <;> rw [hc] at h <;> cases h
  | activate _ hquiet count committed active =>
    exact hsame (hop.trans count) (hcom.trans committed) hquiet.1 (fun h => hact.trans (active h))
      fun h => nomatch hquiet.2.2.1.symm.trans h
  | close outer prev hpc count committed active =>
    exact hsame (hop.trans count) (hcom.trans committed) (by rw [hpc]; rfl)
      (fun h => (hact.trans active).trans h) fun h => by
        rw [hpc] at h
        cases h

theorem Decided.run (hd : Decided threshold s.sys) (hpos : 0 < threshold) (hr : Ready s.sys)
    (hran : Ran s.sys t sys th th' p')
    (heffect : CountEffect threshold env (running s.sys.pipe th.pc) p' th.pc th'.pc)
    (hset : SettledAt threshold s.since s.sys.pipe env th.pc)
    (hreset : th.pc.resetsAfter s.sys.pipe env = false) : Decided threshold sys := by
  have hop : sys.pipe.opCount = p'.opCount := by rw [hran.pipe_eq]
  have hact : sys.pipe.hasActive = p'.hasActive := by rw [hran.pipe_eq]
  have hflag : sys.pipe.encoderScopeActive = p'.encoderScopeActive := by rw [hran.pipe_eq]
  have hmem : th' ∈ sys.threads := by
    rw [hran.threads_eq]
    exact List.mem_set (List.getElem?_eq_some_iff.mp hran.at_t).1 th'
  intro hscope hle
  have hzero : sys.pipe.opCount = 0 → ∃ x ∈ sys.threads, x.pc.Pending threshold sys.pipe := by
    intro h
    rw [h] at hle
    exact absurd (UInt64.lt_of_lt_of_le hpos hle) (by simp)
  -- what was pending stays so, unless it is the thread that takes the step
  have hkeeps : sys.pipe.opCount = s.sys.pipe.opCount →
      (s.sys.pipe.hasActive = true → sys.pipe.hasActive = true) →
      s.sys.pipe.encoderScopeActive = false →
      (th.pc.Pending threshold s.sys.pipe → th'.pc.Pending threshold sys.pipe) →
      ∃ x ∈ sys.threads, x.pc.Pending threshold sys.pipe := by
    intro hcount hactive hoff hnew
    have hsome := hd hoff (hcount ▸ hle)
    rw [hran.threads_eq]
    exact exists_mem_set hran.at_t hnew (fun _ h => PC.Pending.congr h hcount hactive) hsome
  cases heffect with
  | control count _ active _ scope pending =>
    have hoff : s.sys.pipe.encoderScopeActive = false := (hflag.trans scope).symm.trans hscope
    refine hkeeps (hop.trans count) (fun h => (hact.trans active).trans h) hoff fun h => ?_
    obtain hnext | hon := pending ((hop.trans count) ▸ hle) h
    · exact PC.Pending.congr hnext (hop.trans count) fun h => (hact.trans active).trans h
    · exact absurd (hoff.symm.trans hon) (by decide)
  | count _ _ pending =>
    refine ⟨th', hmem, PC.Pending.congr (pending (hop ▸ hle)) hop fun h => hact.trans h⟩
  | exchange _ hp | reset _ hp => exact hzero (by rw [hop, hp])
  | submit hpc => exact absurd (hpc.symm.trans hreset) (by decide)
  | leave hpc _ count _ scope active =>
    by_cases hbuffer : s.sys.pipe.activeBuffer.isSome = true
    · exact hzero (by rw [hop, count]; exact opCount_of_leaves hpc hset hbuffer)
    · have hnone : s.sys.pipe.activeBuffer.isSome = false := by simpa using hbuffer
      have hwhere := leaves_without_buffer hr (mem_of_getElem? hran.at_t) rfl hpc hnone
      have hsyCommit : th.pc ≠ .syCommit := by
        obtain h | h := hwhere <;> rw [h] <;> exact nofun
      exact hkeeps (hop.trans count) (fun h => hact.trans (active hsyCommit h))
        ((hflag.trans scope).symm.trans hscope) fun h => by
          obtain hc | hc := hwhere <;> rw [hc] at h <;> exact absurd h id
  | activate _ hquiet count _ active scope =>
    have hoff : s.sys.pipe.encoderScopeActive = false := by
      by_contra hon
      have hset : s.sys.pipe.encoderScopeActive = true := by simpa using hon
      have hon' := scope hset
      exact absurd (hon'.symm.trans (hflag.symm.trans hscope)) (by decide)
    exact hkeeps (hop.trans count) (fun h => hact.trans (active h)) hoff
      fun h => absurd h hquiet.2.2.2
  | close outer prev hpc count _ active _ scope hpc' =>
    -- the flag is off, so the thread goes on to flush
    obtain rfl : outer = false := scope.symm.trans (hflag.symm.trans hscope)
    rw [hpc] at hset
    have hactive := hset rfl ((hop.trans count) ▸ hle)
    refine ⟨th', hmem, ?_⟩
    rw [hpc']
    exact (hact.trans active).trans hactive

/-! ### Whole runs -/

/-- What holds along a run.  Between a submission and its reset the counter says nothing. -/
structure Inv (threshold : UInt64) (s : Counting) : Prop where
  locks : s.Locks
  ready : Ready s.sys
  balanced : s.late = none → Balanced s.since s.sys
  decided : s.late = none → Decided threshold s.sys

theorem Inv.init (bufferCount : ℕ) (hpos : 0 < threshold) (progs : List (List Op)) :
    (Counting.init bufferCount threshold progs).Inv threshold := by
  have hidle : ∀ th ∈ (Counting.init bufferCount threshold progs).sys.threads, th.pc = .idle := by
    intro th hth
    obtain ⟨prog, -, rfl⟩ := mem_map.mp hth
    rfl
  refine ⟨⟨?_, nofun⟩, ⟨nofun, ?_⟩, fun _ => .inl rfl, fun _ _ hle => ?_⟩
  · intro i th hth hholds
    rw [hidle th (mem_of_getElem? hth)] at hholds
    cases hholds
  · intro th hth hinside
    rw [hidle th hth] at hinside
    exact not_inside rfl hinside
  · exact absurd (UInt64.lt_of_lt_of_le hpos hle) (UInt64.lt_irrefl 0)

/-- The GPU completes a buffer, which the counter does not see. -/
theorem Inv.complete {buf : ObjId} (hi : s.Inv threshold) (h : s.step (.complete buf) = some s') :
    s'.Inv threshold := by
  obtain ⟨sys, hsys, rfl⟩ := map_eq_some_iff.mp h
  obtain ⟨-, -, rfl⟩ := MetalNative.step_complete hsys
  exact ⟨⟨hi.locks.holder, hi.locks.late⟩, ⟨hi.ready.buffer, hi.ready.inside⟩, hi.balanced,
    fun hnone hscope hle => by
      obtain ⟨th, hth, hpending⟩ := hi.decided hnone hscope hle
      exact ⟨th, hth, PC.Pending.congr hpending rfl id⟩⟩

/-- The counter after a reset is right if nothing has been counted since the submission. -/
theorem Inv.reset (hi : s.Inv threshold) (hpos : 0 < threshold) (hlate : s.late = some t)
    (hsince : s.since = 0) : s.reset.Inv threshold := by
  refine ⟨hi.locks.reset hlate, ⟨hi.ready.buffer, hi.ready.inside⟩, fun _ => .inl ?_,
    fun _ _ hle => ?_⟩
  · show (0 : UInt64).toNat = s.since
    rw [hsince]
    rfl
  · exact absurd (UInt64.lt_of_lt_of_le hpos hle) (UInt64.lt_irrefl 0)

/-- **The invariant is kept** by every step under the condition. -/
theorem Inv.step {a : Action} (hpos : 0 < threshold) (hi : s.Inv threshold)
    (hset : s.Settled threshold a) (h : s.step a = some s') : s'.Inv threshold := by
  cases a with
  | complete buf => exact hi.complete h
  | run t env =>
    obtain ⟨⟨hlazy, hthreshold⟩, hlateSet, hrunSet⟩ := hset
    obtain ⟨hlate, rfl⟩ | ⟨hlate, th, th', p', sys, hran, hbody, hcase⟩ := step_run h
    · exact hi.reset hpos hlate (hlateSet hlate)
    · have heffect : CountEffect threshold env (running s.sys.pipe th.pc) p' th.pc th'.pc :=
        body_count hlazy hthreshold hbody
      have hat := hrunSet hlate th hran.at_t
      have hready := hi.ready.run hi.locks hran heffect
      obtain ⟨hreset, rfl⟩ | ⟨hreset, rfl⟩ := hcase
      · exact ⟨hi.locks.run hlate hran _, hready,
          fun hnone => (hi.balanced hnone).run hi.ready hran heffect hat hreset,
          fun hnone => (hi.decided hnone).run hpos hi.ready hran heffect hat hreset⟩
      · -- the submission itself; its reset is still to come
        have hinside : th'.pc.holdsMu = false := by
          revert hreset
          cases heffect with
          | submit _ _ _ inside => exact fun _ => inside
          | control _ _ _ _ _ _ _ _ hpc => exact fun h => nomatch hpc.2.symm.trans h
          | activate _ hquiet => exact fun h => nomatch hquiet.2.1.symm.trans h
          | leave _ hno => exact fun h => nomatch hno.symm.trans h
          | count _ _ _ inside => exact fun _ => inside
          | exchange hpc => exact fun h => by rw [hpc] at h; cases h
          | reset hpc => exact fun h => by rw [hpc] at h; cases h
          | close _ _ hpc => exact fun h => by rw [hpc] at h; cases h
        exact ⟨hi.locks.submit hran hreset hinside _ _, ⟨hready.buffer, hready.inside⟩, nofun,
          nofun⟩

/-- **The counter counts.**  In every run whose steps meet the condition, whenever no call is in
    progress and no encoder scope is active, the counter is the number of operations since the last
    submission of the active buffer, and it is below the threshold. -/
theorem op_count_counts (bufferCount : ℕ) (threshold : UInt64) (hpos : 0 < threshold)
    (progs : List (List Op)) {s : Counting}
    (h : Runs Counting.step (Settled threshold) (Counting.init bufferCount threshold progs) s)
    (hquiet : s.Quiet) (hscope : s.sys.pipe.encoderScopeActive = false) : s.Counted threshold := by
  have hi : s.Inv threshold :=
    h.invariant (Inv.init bufferCount hpos progs) fun _ _ _ => Inv.step hpos
  obtain ⟨hnone, hidle⟩ := hquiet
  have hcount : s.sys.pipe.opCount.toNat = s.since := by
    obtain heq | ⟨-, -, th, hth, hflushing⟩ := hi.balanced hnone
    · exact heq
    · rw [hidle th hth] at hflushing
      cases hflushing
  refine ⟨hcount, ?_⟩
  by_contra hge
  have hle : threshold ≤ s.sys.pipe.opCount := UInt64.le_iff_toNat_le.mpr (by omega)
  obtain ⟨th, hth, hpending⟩ := hi.decided hnone hscope hle
  rw [hidle th hth] at hpending
  exact hpending

/-- Two operations that reach the threshold and are flushed, and a third. -/
theorem op_count_counts_flush :
    ∃ s, Runs Counting.step (Settled 2)
        (Counting.init 1 2 [[.currentBuffer, .commitAndContinue, .commitAndContinue,
          .commitAndContinue]]) s ∧
      s.since = 1 ∧ s.Counted 2 := by
  have hsome : (exec step
      (init 1 2 [[.currentBuffer, .commitAndContinue, .commitAndContinue,
        .commitAndContinue]]) (replicate 21 (.run 0 {}))).any
      (fun s => decide (s.since = 1 ∧ s.Quiet ∧ s.sys.pipe.encoderScopeActive = false)) = true := by
    decide
  obtain ⟨s, hs, hfinal⟩ := (any_eq_true _ _).mp hsome
  obtain ⟨hsince, hquiet, hscope⟩ := of_decide_eq_true hfinal
  have hguard : GuardedAlong step (Settled 2)
      (init 1 2 [[.currentBuffer, .commitAndContinue, .commitAndContinue,
        .commitAndContinue]]) (replicate 21 (.run 0 {})) := by decide
  exact ⟨s, runs_exec hs hguard, hsince,
    op_count_counts 1 2 (by decide) _ (runs_exec hs hguard) hquiet hscope⟩

/-- `synchronize` submits the operation and keeps its count; and an operation that is counted while
    another thread is between its submission and its reset loses its count. -/
theorem synchronize_keeps_count :
    (∃ s, Reaches Counting.step (Counting.init 1 64 [[.currentBuffer, .recordOp, .synchronize]]) s ∧
      s.Quiet ∧ s.sys.pipe.encoderScopeActive = false ∧ ¬ s.Counted 64) ∧
    ∃ s, Reaches Counting.step (Counting.init 1 64 [[.currentBuffer, .commit], [.recordOp]]) s ∧
      s.Quiet ∧ s.sys.pipe.encoderScopeActive = false ∧ ¬ s.Counted 64 := by
  have hsync : ∃ s, Reaches step
      (init 1 64 [[.currentBuffer, .recordOp, .synchronize]]) s ∧
        (s.Quiet ∧ s.sys.pipe.encoderScopeActive = false ∧ s.sys.pipe.opCount = 1 ∧ s.since = 0) :=
    exists_reaches
      (replicate 10 (.run 0 {}) ++ .complete 0 :: replicate 2 (.run 0 {})) (by decide)
  have hrace : ∃ s, Reaches step
      (init 1 64 [[.currentBuffer, .commit], [.recordOp]]) s ∧
        (s.Quiet ∧ s.sys.pipe.encoderScopeActive = false ∧ s.sys.pipe.opCount = 0 ∧ s.since = 1) :=
    exists_reaches
      (replicate 5 (.run 0 {}) ++ replicate 5 (.run 1 {}) ++ [.run 0 {}]) (by decide)
  constructor
  · obtain ⟨s, hs, hquiet, hscope, hcount, hsince⟩ := hsync
    refine ⟨s, hs, hquiet, hscope, fun h => ?_⟩
    have heq := h.1
    rw [hcount, hsince] at heq
    exact absurd heq (by decide)
  · obtain ⟨s, hs, hquiet, hscope, hcount, hsince⟩ := hrace
    refine ⟨s, hs, hquiet, hscope, fun h => ?_⟩
    have heq := h.1
    rw [hcount, hsince] at heq
    exact absurd heq (by decide)

end Counting

end MetalNative
