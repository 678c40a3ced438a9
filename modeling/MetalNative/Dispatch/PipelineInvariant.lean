import MetalNative.Dispatch.PipelineEffect

namespace MetalNative

open LockSem Run Option List

/-!
# Invariants of the command pipeline

* `step_run`, `step_complete` — a step of the system, taken apart.
* `MutexInv` — the mutex belongs to the thread that stands where it is held; no step breaks it.
* `guarded_by_mutex` — what the mutex guards changes only under it.
* `SlotInv` — every slot in use is held by a call or by a buffer that the GPU has not completed;
  kept by every step that commits an existing buffer (`CommitReady`).
-/

/-- The points of the calls as threads over a mutex and a semaphore. -/
def profile : Profile PC where
  need := PC.need
  holdsMu := PC.holdsMu
  slots := PC.slots
  owner_need p h := by cases p <;> first | exact Need.noConfusion | cases h

/-- Where the threads stand. -/
def System.pcs (s : System) : List PC := s.threads.map Thread.pc

/-! ### Steps taken apart -/

theorem grant_spec {p q : Pipeline} {need : Need} (h : grant p need = some q) :
    q = { p with inFlight := p.inFlight + if need = .slot then 1 else 0 } ∧
      (need = .mutex → p.mu = none) ∧ (need = .slot → p.inFlight < p.bufferCount) := by
  cases need with
  | nothing =>
    obtain rfl := some.inj h
    exact ⟨rfl, Need.noConfusion, Need.noConfusion⟩
  | mutex =>
    simp only [grant] at h
    split_ifs at h with hmu
    obtain rfl := some.inj h
    exact ⟨rfl, fun _ => hmu, Need.noConfusion⟩
  | slot =>
    simp only [grant] at h
    split_ifs at h with hslot
    obtain rfl := some.inj h
    exact ⟨rfl, Need.noConfusion, fun _ => hslot⟩

/-- The slots in use while the step of a thread at `pc` runs. -/
def running (p : Pipeline) (pc : PC) : Pipeline :=
  { p with inFlight := p.inFlight + if pc.need = .slot then 1 else 0 }

/-- A step of a thread: what it waited for was free, and it has one of the known effects. -/
structure Ran (s : System) (t : ℕ) (s' : System) (th : Thread) (th' : Thread) (p' : Pipeline) :
    Prop where
  at_t : s.threads[t]? = some th
  mutex_free : th.pc.need = .mutex → s.pipe.mu = none
  slot_free : th.pc.need = .slot → s.pipe.inFlight < s.pipe.bufferCount
  effect : Effect (running s.pipe th.pc) p' th.pc th'.pc
  pipe_eq : s'.pipe = { p' with mu := muAfter t th.pc th'.pc s.pipe.mu }
  threads_eq : s'.threads = s.threads.set t th'

variable {s s' : System}

theorem step_run {t : ℕ} {env : Env} (h : step s (.run t env) = some s') :
    ∃ th th' p', Ran s t s' th th' p' ∧ body env (running s.pipe th.pc) th = some (p', th') := by
  simp only [step, bind_eq_bind, bind_eq_some_iff] at h
  obtain ⟨th, hth, p, hgrant, ⟨p', th'⟩, hbody, hs⟩ := h
  obtain ⟨rfl, hmu, hslot⟩ := grant_spec hgrant
  have heffect := body_effect hbody
  obtain rfl := some.inj hs
  refine ⟨th, th', p', ⟨hth, hmu, hslot, heffect, ?_, rfl⟩, hbody⟩
  show { p' with mu := muAfter t th.pc th'.pc p'.mu } = _
  rw [heffect.lock_eq.1]

theorem step_complete {buf : ObjId} (h : step s (.complete buf) = some s') :
    buf ∈ s.pipe.pending ∧ 0 < s.pipe.inFlight ∧
      s' = { s with
        pipe :=
          { s.pipe with
            pending := s.pipe.pending.erase buf
            inFlight := s.pipe.inFlight - 1 } } := by
  simp only [step] at h
  split_ifs at h with hbuf
  exact ⟨hbuf.1, hbuf.2, (some.inj h).symm⟩

/-! ### The threads after a step -/

namespace Ran

variable {s s' : System} {t : ℕ} {th th' : Thread} {p' : Pipeline}

theorem pcs_at (h : Ran s t s' th th' p') : s.pcs[t]? = some th.pc := by
  show (s.threads.map Thread.pc)[t]? = _
  rw [getElem?_map, h.at_t]
  rfl

theorem pcs_eq (h : Ran s t s' th th' p') : s'.pcs = s.pcs.set t th'.pc := by
  show s'.threads.map Thread.pc = _
  rw [h.threads_eq, map_set]
  rfl

/-- A thread after the step is the one that ran or another one, unchanged. -/
theorem thread_cases (h : Ran s t s' th th' p') {u : ℕ} {x : Thread}
    (hx : s'.threads[u]? = some x) : u = t ∧ x = th' ∨ u ≠ t ∧ s.threads[u]? = some x := by
  rw [h.threads_eq] at hx
  by_cases hut : u = t
  · subst hut
    rw [List.getElem?_set_self (List.getElem?_eq_some_iff.mp h.at_t).1] at hx
    exact .inl ⟨rfl, (some.inj hx).symm⟩
  · rw [getElem?_set_ne fun h => hut h.symm] at hx
    exact .inr ⟨hut, hx⟩

theorem thread_self (h : Ran s t s' th th' p') : s'.threads[t]? = some th' := by
  rw [h.threads_eq]
  exact List.getElem?_set_self (List.getElem?_eq_some_iff.mp h.at_t).1

end Ran

/-! ### The mutex -/

/-- The mutex belongs to the thread that stands where it is held. -/
structure MutexInv (s : System) : Prop where
  owner : ∀ t th, s.threads[t]? = some th → (th.pc.holdsMu = true ↔ s.pipe.mu = some t)
  inside : ∀ t, s.pipe.mu = some t → t < s.threads.length

theorem MutexInv.step {a : Action} (hm : MutexInv s)
    (h : MetalNative.step s a = some s') : MutexInv s' := by
  cases a with
  | complete buf =>
    obtain ⟨-, -, rfl⟩ := step_complete h
    exact ⟨hm.owner, hm.inside⟩
  | run t env =>
    obtain ⟨th, th', p', hran, -⟩ := step_run h
    have howner := hm.owner t th hran.at_t
    have hmu : s'.pipe.mu = muAfter t th.pc th'.pc s.pipe.mu := by rw [hran.pipe_eq]
    have hlen : s'.threads.length = s.threads.length := by
      rw [hran.threads_eq, length_set]
    have ht : t < s.threads.length := (List.getElem?_eq_some_iff.mp hran.at_t).1
    -- nobody else held the mutex if `t` holds it now or held it before
    have hothers : th'.pc.holdsMu = true ∨ th.pc.holdsMu = true →
        ∀ u, u ≠ t → s.pipe.mu ≠ some u := by
      intro hheld u hut hu
      have hbefore : th.pc.holdsMu = true ∨ th.pc.need = .mutex :=
        hheld.elim (fun h => (hran.effect.locksFrom h).1) .inl
      rcases hbefore with hth | hneed
      · have := howner.mp hth
        rw [hu, some.injEq] at this
        exact hut this
      · rw [hran.mutex_free hneed] at hu
        cases hu
    refine ⟨fun u x hx => ?_, fun u hu => ?_⟩
    · rw [hmu]
      unfold muAfter
      rcases hran.thread_cases hx with ⟨rfl, rfl⟩ | ⟨hut, hold⟩
      · split_ifs with hnow hthen
        · exact iff_of_true hnow rfl
        · exact iff_of_false hnow (by nofun)
        · exact iff_of_false hnow fun hu => hthen (howner.mpr hu)
      · rw [hm.owner u x hold]
        split_ifs with hnow hthen
        · refine iff_of_false (hothers (.inl hnow) u hut) fun h => hut ?_
          exact (some.inj h).symm
        · exact iff_of_false (hothers (.inr hthen) u hut) (by nofun)
        · rfl
    · rw [hmu] at hu
      rw [hlen]
      unfold muAfter at hu
      split_ifs at hu
      · obtain rfl := some.inj hu
        exact ht
      · exact hm.inside u hu

theorem MutexInv.init (n : ℕ) (progs : List (List Op)) : MutexInv (System.init n progs) where
  owner t th hth := by
    obtain ⟨prog, -, rfl⟩ := mem_map.mp (mem_of_getElem? hth)
    exact iff_of_false Bool.false_ne_true (by simp [System.init])
  inside t ht := by cases ht

/-! ### What the mutex guards -/

/-- The data that `mu` guards: the active buffer and encoder, and what Metal has of them. -/
def Pipeline.guarded (p : Pipeline) :
    Option ObjId × Bool × Option Encoder × ObjId × List ObjId × List Encoder :=
  (p.activeBuffer, p.hasActive, p.activeEncoder, p.nextObject, p.committed, p.openEncoders)

theorem SameMetal.guarded {p q : Pipeline} (h : SameMetal p q) : p.guarded = q.guarded := by
  unfold Pipeline.guarded
  rw [h.activeBuffer, h.hasActive, h.activeEncoder, h.nextObject, h.committed, h.openEncoders]

/-- A step that changes guarded data holds the mutex or locks it. -/
theorem Effect.locked {p p' : Pipeline} {pc pc' : PC} (h : Effect p p' pc pc')
    (hne : p'.guarded ≠ p.guarded) : pc.holdsMu = true ∨ pc.need = .mutex := by
  cases h with
  | quiet same | leak same | underflow _ _ _ _ same => exact absurd same.guarded hne
  | release _ _ _ same => exact absurd same.guarded hne
  | create hpc | rollover _ hpc | close _ _ hpc =>
    subst hpc
    exact .inr rfl
  | commit hpc =>
    -- `commit` and `commit_and_continue` lock in this step, the others have locked before
    cases pc <;> first | exact .inl rfl | exact .inr rfl | cases hpc
  | rolloverFail hpc | rolloverOk hpc | openOld _ _ hpc | openNew _ _ hpc =>
    subst hpc
    exact .inl rfl

/-- **Lock discipline.**  However the threads interleave, guarded data changes only in the step of a
    thread that owns the mutex or has just locked it; all others are outside. -/
theorem guarded_by_mutex (bufferCount : ℕ) (progs : List (List Op))
    (hrun : Run.Reaches step (System.init bufferCount progs) s) {a : Action}
    (h : MetalNative.step s a = some s') (hne : s'.pipe.guarded ≠ s.pipe.guarded) :
    ∃ t env, a = .run t env ∧ (s.pipe.mu = some t ∨ s.pipe.mu = none) ∧
      ∀ u th, s.threads[u]? = some th → th.pc.holdsMu = true → u = t := by
  have hm : MutexInv s := hrun.invariant (.init bufferCount progs) fun _ _ _ hu _ hs => hu.step hs
  cases a with
  | complete buf =>
    -- the GPU only takes a buffer off those that it has still to do
    obtain ⟨-, -, rfl⟩ := step_complete h
    exact absurd rfl hne
  | run t env =>
    obtain ⟨th, th', p', hran, -⟩ := step_run h
    have hmu : s.pipe.mu = some t ∨ s.pipe.mu = none := by
      rw [hran.pipe_eq] at hne
      rcases hran.effect.locked hne with hheld | hneed
      · exact .inl ((hm.owner t th hran.at_t).mp hheld)
      · exact .inr (hran.mutex_free hneed)
    refine ⟨t, env, rfl, hmu, fun u x hx hheld => ?_⟩
    have hu := (hm.owner u x hx).mp hheld
    rcases hmu with hmu | hmu <;> rw [hmu] at hu
    · exact (some.inj hu).symm
    · cases hu

/-- A thread that creates the first buffer locks a mutex nobody holds. -/
theorem guarded_by_mutex_create :
    let s : System := ⟨{ bufferCount := 3 }, [{ pc := .currentBuffer }]⟩
    Run.Reaches step (System.init 3 [[.currentBuffer]]) s ∧
      ∃ t env, Action.run 0 {} = .run t env ∧ (s.pipe.mu = some t ∨ s.pipe.mu = none) ∧
        ∀ u th, s.threads[u]? = some th → th.pc.holdsMu = true → u = t := by
  intro s
  have hs : Run.exec step (System.init 3 [[.currentBuffer]]) [.run 0 {}] = some s := rfl
  have hrun := Run.reaches_exec hs
  exact ⟨hrun, guarded_by_mutex 3 _ hrun rfl (by decide)⟩

/-! ### The slots -/

/-- Every slot in use is held by a call or by a committed buffer. -/
structure SlotInv (s : System) : Prop where
  account : s.pipe.inFlight = s.pipe.pending.length + held profile s.pcs
  bounded : s.pipe.inFlight ≤ s.pipe.bufferCount

/-- The condition on a step: what it commits exists. -/
def CommitReady (s : System) : Action → Prop
  | .run t _ => ∀ th ∈ s.threads[t]?, th.pc.commits = true →
      s.pipe.hasActive = true ∧ s.pipe.activeBuffer ≠ none
  | .complete _ => True

/-- Committing an existing buffer puts it among those the GPU will complete. -/
theorem commitActive_some {p : Pipeline} {buf : ObjId} (h : p.activeBuffer = some buf) :
    p.commitActive.committed = buf :: p.committed ∧
      p.commitActive.pending = p.pending ++ [buf] := by
  unfold Pipeline.commitActive
  rw [h]
  exact ⟨rfl, rfl⟩

section Account

variable {p p' : Pipeline} {pc pc' : PC}

/-- A step leaves the committed buffers alone or commits the active one. -/
theorem Effect.commit_cases (h : Effect p p' pc pc') :
    p'.committed = p.committed ∧ p'.pending = p.pending ∨
      pc.commits = true ∧ p'.committed = p.commitActive.committed ∧
        p'.pending = p.commitActive.pending := by
  cases h with
  | quiet same | leak same | release more hpc hpos same | underflow more hpc hpc' hzero same
  | create hpc hactive hpc' same | rollover e hpc henc hlong hpc' same
  | openNew a b hpc hpc' hactive henc same =>
    exact .inl ⟨same.committed, same.pending⟩
  | commit hpc hce hactive active has next hnext same =>
    exact .inr ⟨hpc, same.committed, same.pending⟩
  | rolloverFail hpc hpc' same | rolloverOk hpc hpc' same =>
    exact .inr ⟨by rw [hpc]; rfl, same.committed, same.pending⟩
  | openOld a b hpc hpc' hactive henc env same =>
    obtain ⟨-, -, -, hpend, hcomm, -⟩ := openEncoder_fixed env p
    exact .inl ⟨same.committed.trans hcomm, same.pending.trans hpend⟩
  | close a b hpc hpc' env q hq same =>
    obtain ⟨-, -, -, hpend, hcomm, -⟩ := openEncoder_fixed env q
    split_ifs at same
    · exact .inl ⟨same.committed.trans (hcomm.trans hq.committed),
        same.pending.trans (hpend.trans hq.pending)⟩
    · exact .inl ⟨same.committed.trans hq.committed, same.pending.trans hq.pending⟩

/-- The slots in use, the buffers in flight and the slots held change in step. -/
theorem Effect.account (h : Effect p p' pc pc')
    (hready : pc.commits = true → p.hasActive = true ∧ p.activeBuffer ≠ none)
    (hheld : pc.running ≤ p.inFlight) :
    p'.inFlight + p.pending.length + pc.running = p.inFlight + p'.pending.length + pc'.slots := by
  obtain ⟨-, -, -, hcin, -⟩ := commitActive_fixed p
  -- a commit turns the slot in hand into a buffer in flight
  have hcommit : pc.commits = true → p.commitActive.inFlight = p.inFlight ∧
      p.commitActive.pending.length = p.pending.length + 1 ∧ pc.running = 1 := by
    intro hpc
    obtain ⟨buf, hbuf⟩ := ne_none_iff_exists'.mp (hready hpc).2
    rw [(commitActive_some hbuf).2, length_append]
    refine ⟨hcin, rfl, ?_⟩
    cases pc <;> first | rfl | cases hpc
  cases h with
  | quiet same slots =>
    rw [same.inFlight, same.pending, slots]
  | leak same hpc hactive hpc' =>
    have hcommits : pc.commits = true := by rcases hpc with rfl | rfl <;> rfl
    rw [(hready hcommits).1] at hactive
    cases hactive
  | release more hpc hpos same slots hpc' =>
    subst hpc
    rw [same.inFlight, same.pending, slots]
    show p.inFlight - 1 + p.pending.length + (more + 1) = p.inFlight + p.pending.length + more
    omega
  | underflow more hpc hpc' hzero same =>
    subst hpc
    rw [hzero] at hheld
    cases hheld
  | create hpc hactive hpc' same | rollover e hpc henc hlong hpc' same
  | openNew a b hpc hpc' hactive henc same =>
    subst hpc hpc'
    rw [same.inFlight, same.pending]
    rfl
  | commit hpc hce hactive active has next hnext same slots hpc' =>
    obtain ⟨h1, h2, h3⟩ := hcommit hpc
    rw [same.inFlight, same.pending, slots, h3]
    show p.commitActive.inFlight + _ + 1 = _ + p.commitActive.pending.length + 0
    omega
  | rolloverFail hpc hpc' same =>
    obtain ⟨h1, h2, h3⟩ := hcommit (by rw [hpc]; rfl)
    subst hpc'
    rw [same.inFlight, same.pending, h1, h2, h3]
    show _ = _ + 0
    omega
  | rolloverOk hpc hpc' same =>
    obtain ⟨h1, h2, h3⟩ := hcommit (by rw [hpc]; rfl)
    subst hpc'
    rw [same.inFlight, same.pending, h3]
    show p.commitActive.inFlight + _ + 1 = _ + p.commitActive.pending.length + 0
    omega
  | openOld a b hpc hpc' hactive henc env same =>
    obtain ⟨-, -, hin, hpend, -⟩ := openEncoder_fixed env p
    subst hpc hpc'
    rw [same.inFlight, same.pending, hin, hpend]
    rfl
  | close a b hpc hpc' env q hq same =>
    obtain ⟨-, -, hin, hpend, -⟩ := openEncoder_fixed env q
    subst hpc
    have hsame : p'.inFlight = p.inFlight ∧ p'.pending = p.pending := by
      split_ifs at same
      · exact ⟨same.inFlight.trans (hin.trans hq.inFlight),
          same.pending.trans (hpend.trans hq.pending)⟩
      · exact ⟨same.inFlight.trans hq.inFlight, same.pending.trans hq.pending⟩
    rw [hsame.1, hsame.2, hpc'.1]
    rfl

/-- Only waiting takes slots. -/
theorem Effect.inFlight_le (h : Effect p p' pc pc') : p'.inFlight ≤ p.inFlight := by
  obtain ⟨-, -, -, hcin, -⟩ := commitActive_fixed p
  cases h with
  | release more hpc hpos same =>
    rw [same.inFlight]
    exact Nat.sub_le _ _
  | commit hpc hce hactive active has next hnext same =>
    exact (same.inFlight.trans hcin).le
  | rolloverFail hpc hpc' same | rolloverOk hpc hpc' same => exact (same.inFlight.trans hcin).le
  | openOld a b hpc hpc' hactive henc env same =>
    exact (same.inFlight.trans (openEncoder_fixed env p).2.2.1).le
  | close a b hpc hpc' env q hq same =>
    split_ifs at same
    · exact (same.inFlight.trans ((openEncoder_fixed env q).2.2.1.trans hq.inFlight)).le
    · exact (same.inFlight.trans hq.inFlight).le
  | quiet same | leak same | underflow _ _ _ _ same | create _ _ _ same | rollover _ _ _ _ _ same
  | openNew _ _ _ _ _ _ same =>
    exact same.inFlight.le

end Account

/-- **Step.**  A step that commits what exists keeps the account of the slots. -/
theorem SlotInv.step {a : Action} (hs : SlotInv s) (hg : CommitReady s a)
    (h : MetalNative.step s a = some s') : SlotInv s' := by
  cases a with
  | complete buf =>
    obtain ⟨hbuf, hpos, rfl⟩ := step_complete h
    have hlen : (s.pipe.pending.erase buf).length = s.pipe.pending.length - 1 :=
      length_erase_of_mem hbuf
    have hne : 0 < s.pipe.pending.length := length_pos_of_mem hbuf
    have haccount := hs.account
    have hbounded := hs.bounded
    refine ⟨?_, ?_⟩
    · show s.pipe.inFlight - 1 = (s.pipe.pending.erase buf).length + held profile s.pcs
      omega
    · show s.pipe.inFlight - 1 ≤ s.pipe.bufferCount
      omega
  | run t env =>
    obtain ⟨th, th', p', hran, -⟩ := step_run h
    have hready := hg th hran.at_t
    have hsum := sum_map_set profile.slots th'.pc hran.pcs_at
    rw [← hran.pcs_eq] at hsum
    -- the thread's own slots are among those in use
    have hown : th.pc.slots ≤ held profile s.pcs :=
      slots_le_held (P := profile) (mem_of_getElem? hran.pcs_at)
    have haccount := hs.account
    have hrunning : th.pc.running ≤ (running s.pipe th.pc).inFlight := by
      show th.pc.slots + _ ≤ s.pipe.inFlight + _
      omega
    have heff := hran.effect.account hready hrunning
    have hle := hran.effect.inFlight_le
    have hpending : (running s.pipe th.pc).pending = s.pipe.pending := rfl
    have hin : s'.pipe.inFlight = p'.inFlight := by rw [hran.pipe_eq]
    have hpend : s'.pipe.pending = p'.pending := by rw [hran.pipe_eq]
    refine ⟨?_, ?_⟩
    · rw [hin, hpend]
      rw [hpending] at heff
      unfold PC.running at heff
      simp only [running] at heff
      unfold held at haccount ⊢
      have hslots : profile.slots = PC.slots := rfl
      rw [hslots] at hsum haccount ⊢
      omega
    · have hcount : s'.pipe.bufferCount = s.pipe.bufferCount := by
        rw [hran.pipe_eq]
        exact hran.effect.lock_eq.2
      rw [hin, hcount]
      refine hle.trans ?_
      show s.pipe.inFlight + (if th.pc.need = .slot then 1 else 0) ≤ s.pipe.bufferCount
      split_ifs with hneed
      · exact hran.slot_free hneed
      · exact hs.bounded

theorem SlotInv.init (n : ℕ) (progs : List (List Op)) : SlotInv (System.init n progs) where
  account := by
    show 0 = 0 + held profile (System.init n progs).pcs
    have hidle : ∀ pc ∈ (System.init n progs).pcs, pc = .idle := by
      intro pc hpc
      obtain ⟨th, hth, rfl⟩ := mem_map.mp hpc
      obtain ⟨prog, -, rfl⟩ := mem_map.mp hth
      rfl
    unfold held
    rw [Nat.zero_add, eq_comm, sum_eq_zero]
    intro k hk
    obtain ⟨pc, hpc, rfl⟩ := mem_map.mp hk
    rw [hidle pc hpc]
    rfl
  bounded := Nat.zero_le _

end MetalNative
