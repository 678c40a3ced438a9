import MetalNative.Dispatch.PipelineInvariant

namespace MetalNative

open LockSem Run List Option

/-!
# Deadlock of the command pipeline

`commit` and `commit_and_continue` take their slot before they lock `mu`; `flush`, `synchronize`
and `current_encoder` wait for a slot inside it, and `synchronize` collects all slots one by one
outside.

* `WaitSafe` — the condition on a step: it does not complete a circular wait for slots.
* `not_circularWait_step` — a step that meets it leaves the threads without a circular wait.
* `never_deadlocks` — in every run of such steps, while a call has not returned, a thread or the
  GPU can step.
* `concurrent_synchronize_deadlocks` — two threads that call `synchronize`, each with half of
  the slots.
-/

/-- While a call has not returned, some call can go on or a committed buffer can complete. -/
def NoDeadlock (s : System) : Prop :=
  (∃ th ∈ s.threads, th.pc ≠ .idle) →
    (∃ t th env, s.threads[t]? = some th ∧ th.pc ≠ .idle ∧ (step s (.run t env)).isSome) ∨
      ∃ buf, (step s (.complete buf)).isSome

/-- The step from `pc` does not complete a circular wait.  The slot that `commit` takes is not the
    last one while the owner of `mu` waits for a slot; `synchronize` takes the last one, with more
    to come, only when a holder of a slot will get `mu`; and no call begins to wait inside `mu`
    when all slots are held by calls that wait. -/
def WaitSafe (s : System) (pc : PC) : Prop :=
  match pc with
  | .cacAcquire | .cmAcquire =>
    waitingSlots profile s.pcs + 1 = s.pipe.bufferCount → ¬ OwnerWaits profile s.pcs
  | .syTake taken =>
    taken + 1 < s.pipe.bufferCount → waitingSlots profile s.pcs + 1 = s.pipe.bufferCount →
      HolderWaits profile s.pcs ∧ ¬ OwnerWaits profile s.pcs
  | pc => s.pipe.WaitsInside pc → waitingSlots profile s.pcs ≠ s.pipe.bufferCount

instance (s : System) (pc : PC) : Decidable (WaitSafe s pc) := by
  apply @PC.casesOn (fun pc => Decidable (WaitSafe s pc)) pc <;> intros <;> unfold WaitSafe <;>
    infer_instance

/-- The condition on a step: what it commits exists, and it completes no circular wait. -/
def Progressing (s : System) : Action → Prop
  | .run t _ => ∀ th ∈ s.threads[t]?,
      (th.pc.commits = true → s.pipe.hasActive = true ∧ s.pipe.activeBuffer ≠ none) ∧
        WaitSafe s th.pc
  | .complete _ => True

instance (s : System) : ∀ a : Action, Decidable (Progressing s a)
  | .run t _ => inferInstanceAs (Decidable (∀ th ∈ s.threads[t]?,
      (th.pc.commits = true → s.pipe.hasActive = true ∧ s.pipe.activeBuffer ≠ none) ∧
        WaitSafe s th.pc))
  | .complete _ => inferInstanceAs (Decidable True)

theorem Progressing.ready {s : System} {a : Action} (h : Progressing s a) : CommitReady s a := by
  cases a with
  | run t env => exact fun th hth => (h th hth).1
  | complete buf => trivial

/-! ### Where a call holds a slot while it waits -/

section Body

variable {env : Env} {p p' : Pipeline} {th th' : Thread}

/-- A step after which a call waits with a slot in hand has just taken that slot. -/
theorem body_waiting (h : body env p th = some (p', th')) (hwait : waiting profile th'.pc ≠ 0) :
    th.pc = .cacAcquire ∧ th'.pc = .cacLocked ∨ th.pc = .cmAcquire ∧ th'.pc = .cmLocked ∨
      ∃ taken, th.pc = .syTake taken ∧ taken + 1 < p.bufferCount ∧
        th'.pc = .syTake (taken + 1) := by
  have hslots : th'.pc.slots ≠ 0 := fun h0 =>
    hwait (Nat.le_zero.mp ((waiting_le (P := profile) th'.pc).trans h0.le))
  obtain ⟨prog, pc, scopes, encoder⟩ := th
  have hstep : BodyStep env p _ pc p' th' := body_step h
  cases hstep with
  | goes hgoes =>
    cases hgoes with
    | cacAcquire => exact .inl ⟨rfl, rfl⟩
    | cmAcquire => exact .inr (.inl ⟨rfl, rfl⟩)
    | syTake hmore => exact .inr (.inr ⟨_, rfl, hmore, rfl⟩)
    | flNone => exact absurd (FlushRet.next_pc _).1 hslots
    | _ => exact absurd rfl hwait
  | call hprog hop => exact absurd (entry_pc hop).1 hslots
  | flCommit => exact absurd (FlushRet.next_pc _).1 hslots
  | edLock =>
    rename_i outer _ _ _
    cases outer <;> exact absurd rfl hwait
  | _ => exact absurd rfl hwait

/-- Metal willing, every call in progress has a next step. -/
theorem body_isSome (p : Pipeline) (hpc : th.pc ≠ .idle) : (body {} p th).isSome := by
  unfold body
  cases h : th.pc with
  | idle => exact absurd h hpc
  | _ =>
    simp only [Pipeline.createBuffer, if_true]
    try split_ifs
    all_goals first | rfl | (split <;> rfl)

end Body

/-! ### The invariant -/

/-- No circular wait has formed. -/
structure WaitInv (s : System) : Prop where
  mutex : MutexInv s
  slot : SlotInv s
  acyclic : ¬ CircularWait profile s.pipe.bufferCount s.pcs

/-- **Step.**  A step that meets the condition completes no circular wait. -/
theorem not_circularWait_step {s s' : System} {a : Action} (hi : WaitInv s)
    (hg : Progressing s a) (h : step s a = some s') :
    ¬ CircularWait profile s'.pipe.bufferCount s'.pcs := by
  cases a with
  | complete buf =>
    obtain ⟨-, -, rfl⟩ := step_complete h
    exact hi.acyclic
  | run t env =>
    obtain ⟨th, th', p', hran, hbody⟩ := step_run h
    obtain ⟨-, hsafe⟩ := hg th hran.at_t
    have hcount : s'.pipe.bufferCount = s.pipe.bufferCount := by
      rw [hran.pipe_eq]
      exact hran.effect.lock_eq.2
    rw [hcount, hran.pcs_eq]
    have hle : waitingSlots profile s.pcs ≤ s.pipe.bufferCount := by
      have hheld := waitingSlots_le_held (P := profile) s.pcs
      have haccount := hi.slot.account
      have hbounded := hi.slot.bounded
      omega
    have hat := hran.pcs_at
    have hself : th'.pc ∈ s.pcs.set t th'.pc :=
      List.mem_set (List.getElem?_eq_some_iff.mp hat).1 _
    by_cases hwait' : waiting profile th'.pc = 0
    · by_cases hwait : waiting profile th.pc = 0
      · by_cases howner : profile.holdsMu th'.pc = true ∧ profile.need th'.pc = .slot
        · -- the call has just locked the mutex to wait inside it
          have hinside : s.pipe.WaitsInside th.pc :=
            (hran.effect.locksFrom howner.1).2 howner.2
          refine not_circularWait_of_enter ?_ hat hwait hwait'
          intro hall
          cases hpc : th.pc <;> rw [hpc] at hinside hsafe <;>
            first | exact hsafe hinside hall | exact hinside
        · exact not_circularWait_of_quiet hi.acyclic hat hwait hwait' howner
      · exact not_circularWait_of_drop hle hat (by omega)
    · rcases body_waiting hbody hwait' with ⟨hpc, hpc'⟩ | ⟨hpc, hpc'⟩ | ⟨taken, hpc, hmore, hpc'⟩
      · rw [hpc] at hsafe
        refine not_circularWait_of_take hat (by rw [hpc, hpc']; rfl) (by rw [hpc']; nofun) ?_
        exact fun hlast => ⟨⟨_, hself, by rw [hpc']; exact ⟨Nat.one_pos, rfl⟩⟩, hsafe hlast⟩
      · rw [hpc] at hsafe
        refine not_circularWait_of_take hat (by rw [hpc, hpc']; rfl) (by rw [hpc']; nofun) ?_
        exact fun hlast => ⟨⟨_, hself, by rw [hpc']; exact ⟨Nat.one_pos, rfl⟩⟩, hsafe hlast⟩
      · rw [hpc] at hsafe
        refine not_circularWait_of_take hat (by rw [hpc, hpc']; rfl) (by rw [hpc']; nofun) ?_
        intro hlast
        obtain ⟨hholder, hnot⟩ := hsafe hmore hlast
        exact ⟨hholder.set hat (by rw [hpc]; nofun), hnot⟩

theorem WaitInv.step {s s' : System} {a : Action} (hi : WaitInv s) (hg : Progressing s a)
    (h : MetalNative.step s a = some s') : WaitInv s' :=
  ⟨hi.mutex.step h, hi.slot.step hg.ready h, not_circularWait_step hi hg h⟩

/-- At the start nobody holds a slot. -/
theorem WaitInv.init {n : ℕ} (hn : 0 < n) (progs : List (List Op)) :
    WaitInv (System.init n progs) where
  mutex := MutexInv.init n progs
  slot := SlotInv.init n progs
  acyclic := by
    rintro ⟨hsum, -⟩
    have hheld := waitingSlots_le_held (P := profile) (System.init n progs).pcs
    have haccount : 0 = 0 + held profile (System.init n progs).pcs :=
      (SlotInv.init n progs).account
    have hn' : (System.init n progs).pipe.bufferCount = n := rfl
    omega

/-! ### Somebody can step -/

/-- A call in progress whose mutex or slot is free can go on. -/
theorem run_isSome {s : System} {t : ℕ} {th : Thread} (hth : s.threads[t]? = some th)
    (hpc : th.pc ≠ .idle)
    (hfree : ¬ Blocked profile (s.pipe.mu = none) (s.pipe.inFlight < s.pipe.bufferCount) th.pc) :
    (step s (.run t {})).isSome := by
  have hgrant : ∃ q, grant s.pipe th.pc.need = some q := by
    unfold grant
    cases hneed : th.pc.need with
    | nothing => exact ⟨_, rfl⟩
    | mutex =>
      have hmu : s.pipe.mu = none := by
        by_contra hmu
        exact hfree (.inl ⟨hneed, hmu⟩)
      exact ⟨_, if_pos hmu⟩
    | slot =>
      have hslot : s.pipe.inFlight < s.pipe.bufferCount := by
        by_contra hslot
        exact hfree (.inr ⟨hneed, hslot⟩)
      exact ⟨_, if_pos hslot⟩
  obtain ⟨q, hq⟩ := hgrant
  obtain ⟨⟨p', th'⟩, hbody⟩ := isSome_iff_exists.mp (body_isSome q hpc)
  simp only [step, bind_eq_bind, hth, bind_some, hq, hbody]
  rfl

theorem WaitInv.noDeadlock {s : System} (hi : WaitInv s) : NoDeadlock s := by
  rintro ⟨th, hth, hpc⟩
  by_cases hpend : s.pipe.pending = []
  · -- every slot in use is held by a call
    left
    have hheld : s.pipe.inFlight = held profile s.pcs := by
      rw [hi.slot.account, hpend, length_nil, Nat.zero_add]
    have howner : ¬ s.pipe.mu = none → ∃ pc ∈ s.pcs, profile.holdsMu pc = true := by
      intro hmu
      obtain ⟨t, ht⟩ := ne_none_iff_exists'.mp hmu
      have hlt := hi.mutex.inside t ht
      have hat : s.threads[t]? = some s.threads[t] := getElem?_eq_getElem hlt
      exact ⟨_, mem_map_of_mem (mem_of_getElem? hat),
        (hi.mutex.owner t _ hat).mpr ht⟩
    obtain ⟨pc, hmem, hactive, hfree⟩ :=
      exists_unblocked (P := profile) (s.pipe.mu = none) (s.pipe.inFlight < s.pipe.bufferCount)
        (fun pc => pc ≠ .idle) ⟨th.pc, mem_map_of_mem hth, hpc⟩
        (fun pc _ hidle => by
          obtain rfl := not_not.mp hidle
          exact ⟨rfl, rfl, rfl⟩)
        hheld (fun hfull => le_antisymm hi.slot.bounded (not_lt.mp hfull)) howner hi.acyclic
    obtain ⟨t, ht⟩ := mem_iff_getElem?.mp hmem
    obtain ⟨th', hth', rfl⟩ : ∃ th', s.threads[t]? = some th' ∧ th'.pc = pc := by
      rw [getElem?_map] at ht
      exact map_eq_some_iff.mp ht
    exact ⟨t, th', {}, hth', hactive, run_isSome hth' hactive hfree⟩
  · right
    obtain ⟨buf, hbuf⟩ := exists_mem_of_ne_nil _ hpend
    have hpos : 0 < s.pipe.inFlight := by
      have hlen := length_pos_of_mem hbuf
      have haccount := hi.slot.account
      omega
    refine ⟨buf, ?_⟩
    simp only [MetalNative.step, if_pos (And.intro hbuf hpos), isSome_some]

/-- **No deadlock.**  In every run whose steps commit existing buffers and complete no circular
    wait, a call that has not returned leaves somebody able to step. -/
theorem never_deadlocks (bufferCount : ℕ) (hpos : 0 < bufferCount) (progs : List (List Op))
    {s : System} (hrun : Runs step Progressing (System.init bufferCount progs) s) :
    NoDeadlock s := by
  have hinv : WaitInv s :=
    hrun.invariant (WaitInv.init hpos progs) fun u a v hu hg hs => hu.step hg hs
  exact hinv.noDeadlock

/-! ### The condition is exact -/

/-- `commit` races `synchronize` for two slots. -/
def raceSchedule : List Action :=
  [.run 0 {}, .run 0 {}, .run 1 {}, .run 1 {}, .run 1 {}, .run 0 {}, .run 0 {}]

theorem never_deadlocks_run :
    ∃ s, exec step (System.init 2 [[.currentBuffer, .commit], [.synchronize]]) raceSchedule
        = some s ∧ NoDeadlock s := by
  have hsome : (exec step (System.init 2 [[.currentBuffer, .commit], [.synchronize]])
      raceSchedule).isSome = true := by decide
  obtain ⟨s, hs⟩ := isSome_iff_exists.mp hsome
  have hguard : GuardedAlong step Progressing
      (System.init 2 [[.currentBuffer, .commit], [.synchronize]]) raceSchedule := by decide
  exact ⟨s, hs, never_deadlocks 2 (by decide) _ (runs_exec hs hguard)⟩

/-- Each of two threads has locked and unlocked the mutex and taken one slot of two. -/
def crossSchedule : List Action :=
  [.run 0 {}, .run 0 {}, .run 1 {}, .run 1 {}, .run 0 {}, .run 1 {}]

/-- Two threads in `synchronize`, each holding one slot and waiting for the other's; nothing has
    been committed. -/
theorem concurrent_synchronize_deadlocks :
    ∃ s, Reaches step (System.init 2 [[.synchronize], [.synchronize]]) s ∧
      s.pcs = [.syTake 1, .syTake 1] ∧ s.pipe.pending = [] ∧ (∀ a, step s a = none) ∧
      ¬ NoDeadlock s := by
  have hsome : (exec step (System.init 2 [[.synchronize], [.synchronize]])
      crossSchedule).isSome = true := by decide
  obtain ⟨s, hs⟩ := isSome_iff_exists.mp hsome
  have hafter : (exec step (System.init 2 [[.synchronize], [.synchronize]]) crossSchedule).map
      (fun s => (s.pcs, s.pipe.pending, s.pipe.inFlight, s.pipe.bufferCount))
        = some ([.syTake 1, .syTake 1], [], 2, 2) := by decide
  rw [hs, map_some, some.injEq, Prod.mk.injEq, Prod.mk.injEq, Prod.mk.injEq] at hafter
  obtain ⟨hpcs, hpend, hin, hcount⟩ := hafter
  have hstuck : ∀ a, step s a = none := by
    intro a
    cases a with
    | run t env =>
      cases hth : s.threads[t]? with
      | none => simp only [step, hth, bind_eq_bind, bind_none]
      | some th =>
        have hpc : th.pc = .syTake 1 := by
          have hmem : th.pc ∈ s.pcs := mem_map_of_mem (mem_of_getElem? hth)
          rw [hpcs] at hmem
          simpa using hmem
        have hgrant : grant s.pipe th.pc.need = none := by
          rw [hpc]
          show (if s.pipe.inFlight < s.pipe.bufferCount then _ else none) = none
          rw [hin, hcount, if_neg (Nat.lt_irrefl 2)]
        simp only [step, hth, bind_eq_bind, bind_some, hgrant, bind_none]
    | complete buf => simp only [step, hpend, not_mem_nil, false_and, if_false]
  refine ⟨s, reaches_exec hs, hpcs, hpend, hstuck, fun h => ?_⟩
  have hbusy : ∃ th ∈ s.threads, th.pc ≠ .idle := by
    have hmem : PC.syTake 1 ∈ s.pcs := by rw [hpcs]; exact mem_cons_self ..
    obtain ⟨th, hth, hpc⟩ := mem_map.mp hmem
    exact ⟨th, hth, by rw [hpc]; exact PC.noConfusion⟩
  rcases h hbusy with ⟨t, th, env, -, -, hstep⟩ | ⟨buf, hstep⟩
  · rw [hstuck] at hstep
    cases hstep
  · rw [hstuck] at hstep
    cases hstep

end MetalNative
