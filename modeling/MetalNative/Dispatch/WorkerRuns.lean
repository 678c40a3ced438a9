import MetalNative.Dispatch.WorkerMoves

namespace MetalNative

open Run

/-!
# What holds over the runs of a `WorkerThread`

Each property of all calls holds as long as the steps avoid the one branch that breaks it.

* `drain_barrier` — when a `drain` that returns has waited for the tasks before it.
* `no_lost_wakeup` — when no `drain` stays blocked beside an idle worker.
* `stop_executes_accepted` — when a `stop` that returns leaves no accepted task behind.
-/

namespace WorkerThread

variable {τ : Type*} {s s' : WorkerThread τ} {a : WorkerAction τ} {i : ℕ}

/-! ### `drain` -/

/-- The tasks that a `drain` at this point has waited for. -/
def waitedFor : ClientPC τ → List ℕ
  | .clear due | .drained due => due
  | _ => []

/-- The guard of `drain_barrier`: when a `drain` finds the queue empty, the task that the worker has
popped and not finished, if there is one, is none that the `drain` has to wait for. -/
def noDueTaskInHand (s : WorkerThread τ) : WorkerAction τ → Bool
  | .client i =>
    match s.clients[i]? with
    | some (.evaluate due) => !s.queue.isEmpty || s.worker.hand.isEmpty || s.executed.length ∉ due
    | _ => true
  | _ => true

/-- What a `drain` that leaves its wait has waited for is finished. -/
structure Awaited (s : WorkerThread τ) : Prop extends Ordered s where
  finished : ∀ pc ∈ s.clients, ∀ pos ∈ waitedFor pc, pos < s.executed.length

/-- A `drain` that finds the queue empty, and no task of its own in the worker's hands. -/
theorem Ordered.lt_executed (h : Ordered s) {due : List ℕ}
    (hdue : ∀ pos ∈ due, pos < s.enqueued.length)
    (hqueue : s.queue = []) (hhand : s.worker.hand = [] ∨ s.executed.length ∉ due) :
    ∀ pos ∈ due, pos < s.executed.length := by
  intro pos hpos
  have hlt := hdue pos hpos
  rw [h.history, hqueue, List.append_nil, List.length_append] at hlt
  rcases hhand with hnone | hother
  · rw [hnone] at hlt
    exact hlt
  · -- at most one task is in the worker's hands, the next one to be finished
    have hone : s.worker.hand.length ≤ 1 := by
      cases s.worker <;> simp [WorkerPC.hand]
    have hne : pos ≠ s.executed.length := fun heq => hother (heq ▸ hpos)
    omega

theorem Awaited.step (h : Awaited s) (hguard : noDueTaskInHand s a = true)
    (hs : step s a = some s') : Awaited s' := by
  refine ⟨h.toOrdered.step hs, ?_⟩
  have hold : ∀ pc ∈ s.clients, ∀ pos ∈ waitedFor pc, pos < s'.executed.length :=
    fun pc hpc pos hpos => Nat.lt_of_lt_of_le (h.finished pc hpc pos hpos) (executed_le hs)
  rcases step_cases hs with ⟨i, c, pc, rfl, -, -, rfl⟩ | ⟨i, pc, rfl, hpc, hmove⟩ | ⟨rfl, hmove⟩ |
    ⟨i, due, rfl, -, rfl⟩ | ⟨rfl, -, rfl⟩
  · apply forall_goto hold
    cases c <;> simp [enter, waitedFor]
  · have hmem := List.mem_of_getElem? hpc
    cases hmove with
    | leave due hempty =>
      have hdue : ∀ pos ∈ due, pos < s.enqueued.length := h.tasks _ hmem
      apply forall_goto hold
      apply h.lt_executed hdue hempty
      simpa [noDueTaskInHand, hpc, hempty] using hguard
    | clear due =>
      have hdue : ∀ pos ∈ due, pos < s.executed.length := h.finished _ hmem
      exact forall_goto hold hdue
    | abort => exact hold
    | raise | accept | push | notifyWork | drain | wait | alreadyRunning | start | reset | spawn
    | storeRunning | notRunning | stop | request | notifyStop | notJoinable | join | joined
    | storeStopped =>
      apply forall_goto hold
      simp [waitedFor]
  · generalize s.worker = pc at hmove
    cases hmove with
    | notifyAll =>
      apply forall_woken hold
      intro q hq
      cases q <;> exact hq
    | exit | block | pop | execute | toNotify | skip | notEmpty => exact hold
  · apply forall_goto hold
    simp [waitedFor]
  · exact hold

theorem awaited_init (n : ℕ) : Awaited (init n : WorkerThread τ) where
  toOrdered := ordered_init n
  finished := by
    intro pc hpc
    rw [List.eq_of_mem_replicate hpc]
    simp [waitedFor]

/-- **`drain` as a barrier.**  As long as no `drain` finds the queue empty while a task that it has
to wait for is being executed: when `drain` returns, the tasks whose `submit` had returned before
the call are finished, these being the first ones of the queue's order. -/
theorem drain_barrier {n : ℕ} (h : Runs step (fun s a => noDueTaskInHand s a = true) (init n) s) :
    s.executed <+: s.enqueued ∧
      ∀ due, .drained due ∈ s.clients → ∀ pos ∈ due, pos < s.executed.length := by
  have hinv : Awaited s :=
    h.invariant (awaited_init n) fun _ _ _ hu hguard hstep => hu.step hguard hstep
  exact ⟨(List.prefix_append _ _).trans hinv.inOrder, fun due hdue => hinv.finished _ hdue⟩

/-- Client `i` starts the worker. -/
def starts (i : ℕ) : List (WorkerAction Unit) :=
  .call i .start :: List.replicate 4 (.client i)

/-- Client `i` submits a task. -/
def submits (i : ℕ) : List (WorkerAction Unit) :=
  .call i (.submit (some ())) :: List.replicate 3 (.client i)

/-- Client `i` calls `drain`, which takes `k` steps. -/
def drains (i k : ℕ) : List (WorkerAction Unit) := .call i .drain :: List.replicate k (.client i)

/-- Two tasks, and a `drain` that begins between them and returns after the second. -/
theorem drain_barrier_two_tasks :
    ∃ s : WorkerThread Unit, .drained [0] ∈ s.clients ∧ s.enqueued.length = 2
      ∧ ∀ due, .drained due ∈ s.clients → ∀ pos ∈ due, pos < s.executed.length := by
  have hsome : (exec step (init 2)
      (starts 0 ++ submits 0 ++ drains 1 2 ++ submits 0 ++ List.replicate 8 .worker
        ++ List.replicate 2 (.client 1))).any (fun s : WorkerThread Unit =>
          decide (.drained [0] ∈ s.clients ∧ s.enqueued.length = 2)) = true := by
    decide
  obtain ⟨s, hs, hP⟩ := (Option.any_eq_true _ _).mp hsome
  have hguard : GuardedAlong step (fun (s : WorkerThread Unit) a => noDueTaskInHand s a = true)
      (init 2)
      (starts 0 ++ submits 0 ++ drains 1 2 ++ submits 0 ++ List.replicate 8 .worker
        ++ List.replicate 2 (.client 1)) := by
    decide
  exact ⟨s, (of_decide_eq_true hP).1, (of_decide_eq_true hP).2,
    (drain_barrier (runs_exec hs hguard)).2⟩

/-- A `drain` that returns while the only task is being executed. -/
theorem drain_returns_early :
    ∃ s : WorkerThread Unit, Reaches step (init 2) s ∧ .drained [0] ∈ s.clients ∧ s.executed = [] :=
  exists_reaches (starts 0 ++ submits 0 ++ [.worker] ++ drains 1 3) (by decide)

/-! ### Wake-ups -/

/-- Nobody is left who would wake the blocked `drain`. -/
def Stuck (s : WorkerThread τ) : Prop :=
  s.queue.isEmpty ∧ s.worker.isBlocked ∧ (∀ pc ∈ s.clients, ¬ pc.notifying)
    ∧ ∃ pc ∈ s.clients, pc.isBlocked

instance (s : WorkerThread τ) : Decidable (Stuck s) := inferInstanceAs (Decidable (_ ∧ _ ∧ _ ∧ _))

/-- The guard of `no_lost_wakeup`: a `drain` that is about to block finds `drain_waiters` set, and
one that resets it leaves nobody blocked. -/
def keepsFlag (s : WorkerThread τ) : WorkerAction τ → Bool
  | .client i =>
    match s.clients[i]? with
    | some (.evaluate _) => s.queue.isEmpty || s.drain_waiters
    | some (.clear _) => !s.clients.any ClientPC.isBlocked
    | _ => true
  | _ => true

/-- While a `drain` is blocked, the flag is set, and there are tasks or the worker is about to look
at the flag. -/
def Wakes (s : WorkerThread τ) : Prop :=
  ∀ pc ∈ s.clients, pc.isBlocked → s.drain_waiters = true ∧ (s.queue = [] → s.worker.busy = true)

@[simp] theorem busy_notified (pc : WorkerPC τ) : pc.notified.busy = pc.busy := by
  cases pc <;> rfl

theorem Wakes.clientMove (h : Wakes s) {pc : ClientPC τ} (hpc : s.clients[i]? = some pc)
    (hguard : keepsFlag s (.client i) = true) (hmove : ClientMove s i pc s') : Wakes s' := by
  cases hmove with
  | wait due hqueue =>
    have hflag : s.drain_waiters = true := by
      simpa [keepsFlag, hpc, hqueue] using hguard
    exact forall_goto h fun _ => ⟨hflag, fun hempty => absurd hempty hqueue⟩
  | clear due =>
    have hnone : ∀ q ∈ s.clients, ¬ q.isBlocked = true := by
      simpa [keepsFlag, hpc] using hguard
    apply forall_goto
    · exact fun q hq hblocked => absurd hblocked (hnone q hq)
    · exact fun hblocked => nomatch hblocked
  | drain due =>
    apply forall_goto
    · exact fun q hq hblocked => ⟨rfl, (h q hq hblocked).2⟩
    · exact fun hblocked => nomatch hblocked
  | push work =>
    apply forall_goto
    · intro q hq hblocked
      refine ⟨(h q hq hblocked).1, fun hempty => ?_⟩
      exact absurd hempty (List.append_ne_nil_of_right_ne_nil _ (List.cons_ne_nil _ _))
    · exact fun hblocked => nomatch hblocked
  | abort => exact h
  | notifyWork | notifyStop =>
    apply forall_goto
    · intro q hq hblocked
      refine ⟨(h q hq hblocked).1, fun hempty => ?_⟩
      exact (busy_notified s.worker).trans ((h q hq hblocked).2 hempty)
    · exact fun hblocked => nomatch hblocked
  | spawn hnone | joined hnone =>
    -- the worker is not busy, so with nothing in the queue nobody is blocked
    have hbusy : s.worker.busy = false := by rw [hnone]; rfl
    apply forall_goto
    · refine fun q hq hblocked => ⟨(h q hq hblocked).1, fun hempty => ?_⟩
      have htrue := (h q hq hblocked).2 hempty
      rw [hbusy] at htrue
      cases htrue
    · exact fun hblocked => nomatch hblocked
  | raise | accept | leave | alreadyRunning | start | reset | storeRunning | notRunning | stop
  | request | notJoinable | join | storeStopped =>
    apply forall_goto
    · exact h
    · exact fun hblocked => nomatch hblocked

theorem Wakes.workerMove (h : Wakes s) (hmove : WorkerMove s s.worker s') : Wakes s' := by
  generalize hw : s.worker = pc at hmove
  cases hmove with
  | exit hempty | block hempty =>
    intro q hq hblocked
    have htrue := (h q hq hblocked).2 hempty
    rw [hw] at htrue
    cases htrue
  | pop | execute | toNotify => exact fun q hq hblocked => ⟨(h q hq hblocked).1, fun _ => rfl⟩
  | skip hflag =>
    intro q hq hblocked
    have htrue := (h q hq hblocked).1
    rw [hflag] at htrue
    cases htrue
  | notifyAll =>
    intro q hq hblocked
    obtain ⟨pc, -, rfl⟩ := List.mem_map.mp hq
    cases pc <;> cases hblocked
  | notEmpty hqueue =>
    exact fun q hq hblocked => ⟨(h q hq hblocked).1, fun hempty => absurd hempty hqueue⟩

theorem Wakes.step (h : Wakes s) (hguard : keepsFlag s a = true) (hs : step s a = some s') :
    Wakes s' := by
  rcases step_cases hs with ⟨i, c, pc, rfl, -, -, rfl⟩ | ⟨i, pc, rfl, hpc, hmove⟩ | ⟨rfl, hmove⟩ |
    ⟨i, due, rfl, -, rfl⟩ | ⟨rfl, hw, rfl⟩
  · apply forall_goto h
    cases c <;> exact fun hblocked => nomatch hblocked
  · exact h.clientMove hpc hguard hmove
  · exact h.workerMove hmove
  · exact forall_goto h fun hblocked => nomatch hblocked
  · intro q hq hblocked
    refine ⟨(h q hq hblocked).1, fun hempty => ?_⟩
    have htrue := (h q hq hblocked).2 hempty
    rw [hw] at htrue
    cases htrue

theorem wakes_init (n : ℕ) : Wakes (init n : WorkerThread τ) := by
  intro pc hpc hblocked
  rw [List.eq_of_mem_replicate hpc] at hblocked
  cases hblocked

/-- **No lost wake-up.**  As long as no `drain` blocks with the flag reset, and none resets it while
another one is blocked, no `drain` stays blocked beside a worker that waits for work. -/
theorem no_lost_wakeup {n : ℕ} (h : Runs step (fun s a => keepsFlag s a = true) (init n) s) :
    ¬ Stuck s := by
  have hinv : Wakes s := h.invariant (wakes_init n) fun _ _ _ hu hguard hstep =>
      hu.step hguard hstep
  rintro ⟨hempty, hblocked, -, pc, hpc, hwaits⟩
  have hbusy := (hinv pc hpc hwaits).2 (List.isEmpty_iff.mp hempty)
  cases hw : s.worker with
  | blocked =>
    rw [hw] at hbusy
    cases hbusy
  | none | check | execute _ | load | notify | exited =>
    rw [hw] at hblocked
    cases hblocked

/-- A task, and a `drain` that is blocked while it is executed. -/
theorem no_lost_wakeup_blocked :
    ∃ s : WorkerThread Unit, .blocked [0] ∈ s.clients ∧ s.worker = .load ∧ ¬ Stuck s := by
  have hsome : (exec step (init 2)
      (starts 0 ++ submits 0 ++ drains 1 2 ++ List.replicate 2 .worker)).any
        (fun s : WorkerThread Unit => decide (.blocked [0] ∈ s.clients ∧ s.worker = .load))
          = true := by
    decide
  obtain ⟨s, hs, hP⟩ := (Option.any_eq_true _ _).mp hsome
  have hguard : GuardedAlong step (fun (s : WorkerThread Unit) a => keepsFlag s a = true) (init 2)
      (starts 0 ++ submits 0 ++ drains 1 2 ++ List.replicate 2 .worker) := by
    decide
  exact ⟨s, (of_decide_eq_true hP).1, (of_decide_eq_true hP).2,
    no_lost_wakeup (runs_exec hs hguard)⟩

/-- Two `drain`s are woken; the first one to leave resets the flag, the second one finds a new task
and blocks again, and the worker does not notify it. -/
theorem second_drain_stuck : ∃ s : WorkerThread Unit, Reaches step (init 3) s ∧ Stuck s :=
  exists_reaches
    (starts 0 ++ submits 0 ++ drains 1 2 ++ drains 2 2 ++ List.replicate 5 .worker
      ++ List.replicate 2 (.client 1) ++ submits 0 ++ [.client 2] ++ List.replicate 4 .worker)
    (by decide)

/-! ### `stop` -/

/-- The tasks that had been accepted when a `stop` returned. -/
def acceptedBy : ClientPC τ → List ℕ
  | .stopped accepted => accepted
  | _ => []

/-- The guard of `stop_executes_accepted`: a task is put into the queue only while the worker is in
its loop, and a `stop` returns only while it is not. -/
def workerListens (s : WorkerThread τ) : WorkerAction τ → Bool
  | .client i =>
    match s.clients[i]? with
    | some (.push _) => s.worker.active
    | some .stop => s.running || !s.worker.active
    | some .storeStopped => !s.worker.active
    | _ => true
  | _ => true

/-- Outside its loop the worker has left no task, and what a `stop` found accepted is finished. -/
structure Emptied (s : WorkerThread τ) : Prop extends Ordered s where
  left : s.worker.active = false → s.queue = []
  finished : ∀ pc ∈ s.clients, ∀ pos ∈ acceptedBy pc, pos < s.executed.length

/-- Outside its loop the worker has executed everything. -/
theorem Emptied.executed_eq (h : Emptied s) (hout : s.worker.active = false) :
    s.executed = s.enqueued :=
  h.toOrdered.executed_eq (h.left hout) (hand_of_not_active hout)

theorem Emptied.left_step (h : Emptied s) (hguard : workerListens s a = true)
    (hs : step s a = some s') : s'.worker.active = false → s'.queue = [] := by
  rcases step_cases hs with ⟨i, c, pc, rfl, -, -, rfl⟩ | ⟨i, pc, rfl, hpc, hmove⟩ | ⟨rfl, hmove⟩ |
    ⟨i, due, rfl, -, rfl⟩ | ⟨rfl, -, rfl⟩
  · exact h.left
  · cases hmove with
    | push work =>
      intro hout
      have hactive : s.worker.active = true := by simpa [workerListens, hpc] using hguard
      exact absurd (hactive.symm.trans hout) (by decide)
    | spawn => exact fun hout => nomatch hout
    | joined hexited =>
      intro _
      apply h.left
      rw [hexited]
      rfl
    | notifyWork | notifyStop =>
      intro hout
      exact h.left ((active_notified _).symm.trans hout)
    | raise | accept | drain | leave | wait | clear | alreadyRunning | start | reset | abort
    | storeRunning | notRunning | stop | request | notJoinable | join | storeStopped => exact h.left
  · generalize s.worker = pc at hmove
    cases hmove with
    | exit | block => exact fun _ => rfl
    | pop | execute | toNotify | skip | notifyAll | notEmpty => exact fun hout => nomatch hout
  · exact h.left
  · exact fun hout => nomatch hout

theorem Emptied.step (h : Emptied s) (hguard : workerListens s a = true)
    (hs : step s a = some s') : Emptied s' := by
  refine ⟨h.toOrdered.step hs, h.left_step hguard hs, ?_⟩
  have hold : ∀ pc ∈ s.clients, ∀ pos ∈ acceptedBy pc, pos < s'.executed.length :=
    fun pc hpc pos hpos => Nat.lt_of_lt_of_le (h.finished pc hpc pos hpos) (executed_le hs)
  -- a `stop` that returns finds the worker outside its loop
  have hreturn : s.worker.active = false → ∀ pos ∈ s.returned, pos < s.executed.length := by
    intro hout pos hpos
    rw [h.executed_eq hout]
    exact h.returned pos hpos
  rcases step_cases hs with ⟨i, c, pc, rfl, -, -, rfl⟩ | ⟨i, pc, rfl, hpc, hmove⟩ | ⟨rfl, hmove⟩ |
    ⟨i, due, rfl, -, rfl⟩ | ⟨rfl, -, rfl⟩
  · apply forall_goto hold
    cases c <;> simp [enter, acceptedBy]
  · cases hmove with
    | notRunning hstopped =>
      apply forall_goto hold
      apply hreturn
      simpa [workerListens, hpc, hstopped] using hguard
    | storeStopped =>
      apply forall_goto hold
      apply hreturn
      simpa [workerListens, hpc] using hguard
    | abort => exact hold
    | raise | accept | push | notifyWork | drain | leave | wait | clear | alreadyRunning | start
    | reset | spawn | storeRunning | stop | request | notifyStop | notJoinable | join | joined =>
      apply forall_goto hold
      simp [acceptedBy]
  · generalize s.worker = pc at hmove
    cases hmove with
    | notifyAll =>
      apply forall_woken hold
      intro q hq
      cases q <;> exact hq
    | exit | block | pop | execute | toNotify | skip | notEmpty => exact hold
  · apply forall_goto hold
    simp [acceptedBy]
  · exact hold

theorem emptied_init (n : ℕ) : Emptied (init n : WorkerThread τ) where
  toOrdered := ordered_init n
  left := fun _ => rfl
  finished := by
    intro pc hpc
    rw [List.eq_of_mem_replicate hpc]
    simp [acceptedBy]

/-- **Accepted tasks.**  As long as tasks are put into the queue only while the worker is in its
loop, and no `stop` returns while it is: the tasks are executed in the order of the queue, each
once; when a `stop` has returned, the tasks accepted by then are finished; and outside its loop the
worker has executed everything. -/
theorem stop_executes_accepted {n : ℕ}
    (h : Runs step (fun s a => workerListens s a = true) (init n) s) :
    s.executed ++ s.worker.hand <+: s.enqueued ∧
      (∀ accepted, .stopped accepted ∈ s.clients → ∀ pos ∈ accepted, pos < s.executed.length) ∧
      (s.worker.active = false → s.executed = s.enqueued) := by
  have hinv : Emptied s :=
    h.invariant (emptied_init n) fun _ _ _ hu hguard hstep => hu.step hguard hstep
  exact ⟨hinv.inOrder, fun accepted hmem => hinv.finished _ hmem, hinv.executed_eq⟩

/-- Client `i` stops the worker, which has its last `k` steps before it is joined. -/
def stops (i k : ℕ) : List (WorkerAction Unit) :=
  .call i .stop :: List.replicate 4 (.client i) ++ List.replicate k .worker
    ++ List.replicate 2 (.client i)

/-- A `stop` with two tasks in the queue. -/
theorem stop_executes_two :
    ∃ s : WorkerThread Unit, .stopped [1, 0] ∈ s.clients ∧
      ∀ accepted, .stopped accepted ∈ s.clients → ∀ pos ∈ accepted, pos < s.executed.length := by
  have hsome : (exec step (init 2) (starts 0 ++ submits 0 ++ submits 1 ++ stops 0 7)).any
      (fun s : WorkerThread Unit => decide (.stopped [1, 0] ∈ s.clients)) = true := by
    decide
  obtain ⟨s, hs, hP⟩ := (Option.any_eq_true _ _).mp hsome
  have hguard : GuardedAlong step (fun (s : WorkerThread Unit) a => workerListens s a = true)
      (init 2)
      (starts 0 ++ submits 0 ++ submits 1 ++ stops 0 7) := by
    decide
  exact ⟨s, of_decide_eq_true hP, (stop_executes_accepted (runs_exec hs hguard)).2.1⟩

/-- A `submit` has seen the worker running, which then leaves its loop; the task is accepted, and
`stop` returns. -/
theorem stop_loses_task :
    ∃ s : WorkerThread Unit, Reaches step (init 2) s ∧ .stopped [0] ∈ s.clients ∧ s.executed = [] :=
  exists_reaches
    (starts 0 ++ [.call 1 (.submit (some ())), .client 1, .call 0 .stop]
      ++ List.replicate 3 (.client 0) ++ [.worker] ++ List.replicate 2 (.client 1)
      ++ List.replicate 3 (.client 0))
    (by decide)

end WorkerThread

end MetalNative
