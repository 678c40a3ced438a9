import MetalNative.Dispatch.WorkerThread

namespace MetalNative

open Option List

/-!
# The steps of a `WorkerThread`

* `ClientMove`, `WorkerMove`, `step_cases` — everything that a step can do.
* `Ordered` — each task is executed, in the worker's hands or in the queue, in the order of the
  queue.
-/

namespace WorkerThread

variable {τ : Type*} {s s' : WorkerThread τ} {a : WorkerAction τ} {i : ℕ}

/-! ### The steps -/

/-- What a step of client `i` can do, by the point it starts from. -/
inductive ClientMove (s : WorkerThread τ) (i : ℕ) : ClientPC τ → WorkerThread τ → Prop
  | raise (work e) : ClientMove s i (.submit work) (s.goto i (.raised e))
  | accept (work) : ClientMove s i (.submit (some work)) (s.goto i (.push work))
  | push (work) : ClientMove s i (.push work)
      ({ s with queue := s.queue ++ [work], enqueued := s.enqueued ++ [work] }.goto i
        (.notifyWork s.enqueued.length))
  | notifyWork (pos) : ClientMove s i (.notifyWork pos)
      ({ s with worker := s.worker.notified, returned := pos :: s.returned }.goto i .idle)
  | drain (due) : ClientMove s i (.drain due) ({ s with drain_waiters := true }.goto i
    (.evaluate due))
  | leave (due) (hempty : s.queue = []) : ClientMove s i (.evaluate due)
      ({ s with mu := some i }.goto i (.clear due))
  | wait (due) (hqueue : s.queue ≠ []) : ClientMove s i (.evaluate due) (s.goto i (.blocked due))
  | clear (due) : ClientMove s i (.clear due)
      ({ s with drain_waiters := false, mu := none }.goto i (.drained due))
  | alreadyRunning : ClientMove s i .start (s.goto i .idle)
  | start : ClientMove s i .start (s.goto i .reset)
  | reset : ClientMove s i .reset ({ s with stop_requested := false }.goto i .spawn)
  | spawn (hnone : s.worker = .none) : ClientMove s i .spawn
      ({ s with worker := .check }.goto i .storeRunning)
  | abort (pc) : ClientMove s i pc s.abort
  | storeRunning : ClientMove s i .storeRunning ({ s with running := true }.goto i .idle)
  | notRunning (hstopped : s.running = false) : ClientMove s i .stop
      (s.goto i (.stopped s.returned))
  | stop : ClientMove s i .stop (s.goto i .request)
  | request : ClientMove s i .request ({ s with stop_requested := true }.goto i .notifyStop)
  | notifyStop : ClientMove s i .notifyStop ({ s with worker := s.worker.notified }.goto i .join)
  | notJoinable : ClientMove s i .join (s.goto i .storeStopped)
  | join : ClientMove s i .join ({ s with joiner := some i }.goto i .joining)
  | joined (hexited : s.worker = .exited) : ClientMove s i .joining
      ({ s with worker := .none, joiner := none }.goto i .storeStopped)
  | storeStopped : ClientMove s i .storeStopped
      ({ s with running := false }.goto i (.stopped s.returned))

variable {pc : ClientPC τ}

theorem clientStep_cases (h : s.clientStep i pc = some s') :
    ClientMove s i pc s' := by
  unfold clientStep at h
  cases pc with
  | submit work =>
    simp only at h
    split_ifs at h with hrun
    · cases work with
      | none =>
        obtain rfl := some.inj h
        exact .raise _ _
      | some work =>
        obtain rfl := some.inj h
        exact .accept _
    · obtain rfl := some.inj h
      exact .raise _ _
  | push work =>
    simp only at h
    split_ifs at h
    obtain rfl := some.inj h
    exact .push _
  | evaluate due =>
    simp only at h
    split_ifs at h with hmu hempty
    · obtain rfl := some.inj h
      exact .leave _ (isEmpty_iff.mp hempty)
    · obtain rfl := some.inj h
      exact .wait _ (mt isEmpty_iff.mpr hempty)
  | start =>
    obtain rfl := some.inj h
    by_cases hrun : s.running = true
    · rw [if_pos hrun]
      exact .alreadyRunning
    · rw [if_neg hrun]
      exact .start
  | reset =>
    simp only at h
    split_ifs at h
    obtain rfl := some.inj h
    exact .reset
  | spawn =>
    simp only at h
    split at h
    · obtain rfl := some.inj h
      exact .spawn ‹_›
    · obtain rfl := some.inj h
      exact .abort _
  | stop =>
    obtain rfl := some.inj h
    by_cases hrun : s.running = true
    · rw [if_pos hrun]
      exact .stop
    · rw [if_neg hrun]
      exact .notRunning (Bool.eq_false_of_not_eq_true hrun)
  | request =>
    simp only at h
    split_ifs at h
    obtain rfl := some.inj h
    exact .request
  | join =>
    simp only at h
    split at h
    · obtain rfl := some.inj h
      exact .notJoinable
    · split_ifs at h
      · obtain rfl := some.inj h
        exact .abort _
      · obtain rfl := some.inj h
        exact .join
  | joining =>
    simp only at h
    split at h
    · obtain rfl := some.inj h
      exact .joined ‹_›
    · cases h
  | notifyWork pos =>
    obtain rfl := some.inj h
    exact .notifyWork _
  | drain due =>
    obtain rfl := some.inj h
    exact .drain _
  | clear due =>
    obtain rfl := some.inj h
    exact .clear _
  | storeRunning =>
    obtain rfl := some.inj h
    exact .storeRunning
  | notifyStop =>
    obtain rfl := some.inj h
    exact .notifyStop
  | storeStopped =>
    obtain rfl := some.inj h
    exact .storeStopped
  | idle | raised _ | blocked _ | drained _ | stopped _ => cases h

/-- What a step of the worker can do, by the point it starts from. -/
inductive WorkerMove (s : WorkerThread τ) : WorkerPC τ → WorkerThread τ → Prop
  | exit (hempty : s.queue = []) : WorkerMove s .check { s with worker := .exited, queue := [] }
  | block (hempty : s.queue = []) : WorkerMove s .check { s with worker := .blocked, queue := [] }
  | pop (task rest) (hqueue : s.queue = task :: rest) : WorkerMove s .check
      { s with worker := .execute task, queue := rest }
  | execute (task) : WorkerMove s (.execute task)
      { s with worker := .load, executed := s.executed ++ [task] }
  | toNotify : WorkerMove s .load { s with worker := .notify }
  | skip (hflag : s.drain_waiters = false) : WorkerMove s .load { s with worker := .check }
  | notifyAll : WorkerMove s .notify
      { s with worker := .check, clients := s.clients.map .woken }
  | notEmpty (hqueue : s.queue ≠ []) : WorkerMove s .notify { s with worker := .check }

theorem workerStep_cases (h : s.workerStep = some s') : WorkerMove s s.worker s' := by
  unfold workerStep at h
  cases hw : s.worker with
  | check =>
    simp only [hw] at h
    by_cases hmu : s.mu.isSome = true
    · rw [if_pos hmu] at h
      cases h
    rw [if_neg hmu] at h
    cases hq : s.queue with
    | nil =>
      simp only [hq] at h
      obtain rfl := some.inj h
      by_cases hstop : s.stop_requested = true
      · rw [if_pos hstop]
        exact .exit hq
      · rw [if_neg hstop]
        exact .block hq
    | cons task rest =>
      simp only [hq] at h
      obtain rfl := some.inj h
      exact .pop task rest hq
  | execute task =>
    simp only [hw] at h
    obtain rfl := some.inj h
    exact .execute task
  | load =>
    simp only [hw] at h
    obtain rfl := some.inj h
    by_cases hflag : s.drain_waiters = true
    · rw [if_pos hflag]
      exact .toNotify
    · rw [if_neg hflag]
      exact .skip (Bool.eq_false_of_not_eq_true hflag)
  | notify =>
    simp only [hw] at h
    split_ifs at h with hmu hempty
    · obtain rfl := some.inj h
      exact .notifyAll
    · obtain rfl := some.inj h
      exact .notEmpty (mt isEmpty_iff.mpr hempty)
  | none | blocked | exited =>
    simp only [hw] at h
    cases h

/-- **The step lemma.** -/
theorem step_cases (h : step s a = some s') :
    (∃ i c pc, a = .call i c ∧ s.clients[i]? = some pc ∧ pc.returned ∧ s' = s.goto i (s.enter c)) ∨
    (∃ i pc, a = .client i ∧ s.clients[i]? = some pc ∧ ClientMove s i pc s') ∨
    (a = .worker ∧ WorkerMove s s.worker s') ∨
    (∃ i due, a = .wakeClient i ∧ s.clients[i]? = some (.blocked due)
      ∧ s' = s.goto i (.evaluate due)) ∨
    (a = .wakeWorker ∧ s.worker = .blocked ∧ s' = { s with worker := .check }) := by
  unfold step at h
  by_cases haborted : s.aborted = true
  · rw [if_pos haborted] at h
    cases h
  rw [if_neg haborted] at h
  cases a with
  | call i c =>
    obtain ⟨pc, hpc, hs⟩ := bind_eq_some_iff.mp h
    split_ifs at hs with hreturned
    exact .inl ⟨i, c, pc, rfl, hpc, hreturned, (some.inj hs).symm⟩
  | client i =>
    obtain ⟨pc, hpc, hs⟩ := bind_eq_some_iff.mp h
    exact .inr (.inl ⟨i, pc, rfl, hpc, clientStep_cases hs⟩)
  | worker => exact .inr (.inr (.inl ⟨rfl, workerStep_cases h⟩))
  | wakeClient i =>
    obtain ⟨pc, hpc, hs⟩ := bind_eq_some_iff.mp h
    split_ifs at hs with hblocked
    cases pc with
    | blocked due => exact .inr (.inr (.inr (.inl ⟨i, due, rfl, hpc, (some.inj hs).symm⟩)))
    | _ => cases hblocked
  | wakeWorker =>
    simp only at h
    split_ifs at h with hblocked
    cases hw : s.worker with
    | blocked => exact .inr (.inr (.inr (.inr ⟨rfl, rfl, (some.inj h).symm⟩)))
    | _ =>
      rw [hw] at hblocked
      cases hblocked

/-- A property of all points is kept when the new point of a client has it. -/
theorem forall_goto {P : ClientPC τ → Prop} {t : WorkerThread τ}
    (h : ∀ q ∈ t.clients, P q) (hpc : P pc) : ∀ q ∈ (t.goto i pc).clients, P q := by
  intro q hq
  rcases mem_or_eq_of_mem_set hq with hold | rfl
  · exact h q hold
  · exact hpc

/-- `notify_all` keeps a property of all points that the woken points have. -/
theorem forall_woken {P : ClientPC τ → Prop} (h : ∀ q ∈ s.clients, P q)
    (hwoken : ∀ q, P q → P q.woken) : ∀ q ∈ s.clients.map ClientPC.woken, P q := by
  intro q hq
  obtain ⟨pc, hpc, rfl⟩ := mem_map.mp hq
  exact hwoken pc (h pc hpc)

/-! ### The order of the tasks -/

@[simp] theorem hand_notified (pc : WorkerPC τ) : pc.notified.hand = pc.hand := by
  cases pc <;> rfl

@[simp] theorem active_notified (pc : WorkerPC τ) : pc.notified.active = pc.active := by
  cases pc <;> rfl

/-- A worker that is not in its loop has no task in its hands. -/
theorem hand_of_not_active {pc : WorkerPC τ} (h : pc.active = false) : pc.hand = [] := by
  cases pc <;> first | rfl | cases h

/-- The tasks that a point of a client speaks of. -/
def tasksOf : ClientPC τ → List ℕ
  | .notifyWork pos => [pos]
  | .drain due | .evaluate due | .blocked due | .clear due | .drained due => due
  | .stopped accepted => accepted
  | _ => []

/-- Every task is executed, in the worker's hands or in the queue, in this order; and the tasks
spoken of have been enqueued. -/
structure Ordered (s : WorkerThread τ) : Prop where
  history : s.enqueued = s.executed ++ s.worker.hand ++ s.queue
  returned : ∀ pos ∈ s.returned, pos < s.enqueued.length
  tasks : ∀ pc ∈ s.clients, ∀ pos ∈ tasksOf pc, pos < s.enqueued.length

theorem ordered_init (n : ℕ) : Ordered (init n : WorkerThread τ) where
  history := rfl
  returned := by simp [init]
  tasks := by
    intro pc hpc
    rw [eq_of_mem_replicate hpc]
    simp [tasksOf]

theorem Ordered.goto {t : WorkerThread τ} (h : Ordered t)
    (hpc : ∀ pos ∈ tasksOf pc, pos < t.enqueued.length) : Ordered (t.goto i pc) :=
  ⟨h.history, h.returned, forall_goto h.tasks hpc⟩

/-- A longer queue and a longer history. -/
theorem Ordered.push (h : Ordered s) (work : τ) :
    Ordered { s with queue := s.queue ++ [work], enqueued := s.enqueued ++ [work] } where
  history := by
    simp only
    rw [h.history]
    simp
  returned := by
    intro pos hpos
    have hlt := h.returned pos hpos
    rw [length_append]
    omega
  tasks := by
    intro pc hpc pos hpos
    have hlt := h.tasks pc hpc pos hpos
    rw [length_append]
    omega

theorem Ordered.clientMove (h : Ordered s) (hpc : s.clients[i]? = some pc)
    (hmove : ClientMove s i pc s') : Ordered s' := by
  have htasks := h.tasks pc (mem_of_getElem? hpc)
  have hreturned := h.returned
  cases hmove with
  | push work =>
    apply (h.push work).goto
    intro pos hpos
    obtain rfl := mem_singleton.mp hpos
    simp
  | notifyWork pos =>
    have hpos : pos < s.enqueued.length := htasks pos (mem_singleton_self pos)
    apply Ordered.goto
    · refine ⟨by simpa using h.history, ?_, h.tasks⟩
      intro q hq
      rcases mem_cons.mp hq with rfl | hq
      · exact hpos
      · exact hreturned q hq
    · simp [tasksOf]
  | drain due | leave due | wait due | clear due =>
    apply Ordered.goto
    · exact ⟨h.history, h.returned, h.tasks⟩
    · exact htasks
  | notRunning | storeStopped =>
    apply Ordered.goto
    · exact ⟨h.history, h.returned, h.tasks⟩
    · exact hreturned
  | abort => exact ⟨h.history, h.returned, h.tasks⟩
  | spawn hnone | joined hnone =>
    apply Ordered.goto
    · have hhistory := h.history
      rw [hnone] at hhistory
      exact ⟨hhistory, h.returned, h.tasks⟩
    · simp [tasksOf]
  | notifyStop =>
    apply Ordered.goto
    · exact ⟨by simpa using h.history, h.returned, h.tasks⟩
    · simp [tasksOf]
  | raise | accept | alreadyRunning | start | reset | storeRunning | stop | request | notJoinable
  | join =>
    apply Ordered.goto
    · exact ⟨h.history, h.returned, h.tasks⟩
    · simp [tasksOf]

theorem Ordered.workerMove (h : Ordered s) (hmove : WorkerMove s s.worker s') : Ordered s' := by
  have hhistory := h.history
  generalize hw : s.worker = pc at hmove
  rw [hw] at hhistory
  cases hmove with
  | exit hempty | block hempty =>
    rw [hempty] at hhistory
    exact ⟨hhistory, h.returned, h.tasks⟩
  | pop task rest hqueue =>
    rw [hqueue] at hhistory
    exact ⟨by simpa [WorkerPC.hand] using hhistory, h.returned, h.tasks⟩
  | execute task => exact ⟨by simpa [WorkerPC.hand] using hhistory, h.returned, h.tasks⟩
  | toNotify | skip | notEmpty => exact ⟨hhistory, h.returned, h.tasks⟩
  | notifyAll =>
    refine ⟨hhistory, h.returned, forall_woken h.tasks fun q hq => ?_⟩
    cases q <;> exact hq

theorem Ordered.step (h : Ordered s) (hs : step s a = some s') : Ordered s' := by
  rcases step_cases hs with ⟨i, c, pc, -, -, -, rfl⟩ | ⟨i, pc, -, hpc, hmove⟩ | ⟨-, hmove⟩ |
    ⟨i, due, -, hpc, rfl⟩ | ⟨-, hw, rfl⟩
  · apply h.goto
    cases c with
    | drain => exact h.returned
    | submit _ | start | stop => simp [enter, tasksOf]
  · exact h.clientMove hpc hmove
  · exact h.workerMove hmove
  · have htasks := h.tasks (.blocked due) (mem_of_getElem? hpc)
    exact h.goto htasks
  · refine ⟨?_, h.returned, h.tasks⟩
    have hhistory := h.history
    rwa [hw] at hhistory

/-- The tasks are executed in the order of the queue, each once. -/
theorem Ordered.inOrder (h : Ordered s) : s.executed ++ s.worker.hand <+: s.enqueued :=
  ⟨s.queue, h.history.symm⟩

/-- With an empty queue and empty hands everything has been executed. -/
theorem Ordered.executed_eq (h : Ordered s) (hqueue : s.queue = []) (hhand : s.worker.hand = []) :
    s.executed = s.enqueued := by
  rw [h.history, hqueue, hhand, append_nil, append_nil]

/-- What has been executed stays so. -/
theorem executed_le (hs : step s a = some s') : s.executed.length ≤ s'.executed.length := by
  rcases step_cases hs with ⟨i, c, pc, -, -, -, rfl⟩ | ⟨i, pc, -, -, hmove⟩ | ⟨-, hmove⟩ |
    ⟨i, due, -, -, rfl⟩ | ⟨-, -, rfl⟩
  · exact Nat.le_refl _
  · cases hmove <;> exact Nat.le_refl _
  · generalize s.worker = pc at hmove
    cases hmove with
    | execute task => simp
    | _ => exact Nat.le_refl _
  · exact Nat.le_refl _
  · exact Nat.le_refl _

end WorkerThread

end MetalNative
