import MetalNative.Core.Error
import MetalNative.Lib.Run

namespace MetalNative

/-!
# `WorkerThread`: tasks executed by a thread of their own

A translation of `worker_thread.cpp` as a step relation.  Any number of threads call `submit`,
`drain`, `start` and `stop`; a step is what one thread does between two points where another one can
interfere, and a section under `mu` that nobody can look into is one step.

* `WorkerPC`, `ClientPC` — where the worker and the calling threads stand.
* `WorkerThread` — the members of `Impl`, the threads, and the history of the tasks.
* `WorkerThread.step` — one step of a thread, a call, or a wake-up without notification.

A task is named by its position in the order in which the tasks were enqueued.
-/

/-- Where the worker stands in `run`. -/
inductive WorkerPC (τ : Type*) where
  /-- There is no thread to join. -/
  | none
  /-- Before it takes `mu` and evaluates the predicate of `work_cv.wait`. -/
  | check
  /-- Blocked on `work_cv`. -/
  | blocked
  /-- Executes the task that it has popped, outside the lock. -/
  | execute (task : τ)
  /-- Before it loads `drain_waiters`. -/
  | load
  /-- It has seen `drain_waiters` set: before it takes `mu` again. -/
  | notify
  /-- It has left the loop. -/
  | exited
  deriving DecidableEq, Repr

/-- Where a calling thread stands.  A `drain` carries the tasks whose `submit` had returned when it
was called. -/
inductive ClientPC (τ : Type*) where
  | idle
  /-- The call has thrown. -/
  | raised (e : MNException)
  | submit (work : Option τ)
  | push (work : τ)
  /-- The task at `pos` is in the queue: before `work_cv.notify_one`. -/
  | notifyWork (pos : ℕ)
  | drain (due : List ℕ)
  /-- Before it takes `mu` and evaluates the predicate of `drain_cv.wait`. -/
  | evaluate (due : List ℕ)
  /-- Blocked on `drain_cv`. -/
  | blocked (due : List ℕ)
  /-- Holds `mu`, with the queue empty: before it resets `drain_waiters`. -/
  | clear (due : List ℕ)
  /-- `drain` has returned. -/
  | drained (due : List ℕ)
  | start
  | reset
  | spawn
  | storeRunning
  | stop
  | request
  | notifyStop
  | join
  /-- In `thread.join()`. -/
  | joining
  | storeStopped
  /-- `stop` has returned; `accepted` are the tasks whose `submit` had returned by then. -/
  | stopped (accepted : List ℕ)
  deriving DecidableEq, Repr

/-- A call of the public interface; a `submit` may be given no function. -/
inductive WorkerCall (τ : Type*) where
  | submit (work : Option τ)
  | drain
  | start
  | stop
  deriving DecidableEq, Repr

/-- What happens next. -/
inductive WorkerAction (τ : Type*) where
  | call (i : ℕ) (c : WorkerCall τ)
  | client (i : ℕ)
  | worker
  /-- A wait on `drain_cv` ends without a notification. -/
  | wakeClient (i : ℕ)
  /-- The wait on `work_cv` ends without a notification. -/
  | wakeWorker
  deriving DecidableEq, Repr

namespace WorkerPC

variable {τ : Type*}

/-- The task that has been popped and has not returned. -/
def hand : WorkerPC τ → List τ
  | execute task => [task]
  | _ => []

/-- `work_cv.notify_one`. -/
def notified : WorkerPC τ → WorkerPC τ
  | blocked => check
  | pc => pc

/-- The thread is in its loop. -/
def active : WorkerPC τ → Bool
  | none | exited => false
  | _ => true

def isBlocked : WorkerPC τ → Bool
  | blocked => true
  | _ => false

/-- Between a pop and the notification that may follow. -/
def busy : WorkerPC τ → Bool
  | execute _ | load | notify => true
  | _ => false

end WorkerPC

namespace ClientPC

variable {τ : Type*}

/-- The thread is in no call. -/
def returned : ClientPC τ → Bool
  | idle | raised _ | drained _ | stopped _ => true
  | _ => false

def isBlocked : ClientPC τ → Bool
  | blocked _ => true
  | _ => false

/-- The thread is about to notify `work_cv`. -/
def notifying : ClientPC τ → Bool
  | notifyWork _ | notifyStop => true
  | _ => false

/-- What `drain_cv.notify_all` does to a thread. -/
def woken : ClientPC τ → ClientPC τ
  | blocked due => evaluate due
  | pc => pc

end ClientPC

/-- The members of `WorkerThread::Impl`, the threads, and what has happened to the tasks. -/
structure WorkerThread (τ : Type*) where
  running : Bool := false
  drain_waiters : Bool := false
  stop_requested : Bool := false
  /-- The client that keeps `mu` over the end of a step. -/
  mu : Option ℕ := none
  queue : List τ := []
  worker : WorkerPC τ := .none
  /-- The client in `thread.join()`. -/
  joiner : Option ℕ := none
  /-- The program has ended: a joinable thread was assigned to, or joined twice at once. -/
  aborted : Bool := false
  clients : List (ClientPC τ)
  enqueued : List τ := []
  executed : List τ := []
  /-- The tasks whose `submit` has returned. -/
  returned : List ℕ := []
  deriving DecidableEq, Repr

namespace WorkerThread

variable {τ : Type*}

/-- A new object, with `n` threads that may call it. -/
def init (n : ℕ) : WorkerThread τ where
  clients := List.replicate n .idle

/-- Client `i` goes on to `pc`. -/
def goto (s : WorkerThread τ) (i : ℕ) (pc : ClientPC τ) : WorkerThread τ :=
  { s with clients := s.clients.set i pc }

/-- The call begins. -/
def enter (s : WorkerThread τ) : WorkerCall τ → ClientPC τ
  | .submit work => .submit work
  | .drain => .drain s.returned
  | .start => .start
  | .stop => .stop

/-- `std::terminate`, or undefined behaviour. -/
def abort (s : WorkerThread τ) : WorkerThread τ := { s with aborted := true }

/-- The next step of client `i`, which stands at the given point; `none` while it has to wait. -/
def clientStep (s : WorkerThread τ) (i : ℕ) : ClientPC τ → Option (WorkerThread τ)
  | .submit work =>
    if ¬ s.running then
      some (s.goto i
        (.raised ⟨.InternalError, "WorkerThread::submit: worker thread is not running"⟩))
    else
      match work with
      | none =>
        some (s.goto i
          (.raised ⟨.InvalidArgument, "WorkerThread::submit: work function must not be null"⟩))
      | some work => some (s.goto i (.push work))
  | .push work =>
    if s.mu.isSome then none
    else
      some ({ s with queue := s.queue ++ [work], enqueued := s.enqueued ++ [work] }.goto i
        (.notifyWork s.enqueued.length))
  | .notifyWork pos =>
    some ({ s with worker := s.worker.notified, returned := pos :: s.returned }.goto i .idle)
  | .drain due => some ({ s with drain_waiters := true }.goto i (.evaluate due))
  | .evaluate due =>
    if s.mu.isSome then none
    else if s.queue.isEmpty then some ({ s with mu := some i }.goto i (.clear due))
    else some (s.goto i (.blocked due))
  | .clear due => some ({ s with drain_waiters := false, mu := none }.goto i (.drained due))
  | .start => some (s.goto i (if s.running then .idle else .reset))
  | .reset => if s.mu.isSome then none else some ({ s with stop_requested := false }.goto i .spawn)
  | .spawn =>
    match s.worker with
    | .none => some ({ s with worker := .check }.goto i .storeRunning)
    | _ => some s.abort
  | .storeRunning => some ({ s with running := true }.goto i .idle)
  | .stop => some (s.goto i (if s.running then .request else .stopped s.returned))
  | .request =>
    if s.mu.isSome then none else some ({ s with stop_requested := true }.goto i .notifyStop)
  | .notifyStop => some ({ s with worker := s.worker.notified }.goto i .join)
  | .join =>
    match s.worker with
    | .none => some (s.goto i .storeStopped)
    | _ => if s.joiner.isSome then some s.abort
      else some ({ s with joiner := some i }.goto i .joining)
  | .joining =>
    match s.worker with
    | .exited => some ({ s with worker := .none, joiner := none }.goto i .storeStopped)
    | _ => none
  | .storeStopped => some ({ s with running := false }.goto i (.stopped s.returned))
  | .idle | .raised _ | .blocked _ | .drained _ | .stopped _ => none

/-- The next step of the worker. -/
def workerStep (s : WorkerThread τ) : Option (WorkerThread τ) :=
  match s.worker with
  | .check =>
    if s.mu.isSome then none
    else
      match s.queue with
      | [] => some { s with worker := if s.stop_requested then .exited else .blocked }
      | task :: rest => some { s with worker := .execute task, queue := rest }
  | .execute task => some { s with worker := .load, executed := s.executed ++ [task] }
  | .load => some { s with worker := if s.drain_waiters then .notify else .check }
  | .notify =>
    if s.mu.isSome then none
    else
      some { s with
        worker := .check
        clients := if s.queue.isEmpty then s.clients.map .woken else s.clients }
  | .none | .blocked | .exited => none

/-- One step of the system. -/
def step (s : WorkerThread τ) (a : WorkerAction τ) : Option (WorkerThread τ) :=
  if s.aborted then none
  else
    match a with
    | .call i c => s.clients[i]?.bind fun pc => if pc.returned then some (s.goto i (s.enter c))
      else none
    | .client i => s.clients[i]?.bind (s.clientStep i)
    | .worker => s.workerStep
    | .wakeClient i => s.clients[i]?.bind fun pc => if pc.isBlocked then some (s.goto i pc.woken)
      else none
    | .wakeWorker => if s.worker.isBlocked then some { s with worker := .check } else none

end WorkerThread

end MetalNative
