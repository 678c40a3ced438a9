import Mathlib.Algebra.Order.BigOperators.Group.List
import Mathlib.Algebra.Order.Ring.Nat

namespace LockSem

/-!
# Threads over one mutex and one counting semaphore

Every thread stands at a point of type `π`.  A `Profile` says what the next step from a point
waits for (nothing, the mutex, a slot) and what the thread holds there.  Slots may be taken
inside or outside the mutex and given back by somebody else later, so the only way for all
threads to be blocked with no slot on its way back is a circular wait: every slot is held by a
waiting thread, and the holders that wait for the mutex find its owner waiting for a slot.

* `CircularWait` — that situation, as a property of the list of points.
* `exists_unblocked` — without it, some thread can step.
* `not_circularWait_of_quiet`, `…_of_drop`, `…_of_enter`, `…_of_take` — the four kinds of step,
  and when they do not complete a circular wait.
-/

/-- What a step waits for. -/
inductive Need where
  | nothing
  | mutex
  | slot
  deriving DecidableEq, Repr

/-- What the points of a program need and hold. -/
structure Profile (π : Type*) where
  need : π → Need
  holdsMu : π → Bool
  slots : π → ℕ
  /-- The owner of the mutex never waits for it. -/
  owner_need : ∀ p, holdsMu p = true → need p ≠ .mutex

variable {π : Type*} (P : Profile π)

/-- The slots a thread holds while it waits. -/
def waiting (p : π) : ℕ := if P.need p = .nothing then 0 else P.slots p

/-- All slots held. -/
def held (pcs : List π) : ℕ := (pcs.map P.slots).sum

/-- The slots held by threads that wait. -/
def waitingSlots (pcs : List π) : ℕ := (pcs.map (waiting P)).sum

/-- The owner of the mutex waits for a slot. -/
def OwnerWaits (pcs : List π) : Prop := ∃ p ∈ pcs, P.holdsMu p = true ∧ P.need p = .slot

/-- A thread that holds a slot waits for the mutex. -/
def HolderWaits (pcs : List π) : Prop := ∃ p ∈ pcs, 0 < P.slots p ∧ P.need p = .mutex

instance (pcs : List π) : Decidable (OwnerWaits P pcs) :=
  inferInstanceAs (Decidable (∃ p ∈ pcs, _))

instance (pcs : List π) : Decidable (HolderWaits P pcs) :=
  inferInstanceAs (Decidable (∃ p ∈ pcs, _))

/-- All `n` slots are held by threads that wait, none of which can go on. -/
def CircularWait (n : ℕ) (pcs : List π) : Prop :=
  waitingSlots P pcs = n ∧ (HolderWaits P pcs → OwnerWaits P pcs)

instance (n : ℕ) (pcs : List π) : Decidable (CircularWait P n pcs) :=
  inferInstanceAs (Decidable (_ ∧ _))

variable {P} {pcs : List π} {n : ℕ}

/-! ### Sums over the threads -/

/-- Moving one thread changes a sum by that thread's share. -/
theorem sum_map_set (f : π → ℕ) {i : ℕ} {p : π} (p' : π) (hi : pcs[i]? = some p) :
    ((pcs.set i p').map f).sum + f p = (pcs.map f).sum + f p' := by
  obtain ⟨hlt, rfl⟩ := List.getElem?_eq_some_iff.mp hi
  have hnew := ((List.set_perm_cons_eraseIdx hlt p').map f).sum_eq
  have hold := ((List.getElem_cons_eraseIdx_perm hlt).map f).sum_eq
  rw [hnew, ← hold, List.map_cons, List.sum_cons, List.map_cons, List.sum_cons]
  omega

theorem waiting_le (p : π) : waiting P p ≤ P.slots p := by
  unfold waiting
  split_ifs
  · exact Nat.zero_le _
  · exact Nat.le_refl _

/-- What one thread holds is part of what all hold. -/
theorem slots_le_held {p : π} (hp : p ∈ pcs) : P.slots p ≤ held P pcs :=
  List.single_le_sum (fun _ _ => Nat.zero_le _) _ (List.mem_map_of_mem hp)

/-- Waiting threads hold no more than all threads do. -/
theorem waitingSlots_le_held (pcs : List π) : waitingSlots P pcs ≤ held P pcs := by
  unfold waitingSlots held
  induction pcs with
  | nil => exact Nat.le_refl _
  | cons p pcs ih =>
    rw [List.map_cons, List.sum_cons, List.map_cons, List.sum_cons]
    exact Nat.add_le_add (waiting_le p) ih

/-- When every holder waits, all held slots are held by waiting threads. -/
theorem waitingSlots_eq_held (h : ∀ p ∈ pcs, 0 < P.slots p → P.need p ≠ .nothing) :
    waitingSlots P pcs = held P pcs := by
  unfold waitingSlots held
  congr 1
  refine List.map_congr_left fun p hp => ?_
  unfold waiting
  split_ifs with hneed
  · by_contra hne
    exact h p hp (by omega) hneed
  · rfl

/-! ### The deadlock criterion -/

/-- A thread at `p` cannot step while the mutex is taken or the slots are used up. -/
def Blocked (P : Profile π) (muFree slotFree : Prop) (p : π) : Prop :=
  (P.need p = .mutex ∧ ¬ muFree) ∨ (P.need p = .slot ∧ ¬ slotFree)

/-- **Deadlock criterion.**  When every slot in use is held by a thread, the mutex is taken only
    by a thread, and no circular wait has formed, the threads of a non-empty list are not all
    blocked. -/
theorem exists_unblocked (muFree slotFree : Prop) (active : π → Prop) {inUse : ℕ}
    (hactive : ∃ p ∈ pcs, active p)
    (hidle : ∀ p ∈ pcs, ¬ active p → P.slots p = 0 ∧ P.holdsMu p = false ∧ P.need p = .nothing)
    (hslots : inUse = held P pcs) (hfull : ¬ slotFree → inUse = n)
    (howner : ¬ muFree → ∃ p ∈ pcs, P.holdsMu p = true)
    (hcirc : ¬ CircularWait P n pcs) :
    ∃ p ∈ pcs, active p ∧ ¬ Blocked P muFree slotFree p := by
  by_contra hall
  push Not at hall
  -- a taken mutex belongs to an active thread, and that one waits for a slot
  have hownerWaits : ¬ muFree → OwnerWaits P pcs := by
    intro hmu
    obtain ⟨p, hp, hholds⟩ := howner hmu
    have hp' : active p := by
      by_contra hna
      have := (hidle p hp hna).2.1
      rw [hholds] at this
      cases this
    rcases hall p hp hp' with ⟨hneed, -⟩ | ⟨hneed, -⟩
    · exact absurd hneed (P.owner_need p hholds)
    · exact ⟨p, hp, hholds, hneed⟩
  -- somebody waits for a slot, so the slots are used up
  have hnoslot : ¬ slotFree := by
    obtain ⟨p, hp, hactive⟩ := hactive
    rcases hall p hp hactive with ⟨-, hmu⟩ | ⟨-, hslot⟩
    · obtain ⟨q, hq, hholds, hneed⟩ := hownerWaits hmu
      have hq' : active q := by
        by_contra hna
        rw [(hidle q hq hna).2.2] at hneed
        cases hneed
      rcases hall q hq hq' with ⟨hneed', -⟩ | ⟨-, hslot⟩
      · rw [hneed] at hneed'
        cases hneed'
      · exact hslot
    · exact hslot
  apply hcirc
  constructor
  · rw [waitingSlots_eq_held, ← hslots, hfull hnoslot]
    intro p hp hpos hneed
    have hp' : active p := by
      by_contra hna
      have := (hidle p hp hna).1
      omega
    rcases hall p hp hp' with ⟨h, -⟩ | ⟨h, -⟩ <;> rw [hneed] at h <;> cases h
  · rintro ⟨p, hp, hpos, hneed⟩
    have hp' : active p := by
      by_contra hna
      have := (hidle p hp hna).1
      omega
    rcases hall p hp hp' with ⟨-, hmu⟩ | ⟨h, -⟩
    · exact hownerWaits hmu
    · rw [hneed] at h
      cases h

/-! ### Steps that complete no circular wait -/

section Steps

variable {i : ℕ} {p p' : π}

theorem mem_of_mem_set {q : π} (hq : q ∈ pcs.set i p') : q ∈ pcs ∨ q = p' := by
  rcases List.mem_or_eq_of_mem_set hq with h | h
  · exact .inl h
  · exact .inr h

/-- The points of the other threads stay. -/
theorem mem_set_of_ne {q : π} (hi : pcs[i]? = some p) (hq : q ∈ pcs) (hne : q ≠ p) :
    q ∈ pcs.set i p' := by
  obtain ⟨j, hj⟩ := List.mem_iff_getElem?.mp hq
  have hij : i ≠ j := by
    rintro rfl
    rw [hi] at hj
    exact hne (Option.some.inj hj).symm
  refine List.mem_iff_getElem?.mpr ⟨j, ?_⟩
  rw [List.getElem?_set_ne hij, hj]

/-- An owner that waits after the step is the thread that moved or waited before. -/
theorem OwnerWaits.of_set (h : OwnerWaits P (pcs.set i p'))
    (hp' : ¬ (P.holdsMu p' = true ∧ P.need p' = .slot)) : OwnerWaits P pcs := by
  obtain ⟨q, hq, hholds, hneed⟩ := h
  rcases mem_of_mem_set hq with hq | rfl
  · exact ⟨q, hq, hholds, hneed⟩
  · exact absurd ⟨hholds, hneed⟩ hp'

/-- A holder that waits for the mutex is still there when another thread moved. -/
theorem HolderWaits.set (h : HolderWaits P pcs) (hi : pcs[i]? = some p)
    (hp : ¬ (0 < P.slots p ∧ P.need p = .mutex)) : HolderWaits P (pcs.set i p') := by
  obtain ⟨q, hq, hpos, hneed⟩ := h
  refine ⟨q, mem_set_of_ne hi hq ?_, hpos, hneed⟩
  rintro rfl
  exact hp ⟨hpos, hneed⟩

theorem not_holder_of_waiting_zero (h : waiting P p = 0) :
    ¬ (0 < P.slots p ∧ P.need p = .mutex) := by
  rintro ⟨hpos, hneed⟩
  unfold waiting at h
  rw [if_neg (by rw [hneed]; exact Need.noConfusion)] at h
  omega

/-- A step between points that hold nothing while waiting, to no wait inside the mutex. -/
theorem not_circularWait_of_quiet (h : ¬ CircularWait P n pcs) (hi : pcs[i]? = some p)
    (hp : waiting P p = 0) (hp' : waiting P p' = 0)
    (howner : ¬ (P.holdsMu p' = true ∧ P.need p' = .slot)) :
    ¬ CircularWait P n (pcs.set i p') := by
  rintro ⟨hsum, himp⟩
  have hset := sum_map_set (waiting P) p' hi
  apply h
  refine ⟨?_, fun hholder => ?_⟩
  · unfold waitingSlots at *
    omega
  · exact (himp (hholder.set hi (not_holder_of_waiting_zero hp))).of_set howner

/-- A step after which the thread holds fewer slots while waiting. -/
theorem not_circularWait_of_drop (hle : waitingSlots P pcs ≤ n) (hi : pcs[i]? = some p)
    (hdrop : waiting P p' < waiting P p) : ¬ CircularWait P n (pcs.set i p') := by
  rintro ⟨hsum, -⟩
  have hset := sum_map_set (waiting P) p' hi
  unfold waitingSlots at *
  omega

/-- Starting to wait for a slot inside the mutex while a slot is not held by a waiting thread. -/
theorem not_circularWait_of_enter (hne : waitingSlots P pcs ≠ n) (hi : pcs[i]? = some p)
    (hp : waiting P p = 0) (hp' : waiting P p' = 0) : ¬ CircularWait P n (pcs.set i p') := by
  rintro ⟨hsum, -⟩
  have hset := sum_map_set (waiting P) p' hi
  apply hne
  unfold waitingSlots at *
  omega

/-- Taking one more slot and waiting on: not the last one, or some holder can get the mutex. -/
theorem not_circularWait_of_take (hi : pcs[i]? = some p)
    (htake : waiting P p' = waiting P p + 1)
    (howner : ¬ (P.holdsMu p' = true ∧ P.need p' = .slot))
    (hguard : waitingSlots P pcs + 1 = n →
      HolderWaits P (pcs.set i p') ∧ ¬ OwnerWaits P pcs) :
    ¬ CircularWait P n (pcs.set i p') := by
  rintro ⟨hsum, himp⟩
  have hset := sum_map_set (waiting P) p' hi
  have hlast : waitingSlots P pcs + 1 = n := by
    unfold waitingSlots at *
    omega
  obtain ⟨hholder, hnot⟩ := hguard hlast
  exact hnot ((himp hholder).of_set howner)

end Steps

end LockSem
