import MetalNative.Lib.Run

namespace MetalNative

open Run

/-!
# Memory pressure: from the system to the budget controller

A translation of `memory_pressure.mm` and of the callback that the constructor in
`budget_controller.mm` registers.  The dispatch source collects the flags of the events in its mask
until its handler runs; the handler reads a level off the flags and passes it on when it has
changed.

* `eventMask`, `levelOf` — the mask of `start`, and the level that the handler reads off the flags.
* `PressureSystem.step` — a transition, a run of the handler, or the registration of the callback.
* `pressure_tracked` — when monitor and controller have the level of the last transition.
-/

/-- `MemoryPressureLevel`. -/
inductive MemoryPressureLevel where
  | Normal
  | Warning
  | Critical
  deriving DecidableEq, Repr

/-- A set of `DISPATCH_MEMORYPRESSURE_` flags. -/
structure PressureFlags where
  NORMAL : Bool := false
  WARN : Bool := false
  CRITICAL : Bool := false
  deriving DecidableEq, Repr

namespace PressureFlags

/-- `|`. -/
def or (f g : PressureFlags) : PressureFlags :=
  ⟨f.NORMAL || g.NORMAL, f.WARN || g.WARN, f.CRITICAL || g.CRITICAL⟩

/-- `&`. -/
def and (f g : PressureFlags) : PressureFlags :=
  ⟨f.NORMAL && g.NORMAL, f.WARN && g.WARN, f.CRITICAL && g.CRITICAL⟩

end PressureFlags

/-- The flag of a transition to a level. -/
def flagOf : MemoryPressureLevel → PressureFlags
  | .Normal => { NORMAL := true }
  | .Warning => { WARN := true }
  | .Critical => { CRITICAL := true }

/-- The mask that `start` creates the dispatch source with. -/
def eventMask : PressureFlags := { WARN := true, CRITICAL := true }

/-- `new_level` of the event handler. -/
def levelOf (flags : PressureFlags) : MemoryPressureLevel :=
  if flags.CRITICAL then .Critical
  else if flags.WARN then .Warning
  else .Normal

/-- What can happen. -/
inductive PressureEvent where
  /-- The system changes its level. -/
  | transition (level : MemoryPressureLevel)
  /-- The event handler of the dispatch source runs. -/
  | handle
  /-- The constructor of the controller calls `set_callback`. -/
  | registerCallback
  deriving DecidableEq, Repr

/-- The system, the monitor and the controller. -/
structure PressureSystem where
  /-- The level of the last transition. -/
  osLevel : MemoryPressureLevel := .Normal
  /-- The data of the dispatch source. -/
  pending : PressureFlags := {}
  current_level : MemoryPressureLevel := .Normal
  /-- The controller exists and its callback is registered. -/
  callback : Bool := false
  /-- `current_pressure` of the controller. -/
  current_pressure : MemoryPressureLevel := .Normal
  deriving DecidableEq, Repr

namespace PressureSystem

/-- The event handler. -/
def handler (s : PressureSystem) : PressureSystem :=
  { s with
    pending := {}
    current_level := levelOf s.pending
    current_pressure :=
      if levelOf s.pending ≠ s.current_level ∧ s.callback then levelOf s.pending
      else s.current_pressure }

/-- One step. -/
def step (s : PressureSystem) : PressureEvent → Option PressureSystem
  | .transition level =>
    some { s with osLevel := level, pending := s.pending.or ((flagOf level).and eventMask) }
  | .handle => if s.pending = {} then none else some s.handler
  | .registerCallback =>
    if s.callback then none else some { s with callback := true, current_pressure := .Normal }

/-- All events are handled, and monitor and controller have the level of the last transition. -/
def Tracked (s : PressureSystem) : Prop :=
  s.pending = {} →
    s.current_level = s.osLevel ∧ (s.callback → s.current_pressure = s.osLevel)

instance (s : PressureSystem) : Decidable (Tracked s) :=
    inferInstanceAs (Decidable (_ → _ ∧ (_ → _)))

/-- The guard of `pressure_tracked`: the level never returns to normal, it does not fall to a
warning before a critical event is handled, and the callback is registered at the normal level. -/
def inMask (s : PressureSystem) : PressureEvent → Bool
  | .transition .Normal => s.pending = {} ∧ s.current_level = .Normal
  | .transition .Warning => !s.pending.CRITICAL
  | .transition .Critical => true
  | .handle => true
  | .registerCallback => s.current_level = .Normal

/-- The flags that wait for the handler stand for the level of the last transition, and the
controller has the monitor's level. -/
structure Follows (s : PressureSystem) : Prop where
  idle : s.pending = {} → s.current_level = s.osLevel
  waiting : s.pending ≠ {} → levelOf s.pending = s.osLevel
  masked : s.pending.NORMAL = false
  registered : s.callback → s.current_pressure = s.current_level

variable {s s' : PressureSystem} {e : PressureEvent}

/-- A transition that the mask lets through. -/
theorem Follows.transition (h : Follows s) {level : MemoryPressureLevel}
    (hne : level ≠ .Normal) (hguard : inMask s (.transition level) = true) :
    Follows { s with
      osLevel := level
      pending := s.pending.or ((flagOf level).and eventMask) } := by
  cases level with
  | Normal => exact absurd rfl hne
  | Warning =>
    have hcritical : s.pending.CRITICAL = false := by simpa [inMask] using hguard
    refine ⟨fun hempty => ?_, fun _ => ?_, ?_, h.registered⟩
    · simp [PressureFlags.or, PressureFlags.and, flagOf, eventMask] at hempty
    · simp [levelOf, PressureFlags.or, PressureFlags.and, flagOf, eventMask, hcritical]
    · simp [PressureFlags.or, PressureFlags.and, flagOf, eventMask, h.masked]
  | Critical =>
    refine ⟨fun hempty => ?_, fun _ => ?_, ?_, h.registered⟩
    · simp [PressureFlags.or, PressureFlags.and, flagOf, eventMask] at hempty
    · simp [levelOf, PressureFlags.or, PressureFlags.and, flagOf, eventMask]
    · simp [PressureFlags.or, PressureFlags.and, flagOf, eventMask, h.masked]

/-- The handler makes monitor and controller agree. -/
theorem Follows.handler (h : Follows s) (hpending : s.pending ≠ {}) : Follows s.handler where
  idle := fun _ => h.waiting hpending
  waiting := fun hne => absurd rfl hne
  masked := rfl
  registered := by
    intro hcallback
    have hcallback' : s.callback = true := hcallback
    by_cases hchanged : levelOf s.pending = s.current_level
    · -- the level has not changed, and the callback is not called
      simp only [PressureSystem.handler, hchanged, ne_eq, not_true_eq_false, false_and, if_false]
      exact h.registered hcallback'
    · simp [PressureSystem.handler, hchanged, hcallback']

theorem Follows.step (h : Follows s) (hguard : inMask s e = true) (hs : step s e = some s') :
    Follows s' := by
  cases e with
  | transition level =>
    obtain rfl := Option.some.inj hs
    by_cases hnormal : level = .Normal
    · subst hnormal
      -- the source does not see this event: nothing may wait, and the level must be the old one
      obtain ⟨hempty, hlevel⟩ : s.pending = {} ∧ s.current_level = .Normal := by
        simpa [inMask] using hguard
      have hsame : s.pending.or ((flagOf .Normal).and eventMask) = s.pending := by
        rw [hempty]
        rfl
      refine ⟨fun _ => hlevel, fun hne => ?_, ?_, h.registered⟩
      · exact absurd (hsame.trans hempty) hne
      · exact (congrArg PressureFlags.NORMAL hsame).trans h.masked
    · exact h.transition hnormal hguard
  | handle =>
    unfold PressureSystem.step at hs
    by_cases hempty : s.pending = {}
    · simp [hempty] at hs
    · simp only [hempty, if_false] at hs
      obtain rfl := Option.some.inj hs
      exact h.handler hempty
  | registerCallback =>
    unfold PressureSystem.step at hs
    by_cases hcallback : s.callback = true
    · simp [hcallback] at hs
    · simp only [hcallback] at hs
      obtain rfl := Option.some.inj hs
      have hlevel : s.current_level = .Normal := by simpa [inMask] using hguard
      exact ⟨h.idle, h.waiting, h.masked, fun _ => hlevel.symm⟩

theorem follows_init : Follows {} where
  idle := fun _ => rfl
  waiting := fun hne => absurd rfl hne
  masked := rfl
  registered := fun h => nomatch h

/-- **Tracking.**  As long as the level does not return to normal, no warning covers a critical
event that waits, and the callback is registered at the normal level: when no event waits, the
monitor and the controller have the level of the last transition. -/
theorem pressure_tracked (h : Runs step (fun s e => inMask s e = true) {} s) : Tracked s := by
  have hinv : Follows s := h.invariant follows_init fun _ _ _ hu hguard hs => hu.step hguard hs
  intro hempty
  refine ⟨hinv.idle hempty, fun hcallback => ?_⟩
  rw [hinv.registered hcallback, hinv.idle hempty]

/-- Pressure that rises after the registration, with both events in one run of the handler. -/
theorem pressure_tracked_rising :
    ∃ s : PressureSystem, s.osLevel = .Critical ∧ s.pending = {} ∧ s.callback = true ∧
      Tracked s := by
  have hsome : (exec step {} [.registerCallback, .transition .Warning, .transition .Critical,
      .handle]).any (fun s => decide (s.osLevel = .Critical ∧ s.pending = {} ∧ s.callback = true))
        = true := by
    decide
  obtain ⟨s, hs, hP⟩ := (Option.any_eq_true _ _).mp hsome
  have hguard : GuardedAlong step (fun s e => inMask s e = true) {}
      [.registerCallback, .transition .Warning, .transition .Critical, .handle] := by
    decide
  obtain ⟨hlevel, hempty, hcallback⟩ := of_decide_eq_true hP
  exact ⟨s, hlevel, hempty, hcallback, pressure_tracked (runs_exec hs hguard)⟩

/-- A warning that ends: both keep it. -/
theorem pressure_not_lowered :
    ∃ s : PressureSystem, Reaches step {} s ∧ s.osLevel = .Normal ∧ s.current_pressure = .Warning
      ∧ ¬ Tracked s :=
  exists_reaches [.registerCallback, .transition .Warning, .handle, .transition .Normal] (by decide)

end PressureSystem

end MetalNative
