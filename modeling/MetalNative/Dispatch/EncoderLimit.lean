import MetalNative.Dispatch.CommandPipeline
import Mathlib.Tactic.Linarith

namespace MetalNative

/-!
# The adaptive limit of an encoder

`update_encoder_timing` lowers the limit while encoders take long and raises it while they do not,
each with a clamp on one side; `set_encoder_max_ops` puts it anywhere from 1 to 512.  The average
is exact here.

* `adaptMaxOps` — the new limit; `updateEncoderTiming_adaptive` says that the pipeline takes it.
* `Pace` — the limit and the average, and what an ending does to them.
* `Pace.MovesRight`, `Pace.movesRight_iff` — which of them move the right way.
* `EncoderFields` — the encoder fields of the pipeline, the operations of the encoders, and the
  calls; `encoder_limit_moves_right` is about their runs.
-/

/-- The limit that `update_encoder_timing` sets, by what it finds of the average. -/
def adaptMaxOps (slow fast : Bool) (maxOps : UInt64) : UInt64 :=
  if slow then max 8 (maxOps * 3 / 4) else if fast then min 128 (maxOps * 5 / 4) else maxOps

/-- The pipeline adapts its limit by its own average. -/
theorem updateEncoderTiming_adaptive (env : Env) (p : Pipeline) (h : p.encoderStartTime > 0) :
    (p.updateEncoderTiming env).adaptiveEncoderMaxOps =
      adaptMaxOps ((p.updateEncoderTiming env).encoderDurationEma > 2.0)
        ((p.updateEncoderTiming env).encoderDurationEma < 0.5) p.adaptiveEncoderMaxOps := by
  simp only [Pipeline.updateEncoderTiming, if_pos h, adaptMaxOps, decide_eq_true_eq]

theorem toNat_max_uint64 (x y : UInt64) : (max x y).toNat = max x.toNat y.toNat := by
  show (if x ≤ y then y else x).toNat = _
  simp only [UInt64.le_iff_toNat_le]
  split <;> omega

theorem toNat_min_uint64 (x y : UInt64) : (min x y).toNat = min x.toNat y.toNat := by
  show (if x ≤ y then x else y).toNat = _
  simp only [UInt64.le_iff_toNat_le]
  split <;> omega

theorem adaptMaxOps_toNat {slow fast : Bool} {maxOps : UInt64} (h : maxOps.toNat ≤ 512) :
    (adaptMaxOps slow fast maxOps).toNat =
      if slow then max 8 (maxOps.toNat * 3 / 4)
      else if fast then min 128 (maxOps.toNat * 5 / 4) else maxOps.toNat := by
  have h3 : (maxOps * 3 / 4).toNat = maxOps.toNat * 3 / 4 := by
    rw [UInt64.toNat_div, UInt64.toNat_mul, Nat.mod_eq_of_lt (by simp; omega)]
    rfl
  have h5 : (maxOps * 5 / 4).toNat = maxOps.toNat * 5 / 4 := by
    rw [UInt64.toNat_div, UInt64.toNat_mul, Nat.mod_eq_of_lt (by simp; omega)]
    rfl
  unfold adaptMaxOps
  split_ifs
  · rw [toNat_max_uint64, h3]
    rfl
  · rw [toNat_min_uint64, h5]
    rfl
  · rfl

/-! ### The pace -/

/-- `adaptive_encoder_max_ops`, and `encoder_duration_ema` in milliseconds. -/
structure Pace where
  limit : UInt64 := 32
  ema : ℚ := 1
  deriving DecidableEq, Repr

namespace Pace

/-- `update_encoder_timing`, for an encoder that has taken `duration` milliseconds. -/
def ending (p : Pace) (duration : ℚ) : Pace :=
  let ema := 3 / 10 * duration + (1 - 3 / 10) * p.ema
  ⟨adaptMaxOps (2 < ema) (ema < 1 / 2) p.limit, ema⟩

/-- After the first `n` of these endings. -/
def after (p : Pace) (durations : ℕ → ℚ) : ℕ → Pace
  | 0 => p
  | n + 1 => (p.after durations n).ending (durations n)

/-- What the limit is to do from here. -/
structure MovesRight (p : Pace) : Prop where
  within : 1 ≤ p.limit.toNat ∧ p.limit.toNat ≤ 512
  slow : ∀ duration > 0, 2 < (p.ending duration).ema →
    (p.ending duration).limit.toNat ≤ p.limit.toNat
  fast : ∀ duration > 0, (p.ending duration).ema < 1 / 2 →
    p.limit.toNat ≤ (p.ending duration).limit.toNat
  /-- An unbroken run of slow encoders. -/
  lowers : ∀ durations : ℕ → ℚ,
    (∀ n, 0 < durations n ∧ 2 < (p.after durations (n + 1)).ema) →
      ∃ n, (p.after durations n).limit.toNat ≤ 8
  /-- An unbroken run of fast encoders. -/
  raises : ∀ durations : ℕ → ℚ,
    (∀ n, 0 < durations n ∧ (p.after durations (n + 1)).ema < 1 / 2) →
      ∃ n, 128 ≤ (p.after durations n).limit.toNat

/-- The limit is neither below the lower bound, nor above the upper one while the next encoder can
    make the average fast. -/
def Moderate (p : Pace) : Prop := 8 ≤ p.limit.toNat ∧ (p.limit.toNat ≤ 128 ∨ 5 / 7 ≤ p.ema)

instance (p : Pace) : Decidable p.Moderate := inferInstanceAs (Decidable (_ ∧ _))

variable {p : Pace} {duration : ℚ}

theorem ending_slow (h : p.limit.toNat ≤ 512) (hslow : 2 < (p.ending duration).ema) :
    (p.ending duration).limit.toNat = max 8 (p.limit.toNat * 3 / 4) :=
  (adaptMaxOps_toNat h).trans (if_pos (decide_eq_true hslow))

theorem ending_fast (h : p.limit.toNat ≤ 512) (hfast : (p.ending duration).ema < 1 / 2) :
    (p.ending duration).limit.toNat = min 128 (p.limit.toNat * 5 / 4) := by
  have hslow : ¬ 2 < (p.ending duration).ema := by linarith
  refine (adaptMaxOps_toNat h).trans ((if_neg ?_).trans (if_pos (decide_eq_true hfast)))
  rwa [decide_eq_true_eq]

/-- Every ending keeps the limit within its bounds. -/
theorem ending_within (h : 1 ≤ p.limit.toNat ∧ p.limit.toNat ≤ 512) (duration : ℚ) :
    1 ≤ (p.ending duration).limit.toNat ∧ (p.ending duration).limit.toNat ≤ 512 := by
  have hending : (p.ending duration).limit.toNat = _ := adaptMaxOps_toNat h.2
  rw [hending]
  split_ifs <;> omega

theorem after_within (h : 1 ≤ p.limit.toNat ∧ p.limit.toNat ≤ 512) (durations : ℕ → ℚ) (n : ℕ) :
    1 ≤ (p.after durations n).limit.toNat ∧ (p.after durations n).limit.toNat ≤ 512 := by
  induction n with
  | zero => exact h
  | succ n ih => exact ending_within ih _

/-- Slow encoders lower the limit by one at least, down to 8. -/
theorem after_slow (h : 1 ≤ p.limit.toNat ∧ p.limit.toNat ≤ 512) {durations : ℕ → ℚ}
    (hslow : ∀ n, 2 < (p.after durations (n + 1)).ema) (n : ℕ) :
    (p.after durations n).limit.toNat ≤ max 8 (p.limit.toNat - n) := by
  induction n with
  | zero => exact Nat.le_max_right ..
  | succ n ih =>
    have hnow := after_within h durations n
    have hnext := ending_slow hnow.2 (hslow n)
    show ((p.after durations n).ending (durations n)).limit.toNat ≤ _
    omega

/-- Fast encoders raise a limit of at least 4 by one at least, up to 128; below, the quarter of the
    limit is nothing. -/
theorem after_fast (h : 4 ≤ p.limit.toNat ∧ p.limit.toNat ≤ 512) {durations : ℕ → ℚ}
    (hfast : ∀ n, (p.after durations (n + 1)).ema < 1 / 2) (n : ℕ) :
    min 128 (p.limit.toNat + n) ≤ (p.after durations n).limit.toNat := by
  induction n with
  | zero => exact Nat.min_le_right ..
  | succ n ih =>
    have hnow := after_within ⟨by omega, h.2⟩ durations n
    have hnext := ending_fast hnow.2 (hfast n)
    show _ ≤ ((p.after durations n).ending (durations n)).limit.toNat
    omega

/-- The average after an ending. -/
theorem ending_ema (p : Pace) (duration : ℚ) :
    (p.ending duration).ema = 3 / 10 * duration + (1 - 3 / 10) * p.ema := rfl

/-- **Directions and progress**: both are right exactly where the limit is moderate. -/
theorem movesRight_iff (h : 1 ≤ p.limit.toNat ∧ p.limit.toNat ≤ 512) :
    p.MovesRight ↔ p.Moderate := by
  constructor
  · intro hright
    constructor
    · -- an encoder can be slow enough after every average
      by_contra hlow
      have hslow : 2 < (p.ending (10 * (1 + |p.ema|))).ema := by
        rw [ending_ema]
        linarith [neg_abs_le p.ema, abs_nonneg p.ema]
      have hle := hright.slow _ (by linarith [abs_nonneg p.ema]) hslow
      rw [ending_slow h.2 hslow] at hle
      omega
    · by_contra hhigh
      obtain ⟨hhigh, hema⟩ := not_or.mp hhigh
      have hfast : (p.ending (7 / 6 * (5 / 7 - p.ema))).ema < 1 / 2 := by
        rw [ending_ema]
        linarith
      have hle := hright.fast _ (by linarith) hfast
      rw [ending_fast h.2 hfast] at hle
      omega
  · rintro ⟨hlow, hhigh⟩
    refine ⟨h, fun duration hpos hslow => ?_, fun duration hpos hfast => ?_,
      fun durations hrun => ⟨512, ?_⟩, fun durations hrun => ⟨128, ?_⟩⟩
    · rw [ending_slow h.2 hslow]
      omega
    · have hema : ¬ 5 / 7 ≤ p.ema := by
        rw [ending_ema] at hfast
        intro hge
        linarith
      have hle := hhigh.resolve_right hema
      rw [ending_fast h.2 hfast]
      omega
    · have := after_slow h (fun n => (hrun n).2) 512
      omega
    · have := after_fast ⟨by omega, h.2⟩ (fun n => (hrun n).2) 128
      omega

end Pace

/-! ### The calls -/

/-- The encoder fields of `CommandPipeline::Impl`, all under its mutex, and the operations handed
    out so far, by their encoders. -/
structure EncoderFields where
  encoderScopeActive : Bool := false
  activeEncoder : Option ℕ := none
  encoderOpCount : UInt64 := 0
  encoderMaxOps : UInt64 := 32
  /-- `encoder_start_time` is set. -/
  started : Bool := false
  pace : Pace := {}
  nextEncoder : ℕ := 0
  handed : List ℕ := []

/-- A critical section on the encoder fields, with the time that an encoder that it ends has taken,
    and what Metal answers to a request for a new one: an encoder or nil, and nothing when there is
    no buffer to open it on. -/
inductive EncoderCall where
  | setEncoderMaxOps (maxOps : UInt64)
  | beginScope (answer : Option Bool)
  | endScope (previousEncoderState : Bool) (duration : ℚ) (answer : Option Bool)
  | currentEncoder (duration : ℚ) (answer : Option Bool)

open EncoderFields

namespace EncoderFields

/-- `update_encoder_timing`. -/
def updateTiming (s : EncoderFields) (duration : ℚ) : EncoderFields :=
  if s.started then { s with pace := s.pace.ending duration, started := false } else s

/-- A new encoder is opened on the active buffer. -/
def openEncoder (s : EncoderFields) : Option Bool → EncoderFields
  | none => s
  | some false => { s with activeEncoder := none, encoderOpCount := 0, started := true }
  | some true =>
    { s with
      activeEncoder := some s.nextEncoder
      nextEncoder := s.nextEncoder + 1
      encoderOpCount := 0
      started := true }

/-- The active encoder gets an operation. -/
def handOut (s : EncoderFields) : EncoderFields :=
  { s with
    encoderOpCount := s.encoderOpCount + 1
    handed := s.activeEncoder.toList ++ s.handed }

/-- `~EncoderScope` ends the active encoder. -/
def closeEncoder (s : EncoderFields) (duration : ℚ) : EncoderFields :=
  match s.activeEncoder with
  | none => s
  | some _ => { s.updateTiming duration with activeEncoder := none, encoderOpCount := 0 }

/-- One call. -/
def step (s : EncoderFields) : EncoderCall → EncoderFields
  | .setEncoderMaxOps maxOps =>
    let clamped := max 1 (min maxOps 512)
    { s with encoderMaxOps := clamped, pace := { s.pace with limit := clamped } }
  | .beginScope answer =>
    let s := { s with encoderScopeActive := true }
    if s.activeEncoder = none then s.openEncoder answer else s
  | .endScope previousEncoderState duration answer =>
    let s := { s.closeEncoder duration with encoderScopeActive := previousEncoderState }
    if previousEncoderState then s.openEncoder answer else s
  | .currentEncoder duration answer =>
    if s.encoderScopeActive ∧ s.activeEncoder ≠ none then
      if s.encoderOpCount ≥ s.pace.limit then
        match answer with
        -- the next buffer cannot be created, and the call throws
        | none => s.updateTiming duration
        | some opened => ((s.updateTiming duration).openEncoder (some opened)).handOut
      else s.handOut
    else s

/-- A run of calls from the start. -/
def run (calls : List EncoderCall) : EncoderFields := calls.foldl step {}

/-- The limit moves the right way, and no encoder has more operations than the limit with which
    the call that hands it out has compared. -/
structure MovesRight (s : EncoderFields) : Prop where
  pace : s.pace.MovesRight
  limited : ∀ duration answer e,
    (s.step (.currentEncoder duration answer)).handed = e :: s.handed →
      (s.step (.currentEncoder duration answer)).handed.count e ≤ s.pace.limit.toNat

/-- The invariant of the calls. -/
structure Inv (s : EncoderFields) : Prop where
  within : 1 ≤ s.pace.limit.toNat ∧ s.pace.limit.toNat ≤ 512
  fresh : ∀ e ∈ s.handed, e < s.nextEncoder
  active : ∀ e ∈ s.activeEncoder,
    e < s.nextEncoder ∧ s.handed.count e = s.encoderOpCount.toNat ∧ s.handed.count e ≤ 512

variable {s : EncoderFields} {duration : ℚ}

theorem Inv.updateTiming (h : s.Inv) (duration : ℚ) : (s.updateTiming duration).Inv := by
  unfold EncoderFields.updateTiming
  split_ifs
  · exact ⟨Pace.ending_within h.within duration, h.fresh, h.active⟩
  · exact h

@[simp] theorem updateTiming_handed (s : EncoderFields) (duration : ℚ) :
    (s.updateTiming duration).handed = s.handed := by
  unfold updateTiming
  split_ifs <;> rfl

/-- A new encoder has no operations. -/
theorem Inv.openEncoder (h : s.Inv) (answer : Option Bool) : (s.openEncoder answer).Inv := by
  cases answer with
  | none => exact h
  | some opened =>
    cases opened with
    | false => exact ⟨h.within, h.fresh, nofun⟩
    | true =>
      have hnew : s.handed.count s.nextEncoder = 0 :=
        List.count_eq_zero.mpr fun hmem => (h.fresh _ hmem).false
      refine ⟨h.within, fun e he => (h.fresh e he).trans_le (Nat.le_succ _), ?_⟩
      rintro e he
      obtain rfl := Option.some.inj he
      exact ⟨Nat.lt_succ_self _, hnew, hnew.trans_le (Nat.zero_le _)⟩

theorem Inv.count_openEncoder (h : s.Inv) {opened : Bool} {e : ℕ}
    (he : e ∈ (s.openEncoder (some opened)).activeEncoder) :
    (s.openEncoder (some opened)).handed.count e = 0 :=
  (((h.openEncoder (some opened)).active e he).2.1).trans (by cases opened <;> rfl)

theorem handOut_handed {e : ℕ} (h : e ∈ s.activeEncoder) : s.handOut.handed = e :: s.handed := by
  rw [Option.mem_def] at h
  simp [handOut, h]

/-- An encoder below the limit gets one more operation. -/
theorem Inv.handOut (h : s.Inv) (hlt : ∀ e ∈ s.activeEncoder, s.handed.count e < 512) :
    s.handOut.Inv := by
  cases hactive : s.activeEncoder with
  | none =>
    have heq : s.handOut = { s with encoderOpCount := s.encoderOpCount + 1 } := by
      simp [EncoderFields.handOut, hactive]
    rw [heq]
    exact ⟨h.within, h.fresh, by simp [hactive]⟩
  | some e =>
    have heq : s.handOut
        = { s with encoderOpCount := s.encoderOpCount + 1, handed := e :: s.handed } := by
      simp [EncoderFields.handOut, hactive]
    obtain ⟨hid, hcount, -⟩ := h.active e hactive
    have hlt := hlt e hactive
    rw [heq]
    refine ⟨h.within, ?_, ?_⟩
    · intro e' he'
      obtain rfl | he' := List.mem_cons.mp he'
      · exact hid
      · exact h.fresh e' he'
    · intro e' he'
      obtain rfl : e = e' := Option.some.inj (hactive.symm.trans he')
      have hsucc : (s.encoderOpCount + 1).toNat = s.encoderOpCount.toNat + 1 := by
        rw [UInt64.toNat_add, Nat.mod_eq_of_lt]
        · rfl
        · have : (1 : UInt64).toNat = 1 := rfl
          omega
      refine ⟨hid, ?_, ?_⟩
      · rw [List.count_cons_self, hsucc, hcount]
      · rw [List.count_cons_self]
        omega

/-- What every call keeps. -/
theorem Inv.step (h : s.Inv) (call : EncoderCall) : (s.step call).Inv := by
  cases call with
  | setEncoderMaxOps maxOps =>
    refine ⟨?_, h.fresh, h.active⟩
    show 1 ≤ (max 1 (min maxOps 512)).toNat ∧ (max 1 (min maxOps 512)).toNat ≤ 512
    have h1 : (1 : UInt64).toNat = 1 := rfl
    have h512 : (512 : UInt64).toNat = 512 := rfl
    rw [toNat_max_uint64, toNat_min_uint64, h1, h512]
    omega
  | beginScope answer =>
    have h' : Inv { s with encoderScopeActive := true } := ⟨h.within, h.fresh, h.active⟩
    simp only [EncoderFields.step]
    split_ifs
    · exact h'.openEncoder answer
    · exact h'
  | endScope previousEncoderState duration answer =>
    have h' : Inv { s.closeEncoder duration with encoderScopeActive := previousEncoderState } := by
      unfold closeEncoder
      cases hactive : s.activeEncoder with
      | none => exact ⟨h.within, h.fresh, h.active⟩
      | some e =>
        have hu := h.updateTiming duration
        exact ⟨hu.within, hu.fresh, nofun⟩
    simp only [EncoderFields.step]
    split_ifs
    · exact h'.openEncoder answer
    · exact h'
  | currentEncoder duration answer =>
    simp only [EncoderFields.step]
    split_ifs with hactive hfull
    · cases answer with
      | none => exact h.updateTiming duration
      | some opened =>
        have hu := h.updateTiming duration
        refine (hu.openEncoder (some opened)).handOut fun e he => ?_
        rw [hu.count_openEncoder he]
        omega
    · refine h.handOut fun e he => ?_
      have hcount := (h.active e he).2.1
      have hlt := UInt64.lt_iff_toNat_lt.mp (UInt64.not_le.mp hfull)
      have hwithin := h.within
      omega
    · exact h

theorem Inv.run (calls : List EncoderCall) : (run calls).Inv := by
  have hstart : Inv {} := ⟨by decide, nofun, nofun⟩
  suffices h : ∀ s : EncoderFields, s.Inv → (calls.foldl EncoderFields.step s).Inv from h {} hstart
  induction calls with
  | nil => exact fun s h => h
  | cons call calls ih => exact fun s h => ih _ (h.step call)

/-- **Limit.**  The encoder that is handed out has room for the operation. -/
theorem Inv.limited (h : s.Inv) (duration : ℚ) (answer : Option Bool) (e : ℕ)
    (he : (s.step (.currentEncoder duration answer)).handed = e :: s.handed) :
    (s.step (.currentEncoder duration answer)).handed.count e ≤ s.pace.limit.toNat := by
  have hnone {l : List ℕ} : l ≠ e :: l := fun hl => by simpa using congrArg List.length hl
  rw [he, List.count_cons_self]
  simp only [EncoderFields.step] at he
  split_ifs at he with hactive hfull
  · cases answer with
    | none =>
      rw [updateTiming_handed] at he
      exact absurd he hnone
    | some opened =>
      -- the encoder is a new one
      have hu := (h.updateTiming duration).openEncoder (some opened)
      have hopened : ((s.updateTiming duration).openEncoder (some opened)).handed = s.handed := by
        cases opened <;> exact updateTiming_handed s duration
      cases hnew : ((s.updateTiming duration).openEncoder (some opened)).activeEncoder with
      | none =>
        have hkept : ((s.updateTiming duration).openEncoder (some opened)).handOut.handed
            = s.handed := by
          simp [EncoderFields.handOut, hnew, hopened]
        exact absurd (hkept.symm.trans he) hnone
      | some e' =>
        have hcount := (h.updateTiming duration).count_openEncoder hnew
        rw [hopened] at hcount
        obtain rfl : e' = e := by
          rw [handOut_handed hnew] at he
          exact (List.cons.inj he).1
        rw [hcount]
        exact h.within.1
  · obtain ⟨e', he'⟩ := Option.ne_none_iff_exists'.mp hactive.2
    obtain rfl : e' = e := by
      rw [handOut_handed he'] at he
      exact (List.cons.inj he).1
    rw [(h.active e' he').2.1]
    exact UInt64.lt_iff_toNat_lt.mp (UInt64.not_le.mp hfull)
  · exact absurd he hnone

@[simp] theorem openEncoder_pace (s : EncoderFields) (answer : Option Bool) :
    (s.openEncoder answer).pace = s.pace := by
  rcases answer with _ | _ | _ <;> rfl

/-- What a call does to the limit. -/
theorem step_limit {P : UInt64 → Prop} (s : EncoderFields) {call : EncoderCall}
    (hset : ∀ maxOps, call = .setEncoderMaxOps maxOps → P (max 1 (min maxOps 512)))
    (hnow : P s.pace.limit) (hending : ∀ duration, P (s.pace.ending duration).limit) :
    P (s.step call).pace.limit := by
  have htiming (duration : ℚ) : P (s.updateTiming duration).pace.limit := by
    unfold updateTiming
    split_ifs
    · exact hending duration
    · exact hnow
  cases call with
  | setEncoderMaxOps maxOps => exact hset maxOps rfl
  | beginScope answer =>
    simp only [step]
    split_ifs <;> simpa using hnow
  | endScope previousEncoderState duration answer =>
    have hclose : P (s.closeEncoder duration).pace.limit := by
      unfold closeEncoder
      split
      · exact hnow
      · exact htiming duration
    simp only [step]
    split_ifs <;> simpa using hclose
  | currentEncoder duration answer =>
    simp only [step]
    split_ifs
    · cases answer with
      | none => exact htiming duration
      | some opened => simpa [handOut] using htiming duration
    · exact hnow
    · exact hnow

/-- The settings between the two bounds. -/
def Moderate : EncoderCall → Prop
  | .setEncoderMaxOps maxOps => 8 ≤ maxOps.toNat ∧ maxOps.toNat ≤ 128
  | _ => True

/-- Moderate settings stay moderate: from 8 to 128 both clamps hold back. -/
theorem run_moderate {calls : List EncoderCall} (h : ∀ call ∈ calls, Moderate call) :
    8 ≤ (run calls).pace.limit.toNat ∧ (run calls).pace.limit.toNat ≤ 128 := by
  suffices hrun : ∀ s : EncoderFields, 8 ≤ s.pace.limit.toNat ∧ s.pace.limit.toNat ≤ 128 →
      8 ≤ (calls.foldl step s).pace.limit.toNat ∧ (calls.foldl step s).pace.limit.toNat ≤ 128 from
    hrun {} (by decide)
  induction calls with
  | nil => exact fun s hs => hs
  | cons call calls ih =>
    intro s hs
    refine ih (fun c hc => h c (List.mem_cons_of_mem _ hc)) _ ?_
    refine step_limit (P := fun limit => 8 ≤ limit.toNat ∧ limit.toNat ≤ 128) s ?_ hs ?_
    · rintro maxOps rfl
      obtain ⟨h8, h128⟩ : 8 ≤ maxOps.toNat ∧ maxOps.toNat ≤ 128 := h _ List.mem_cons_self
      have h1 : (1 : UInt64).toNat = 1 := rfl
      have h512 : (512 : UInt64).toNat = 512 := rfl
      rw [toNat_max_uint64, toNat_min_uint64, h1, h512]
      omega
    · intro duration
      show 8 ≤ (adaptMaxOps _ _ _).toNat ∧ (adaptMaxOps _ _ _).toNat ≤ 128
      rw [adaptMaxOps_toNat (by omega)]
      split_ifs <;> omega

end EncoderFields

/-- **The adaptive limit** moves the right way after a run of calls exactly where it is moderate,
    and that it is after every run of moderate settings. -/
theorem encoder_limit_moves_right (calls : List EncoderCall) :
    ((EncoderFields.run calls).MovesRight ↔ (EncoderFields.run calls).pace.Moderate) ∧
      ((∀ call ∈ calls, EncoderFields.Moderate call) → (EncoderFields.run calls).MovesRight) := by
  have hinv := Inv.run calls
  have hiff : (run calls).MovesRight ↔ (run calls).pace.Moderate := by
    rw [← Pace.movesRight_iff hinv.within]
    exact ⟨MovesRight.pace, fun hpace => ⟨hpace, hinv.limited⟩⟩
  refine ⟨hiff, fun hcalls => hiff.mpr ?_⟩
  obtain ⟨h8, h128⟩ := run_moderate hcalls
  exact ⟨h8, .inl h128⟩

theorem encoder_limit_moves_right_moderate :
    (EncoderFields.run [.setEncoderMaxOps 64, .beginScope (some true),
      .currentEncoder 3 (some true)]).MovesRight := by
  refine (encoder_limit_moves_right _).2 fun call hcall => ?_
  simp only [List.mem_cons, List.not_mem_nil, or_false] at hcall
  obtain rfl | rfl | rfl := hcall
  · show 8 ≤ (64 : UInt64).toNat ∧ (64 : UInt64).toNat ≤ 128
    decide
  · trivial
  · trivial

/-- A limit of one operation: a slow encoder raises it to 8, and a fast one leaves it. -/
theorem encoder_limit_moves_wrong :
    (EncoderFields.run [.setEncoderMaxOps 1]).pace = ⟨1, 1⟩ ∧
      ¬ (EncoderFields.run [.setEncoderMaxOps 1]).MovesRight ∧
      adaptMaxOps true false 1 = 8 ∧ adaptMaxOps false true 1 = 1 := by
  refine ⟨rfl, fun h => ?_, rfl, rfl⟩
  have hlow := ((Pace.movesRight_iff h.pace.within).mp h.pace).1
  revert hlow
  decide

end MetalNative
