import MetalNative.Lib.ThreadLoop

/-!
# Loops on a machine word

The loop `for (; k + reach <= bound; k += step)` where `k` is a word of `R` values, so that both
additions wrap around.

* `wordLoop_eq` — where nothing wraps it is the loop on numbers, and it ends.
* `wordLoop_none` — where the last turn before the wrap is still inside, it never ends.
* `wordTurns` — its first turns, whether it ends or not; `dvd_of_mem_wordTurns` is their invariant.
* `wordFor_ends`, `wordFor_none` — the same for the loop `for (; k < bound; k += step)`.
-/

namespace ThreadLoop

/-- The values of `k` in the turns of the loop and the one it ends with, if it ends in fewer than
`fuel` turns. -/
def wordLoop (R bound reach step : ℕ) : ℕ → ℕ → Option (List ℕ × ℕ)
  | 0, _ => none
  | fuel + 1, k =>
    if (k + reach) % R ≤ bound then
      (wordLoop R bound reach step fuel ((k + step) % R)).map fun r => (k :: r.1, r.2)
    else some ([], k)

/-- Nothing to do. -/
theorem stride_eq_nil {start step bound : ℕ} (hstep : 0 < step) (h : bound ≤ start) :
    stride start step bound = [] := by
  rw [stride, Nat.div_eq_of_lt (by omega)]
  rfl

/-- The first turn and the others. -/
theorem stride_eq_cons {start step bound : ℕ} (hstep : 0 < step) (h : start < bound) :
    stride start step bound = start :: stride (start + step) step bound := by
  have hcount : (bound - start + step - 1) / step
      = (bound - (start + step) + step - 1) / step + 1 := by
    by_cases hle : start + step ≤ bound
    · rw [show bound - start + step - 1 = bound - (start + step) + step - 1 + step by omega,
        Nat.add_div_right _ hstep]
    · have hlast : bound - start + step - 1 = bound - start - 1 + step := by omega
      rw [hlast, Nat.add_div_right _ hstep, Nat.div_eq_of_lt (by omega),
        Nat.div_eq_of_lt (by omega)]
  rw [stride, stride, hcount, List.range_succ_eq_map, List.map_cons, List.map_map, Nat.zero_mul,
    Nat.add_zero]
  congr 1
  apply List.map_congr_left
  intro t _
  show start + (t + 1) * step = start + step + t * step
  rw [Nat.add_one_mul]
  omega

/-- **The loop ends.** With enough fuel its turns are those of the loop on numbers. -/
theorem wordLoop_eq {R bound reach step : ℕ} (hstep : 0 < step) (hfit : bound + step < R) :
    ∀ fuel start : ℕ, start + reach ≤ bound + step ∨ start + reach < R →
      (stride start step (bound + 1 - reach)).length < fuel →
      wordLoop R bound reach step fuel start
        = some (stride start step (bound + 1 - reach),
            start + (stride start step (bound + 1 - reach)).length * step) := by
  intro fuel
  induction fuel with
  | zero => intro start _ hlen; omega
  | succ fuel ih =>
    intro start hstart hlen
    have hmod : (start + reach) % R = start + reach := Nat.mod_eq_of_lt (by omega)
    rw [wordLoop, hmod]
    by_cases hin : start + reach ≤ bound
    · have hcons := stride_eq_cons hstep (show start < bound + 1 - reach by omega)
      rw [hcons, List.length_cons] at hlen
      have hnext : (start + step) % R = start + step := Nat.mod_eq_of_lt (by omega)
      rw [if_pos hin, hnext, ih (start + step) (Or.inl (by omega)) (by omega), hcons,
        List.length_cons, Option.map_some, Nat.add_one_mul]
      congr 2
      omega
    · rw [if_neg hin, stride_eq_nil hstep (by omega)]
      simp

/-- **The loop does not end.** The words `k + reach` are the multiples of `step`, and all of them
are at most `bound`. -/
theorem wordLoop_none {R bound reach step : ℕ} (hR : 0 < R) (hdvd : step ∣ R)
    (hfull : R ≤ bound + step) :
    ∀ fuel start : ℕ, step ∣ start + reach → wordLoop R bound reach step fuel start = none := by
  intro fuel
  induction fuel with
  | zero =>
    intro start _
    rw [wordLoop]
  | succ fuel ih =>
    intro start hstart
    have hword : (start + reach) % R ≤ bound := by
      have hlt : (start + reach) % R < R := Nat.mod_lt _ hR
      have hmul : step ∣ (start + reach) % R := (Nat.dvd_mod_iff hdvd).mpr hstart
      have hgap : step ∣ R - (start + reach) % R := Nat.dvd_sub hdvd hmul
      have := Nat.le_of_dvd (by omega) hgap
      omega
    have hnext : step ∣ (start + step) % R + reach := by
      have hsplit := Nat.mod_add_div (start + step) R
      have hall : step ∣ (start + step) % R + reach + R * ((start + step) / R) := by
        rw [show (start + step) % R + reach + R * ((start + step) / R)
          = start + reach + step by omega]
        exact Nat.dvd_add hstart (Nat.dvd_refl step)
      exact (Nat.dvd_add_left (Dvd.dvd.mul_right hdvd _)).mp hall
    rw [wordLoop, if_pos hword, ih _ hnext, Option.map_none]

/-! ### The first turns -/

/-- The values of `k` in the first `turns` turns of the loop. -/
def wordTurns (R bound reach step : ℕ) : ℕ → ℕ → List ℕ
  | 0, _ => []
  | turns + 1, k =>
    if (k + reach) % R ≤ bound then k :: wordTurns R bound reach step turns ((k + step) % R)
    else []

section Multiples

variable {R bound reach step c : ℕ}

theorem dvd_next (hR : c ∣ R) (hstep : c ∣ step) {k : ℕ} (hk : c ∣ k) : c ∣ (k + step) % R :=
  (Nat.dvd_mod_iff hR).mpr (Nat.dvd_add hk hstep)

/-- A loop over multiples stays at multiples, also where it wraps around. -/
theorem dvd_of_mem_wordTurns (hR : c ∣ R) (hstep : c ∣ step) :
    ∀ turns start : ℕ, c ∣ start → ∀ k ∈ wordTurns R bound reach step turns start, c ∣ k := by
  intro turns
  induction turns with
  | zero => simp [wordTurns]
  | succ turns ih =>
    intro start hstart k hk
    rw [wordTurns] at hk
    split_ifs at hk with hin
    · rcases List.mem_cons.mp hk with rfl | hrest
      · exact hstart
      · exact ih _ (dvd_next hR hstep hstart) k hrest
    · simp at hk

/-- So does the value behind it. -/
theorem dvd_of_wordLoop (hR : c ∣ R) (hstep : c ∣ step) :
    ∀ fuel start : ℕ, c ∣ start → ∀ loop, wordLoop R bound reach step fuel start = some loop →
      c ∣ loop.2 := by
  intro fuel
  induction fuel with
  | zero => simp [wordLoop]
  | succ fuel ih =>
    intro start hstart loop hloop
    rw [wordLoop] at hloop
    split_ifs at hloop with hin
    · obtain ⟨rest, hrest, rfl⟩ := Option.map_eq_some_iff.mp hloop
      exact ih _ (dvd_next hR hstep hstart) rest hrest
    · obtain rfl := Option.some.inj hloop
      exact hstart

end Multiples

/-! ### The plain loop -/

/-- The values of `k` in the turns of `for (; k < bound; k += step)`, if it ends in fewer than
`fuel` turns. -/
def wordFor (R bound step : ℕ) : ℕ → ℕ → Option (List ℕ)
  | 0, _ => none
  | fuel + 1, k =>
    if k < bound then (wordFor R bound step fuel ((k + step) % R)).map (k :: ·) else some []

/-- It is the other loop, with the bound in the loop. -/
theorem wordFor_eq_wordLoop {R bound step : ℕ} (hR : 0 < R) (hbound : 0 < bound) :
    ∀ fuel k : ℕ, k < R →
      wordFor R bound step fuel k = (wordLoop R (bound - 1) 0 step fuel k).map Prod.fst := by
  intro fuel
  induction fuel with
  | zero => intro k _; rfl
  | succ fuel ih =>
    intro k hk
    have hword : (k + 0) % R = k := Nat.mod_eq_of_lt hk
    rw [wordFor, wordLoop, hword]
    by_cases hin : k < bound
    · rw [if_pos hin, if_pos (by omega), ih _ (Nat.mod_lt _ hR), Option.map_map, Option.map_map]
      rfl
    · rw [if_neg hin, if_neg (by omega)]
      rfl

/-- **The plain loop ends** when the value behind the last turn does not wrap around. -/
theorem wordFor_ends {R bound step start fuel : ℕ} (hstep : 0 < step) (hfit : bound + step ≤ R)
    (hstart : start < R) (hfuel : bound < fuel) :
    wordFor R bound step fuel start = some (stride start step bound) := by
  by_cases hbound : bound = 0
  · obtain ⟨n, rfl⟩ := Nat.exists_eq_succ_of_ne_zero (by omega : fuel ≠ 0)
    rw [wordFor, if_neg (by omega), stride_eq_nil hstep (by omega)]
  · have hlast : bound - 1 + 1 - 0 = bound := by omega
    have hlen : (stride start step bound).length ≤ bound := by
      have hle : (bound - start + step - 1) / step ≤ bound - start + step - 1 - (step - 1) := by
        rcases Nat.eq_zero_or_pos (bound - start) with h | h
        · rw [h, Nat.div_eq_of_lt (by omega)]
          omega
        · have hone : bound - start + step - 1 = bound - start - 1 + step := by omega
          rw [hone, Nat.add_div_right _ hstep]
          have := Nat.div_le_self (bound - start - 1) step
          omega
      simp only [stride, List.length_map, List.length_range]
      omega
    rw [wordFor_eq_wordLoop (by omega) (by omega) fuel start hstart,
      wordLoop_eq hstep (by omega) fuel start (Or.inr hstart) (by rw [hlast]; omega), hlast]
    rfl

/-- The loop of a thread, which starts below the step. -/
theorem wordFor_eq {R bound step start fuel : ℕ} (hstep : 0 < step) (hfit : bound + step ≤ R)
    (hstart : start < step) (hfuel : bound < fuel) :
    wordFor R bound step fuel start = some (stride start step bound) :=
  wordFor_ends hstep hfit (by omega) hfuel

/-- **The plain loop does not end** when it starts at a multiple of the step and the last multiple
in the word is still inside. -/
theorem wordFor_none {R bound step start : ℕ} (hR : 0 < R) (hdvd : step ∣ R)
    (hfull : R < bound + step) (hstart : start < R) (hmul : step ∣ start) (fuel : ℕ) :
    wordFor R bound step fuel start = none := by
  have hpos : 0 < step := Nat.pos_of_dvd_of_pos hdvd hR
  have hge : step ≤ R := Nat.le_of_dvd hR hdvd
  by_cases hzero : bound = 0
  · omega
  · rw [wordFor_eq_wordLoop hR (by omega) fuel start hstart,
      wordLoop_none hR hdvd (by omega) fuel start (by simpa using hmul)]
    rfl

end ThreadLoop
