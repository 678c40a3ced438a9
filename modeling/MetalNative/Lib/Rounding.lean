import Mathlib.Algebra.Order.Field.Power
import Mathlib.Data.Int.Log
import Mathlib.Data.Rat.Floor
import Mathlib.Tactic.Positivity

namespace Rounding

/-!
# Rounding to a number of significant bits

Rounding of positive rationals to the nearest number with `p` significant bits, ties to even, with
no bounds on the exponent.

* `nearestEven` — the nearest integer.
* `round` — the nearest number with `p` bits.
* `exists_normal`, `round_normal` — what is rounded has a normal form, and a normal form is not
  rounded.
* `round_mono`, `round_idem`, `round_le_add`, `sub_le_round` — order and error.
* `div_le_of_round_lt` — different rounded numbers differ by a bit in the last place.
-/

/-! ### The nearest integer -/

/-- The nearest integer, ties to even. -/
def nearestEven (y : ℚ) : ℤ :=
  if y - ⌊y⌋ < 1 / 2 then ⌊y⌋
  else if 1 / 2 < y - ⌊y⌋ then ⌊y⌋ + 1
  else if ⌊y⌋ % 2 = 0 then ⌊y⌋
  else ⌊y⌋ + 1

theorem floor_le_nearestEven (y : ℚ) : ⌊y⌋ ≤ nearestEven y := by
  unfold nearestEven
  split_ifs <;> omega

theorem nearestEven_le_floor (y : ℚ) : nearestEven y ≤ ⌊y⌋ + 1 := by
  unfold nearestEven
  split_ifs <;> omega

theorem nearestEven_mono {x y : ℚ} (h : x ≤ y) : nearestEven x ≤ nearestEven y := by
  rcases (Int.floor_le_floor h).lt_or_eq with hlt | heq
  · calc nearestEven x ≤ ⌊x⌋ + 1 := nearestEven_le_floor x
      _ ≤ ⌊y⌋ := hlt
      _ ≤ nearestEven y := floor_le_nearestEven y
  · unfold nearestEven
    rw [heq]
    split_ifs <;> first | omega | linarith

@[simp] theorem nearestEven_intCast (n : ℤ) : nearestEven n = n := by
  unfold nearestEven
  simp

theorem nearestEven_sub_le (y : ℚ) : nearestEven y - y ≤ 1 / 2 := by
  have hfloor := Int.floor_le y
  unfold nearestEven
  split_ifs <;> push_cast <;> linarith

theorem sub_nearestEven_le (y : ℚ) : y - nearestEven y ≤ 1 / 2 := by
  have hfloor := Int.lt_floor_add_one y
  unfold nearestEven
  split_ifs <;> push_cast <;> linarith

/-! ### Binades -/

variable {p : ℕ} {x y : ℚ}

/-- The unit in the last place of the numbers in the binade of `x`. -/
def ulp (p : ℕ) (x : ℚ) : ℚ := 2 ^ (Int.log 2 x + 1 - p)

/-- The nearest number with `p` significant bits. -/
def round (p : ℕ) (x : ℚ) : ℚ := nearestEven (x / ulp p x) * ulp p x

theorem ulp_pos (p : ℕ) (x : ℚ) : 0 < ulp p x := zpow_pos (by norm_num) _

theorem pow_mul_ulp (p : ℕ) (x : ℚ) : 2 ^ p * ulp p x = 2 ^ (Int.log 2 x + 1) := by
  unfold ulp
  rw [← zpow_natCast (2 : ℚ) p, ← zpow_add₀ (by norm_num)]
  congr 1
  omega

theorem pow_pred_mul_ulp (hp : 0 < p) (x : ℚ) : 2 ^ (p - 1) * ulp p x = 2 ^ Int.log 2 x := by
  unfold ulp
  rw [← zpow_natCast (2 : ℚ) (p - 1), ← zpow_add₀ (by norm_num)]
  congr 1
  omega

/-- The significand of `x` in its binade. -/
theorem significand_bounds (hp : 0 < p) (hx : 0 < x) :
    (2 : ℚ) ^ (p - 1) ≤ x / ulp p x ∧ x / ulp p x < 2 ^ p := by
  have hulp := ulp_pos p x
  have hlow := Int.zpow_log_le_self (b := 2) (by norm_num) hx
  have hhigh := Int.lt_zpow_succ_log_self (b := 2) (by norm_num) x
  rw [Nat.cast_ofNat] at hlow hhigh
  rw [le_div_iff₀ hulp, div_lt_iff₀ hulp, pow_pred_mul_ulp hp, pow_mul_ulp]
  exact ⟨hlow, hhigh⟩

theorem nearestEven_bounds (hp : 0 < p) (hx : 0 < x) :
    (2 : ℤ) ^ (p - 1) ≤ nearestEven (x / ulp p x) ∧ nearestEven (x / ulp p x) ≤ 2 ^ p := by
  obtain ⟨hlow, hhigh⟩ := significand_bounds hp hx
  constructor
  · have hmono := nearestEven_mono hlow
    have hcast : ((2 : ℚ) ^ (p - 1)) = ((2 ^ (p - 1) : ℤ) : ℚ) := by push_cast; rfl
    rwa [hcast, nearestEven_intCast] at hmono
  · have hmono := nearestEven_mono hhigh.le
    have hcast : ((2 : ℚ) ^ p) = ((2 ^ p : ℤ) : ℚ) := by push_cast; rfl
    rwa [hcast, nearestEven_intCast] at hmono

/-- Rounding stays between the ends of the binade. -/
theorem round_bounds (hp : 0 < p) (hx : 0 < x) :
    (2 : ℚ) ^ Int.log 2 x ≤ round p x ∧ round p x ≤ 2 ^ (Int.log 2 x + 1) := by
  have hulp := (ulp_pos p x).le
  obtain ⟨hlow, hhigh⟩ := nearestEven_bounds hp hx
  have hlow' : ((2 : ℚ) ^ (p - 1)) ≤ nearestEven (x / ulp p x) := by exact_mod_cast hlow
  have hhigh' : (nearestEven (x / ulp p x) : ℚ) ≤ 2 ^ p := by exact_mod_cast hhigh
  rw [← pow_pred_mul_ulp hp, ← pow_mul_ulp p]
  exact ⟨mul_le_mul_of_nonneg_right hlow' hulp, mul_le_mul_of_nonneg_right hhigh' hulp⟩

theorem round_pos (hp : 0 < p) (hx : 0 < x) : 0 < round p x :=
  (zpow_pos (by norm_num) _).trans_le (round_bounds hp hx).1

/-- **Order.** -/
theorem round_mono (hp : 0 < p) (hx : 0 < x) (h : x ≤ y) : round p x ≤ round p y := by
  have hy := hx.trans_le h
  rcases (Int.log_mono_right (b := 2) hx h).lt_or_eq with hlt | heq
  · -- the binade of `x` ends where that of `y` begins, or before
    calc round p x ≤ 2 ^ (Int.log 2 x + 1) := (round_bounds hp hx).2
      _ ≤ 2 ^ Int.log 2 y := zpow_le_zpow_right₀ (by norm_num) hlt
      _ ≤ round p y := (round_bounds hp hy).1
  · have hulp : ulp p x = ulp p y := by
      unfold ulp
      rw [heq]
    unfold round
    rw [hulp]
    refine mul_le_mul_of_nonneg_right ?_ (ulp_pos p y).le
    exact_mod_cast nearestEven_mono (div_le_div_of_nonneg_right h (ulp_pos p y).le)

/-! ### Errors -/

theorem ulp_le (hp : 0 < p) (hx : 0 < x) : ulp p x ≤ x * (2 / 2 ^ p) := by
  have hlow := (significand_bounds hp hx).1
  have htwo : (2 : ℚ) ^ p = 2 ^ (p - 1) * 2 := by
    rw [← pow_succ, Nat.sub_add_cancel hp]
  rw [le_div_iff₀ (ulp_pos p x)] at hlow
  rw [htwo, ← mul_div_assoc, le_div_iff₀ (by positivity)]
  linarith

theorem round_le_add (hp : 0 < p) (hx : 0 < x) : round p x ≤ x * (1 + 1 / 2 ^ p) := by
  have hne := nearestEven_sub_le (x / ulp p x)
  have hulp := ulp_pos p x
  have hle := ulp_le hp hx
  have herror : round p x - x ≤ 1 / 2 * ulp p x := by
    calc round p x - x = (nearestEven (x / ulp p x) - x / ulp p x) * ulp p x := by
          unfold round
          field_simp
      _ ≤ 1 / 2 * ulp p x := mul_le_mul_of_nonneg_right hne hulp.le
  have hhalf : 1 / 2 * (x * (2 / 2 ^ p)) = x * (1 / 2 ^ p) := by ring
  linarith

theorem sub_le_round (hp : 0 < p) (hx : 0 < x) : x * (1 - 1 / 2 ^ p) ≤ round p x := by
  have hne := sub_nearestEven_le (x / ulp p x)
  have hulp := ulp_pos p x
  have hle := ulp_le hp hx
  have herror : x - round p x ≤ 1 / 2 * ulp p x := by
    calc x - round p x = (x / ulp p x - nearestEven (x / ulp p x)) * ulp p x := by
          unfold round
          field_simp
      _ ≤ 1 / 2 * ulp p x := mul_le_mul_of_nonneg_right hne hulp.le
  have hhalf : 1 / 2 * (x * (2 / 2 ^ p)) = x * (1 / 2 ^ p) := by ring
  linarith

/-! ### Numbers with `p` bits -/

/-- A number with `p` significant bits is not rounded. -/
theorem round_normal (hp : 0 < p) {n : ℤ} (k : ℤ) (hlow : 2 ^ (p - 1) ≤ n) (hhigh : n < 2 ^ p) :
    round p (n * 2 ^ k) = n * 2 ^ k := by
  have hn : (0 : ℚ) < n := by
    have hpos : (0 : ℤ) < n := lt_of_lt_of_le (by positivity) hlow
    exact_mod_cast hpos
  have hpow : (0 : ℚ) < 2 ^ k := zpow_pos (by norm_num) _
  have hx : (0 : ℚ) < n * 2 ^ k := mul_pos hn hpow
  have hlow' : (2 : ℚ) ^ (p - 1) ≤ n := by exact_mod_cast hlow
  have hhigh' : (n : ℚ) < 2 ^ p := by exact_mod_cast hhigh
  have hlog : Int.log 2 ((n : ℚ) * 2 ^ k) = p - 1 + k := by
    have hexp : ∀ m : ℕ, (2 : ℚ) ^ m * 2 ^ k = 2 ^ ((m : ℤ) + k) := by
      intro m
      rw [zpow_add₀ (by norm_num), zpow_natCast]
    apply le_antisymm
    · refine Int.lt_add_one_iff.mp ((Int.lt_zpow_iff_log_lt (by norm_num) hx).mp ?_)
      have hle := mul_lt_mul_of_pos_right hhigh' hpow
      rw [hexp] at hle
      have heq : (p : ℤ) - 1 + k + 1 = p + k := by ring
      rw [heq]
      exact_mod_cast hle
    · refine (Int.zpow_le_iff_le_log (by norm_num) hx).mp ?_
      have hle := mul_le_mul_of_nonneg_right hlow' hpow.le
      rw [hexp, Nat.cast_sub hp] at hle
      exact_mod_cast hle
  have hulp : ulp p ((n : ℚ) * 2 ^ k) = 2 ^ k := by
    unfold ulp
    rw [hlog]
    congr 1
    ring
  unfold round
  rw [hulp, mul_div_cancel_right₀ _ hpow.ne', nearestEven_intCast]

@[simp] theorem round_zero (p : ℕ) : round p 0 = 0 := by
  have hzero : nearestEven (0 : ℚ) = 0 := by simpa using nearestEven_intCast 0
  simp [round, hzero]

/-- Small integers are not rounded. -/
theorem round_natCast (hp : 0 < p) {n : ℕ} (hn : n ≤ 2 ^ p) : round p n = n := by
  rcases Nat.eq_zero_or_pos n with rfl | hpos
  · simp
  rcases hn.lt_or_eq with hlt | rfl
  · -- the significand is `n`, shifted to the left
    have hlog : Nat.log 2 n < p := Nat.log_lt_of_lt_pow hpos.ne' hlt
    obtain ⟨j, hj⟩ : ∃ j, p = Nat.log 2 n + 1 + j := ⟨p - (Nat.log 2 n + 1), by omega⟩
    have hlow : 2 ^ (p - 1) ≤ n * 2 ^ j := by
      rw [hj, show Nat.log 2 n + 1 + j - 1 = Nat.log 2 n + j by omega, pow_add]
      exact Nat.mul_le_mul_right _ (Nat.pow_log_le_self 2 hpos.ne')
    have hhigh : n * 2 ^ j < 2 ^ p := by
      rw [hj, pow_add]
      exact Nat.mul_lt_mul_of_pos_right (Nat.lt_pow_succ_log_self (by decide) n) (by positivity)
    have hround := round_normal hp (n := (n * 2 ^ j : ℕ)) (-j) (by exact_mod_cast hlow)
      (by exact_mod_cast hhigh)
    have hval : (((n * 2 ^ j : ℕ) : ℤ) : ℚ) * 2 ^ (-(j : ℤ)) = n := by
      push_cast
      rw [zpow_neg, zpow_natCast]
      field_simp
    rwa [hval] at hround
  · have hround := round_normal hp (n := 2 ^ (p - 1)) 1 le_rfl
      (pow_lt_pow_right₀ (by norm_num) (by omega))
    have hval : (((2 : ℤ) ^ (p - 1) : ℤ) : ℚ) * 2 ^ (1 : ℤ) = ((2 ^ p : ℕ) : ℚ) := by
      push_cast [zpow_one]
      rw [← pow_succ, Nat.sub_add_cancel hp]
    rwa [hval] at hround

/-- What has been rounded has `p` significant bits. -/
theorem exists_normal (hp : 0 < p) (hx : 0 < x) :
    ∃ n k : ℤ, 2 ^ (p - 1) ≤ n ∧ n < 2 ^ p ∧ round p x = n * 2 ^ k := by
  obtain ⟨hlow, hhigh⟩ := nearestEven_bounds hp hx
  rcases hhigh.lt_or_eq with hlt | heq
  · exact ⟨_, _, hlow, hlt, rfl⟩
  · -- the next binade
    refine ⟨2 ^ (p - 1), Int.log 2 x + 2 - p, le_rfl, ?_, ?_⟩
    · exact pow_lt_pow_right₀ (by norm_num) (by omega)
    · unfold round
      rw [heq]
      unfold ulp
      push_cast
      rw [← zpow_natCast (2 : ℚ) p, ← zpow_natCast (2 : ℚ) (p - 1), ← zpow_add₀ (by norm_num),
        ← zpow_add₀ (by norm_num)]
      congr 1
      omega

theorem round_idem (hp : 0 < p) (hx : 0 < x) : round p (round p x) = round p x := by
  obtain ⟨n, k, hlow, hhigh, heq⟩ := exists_normal hp hx
  rw [heq]
  exact round_normal hp k hlow hhigh

/-- **Neighbours.**  Rounded numbers that differ do so by a bit in the last place. -/
theorem div_le_of_round_lt (hp : 0 < p) (hx : 0 < x) (hy : 0 < y) (h : round p x < round p y) :
    round p x / round p y ≤ 1 - 1 / 2 ^ p := by
  obtain ⟨n, k, hn, hn', hxeq⟩ := exists_normal hp hx
  obtain ⟨m, l, hm, hm', hyeq⟩ := exists_normal hp hy
  have hpos := round_pos hp hy
  have hhalf : (2 : ℚ) ^ p = 2 ^ (p - 1) * 2 := by
    rw [← pow_succ, Nat.sub_add_cancel hp]
  have hbig : (0 : ℚ) < 2 ^ p := by positivity
  have hn₁ : (2 : ℚ) ^ (p - 1) ≤ n := by exact_mod_cast hn
  have hm₁ : (2 : ℚ) ^ (p - 1) ≤ m := by exact_mod_cast hm
  have hm₂ : (m : ℚ) ≤ 2 ^ p := by exact_mod_cast hm'.le
  have hn₂ : (n : ℚ) ≤ 2 ^ p - 1 := by
    have hle : n ≤ 2 ^ p - 1 := by omega
    exact_mod_cast hle
  rw [div_le_iff₀ hpos]
  have hk : (0 : ℚ) < 2 ^ k := zpow_pos (by norm_num) _
  have hl : (0 : ℚ) < 2 ^ l := zpow_pos (by norm_num) _
  rw [hxeq, hyeq] at h ⊢
  rcases lt_trichotomy k l with hkl | rfl | hlk
  · -- a lower binade ends below the significand `2 ^ p`
    have hstep : (2 : ℚ) ^ k * 2 ≤ 2 ^ l := by
      calc (2 : ℚ) ^ k * 2 = 2 ^ (k + 1) := by rw [zpow_add_one₀ (by norm_num)]
        _ ≤ 2 ^ l := zpow_le_zpow_right₀ (by norm_num) (by omega)
    calc (n : ℚ) * 2 ^ k ≤ (2 ^ p - 1) * 2 ^ k := mul_le_mul_of_nonneg_right hn₂ hk.le
      _ ≤ (2 ^ p - 1) * (2 ^ l / 2) := by
          have hnonneg : (0 : ℚ) ≤ 2 ^ p - 1 := by
            have hone : (1 : ℚ) ≤ 2 ^ p := one_le_pow₀ (by norm_num)
            linarith
          refine mul_le_mul_of_nonneg_left ?_ hnonneg
          linarith
      _ = (1 - 1 / 2 ^ p) * (2 ^ (p - 1) * 2 ^ l) := by
          rw [hhalf]
          field_simp
      _ ≤ (1 - 1 / 2 ^ p) * (m * 2 ^ l) := by
          refine mul_le_mul_of_nonneg_left (mul_le_mul_of_nonneg_right hm₁ hl.le) ?_
          rw [sub_nonneg, div_le_one hbig]
          exact one_le_pow₀ (by norm_num)
  · have hlt : (n : ℚ) < m := lt_of_mul_lt_mul_right h hk.le
    have hle : (n : ℚ) ≤ m - 1 := by
      have hint : n < m := by exact_mod_cast hlt
      have hle : n ≤ m - 1 := by omega
      exact_mod_cast hle
    have hbit : (m : ℚ) * (1 / 2 ^ p) ≤ 1 := by
      rw [mul_one_div, div_le_one hbig]
      exact hm₂
    calc (n : ℚ) * 2 ^ k ≤ (m - m * (1 / 2 ^ p)) * 2 ^ k := by
          refine mul_le_mul_of_nonneg_right ?_ hk.le
          linarith
      _ = (1 - 1 / 2 ^ p) * (m * 2 ^ k) := by ring
  · exfalso
    have hstep : (2 : ℚ) ^ l * 2 ≤ 2 ^ k := by
      calc (2 : ℚ) ^ l * 2 = 2 ^ (l + 1) := by rw [zpow_add_one₀ (by norm_num)]
        _ ≤ 2 ^ k := zpow_le_zpow_right₀ (by norm_num) (by omega)
    have hle : (m : ℚ) * 2 ^ l ≤ n * 2 ^ k := by
      calc (m : ℚ) * 2 ^ l ≤ 2 ^ p * 2 ^ l := mul_le_mul_of_nonneg_right hm₂ hl.le
        _ = 2 ^ (p - 1) * (2 ^ l * 2) := by
            rw [hhalf]
            ring
        _ ≤ n * 2 ^ k := mul_le_mul hn₁ hstep (by positivity) (le_trans (by positivity) hn₁)
    exact absurd h (not_lt.mpr hle)

end Rounding
