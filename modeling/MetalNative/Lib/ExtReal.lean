import Mathlib.Analysis.SpecialFunctions.Exp
import Mathlib.Analysis.SpecialFunctions.Sqrt

/-!
# Exact floating-point arithmetic with its special values

`ExtReal` has the real numbers, the two infinities and the value that is not a number.  Finite
results are exact, the special values follow the rules of floating-point arithmetic; a zero has no
sign.

* `ExtReal.instAddCommMonoid` — sums do not depend on the order.
* `ExtReal.sum_real`, `ExtReal.sum_eq_nan` — a sum of numbers, and one with a term that is none.
* `ExtReal.exp_sub_ofBot`, `ExtReal.exp_bot_sub_bot` — the exponential of a difference of values
  below infinity: `weight`, unless both are minus infinity.
-/

/-- A floating-point value, with exact finite values. -/
inductive ExtReal where
  | nan
  | negInf
  | posInf
  | real (x : ℝ)

namespace ExtReal

/-! ### Arithmetic -/

/-- Addition. -/
noncomputable def add : ExtReal → ExtReal → ExtReal
  | nan, _ => nan
  | _, nan => nan
  | negInf, posInf => nan
  | posInf, negInf => nan
  | negInf, _ => negInf
  | _, negInf => negInf
  | posInf, _ => posInf
  | _, posInf => posInf
  | real x, real y => real (x + y)

/-- The sign changed. -/
noncomputable def neg : ExtReal → ExtReal
  | nan => nan
  | negInf => posInf
  | posInf => negInf
  | real x => real (-x)

open Classical in
/-- Infinity with the sign of a number; zero times infinity is no number. -/
noncomputable def signedInf (x : ℝ) : ExtReal :=
  if x = 0 then nan else if 0 < x then posInf else negInf

/-- Multiplication. -/
noncomputable def mul : ExtReal → ExtReal → ExtReal
  | nan, _ => nan
  | _, nan => nan
  | negInf, posInf => negInf
  | negInf, negInf => posInf
  | posInf, negInf => negInf
  | posInf, posInf => posInf
  | real x, posInf => signedInf x
  | real x, negInf => signedInf (-x)
  | posInf, real x => signedInf x
  | negInf, real x => signedInf (-x)
  | real x, real y => real (x * y)

open Classical in
/-- Division. -/
noncomputable def div : ExtReal → ExtReal → ExtReal
  | nan, _ => nan
  | _, nan => nan
  | real _, posInf => real 0
  | real _, negInf => real 0
  | posInf, real y => if y < 0 then negInf else posInf
  | negInf, real y => if y < 0 then posInf else negInf
  | real x, real y => if y = 0 then signedInf x else real (x / y)
  | _, _ => nan

/-- The exponential function. -/
noncomputable def exp : ExtReal → ExtReal
  | nan => nan
  | negInf => real 0
  | posInf => posInf
  | real x => real (Real.exp x)

open Classical in
/-- The square root. -/
noncomputable def sqrt : ExtReal → ExtReal
  | real x => if x < 0 then nan else real (Real.sqrt x)
  | posInf => posInf
  | _ => nan

/-- The larger of two values; one that is not a number is left out. -/
noncomputable def max : ExtReal → ExtReal → ExtReal
  | nan, y => y
  | x, nan => x
  | negInf, y => y
  | x, negInf => x
  | posInf, _ => posInf
  | _, posInf => posInf
  | real x, real y => real (x ⊔ y)

/-- The smaller of two values; one that is not a number is left out. -/
protected noncomputable def min (x y : ExtReal) : ExtReal := neg (max (neg x) (neg y))

/-- The comparison `x < y`, false for what is not a number. -/
def lt : ExtReal → ExtReal → Prop
  | nan, _ => False
  | _, nan => False
  | _, negInf => False
  | negInf, _ => True
  | posInf, _ => False
  | _, posInf => True
  | real x, real y => x < y

noncomputable instance : Add ExtReal := ⟨add⟩
noncomputable instance : Neg ExtReal := ⟨neg⟩
noncomputable instance : Sub ExtReal := ⟨fun x y => x + -y⟩
noncomputable instance : Mul ExtReal := ⟨mul⟩
noncomputable instance : Div ExtReal := ⟨div⟩
instance : LT ExtReal := ⟨lt⟩
noncomputable instance : Zero ExtReal := ⟨real 0⟩

instance : Nontrivial ExtReal where
  exists_pair_ne := ⟨nan, posInf, nofun⟩

@[simp] theorem real_add (x y : ℝ) : real x + real y = real (x + y) := rfl

@[simp] theorem real_sub (x y : ℝ) : real x - real y = real (x - y) := by
  show real (x + -y) = real (x - y)
  rw [sub_eq_add_neg]

@[simp] theorem real_mul (x y : ℝ) : real x * real y = real (x * y) := rfl

@[simp] theorem exp_real (x : ℝ) : exp (real x) = real (Real.exp x) := rfl

@[simp] theorem real_lt (x y : ℝ) : real x < real y ↔ x < y := Iff.rfl

@[simp] theorem zero_eq : (0 : ExtReal) = real 0 := rfl

theorem real_div {x y : ℝ} (hy : y ≠ 0) : real x / real y = real (x / y) := by
  show (if y = 0 then signedInf x else real (x / y)) = real (x / y)
  rw [if_neg hy]

/-- A square root is divided by, or its reciprocal multiplied with: also where it is zero or
none. -/
theorem mul_one_div_sqrt (x y : ℝ) :
    real x * (real 1 / sqrt (real y)) = real x / sqrt (real y) := by
  rcases lt_trichotomy y 0 with hy | rfl | hy
  · have hnan : sqrt (real y) = nan := if_pos hy
    rw [hnan]
    rfl
  · have hzero : sqrt (real 0) = real 0 := by
      show (if (0 : ℝ) < 0 then nan else real (Real.sqrt 0)) = real 0
      rw [if_neg (lt_irrefl _), Real.sqrt_zero]
    have hinf : real 1 / real 0 = posInf := by
      show (if (0 : ℝ) = 0 then signedInf 1 else real (1 / 0)) = posInf
      rw [if_pos rfl, signedInf, if_neg one_ne_zero, if_pos one_pos]
    have hdiv : real x / real 0 = signedInf x := if_pos rfl
    rw [hzero, hinf, hdiv]
    rfl
  · have hroot : sqrt (real y) = real (Real.sqrt y) := if_neg (not_lt.mpr hy.le)
    have hne : Real.sqrt y ≠ 0 := (Real.sqrt_pos.mpr hy).ne'
    rw [hroot, real_div hne, real_div hne, real_mul, mul_one_div]

@[simp] theorem nan_add (x : ExtReal) : nan + x = nan := rfl

@[simp] theorem add_nan (x : ExtReal) : x + nan = nan := by cases x <;> rfl

@[simp] theorem nan_mul (x : ExtReal) : nan * x = nan := rfl

@[simp] theorem mul_nan (x : ExtReal) : x * nan = nan := by cases x <;> rfl

@[simp] theorem nan_div (x : ExtReal) : nan / x = nan := rfl

@[simp] theorem div_nan (x : ExtReal) : x / nan = nan := by cases x <;> rfl

@[simp] theorem exp_nan : exp nan = nan := rfl

/-! ### Sums -/

theorem add_comm' (x y : ExtReal) : x + y = y + x := by
  cases x with
  | real a =>
    cases y with
    | real b => rw [real_add, real_add, add_comm]
    | _ => rfl
  | _ => cases y <;> rfl

theorem add_assoc' (x y z : ExtReal) : x + y + z = x + (y + z) := by
  cases x with
  | real a =>
    cases y with
    | real b =>
      cases z with
      | real c => simp only [real_add, add_assoc]
      | _ => rfl
    | _ => cases z <;> rfl
  | _ => cases y <;> cases z <;> rfl

theorem zero_add' (x : ExtReal) : 0 + x = x := by
  cases x with
  | real a => rw [zero_eq, real_add, zero_add]
  | _ => rfl

/-- **Sums do not depend on the order.** -/
noncomputable instance instAddCommMonoid : AddCommMonoid ExtReal where
  add_assoc := add_assoc'
  zero_add := zero_add'
  add_zero := fun x => (add_comm' x 0).trans (zero_add' x)
  add_comm := add_comm'
  nsmul := nsmulRec

variable {ι : Type*}

/-- The sum of numbers. -/
theorem sum_real (s : Finset ι) (f : ι → ℝ) : ∑ i ∈ s, real (f i) = real (∑ i ∈ s, f i) := by
  induction s using Finset.cons_induction with
  | empty => simp
  | cons i s hi ih => rw [Finset.sum_cons, Finset.sum_cons, ih, real_add]

/-- A term that is not a number. -/
theorem sum_eq_nan {s : Finset ι} {f : ι → ExtReal} {i : ι} (hi : i ∈ s) (h : f i = nan) :
    ∑ i ∈ s, f i = nan := by
  classical
  rw [← Finset.add_sum_erase s f hi, h, nan_add]

/-! ### Values below infinity -/

/-- A value that is finite or minus infinity. -/
def ofBot (a : WithBot ℝ) : ExtReal := WithBot.recBotCoe negInf real a

@[simp] theorem ofBot_bot : ofBot ⊥ = negInf := rfl

@[simp] theorem ofBot_coe (x : ℝ) : ofBot (x : WithBot ℝ) = real x := rfl

@[simp] theorem max_ofBot (a b : WithBot ℝ) : max (ofBot a) (ofBot b) = ofBot (a ⊔ b) := by
  induction a using WithBot.recBotCoe with
  | bot =>
    rw [bot_sup_eq]
    cases b using WithBot.recBotCoe <;> rfl
  | coe x =>
    induction b using WithBot.recBotCoe with
    | bot =>
      rw [sup_bot_eq]
      rfl
    | coe y =>
      rw [← WithBot.coe_sup]
      rfl

@[simp] theorem ofBot_lt (a b : WithBot ℝ) : ofBot a < ofBot b ↔ a < b := by
  induction b using WithBot.recBotCoe with
  | bot =>
    simp only [not_lt_bot, iff_false]
    cases a using WithBot.recBotCoe <;> exact fun h => h
  | coe y =>
    induction a using WithBot.recBotCoe with
    | bot =>
      simp only [WithBot.bot_lt_coe, iff_true]
      exact trivial
    | coe x =>
      rw [WithBot.coe_lt_coe]
      rfl

/-- `exp (a - m)` where `a` may be minus infinity; `m` is a bound of `a`. -/
noncomputable def weight (a m : WithBot ℝ) : ℝ :=
  WithBot.recBotCoe 0 (fun x => WithBot.recBotCoe 0 (fun y => Real.exp (x - y)) m) a

@[simp] theorem weight_bot (m : WithBot ℝ) : weight ⊥ m = 0 := rfl

@[simp] theorem weight_coe (x y : ℝ) : weight (x : WithBot ℝ) (y : WithBot ℝ) = Real.exp (x - y) :=
  rfl

theorem weight_nonneg (a m : WithBot ℝ) : 0 ≤ weight a m := by
  induction a using WithBot.recBotCoe with
  | bot => simp
  | coe x =>
    induction m using WithBot.recBotCoe with
    | bot => exact le_refl 0
    | coe y => exact (Real.exp_pos _).le

theorem weight_pos {a m : WithBot ℝ} (ha : a ≠ ⊥) (hle : a ≤ m) : 0 < weight a m := by
  obtain ⟨x, rfl⟩ := WithBot.ne_bot_iff_exists.mp ha
  obtain ⟨y, rfl⟩ := WithBot.ne_bot_iff_exists.mp (ne_bot_of_le_ne_bot ha hle)
  exact Real.exp_pos _

/-- The largest value has weight one. -/
theorem weight_self {a : WithBot ℝ} (ha : a ≠ ⊥) : weight a a = 1 := by
  obtain ⟨x, rfl⟩ := WithBot.ne_bot_iff_exists.mp ha
  simp

/-- **Rescaling.** A weight below one bound, carried over to a larger bound. -/
theorem weight_mul_weight {a m m' : WithBot ℝ} (ha : a ≤ m) (hm : m ≤ m') :
    weight a m * weight m m' = weight a m' := by
  by_cases hbot : a = ⊥
  · simp [hbot]
  · have hm0 := ne_bot_of_le_ne_bot hbot ha
    obtain ⟨x, rfl⟩ := WithBot.ne_bot_iff_exists.mp hbot
    obtain ⟨y, rfl⟩ := WithBot.ne_bot_iff_exists.mp hm0
    obtain ⟨z, rfl⟩ := WithBot.ne_bot_iff_exists.mp (ne_bot_of_le_ne_bot hm0 hm)
    rw [weight_coe, weight_coe, weight_coe, ← Real.exp_add, sub_add_sub_cancel]

/-- The exponential of a difference. -/
theorem exp_sub_ofBot {a m : WithBot ℝ} (hm : m ≠ ⊥) :
    exp (ofBot a - ofBot m) = real (weight a m) := by
  obtain ⟨y, rfl⟩ := WithBot.ne_bot_iff_exists.mp hm
  induction a using WithBot.recBotCoe with
  | bot => rfl
  | coe x => rw [ofBot_coe, ofBot_coe, real_sub, exp_real, weight_coe]

/-- Minus infinity has no distance from itself. -/
theorem exp_bot_sub_bot : exp (ofBot ⊥ - ofBot ⊥) = nan := rfl

end ExtReal
