import MetalNative.Optim.Turns

namespace MetalNative

open AdamHyper

/-!
# Adam and AdamW, parameter by parameter

`step` keeps the moments of each parameter, but one count for all of them.  With real arithmetic the
value of a parameter follows a recurrence of its own, in which the bias corrections are those of
the shared count.

* `AdamHyper.recur` — one step of the recurrence of `torch.optim.Adam` and `torch.optim.AdamW`, on
  one entry; `AdamHyper.alone` — a parameter on its own, counting its own updates.
* `run_shows` — a run is the recurrence with the shared counts.
* `AdamHyper.SameCorrection` — where two counts amount to the same;
  `recur_eq_iff_sameCorrection` says that it is exactly there.
* `adam_follows_recurrence` — every run whose turns meet it.
-/

/-- `MetalAdam`, or `MetalAdamW` with its decoupled weight decay. -/
def adamRule {F : Type*} (decoupled : Bool) (h : AdamHyper F) : UpdateRule F :=
  if decoupled then .adamW h else .adam h

/-! ### The recurrence -/

/-- An entry of a parameter, with its moments. -/
structure AdamEntry where
  value : ℝ
  m : ℝ := 0
  v : ℝ := 0
  v_max : ℝ := 0

namespace AdamHyper

/-- One step of the recurrence: `t` is the number of the update. -/
noncomputable def recur (h : AdamHyper ℝ) (decoupled : Bool) (t : ℕ) (s : AdamEntry) (g : ℝ) :
    AdamEntry :=
  let grad := if decoupled then g else g + h.weight_decay * s.value
  let m := h.betas.1 * s.m + (1 - h.betas.1) * grad
  let v := h.betas.2 * s.v + (1 - h.betas.2) * grad ^ 2
  let v_max := max s.v_max v
  let param := if decoupled then s.value * (1 - h.lr * h.weight_decay) else s.value
  let step_size := h.lr / (1 - h.betas.1 ^ t)
  let denom := √(if h.amsgrad then v_max else v) / √(1 - h.betas.2 ^ t) + h.eps
  { value := param - step_size * (m / denom), m, v, v_max }

/-- The recurrence with a list of gradients and of the count at each. -/
noncomputable def follow (h : AdamHyper ℝ) (decoupled : Bool) (s : AdamEntry)
    (gs : List (ℝ × ℕ)) : AdamEntry :=
  gs.foldl (fun s gt => h.recur decoupled gt.2 s gt.1) s

/-- The recurrence on a parameter alone, which counts its own updates from `1` on. -/
noncomputable def alone (h : AdamHyper ℝ) (decoupled : Bool) (x : ℝ) (gs : List ℝ) : AdamEntry :=
  h.follow decoupled { value := x } (gs.zipIdx 1)

/-- Two counts whose corrections amount to the same. -/
def SameCorrection (h : AdamHyper ℝ) (T t : ℕ) : Prop :=
  h.lr = 0 ∨ (h.betas.1 ^ T = h.betas.1 ^ t ∧ h.betas.2 ^ T = h.betas.2 ^ t) ∨
    h.eps = 0 ∧ (1 - h.betas.2 ^ T) * (1 - h.betas.1 ^ t) ^ 2
      = (1 - h.betas.2 ^ t) * (1 - h.betas.1 ^ T) ^ 2

/-- The bounds that `__init__` checks. -/
structure Checked (h : AdamHyper ℝ) : Prop where
  eps : 0 ≤ h.eps
  beta1_nonneg : 0 ≤ h.betas.1
  beta1_lt : h.betas.1 < 1
  beta2_nonneg : 0 ≤ h.betas.2
  beta2_lt : h.betas.2 < 1

end AdamHyper

/-- At each of its updates the shared count amounts to the number of that update. -/
def CountsAgree {A : Type*} (h : AdamHyper ℝ) (params : List ParamId) (p : ParamId)
    (gs : List (ParamId → Option A)) : Prop :=
  ∀ k gt, (turns params p 0 gs)[k]? = some gt → h.SameCorrection gt.2 (k + 1)

/-! ### Corrections -/

section Corrections

variable {h : AdamHyper ℝ} {T t : ℕ}

namespace AdamHyper

theorem Checked.correction1_pos (hc : h.Checked) (ht : 0 < t) : 0 < 1 - h.betas.1 ^ t :=
  sub_pos.mpr (pow_lt_one₀ hc.beta1_nonneg hc.beta1_lt ht.ne')

theorem Checked.correction2_pos (hc : h.Checked) (ht : 0 < t) : 0 < 1 - h.betas.2 ^ t :=
  sub_pos.mpr (pow_lt_one₀ hc.beta2_nonneg hc.beta2_lt ht.ne')

/-- What is subtracted from a parameter, for a count. -/
noncomputable def change (h : AdamHyper ℝ) (t : ℕ) (m v : ℝ) : ℝ :=
  h.lr / (1 - h.betas.1 ^ t) * (m / (√v / √(1 - h.betas.2 ^ t) + h.eps))

/-- Counts that amount to the same change a parameter by the same. -/
theorem SameCorrection.change_eq (hsame : h.SameCorrection T t) (hc : h.Checked) (hT : 0 < T)
    (ht : 0 < t) (m v : ℝ) : h.change T m v = h.change t m v := by
  unfold change
  obtain hlr | ⟨h1, h2⟩ | ⟨heps, hcross⟩ := hsame
  · rw [hlr, zero_div, zero_div, zero_mul, zero_mul]
  · rw [h1, h2]
  · -- without `eps` only the quotient of the corrections counts
    have hT1 := hc.correction1_pos hT
    have ht1 := hc.correction1_pos ht
    have hroots : √(1 - h.betas.2 ^ T) * (1 - h.betas.1 ^ t)
        = √(1 - h.betas.2 ^ t) * (1 - h.betas.1 ^ T) := by
      have hsqrt := congrArg Real.sqrt hcross
      rwa [Real.sqrt_mul (hc.correction2_pos hT).le, Real.sqrt_mul (hc.correction2_pos ht).le,
        Real.sqrt_sq ht1.le, Real.sqrt_sq hT1.le] at hsqrt
    have hquotient : √(1 - h.betas.2 ^ T) / (1 - h.betas.1 ^ T)
        = √(1 - h.betas.2 ^ t) / (1 - h.betas.1 ^ t) :=
      (div_eq_div_iff hT1.ne' ht1.ne').mpr hroots
    have hsplit : ∀ c1 c2 : ℝ, h.lr / c1 * (m / (√v / c2 + h.eps)) = h.lr * (m / √v) *
        (c2 / c1) := by
      intro c1 c2
      rw [heps, add_zero, div_div_eq_mul_div]
      ring
    rw [hsplit, hsplit, hquotient]

/-- And only these do, already for the first gradient. -/
theorem sameCorrection_of_change_eq (hc : h.Checked) (hT : 0 < T) (ht : 0 < t)
    (hchange : ∀ g : ℝ, 0 < g →
      h.change T ((1 - h.betas.1) * g) ((1 - h.betas.2) * g ^ 2)
        = h.change t ((1 - h.betas.1) * g) ((1 - h.betas.2) * g ^ 2)) :
    h.SameCorrection T t := by
  by_cases hlr : h.lr = 0
  · exact .inl hlr
  have hT1 := hc.correction1_pos hT
  have ht1 := hc.correction1_pos ht
  have hT2 := Real.sqrt_pos.mpr (hc.correction2_pos hT)
  have ht2 := Real.sqrt_pos.mpr (hc.correction2_pos ht)
  have hb1 : 0 < 1 - h.betas.1 := sub_pos.mpr hc.beta1_lt
  have hb2 : 0 < √(1 - h.betas.2) := Real.sqrt_pos.mpr (sub_pos.mpr hc.beta2_lt)
  have hroot : ∀ g : ℝ, 0 < g → √((1 - h.betas.2) * g ^ 2) = √(1 - h.betas.2) * g := by
    intro g hg
    rw [Real.sqrt_mul (sub_pos.mpr hc.beta2_lt).le, Real.sqrt_sq hg.le]
  -- cross-multiplied, the equation is linear in the gradient
  have hlinear : ∀ g : ℝ, 0 < g →
      √(1 - h.betas.2 ^ T) * (1 - h.betas.1 ^ t)
          * (√(1 - h.betas.2) * g + h.eps * √(1 - h.betas.2 ^ t))
        = √(1 - h.betas.2 ^ t) * (1 - h.betas.1 ^ T)
          * (√(1 - h.betas.2) * g + h.eps * √(1 - h.betas.2 ^ T)) := by
    intro g hg
    have heq := hchange g hg
    unfold change at heq
    rw [hroot g hg] at heq
    have hdiv : ∀ c1 c2 : ℝ, 0 < c1 → 0 < c2 →
        h.lr / c1 * ((1 - h.betas.1) * g / (√(1 - h.betas.2) * g / c2 + h.eps))
          = h.lr * (1 - h.betas.1) * g * (c2 / (c1 * (√(1 - h.betas.2) * g + h.eps * c2))) := by
      intro c1 c2 h1 h2
      have hsum : √(1 - h.betas.2) * g / c2 + h.eps
          = (√(1 - h.betas.2) * g + h.eps * c2) / c2 := by
        rw [add_div, mul_div_cancel_right₀ _ h2.ne']
      rw [hsum, div_div_eq_mul_div, ← div_div c2 c1]
      ring
    rw [hdiv _ _ hT1 hT2, hdiv _ _ ht1 ht2] at heq
    have hfactor : h.lr * (1 - h.betas.1) * g ≠ 0 := by positivity
    have hquotient := mul_left_cancel₀ hfactor heq
    have hposT : 0 < √(1 - h.betas.2) * g + h.eps * √(1 - h.betas.2 ^ T) :=
      add_pos_of_pos_of_nonneg (mul_pos hb2 hg) (mul_nonneg hc.eps hT2.le)
    have hpost : 0 < √(1 - h.betas.2) * g + h.eps * √(1 - h.betas.2 ^ t) :=
      add_pos_of_pos_of_nonneg (mul_pos hb2 hg) (mul_nonneg hc.eps ht2.le)
    rw [div_eq_div_iff (mul_pos hT1 hposT).ne' (mul_pos ht1 hpost).ne'] at hquotient
    linear_combination hquotient
  have hone := hlinear 1 one_pos
  have htwo := hlinear 2 two_pos
  have hroots : √(1 - h.betas.2 ^ T) * (1 - h.betas.1 ^ t)
      = √(1 - h.betas.2 ^ t) * (1 - h.betas.1 ^ T) := by
    apply mul_right_cancel₀ hb2.ne'
    linear_combination htwo - hone
  by_cases heps : h.eps = 0
  · refine .inr (.inr ⟨heps, ?_⟩)
    have hsquares := congrArg (· ^ 2) hroots
    simp only [mul_pow, Real.sq_sqrt (hc.correction2_pos hT).le,
      Real.sq_sqrt (hc.correction2_pos ht).le] at hsquares
    exact hsquares
  · -- with `eps` both corrections agree
    have hcorrection1 : 1 - h.betas.1 ^ t = 1 - h.betas.1 ^ T := by
      have hfactor : h.eps * (√(1 - h.betas.2 ^ T) * √(1 - h.betas.2 ^ t)) ≠ 0 := by positivity
      apply mul_left_cancel₀ hfactor
      linear_combination 2 * hone - htwo
    have hcorrection2 : √(1 - h.betas.2 ^ T) = √(1 - h.betas.2 ^ t) := by
      apply mul_right_cancel₀ hT1.ne'
      rwa [hcorrection1] at hroots
    have hsquares := congrArg (· ^ 2) hcorrection2
    simp only [Real.sq_sqrt (hc.correction2_pos hT).le,
      Real.sq_sqrt (hc.correction2_pos ht).le] at hsquares
    exact .inr (.inl ⟨by linarith, by linarith⟩)

/-- **The condition on counts**: two counts lead to the same step of the recurrence, whatever the
    moments and the gradient are, exactly where they amount to the same. -/
theorem recur_eq_iff_sameCorrection (hc : h.Checked) (decoupled : Bool) (hT : 0 < T) (ht : 0 < t) :
    (∀ s g, h.recur decoupled T s g = h.recur decoupled t s g) ↔ h.SameCorrection T t := by
  constructor
  · intro heq
    apply sameCorrection_of_change_eq hc hT ht
    intro g hg
    have hvalue := congrArg AdamEntry.value (heq { value := 0 } g)
    have hnonneg : 0 ≤ (1 - h.betas.2) * g ^ 2 :=
      mul_nonneg (sub_pos.mpr hc.beta2_lt).le (sq_nonneg g)
    unfold recur at hvalue
    simpa [change, max_eq_right hnonneg] using hvalue
  · intro hsame s g
    have hchange := hsame.change_eq hc hT ht
    unfold change at hchange
    unfold recur
    simp only [hchange]

end AdamHyper

end Corrections

/-! ### The code follows the recurrence -/

section Follows

variable {ι : Type} {format : ℝ → String} {h : AdamHyper ℝ} {decoupled : Bool}

/-- An entry of `state` and the value of a parameter are those of the recurrence, entry by entry. -/
structure Shows (h : AdamHyper ℝ) (entry : Option (ParamState (ι → ℝ))) (value : ι → ℝ)
    (s : ι → AdamEntry) : Prop where
  value : ∀ i, value i = (s i).value
  moments : (entry = none ∧ ∀ i, (s i).m = 0 ∧ (s i).v = 0 ∧ (s i).v_max = 0) ∨
    ∃ v_max, entry = some (.moments (fun i => (s i).m) (fun i => (s i).v) v_max) ∧
      (h.amsgrad = true → v_max = some fun i => (s i).v_max)

variable (format) in
/-- The moments that a turn begins with. -/
theorem Shows.momentsOf {entry : Option (ParamState (ι → ℝ))} {x : ι → ℝ} {s : ι → AdamEntry}
    (hs : Shows h entry x s) (g : ι → ℝ) :
    ∃ v_max, h.momentsOf (realOps ι format) g entry
        = some (fun i => (s i).m, fun i => (s i).v, v_max) ∧
      (h.amsgrad = true → v_max = some fun i => (s i).v_max) := by
  obtain ⟨rfl, hzero⟩ | ⟨v_max, rfl, hmax⟩ := hs.moments
  · have hm : (fun i => (s i).m) = fun _ => 0 := funext fun i => (hzero i).1
    have hv : (fun i => (s i).v) = fun _ => 0 := funext fun i => (hzero i).2.1
    have hmax : (fun i => (s i).v_max) = fun _ => 0 := funext fun i => (hzero i).2.2
    rw [hm, hv, hmax]
    refine ⟨_, rfl, ?_⟩
    intro hams
    rw [if_pos hams]
    rfl
  · exact ⟨v_max, rfl, hmax⟩

variable (format) in
/-- The moments after a gradient, and the change that they make. -/
theorem moments_eq (hc : h.Checked) {t : ℕ} (ht : 0 < t) (s : ι → AdamEntry) (g : ι → ℝ)
    {v_max : Option (ι → ℝ)} (hmax : h.amsgrad = true → v_max = some fun i => (s i).v_max) :
    ∃ v_max' m_hat v_hat, h.moments (realOps ι format) t g
        (fun i => (s i).m, fun i => (s i).v, v_max)
        = some (.moments (fun i => h.betas.1 * (s i).m + (1 - h.betas.1) * g i)
            (fun i => h.betas.2 * (s i).v + (1 - h.betas.2) * g i ^ 2) v_max', m_hat, v_hat) ∧
      (h.amsgrad = true → v_max' = some fun i =>
        max (s i).v_max (h.betas.2 * (s i).v + (1 - h.betas.2) * g i ^ 2)) ∧
      ∀ i, h.delta (realOps ι format) m_hat v_hat i
        = -h.change t (h.betas.1 * (s i).m + (1 - h.betas.1) * g i)
          (if h.amsgrad then max (s i).v_max (h.betas.2 * (s i).v + (1 - h.betas.2) * g i ^ 2)
            else h.betas.2 * (s i).v + (1 - h.betas.2) * g i ^ 2) := by
  have hpos := hc.correction2_pos ht
  have hdelta : ∀ m v : ℝ, -h.lr * (m / (1 - h.betas.1 ^ t)) / (√(v / (1 - h.betas.2 ^ t)) + h.eps)
      = -h.change t m v := by
    intro m v
    unfold change
    rw [Real.sqrt_div' v hpos.le]
    ring
  unfold moments
  cases hams : h.amsgrad with
  | false =>
    refine ⟨_, _, _, rfl, nofun, ?_⟩
    intro i
    exact hdelta _ _
  | true =>
    rw [hmax hams]
    refine ⟨_, _, _, rfl, fun _ => rfl, ?_⟩
    intro i
    exact hdelta _ _

variable (format decoupled) in
/-- A turn is one step of the recurrence. -/
theorem update_shows (hc : h.Checked) {t : ℕ} (ht : 0 < t) {entry : Option (ParamState (ι → ℝ))}
    {x : ι → ℝ} {s : ι → AdamEntry} (hs : Shows h entry x s) (g : ι → ℝ) :
    ∃ entry' y, (adamRule decoupled h).update (realOps ι format) t entry x g = some (entry', y) ∧
      Shows h entry' y fun i => h.recur decoupled t (s i) (g i) := by
  obtain ⟨v_max, hmoments, hmax⟩ := hs.momentsOf format g
  cases decoupled with
  | false =>
    have hgrad : (if (realOps ι format).eq h.weight_decay (realOps ι format).zero then g
        else (realOps ι format).add g ((realOps ι format).scale h.weight_decay x))
        = fun i => g i + h.weight_decay * (s i).value := by
      ext i
      by_cases hwd : h.weight_decay = 0
      · simp [realOps, hwd]
      · simp [realOps, hwd, hs.value i]
    obtain ⟨v_max', m_hat, v_hat, hnext, hmax', hdelta⟩ :=
      moments_eq format hc ht s (fun i => g i + h.weight_decay * (s i).value) hmax
    refine ⟨_, fun i => x i + h.delta (realOps ι format) m_hat v_hat i, ?_, ?_,
      .inr ⟨v_max', rfl, hmax'⟩⟩
    · show h.updateAdam (realOps ι format) t entry x g = _
      unfold updateAdam
      rw [hmoments, hgrad]
      simp only [Option.bind_eq_bind, Option.bind_some, hnext]
      rfl
    · intro i
      show x i + h.delta (realOps ι format) m_hat v_hat i = _
      rw [hdelta i, hs.value i, ← sub_eq_add_neg]
      rfl
  | true =>
    have hparam : (if (realOps ι format).eq h.weight_decay (realOps ι format).zero then x
        else (realOps ι format).scale ((realOps ι format).sub (realOps ι format).one
          ((realOps ι format).mul h.lr h.weight_decay)) x)
        = fun i => (s i).value * (1 - h.lr * h.weight_decay) := by
      ext i
      by_cases hwd : h.weight_decay = 0
      · simp [realOps, hwd, hs.value i]
      · simp [realOps, hwd, hs.value i, mul_comm]
    obtain ⟨v_max', m_hat, v_hat, hnext, hmax', hdelta⟩ := moments_eq format hc ht s g hmax
    refine ⟨_, fun i => (s i).value * (1 - h.lr * h.weight_decay)
      + h.delta (realOps ι format) m_hat v_hat i, ?_, ?_, .inr ⟨v_max', rfl, hmax'⟩⟩
    · show h.updateAdamW (realOps ι format) t entry x g = _
      unfold updateAdamW
      rw [hmoments]
      simp only [Option.bind_eq_bind, Option.bind_some, hnext, hparam]
      rfl
    · intro i
      show (s i).value * (1 - h.lr * h.weight_decay) + h.delta (realOps ι format) m_hat v_hat i = _
      rw [hdelta i, ← sub_eq_add_neg]
      rfl

/-! ### Runs -/

variable {params : List ParamId} {opt : Optimizer ℝ}

theorem AdamHyper.follow_append (h : AdamHyper ℝ) (decoupled : Bool) (s : AdamEntry)
    (gs hs : List (ℝ × ℕ)) :
    h.follow decoupled s (gs ++ hs) = h.follow decoupled (h.follow decoupled s gs) hs :=
  List.foldl_append ..

/-- The entries of a parameter follow the recurrence one by one. -/
theorem follow_entries (s : ι → AdamEntry) (gs : List ((ι → ℝ) × ℕ)) :
    followTurns (fun t s g i => h.recur decoupled t (s i) (g i)) s gs
      = fun i => h.follow decoupled (s i) (gs.map fun gt => (gt.1 i, gt.2)) := by
  induction gs generalizing s with
  | nil => rfl
  | cons gt rest ih => exact ih _

variable (format params) in
/-- The turns of a step. -/
theorem foldlM_shows (hc : h.Checked) (hrule : opt.rule = adamRule decoupled h)
    (hcount : 0 < opt.step_count) {w : PyHeap (ι → ℝ)} {s : ParamId → ι → AdamEntry}
    (hs : ∀ p, Shows h (w.dict opt.state p) (w.value p) (s p)) :
    ∃ w', params.foldlM (opt.stepParam (realOps ι format)) w = some w' ∧
      ∀ p, Shows h (w'.dict opt.state p) (w'.value p) fun i =>
        h.follow decoupled (s p i)
          ((stepTurns params p opt.step_count w.grad).map fun gt => (gt.1 i, gt.2)) := by
  have hupdate : opt.Follows (realOps ι format) (Shows h)
      fun t s g i => h.recur decoupled t (s i) (g i) := by
    intro entry x s g hshows
    rw [hrule]
    exact update_shows format decoupled hc hcount hshows g
  obtain ⟨w', hfold, hshows⟩ := hupdate.foldlM params hs
  refine ⟨w', hfold, fun p => ?_⟩
  rw [← follow_entries]
  exact hshows p

theorem count_step_count (hrule : opt.rule = adamRule decoupled h) :
    opt.count.step_count = opt.step_count + 1 := by
  unfold Optimizer.count
  rw [hrule]
  cases decoupled <;> rfl

variable (format) in
/-- **A run is the recurrence with the shared counts**: no turn fails, and each parameter has gone
    through its own turns. -/
theorem run_shows (hc : h.Checked) (hrule : opt.rule = adamRule decoupled h)
    {w : PyHeap (ι → ℝ)} {s : ParamId → ι → AdamEntry}
    (hs : ∀ p, Shows h (w.dict opt.state p) (w.value p) (s p))
    (gs : List (ParamId → Option (ι → ℝ))) :
    ∃ w' opt', opt.run (realOps ι format) w gs = some (w', opt') ∧
      ∀ p i, w'.value p i = (h.follow decoupled (s p i)
        ((turns opt.params p opt.step_count gs).map fun gt => (gt.1 i, gt.2))).value := by
  induction gs generalizing opt w s with
  | nil => exact ⟨w, opt, rfl, fun p i => (hs p).value i⟩
  | cons grads rest ih =>
    have hcount := count_step_count hrule
    have hrule' : opt.count.rule = adamRule decoupled h := by rw [count_rule, hrule]
    have hs' : ∀ p, Shows h ({ w with grad := grads }.dict opt.count.state p)
        ({ w with grad := grads }.value p) (s p) := by
      rw [count_state]
      exact hs
    obtain ⟨u, hu, hshows⟩ := foldlM_shows format opt.params hc hrule' (by omega) hs'
    obtain ⟨w', opt', hrun, hvalue⟩ := ih hrule' hshows
    refine ⟨w', opt', ?_, ?_⟩
    · rw [Optimizer.run, step_eq, hu]
      exact hrun
    · intro p i
      rw [hvalue p i, count_params, hcount]
      simp only [turns, List.map_append, follow_append]

/-! ### Shared counts and own counts -/

/-- Where each shared count amounts to the number of the update, the recurrence is that of the
    parameter alone. -/
theorem follow_eq_of_sameCorrection (hc : h.Checked) (gs : List (ℝ × ℕ)) {k : ℕ}
    (hpos : ∀ gt ∈ gs, 0 < gt.2)
    (hsame : ∀ j gt, gs[j]? = some gt → h.SameCorrection gt.2 (k + j + 1)) (s : AdamEntry) :
    h.follow decoupled s gs = h.follow decoupled s ((gs.map Prod.fst).zipIdx (k + 1)) := by
  induction gs generalizing k s with
  | nil => rfl
  | cons gt rest ih =>
    have hnow : h.recur decoupled gt.2 s gt.1 = h.recur decoupled (k + 1) s gt.1 :=
      (recur_eq_iff_sameCorrection hc decoupled (hpos gt (List.mem_cons_self ..))
        (Nat.succ_pos k)).mpr (hsame 0 gt rfl) s gt.1
    have hlater := ih (fun gt' hgt' => hpos gt' (List.mem_cons_of_mem _ hgt'))
      (fun j gt' hgt' => by
        have hj := hsame (j + 1) gt' hgt'
        rwa [show k + (j + 1) + 1 = k + 1 + j + 1 by omega] at hj) (h.recur decoupled gt.2 s gt.1)
    rw [hnow] at hlater
    show h.follow decoupled (h.recur decoupled gt.2 s gt.1) rest = _
    rw [hnow, hlater]
    rfl

/-- The checks of `__init__` bound the hyper-parameters. -/
theorem checked_of_check (hcheck : (adamRule decoupled h).check (realOps ι format) = .ok ()) :
    h.Checked := by
  have hcheck' : h.check (realOps ι format) = .ok () := by
    cases decoupled <;> exact hcheck
  simp only [check, realOps, decide_eq_true_eq, Bool.not_eq_true', Bool.and_eq_false_iff,
    decide_eq_false_iff_not, not_lt, not_le] at hcheck'
  -- each check that fails throws
  by_cases hlr : h.lr < 0
  · rw [if_pos hlr] at hcheck'
    cases hcheck'
  rw [if_neg hlr] at hcheck'
  by_cases heps : h.eps < 0
  · rw [if_pos heps] at hcheck'
    cases hcheck'
  rw [if_neg heps] at hcheck'
  by_cases hbeta1 : h.betas.1 < 0 ∨ 1 ≤ h.betas.1
  · rw [if_pos hbeta1] at hcheck'
    cases hcheck'
  rw [if_neg hbeta1] at hcheck'
  by_cases hbeta2 : h.betas.2 < 0 ∨ 1 ≤ h.betas.2
  · rw [if_pos hbeta2] at hcheck'
    cases hcheck'
  push Not at heps hbeta1 hbeta2
  exact ⟨heps, hbeta1.1, hbeta1.2, hbeta2.1, hbeta2.2⟩

/-- A new optimizer: nothing has been counted, and each parameter is at the start of its
    recurrence. -/
theorem init_shows {w₀ w : PyHeap (ι → ℝ)}
    (hinit : Optimizer.init (realOps ι format) (adamRule decoupled h) params w₀ = .ok (w, opt)) :
    h.Checked ∧ opt.rule = adamRule decoupled h ∧ opt.params = params ∧ opt.step_count = 0 ∧
      ∀ p, Shows h (w.dict opt.state p) (w.value p) fun i => { value := w₀.value p i } := by
  obtain ⟨hcheck, hvalue, hrule, hparams, hdict⟩ := init_ok hinit
  have hzero : opt.step_count = 0 := by
    unfold Optimizer.init at hinit
    rw [hcheck] at hinit
    obtain ⟨rfl, rfl⟩ := Prod.mk.inj (Except.ok.inj hinit)
    rfl
  refine ⟨checked_of_check hcheck, hrule, hparams, hzero, ?_⟩
  intro p
  rw [hdict, hvalue]
  exact ⟨fun _ => rfl, .inl ⟨rfl, fun _ => ⟨rfl, rfl, rfl⟩⟩⟩

end Follows

/-- **Adam and AdamW.**  A run over any parameters never fails, and in it the value of each
    parameter at whose updates the shared count amounts to its own is that of its recurrence alone,
    with the gradients that it received. -/
theorem adam_follows_recurrence {ι : Type} {format : ℝ → String} {decoupled : Bool}
    {h : AdamHyper ℝ} {params : List ParamId} {w₀ w : PyHeap (ι → ℝ)} {opt : Optimizer ℝ}
    (hinit : Optimizer.init (realOps ι format) (adamRule decoupled h) params w₀ = .ok (w, opt))
    (gs : List (ParamId → Option (ι → ℝ))) :
    ∃ w' opt', opt.run (realOps ι format) w gs = some (w', opt') ∧
      ∀ p, CountsAgree h params p gs → ∀ i, w'.value p i
        = (h.alone decoupled (w₀.value p i) ((turns params p 0 gs).map fun gt =>
          gt.1 i)).value := by
  obtain ⟨hc, hrule, hparams, hzero, hs⟩ := init_shows hinit
  obtain ⟨w', opt', hrun, hruns⟩ := run_shows format hc hrule hs gs
  refine ⟨w', opt', hrun, ?_⟩
  intro p hagree i
  rw [hruns p i, hparams, hzero]
  have hpos : ∀ gt ∈ (turns params p 0 gs).map fun gt => (gt.1 i, gt.2), 0 < gt.2 := by
    intro gt hgt
    obtain ⟨gt', hgt', rfl⟩ := List.mem_map.mp hgt
    have hlt := count_pos_of_mem_turns hgt'
    exact hlt
  have hsame : ∀ j gt, ((turns params p 0 gs).map fun gt => (gt.1 i, gt.2))[j]? = some gt →
      h.SameCorrection gt.2 (0 + j + 1) := by
    intro j gt hgt
    rw [List.getElem?_map] at hgt
    obtain ⟨gt', hgt', rfl⟩ := Option.map_eq_some_iff.mp hgt
    rw [Nat.zero_add]
    exact hagree j gt' hgt'
  rw [follow_eq_of_sameCorrection hc _ hpos hsame, List.map_map]
  rfl

/-- A parameter that is listed once and has a gradient at every step counts as the optimizer
does. -/
theorem countsAgree_of_always {A : Type*} {h : AdamHyper ℝ} {params : List ParamId} {p : ParamId}
    (hcount : params.count p = 1) {gs : List (ParamId → Option A)}
    (halways : ∀ grads ∈ gs, grads p ≠ none) : CountsAgree h params p gs := by
  have hturns : ∀ (count : ℕ) (gs : List (ParamId → Option A)), (∀ grads ∈ gs, grads p ≠ none) →
      ∀ k gt, (turns params p count gs)[k]? = some gt → gt.2 = count + k + 1 := by
    intro count gs
    induction gs generalizing count with
    | nil =>
      intro _ k gt hgt
      cases hgt
    | cons grads rest ih =>
      intro halways k gt hgt
      obtain ⟨g, hg⟩ := Option.ne_none_iff_exists'.mp (halways grads (List.mem_cons_self ..))
      have hstep : stepTurns params p (count + 1) grads = [(g, count + 1)] := by
        unfold stepTurns
        rw [hg, hcount]
        rfl
      rw [turns, hstep, List.singleton_append] at hgt
      cases k with
      | zero =>
        obtain rfl := Option.some.inj hgt
        rfl
      | succ k =>
        rw [List.getElem?_cons_succ] at hgt
        rw [ih (count + 1) (fun grads' hgrads' => halways grads' (List.mem_cons_of_mem _ hgrads')) k
          gt hgt]
        omega
  intro k gt hgt
  rw [hturns 0 gs halways k gt hgt, Nat.zero_add]
  exact .inr (.inl ⟨rfl, rfl⟩)

/-- A learning rate of `1`, and averages over two gradients and over one. -/
noncomputable def halfAdam : AdamHyper ℝ := ⟨1, (1 / 2, 0), 1, 0, false⟩

/-- Parameters that are zero. -/
def zeroParams : PyHeap (Unit → ℝ) where
  value := fun _ _ => 0

theorem init_halfAdam (params : List ParamId) : ∃ w opt,
    Optimizer.init (realOps Unit fun _ => "") (adamRule false halfAdam) params zeroParams
      = .ok (w, opt) := by
  apply exists_init
  show halfAdam.check (realOps Unit fun _ => "") = .ok ()
  simp only [check, realOps, halfAdam]
  norm_num
  rfl

theorem adam_follows_recurrence_one_step : ∃ w opt w' opt',
    Optimizer.init (realOps Unit fun _ => "") (adamRule false halfAdam) [0, 1] zeroParams
      = .ok (w, opt) ∧
    opt.run (realOps Unit fun _ => "") w [fun _ => some fun _ => 1] = some (w', opt') ∧
    w'.value 0 () = (halfAdam.alone false 0 [1]).value := by
  obtain ⟨w, opt, hinit⟩ := init_halfAdam [0, 1]
  obtain ⟨w', opt', hrun, hvalue⟩ := adam_follows_recurrence hinit [fun _ => some fun _ => 1]
  have hagree : CountsAgree halfAdam [0, 1] 0 [fun _ => some fun _ : Unit => (1 : ℝ)] :=
    countsAgree_of_always rfl (by simp)
  exact ⟨w, opt, w', opt', hinit, hrun, hvalue 0 hagree ()⟩

/-- A parameter whose first gradient comes at the second step: the correction is that of two
    steps. -/
theorem late_gradient_misses_recurrence : ∃ w opt w' opt',
    Optimizer.init (realOps Unit fun _ => "") (adamRule false halfAdam) [0] zeroParams
      = .ok (w, opt) ∧
    opt.run (realOps Unit fun _ => "") w [fun _ => none, fun _ => some fun _ => 1]
      = some (w', opt') ∧
    w'.value 0 () ≠ (halfAdam.alone false 0 [1]).value := by
  obtain ⟨w, opt, hinit⟩ := init_halfAdam [0]
  obtain ⟨hc, hrule, hparams, hzero, hs⟩ := init_shows hinit
  obtain ⟨w', opt', hrun, hruns⟩ := run_shows (fun _ => "") hc hrule hs
    [fun _ => none, fun _ => some fun _ => 1]
  refine ⟨w, opt, w', opt', hinit, hrun, ?_⟩
  rw [hruns 0 (), hparams, hzero]
  have hshared : (halfAdam.follow false { value := 0 } [(1, 2)]).value = -(1 / 3) := by
    simp only [follow, recur, halfAdam, List.foldl_cons, List.foldl_nil]
    norm_num
  have halone : (halfAdam.alone false 0 [1]).value = -(1 / 2) := by
    simp only [alone, follow, recur, halfAdam, List.zipIdx_cons,
      List.zipIdx_nil, List.foldl_cons, List.foldl_nil]
    norm_num
  rw [halone]
  show (halfAdam.follow false { value := 0 } [(1, 2)]).value ≠ _
  rw [hshared]
  norm_num

end MetalNative
