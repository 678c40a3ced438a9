import MetalNative.Core.Words
import MetalNative.Lib.Rounding
import MetalNative.Memory.BudgetController

namespace MetalNative

/-!
# `BatchSizeAdvisor`

A translation of `batch_advisor.mm`.  Products are taken in `size_t`; `float` and `double` round to
24 and 53 bits.

* `recommend` — the advice for a snapshot of the budget.
* `AdviceSound` — what the advice promises, when `left` bytes are there for activations.
* `batch_advice_fits_iff` — when it does.
-/

/-- `BatchSizeRecommendation`. -/
structure BatchSizeRecommendation where
  recommended_batch : ℕ
  max_batch : ℕ
  min_batch : ℕ
  memory_per_sample : ℕ
  utilization : ℚ

namespace BatchSizeAdvisor

/-- `dtype_size`. -/
def dtype_size (dtype : MNDType) : ℕ :=
  if dtype = .Float16 then 2 else if dtype = .BFloat16 then 2 else 4

/-- `activation_per_sample`. -/
def activation_per_sample (seq_len hidden_dim : ℕ) (dtype : MNDType) : ℕ :=
  seq_len * hidden_dim % sizeTRange * dtype_size dtype % sizeTRange * 4 % sizeTRange

/-- Three quarters of the largest batch, in `double`, and no less than one. -/
def target (max_batch : ℕ) : ℕ :=
  max 1 ⌊Rounding.round 53 (Rounding.round 53 max_batch * (3 / 4))⌋₊

/-- `recommend`; the bytes of the model are not read. -/
def recommend (snap : BudgetSnapshot) (_model_bytes seq_len hidden_dim : ℕ) (dtype : MNDType) :
    BatchSizeRecommendation :=
  let headroom := snap.distributable
  let bytes := activation_per_sample seq_len hidden_dim dtype
  if bytes = 0 then ⟨1, 1, 1, bytes, 0⟩
  else
    let max_batch := if headroom / bytes = 0 then 1 else headroom / bytes
    let recommended_batch := target max_batch
    { recommended_batch
      max_batch
      min_batch := 1
      memory_per_sample := bytes
      utilization := Rounding.round 24
        (Rounding.round 24 (recommended_batch * bytes % sizeTRange : ℕ)
          / Rounding.round 24 (if headroom > 0 then headroom else 1 : ℕ)) }

/-- What is asked of the advice when `left` bytes are left for activations. -/
structure AdviceSound (left seq_len hidden_dim : ℕ) (dtype : MNDType)
    (advice : BatchSizeRecommendation) : Prop where
  /-- No product is more than a `size_t`. -/
  exact : seq_len * hidden_dim < sizeTRange ∧ seq_len * hidden_dim * dtype_size dtype < sizeTRange ∧
    seq_len * hidden_dim * dtype_size dtype * 4 < sizeTRange ∧
    advice.recommended_batch * advice.memory_per_sample < sizeTRange
  batches : 1 ≤ advice.recommended_batch ∧ advice.recommended_batch ≤ advice.max_batch
  sample : advice.memory_per_sample = 4 * seq_len * hidden_dim * dtypeSize dtype
  fits : advice.memory_per_sample ≤ left → advice.max_batch * advice.memory_per_sample ≤ left
  utilization : advice.memory_per_sample ≤ left → advice.utilization ≤ 1

/-- The bytes of a sample have 64 bits, and the advisor knows the size of the type. -/
def Plain (seq_len hidden_dim : ℕ) (dtype : MNDType) : Prop :=
  4 * seq_len * hidden_dim * dtypeSize dtype < sizeTRange ∧
    (dtype_size dtype = dtypeSize dtype ∨ seq_len * hidden_dim = 0)

variable {seq_len hidden_dim : ℕ} {dtype : MNDType}

/-- Three quarters of a number are not more than it, rounded twice. -/
theorem target_le {n : ℕ} (hn : 0 < n) : 1 ≤ target n ∧ target n ≤ n := by
  refine ⟨le_max_left 1 _, max_le hn (Nat.floor_le_of_le ?_)⟩
  have hpos : (0 : ℚ) < n := by exact_mod_cast hn
  have hdouble := Rounding.round_pos (p := 53) (by decide) hpos
  have hfirst := Rounding.round_le_add (p := 53) (by decide) hpos
  calc Rounding.round 53 (Rounding.round 53 n * (3 / 4))
      ≤ Rounding.round 53 n * (3 / 4) * (1 + 1 / 2 ^ 53) :=
        Rounding.round_le_add (by decide) (by positivity)
    _ ≤ n * (1 + 1 / 2 ^ 53) * (3 / 4) * (1 + 1 / 2 ^ 53) := by gcongr
    _ = n * ((1 + 1 / 2 ^ 53) * (3 / 4) * (1 + 1 / 2 ^ 53)) := by ring
    _ ≤ n * 1 := by gcongr; norm_num
    _ = n := mul_one _

/-- A number of bytes is not more than the headroom in `float` either. -/
theorem quotient_le_one {x headroom : ℕ} (hx : 0 < x) (hle : x ≤ headroom) :
    Rounding.round 24 (Rounding.round 24 x / Rounding.round 24 headroom) ≤ 1 := by
  have hpos : (0 : ℚ) < x := by exact_mod_cast hx
  have hmono : Rounding.round 24 x ≤ Rounding.round 24 headroom :=
    Rounding.round_mono (by decide) hpos (by exact_mod_cast hle)
  have hround := Rounding.round_pos (p := 24) (by decide) hpos
  have hone : Rounding.round 24 (1 : ℕ) = (1 : ℕ) := Rounding.round_natCast (by decide) (by decide)
  rw [Nat.cast_one] at hone
  calc Rounding.round 24 (Rounding.round 24 x / Rounding.round 24 headroom)
      ≤ Rounding.round 24 1 := by
        refine Rounding.round_mono (by decide) (div_pos hround (hround.trans_le hmono)) ?_
        exact (div_le_one (hround.trans_le hmono)).mpr hmono
    _ = 1 := hone

/-- The products of a sample are exact when the last one has 64 bits. -/
theorem activation_eq (h : seq_len * hidden_dim * dtype_size dtype * 4 < sizeTRange) :
    (seq_len * hidden_dim < sizeTRange ∧ seq_len * hidden_dim * dtype_size dtype < sizeTRange) ∧
      activation_per_sample seq_len hidden_dim dtype
        = seq_len * hidden_dim * dtype_size dtype * 4 := by
  have hsize : 0 < dtype_size dtype := by
    unfold dtype_size
    split_ifs <;> decide
  have hfirst := Nat.le_mul_of_pos_right (seq_len * hidden_dim) hsize
  have hexact : seq_len * hidden_dim < sizeTRange ∧
      seq_len * hidden_dim * dtype_size dtype < sizeTRange := by omega
  refine ⟨hexact, ?_⟩
  unfold activation_per_sample
  rw [Nat.mod_eq_of_lt hexact.1, Nat.mod_eq_of_lt hexact.2, Nat.mod_eq_of_lt h]

theorem memory_per_sample_eq (snap : BudgetSnapshot) (model_bytes : ℕ) :
    (recommend snap model_bytes seq_len hidden_dim dtype).memory_per_sample
      = activation_per_sample seq_len hidden_dim dtype := by
  unfold recommend
  dsimp only
  split_ifs <;> rfl

/-- The bytes of a sample are exact, and as many as its type asks for. -/
theorem plain_iff : Plain seq_len hidden_dim dtype ↔
    seq_len * hidden_dim * dtype_size dtype * 4 < sizeTRange ∧
      seq_len * hidden_dim * dtype_size dtype * 4 = 4 * seq_len * hidden_dim * dtypeSize dtype := by
  have hsplit : 4 * seq_len * hidden_dim * dtypeSize dtype
      = seq_len * hidden_dim * dtypeSize dtype * 4 := by ring
  have hsame : seq_len * hidden_dim * dtype_size dtype = seq_len * hidden_dim * dtypeSize dtype ↔
      dtype_size dtype = dtypeSize dtype ∨ seq_len * hidden_dim = 0 := mul_eq_mul_left_iff
  unfold Plain
  rw [← hsame, hsplit]
  constructor
  · rintro ⟨hlt, heq⟩
    exact ⟨heq ▸ hlt, congrArg (· * 4) heq⟩
  · rintro ⟨hlt, heq⟩
    exact ⟨heq ▸ hlt, Nat.eq_of_mul_eq_mul_right (by decide) heq⟩

/-- **The advice.** When `reserved` bytes of the distributable ones are not left for activations
(none of them, or those of the model), the advice is sound exactly when the bytes of a sample are
counted without a wrap and with the size of the type, and the remainder covers what is reserved. -/
theorem batch_advice_fits_iff (c : MemoryBudgetController) (hc : c.total_capacity < sizeTRange)
    (model_bytes seq_len hidden_dim reserved : ℕ) (dtype : MNDType) :
    AdviceSound (c.snapshot.distributable - reserved) seq_len hidden_dim dtype
        (recommend c.snapshot model_bytes seq_len hidden_dim dtype) ↔
      Plain seq_len hidden_dim dtype ∧
        (0 < 4 * seq_len * hidden_dim * dtypeSize dtype →
          4 * seq_len * hidden_dim * dtypeSize dtype ≤ c.snapshot.distributable - reserved →
          reserved ≤ c.snapshot.distributable % (4 * seq_len * hidden_dim * dtypeSize dtype)) := by
  have hhead : c.snapshot.distributable < sizeTRange := by
    unfold MemoryBudgetController.snapshot
    dsimp only
    split_ifs <;> omega
  generalize c.snapshot = snap at hhead ⊢
  rw [plain_iff]
  have hmemory := @memory_per_sample_eq seq_len hidden_dim dtype snap model_bytes
  generalize hbytes : 4 * seq_len * hidden_dim * dtypeSize dtype = bytes
  have hdiv := Nat.div_add_mod snap.distributable bytes
  rw [Nat.mul_comm] at hdiv
  constructor
  · intro h
    have hsample := h.sample
    rw [hmemory, (activation_eq h.exact.2.2.1).2, hbytes] at hsample
    refine ⟨⟨h.exact.2.2.1, hsample⟩, fun hpos hle => ?_⟩
    have hfits := h.fits
    rw [hmemory, (activation_eq h.exact.2.2.1).2, hsample] at hfits
    have hmax : (recommend snap model_bytes seq_len hidden_dim dtype).max_batch
        = snap.distributable / bytes := by
      have hone : snap.distributable / bytes ≠ 0 := (Nat.div_pos (by omega) hpos).ne'
      unfold recommend
      dsimp only
      rw [(activation_eq h.exact.2.2.1).2, hsample, if_neg hpos.ne']
      exact if_neg hone
    have hmost := hfits hle
    rw [hmax] at hmost
    omega
  · rintro ⟨⟨hlt, hsame⟩, hreserved⟩
    obtain ⟨hexact, hact⟩ := activation_eq hlt
    have hsize : bytes < sizeTRange := hsame ▸ hlt
    unfold recommend
    dsimp only
    rw [hact, hsame]
    by_cases hzero : bytes = 0
    · -- a sample without activations
      rw [if_pos hzero]
      exact ⟨⟨hexact.1, hexact.2, hlt, by simp [hzero, sizeTRange]⟩, ⟨le_refl 1, le_refl 1⟩,
        hbytes.symm, fun _ => by simp [hzero], fun _ => zero_le_one⟩
    · rw [if_neg hzero]
      have hsome := fun hle => Nat.div_pos (a := snap.distributable) hle (Nat.pos_of_ne_zero hzero)
      generalize snap.distributable / bytes = quotient at hdiv hsome ⊢
      generalize snap.distributable % bytes = remainder at hdiv hreserved
      generalize hmax : (if quotient = 0 then 1 else quotient) = max_batch
      have hroom : bytes ≤ snap.distributable → max_batch = quotient := by
        intro hle
        rw [← hmax, if_neg (hsome hle).ne']
      have hpos : 0 < max_batch ∧ max_batch * bytes < sizeTRange := by
        rw [← hmax]
        split_ifs <;> omega
      obtain ⟨hone, htarget⟩ := target_le hpos.1
      have hproduct : target max_batch * bytes < sizeTRange :=
        (Nat.mul_le_mul_right bytes htarget).trans_lt hpos.2
      refine ⟨⟨hexact.1, hexact.2, hlt, hproduct⟩, ⟨hone, htarget⟩, hbytes.symm, ?_, ?_⟩
      · intro (hle : bytes ≤ snap.distributable - reserved)
        have hcovers := hreserved (Nat.pos_of_ne_zero hzero) hle
        dsimp only
        rw [hroom (by omega)]
        omega
      · intro (hle : bytes ≤ snap.distributable - reserved)
        have hpositive : 0 < target max_batch * bytes :=
          Nat.mul_pos hone (Nat.pos_of_ne_zero hzero)
        have hfits : target max_batch * bytes ≤ snap.distributable := by
          refine (Nat.mul_le_mul_right bytes htarget).trans ?_
          rw [hroom (by omega)]
          omega
        dsimp only
        rw [Nat.mod_eq_of_lt hproduct, if_pos (by omega)]
        exact quotient_le_one hpositive hfits

/-- A budget of ten thousand bytes, a tenth of them for training. -/
def tenThousand : MemoryBudgetController := MemoryBudgetController.mk 10000 0 .Normal fun _ => false

/-- Samples of 16 tokens. -/
theorem batch_advice_fits_iff_small :
    AdviceSound (tenThousand.snapshot.distributable - 0) 16 8 .Float16
      (recommend tenThousand.snapshot 4 16 8 .Float16) :=
  (batch_advice_fits_iff tenThousand (by decide) 4 16 8 0 .Float16).mpr
    ⟨⟨by decide, .inl (by decide)⟩, fun _ _ => Nat.zero_le _⟩

/-- The bytes of `2 ^ 31` tokens of `2 ^ 31` floats are counted as none, and those of an `int64_t`
as half; samples of eight tokens take all the bytes but those of a model that has more. -/
theorem batch_advice_wraps :
    (recommend tenThousand.snapshot 0 (2 ^ 31) (2 ^ 31) .Float32).memory_per_sample = 0 ∧
      ¬ AdviceSound tenThousand.snapshot.distributable (2 ^ 31) (2 ^ 31) .Float32
          (recommend tenThousand.snapshot 0 (2 ^ 31) (2 ^ 31) .Float32) ∧
      ¬ AdviceSound tenThousand.snapshot.distributable 1 1 .Int64
          (recommend tenThousand.snapshot 0 1 1 .Int64) ∧
      ¬ AdviceSound (tenThousand.snapshot.distributable - 1000) 8 1 .Float32
          (recommend tenThousand.snapshot 1000 8 1 .Float32) :=
  ⟨by decide, fun h => absurd h.exact.2.1 (by decide), fun h => absurd h.sample (by decide),
    fun h => absurd (h.fits (by decide)) (by decide)⟩

end BatchSizeAdvisor

end MetalNative
