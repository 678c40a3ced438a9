import MetalNative.Ops.UIntIndices

namespace MetalNative

/-!
# The operators in 32 bits

* `UIntCall`, `UIntCall.use` — the operators, and what their launches narrow and index.
* `UIntCall.Fits` — the bounds on the products of their sizes.
* `uint_indices_exact_iff` — an accepted call is exact where it fits.
-/

/-- The operators, with their arguments. -/
inductive UIntCall where
  | softmax (input : MNTensor ℝ) (dim : ℤ)
  | logSoftmax (input : MNTensor ℝ) (dim : ℤ)
  | reduction (op : ReductionOp) (input : MNTensor ℝ) (dim : ℤ)
  | embedding (call : EmbeddingCall ℝ)
  | speculativeVerify (call : SpeculativeCall ℝ)
  | swiglu (silu : ℝ → ℝ) (gate up : MNTensor ℝ)
  | rmsNorm (input weight : MNTensor ℝ)
  | layerNorm (input weight bias : MNTensor ℝ)
  | rope (call : RopeCall)
  | fusedBiasGelu (gelu : ℝ → ℝ) (input bias : MNTensor ℝ)
  | fusedResidualNorm (input residual weight : MNTensor ℝ)
  | fusedQkvProjection (call : QkvProjectionCall) (matmul : Except MNException Unit)
  | scaledDotProductAttention

namespace UIntCall

/-- `fast::scaled_dot_product_attention`. -/
def notImplemented : MNException :=
  ⟨.NotImplemented, "fast::scaled_dot_product_attention: use ops::attention() directly. Fast " ++
    "variant planned for Phase 4."⟩

/-- The launch of a call, or the error that it throws; the parameters are what the allocator and the
    registry answer. -/
noncomputable def use (allocate : MNShape → MNDType → Except MNException Unit)
    (pipeline : String → Except MNException Unit) : UIntCall → Except MNException WordUse
  | softmax input dim => do
    let d ← normalizeDim "softmax" dim input.shape.length
    let run ← MetalNative.softmax input dim
    return run.use (exactSizes input.dims d)
  | logSoftmax input dim => do
    let d ← normalizeDim "softmax" dim input.shape.length
    let run ← MetalNative.logSoftmax input dim
    return run.use (exactSizes input.dims d)
  | reduction op input dim => do
    let d ← normalizeDim "reduction" dim input.shape.length
    let run ← dispatchReduction op input dim
    return run.use (exactSizes input.dims d)
  | embedding call => do
    let run ← call.embedding allocate pipeline
    return call.use run
  | speculativeVerify call => do
    let run ← call.speculativeVerify allocate pipeline
    return call.use (· / ·) run
  | swiglu silu gate up => do
    let run ← MetalNative.swiglu allocate pipeline silu gate up
    return run.use gate.dims.prod 4
  | rmsNorm input weight => do
    let run ← (NormCall.rms input weight).fusedLaunch
    return rowUse input run.sizes run.address
  | layerNorm input weight bias => do
    let run ← (NormCall.layer input weight bias).fusedLaunch
    return rowUse input run.sizes run.address
  | rope call => do
    let run ← call.rope pipeline
    return call.use run.args
  | fusedBiasGelu gelu input bias => do
    let run ← MetalNative.fusedBiasGelu allocate pipeline gelu input bias
    return run.useBias input.dims.prod bias.dims.prod (lastDim input)
  | fusedResidualNorm input residual weight => do
    let run ← MetalNative.fusedResidualNorm input residual weight
    return rowUse input run.sizes run.address
  | fusedQkvProjection call matmul => do
    let run ← call.fusedQkvProjection matmul allocate pipeline
    return call.use run.args
  | scaledDotProductAttention => .error notImplemented

/-- The sizes of a call, and the products of them that its kernel forms, have 32 bits. -/
def Fits : UIntCall → Prop
  | softmax input dim => ∀ d, normalizeDim "softmax" dim input.shape.length = .ok d →
    (exactSizes input.dims d).Small ∧ (exactSizes input.dims d).IndicesFit
      (useVec4 (exactSizes input.dims d) && input.dtype ≠ .BFloat16)
  | logSoftmax input dim => ∀ d, normalizeDim "softmax" dim input.shape.length = .ok d →
    (exactSizes input.dims d).Small ∧ (exactSizes input.dims d).IndicesFit false
  | reduction _ input dim => ∀ d, normalizeDim "reduction" dim input.shape.length = .ok d →
    ((exactSizes input.dims d).Small ∧ (exactSizes input.dims d).outer_size *
        (exactSizes input.dims d).inner_size < uintRange) ∧
      (exactSizes input.dims d).IndicesFit (reductionExtents input.shape d).useVec4
  | embedding call => call.IndicesFit
  | speculativeVerify call => call.Fits (· / ·)
  | swiglu _ gate _ => gate.dims.prod + 3 < uintRange
  | rmsNorm input _ | layerNorm input _ _ | fusedResidualNorm input _ _ => RowsFit input
  | rope call => call.Fits
  | fusedBiasGelu _ input bias => bias.dims.prod < uintRange ∧ lastDim input < uintRange ∧
    input.dims.prod + 3 < uintRange
  | fusedQkvProjection call _ => call.Fits
  | scaledDotProductAttention => True

end UIntCall

section Calls

variable {allocate : MNShape → MNDType → Except MNException Unit}
  {pipeline : String → Except MNException Unit} {use : WordUse}

/-- The dimension of a call is the one that it is normalised to. -/
theorem forall_dim_iff {caller : String} {dim : ℤ} {n d : ℕ} {P : ℕ → Prop}
    (hd : normalizeDim caller dim n = .ok d) :
    (∀ d', normalizeDim caller dim n = .ok d' → P d') ↔ P d := by
  constructor
  · intro h
    exact h d hd
  · intro h d' hd'
    obtain rfl : d = d' := Except.ok.inj (hd.symm.trans hd')
    exact h

variable {input : MNTensor ℝ}

theorem softmax_exact_iff {dim : ℤ}
    (h : (UIntCall.softmax input dim).use allocate pipeline = .ok use) :
    use.Exact ↔ (UIntCall.softmax input dim).Fits := by
  unfold UIntCall.use at h
  obtain ⟨d, hd, h⟩ := bind_eq_ok.mp h
  obtain ⟨run, hrun, h⟩ := bind_eq_ok.mp h
  obtain rfl := Except.ok.inj h
  unfold softmax softmaxRun at hrun
  obtain ⟨sizes, hsizes, hrun⟩ := bind_eq_ok.mp hrun
  obtain ⟨kernel, hkernel, hrun⟩ := bind_eq_ok.mp hrun
  obtain rfl := Except.ok.inj hrun
  have hlaunch : (softmaxLaunch sizes kernel).sizes = sizes ∧
      (softmaxLaunch sizes kernel).kernel = kernel := by
    unfold softmaxLaunch
    split_ifs <;> exact ⟨rfl, rfl⟩
  have hwords := softmaxSizes_eq hd hsizes
  -- on sizes that fit, the selection is that of the sizes themselves
  have hvec : (exactSizes input.dims d).Small → (softmaxLaunch sizes kernel).isVec4
      = (useVec4 (exactSizes input.dims d) && input.dtype ≠ .BFloat16) := by
    intro hsmall
    rw [hwords, ReductionSizes.words_eq hsmall] at hkernel ⊢
    apply softmaxKernel_isVec4
    rw [hwords, ReductionSizes.words_eq hsmall] at hlaunch
    rw [hlaunch.2]
    exact hkernel
  refine Iff.trans ?_ (forall_dim_iff hd).symm
  refine SoftmaxRun.use_exact_iff (hlaunch.1.trans hwords) hvec ?_
  intro hsmall hrun
  rw [hvec hsmall, Bool.and_eq_true] at hrun
  have huse := hrun.1
  unfold useVec4 at huse
  simp only [decide_eq_true_eq] at huse
  exact huse.1

theorem logSoftmax_exact_iff {dim : ℤ}
    (h : (UIntCall.logSoftmax input dim).use allocate pipeline = .ok use) :
    use.Exact ↔ (UIntCall.logSoftmax input dim).Fits := by
  unfold UIntCall.use at h
  obtain ⟨d, hd, h⟩ := bind_eq_ok.mp h
  obtain ⟨run, hrun, h⟩ := bind_eq_ok.mp h
  obtain rfl := Except.ok.inj h
  unfold logSoftmax at hrun
  obtain ⟨sizes, hsizes, hrun⟩ := bind_eq_ok.mp hrun
  obtain ⟨kernel_name, -, hrun⟩ := bind_eq_ok.mp hrun
  obtain rfl := Except.ok.inj hrun
  refine Iff.trans ?_ (forall_dim_iff hd).symm
  refine SoftmaxRun.use_exact_iff (softmaxSizes_eq hd hsizes) (fun _ => rfl) ?_
  intro _ hvec
  cases hvec

theorem reduction_exact_iff {op : ReductionOp} {dim : ℤ}
    (h : (UIntCall.reduction op input dim).use allocate pipeline = .ok use) :
    use.Exact ↔ (UIntCall.reduction op input dim).Fits := by
  unfold UIntCall.use at h
  obtain ⟨d, hd, h⟩ := bind_eq_ok.mp h
  obtain ⟨run, hrun, h⟩ := bind_eq_ok.mp h
  obtain rfl := Except.ok.inj h
  obtain ⟨hsizes, hvec, hinner⟩ := dispatchReduction_eq_ok hd hrun
  refine Iff.trans ?_ (forall_dim_iff hd).symm
  rw [ReductionRun.use_exact_iff hsizes hinner, hvec]

/-- The word of the number of elements. -/
theorem toUInt_numel {α : Type*} (t : MNTensor α) :
    toUInt (toSizeT t.numel) = toUInt t.dims.prod := by
  have hlt := t.numel_lt
  rw [t.numel_eq, toSizeT_natCast (by unfold sizeTRange; omega)]

theorem swiglu_exact_iff {silu : ℝ → ℝ} {gate up : MNTensor ℝ}
    (h : (UIntCall.swiglu silu gate up).use allocate pipeline = .ok use) :
    use.Exact ↔ (UIntCall.swiglu silu gate up).Fits := by
  unfold UIntCall.use at h
  obtain ⟨run, hrun, h⟩ := bind_eq_ok.mp h
  obtain rfl := Except.ok.inj h
  unfold swiglu at hrun
  obtain ⟨-, hrun⟩ := mnCheck_bind_eq_ok.mp hrun
  obtain ⟨-, hrun⟩ := mnCheck_bind_eq_ok.mp hrun
  obtain ⟨-, -, hrun⟩ := bind_eq_ok.mp hrun
  obtain ⟨-, -, hrun⟩ := bind_eq_ok.mp hrun
  obtain rfl := Except.ok.inj hrun
  exact VectorRun.use_exact_iff (le_refl 4) (toUInt_numel gate) rfl

theorem fusedBiasGelu_exact_iff {gelu : ℝ → ℝ} {input bias : MNTensor ℝ}
    (h : (UIntCall.fusedBiasGelu gelu input bias).use allocate pipeline = .ok use) :
    use.Exact ↔ (UIntCall.fusedBiasGelu gelu input bias).Fits := by
  unfold UIntCall.use at h
  obtain ⟨run, hrun, h⟩ := bind_eq_ok.mp h
  obtain rfl := Except.ok.inj h
  unfold fusedBiasGelu at hrun
  obtain ⟨-, hrun⟩ := mnCheck_bind_eq_ok.mp hrun
  obtain ⟨-, hrun⟩ := mnCheck_bind_eq_ok.mp hrun
  obtain ⟨-, hrun⟩ := mnCheck_bind_eq_ok.mp hrun
  obtain ⟨-, -, hrun⟩ := bind_eq_ok.mp hrun
  obtain ⟨-, -, hrun⟩ := bind_eq_ok.mp hrun
  obtain rfl := Except.ok.inj hrun
  exact VectorRun.useBias_exact_iff (toUInt_numel input) rfl

theorem fusedQkvProjection_exact_iff {call : QkvProjectionCall} {matmul : Except MNException Unit}
    (h : (UIntCall.fusedQkvProjection call matmul).use allocate pipeline = .ok use) :
    use.Exact ↔ (UIntCall.fusedQkvProjection call matmul).Fits := by
  unfold UIntCall.use at h
  obtain ⟨run, hrun, h⟩ := bind_eq_ok.mp h
  obtain rfl := Except.ok.inj h
  unfold QkvProjectionCall.fusedQkvProjection at hrun
  obtain ⟨-, -, hrun⟩ := bind_eq_ok.mp hrun
  obtain ⟨-, -, hrun⟩ := bind_eq_ok.mp hrun
  obtain ⟨-, -, hrun⟩ := bind_eq_ok.mp hrun
  obtain ⟨-, -, hrun⟩ := bind_eq_ok.mp hrun
  obtain ⟨-, -, hrun⟩ := bind_eq_ok.mp hrun
  obtain ⟨-, -, hrun⟩ := bind_eq_ok.mp hrun
  obtain rfl := Except.ok.inj hrun
  exact QkvProjectionCall.use_exact_iff

/-- **Sizes and indices in 32 bits.** What an accepted call narrows, and every flat index that its
threads form, keeps its value exactly when the call fits. -/
theorem uint_indices_exact_iff {call : UIntCall} (h : call.use allocate pipeline = .ok use) :
    use.Exact ↔ call.Fits := by
  cases call with
  | softmax input dim => exact softmax_exact_iff h
  | logSoftmax input dim => exact logSoftmax_exact_iff h
  | reduction op input dim => exact reduction_exact_iff h
  | embedding call =>
    obtain ⟨run, hrun, h⟩ := bind_eq_ok.mp h
    obtain rfl := Except.ok.inj h
    exact (EmbeddingCall.accepted hrun).use_exact_iff
  | speculativeVerify call =>
    obtain ⟨run, hrun, h⟩ := bind_eq_ok.mp h
    obtain rfl := Except.ok.inj h
    exact SpeculativeCall.use_exact_iff (SpeculativeCall.speculativeVerify_eq_ok hrun).2.1
  | swiglu silu gate up => exact swiglu_exact_iff h
  | rmsNorm | layerNorm =>
    obtain ⟨run, hrun, h⟩ := bind_eq_ok.mp h
    obtain rfl := Except.ok.inj h
    exact FusedNormRun.use_exact_iff hrun
  | rope call =>
    obtain ⟨run, hrun, h⟩ := bind_eq_ok.mp h
    obtain rfl := Except.ok.inj h
    obtain ⟨-, -, rfl⟩ := RopeCall.rope_eq_ok hrun
    exact RopeCall.use_exact_iff
  | fusedBiasGelu gelu input bias => exact fusedBiasGelu_exact_iff h
  | fusedResidualNorm input residual weight =>
    obtain ⟨run, hrun, h⟩ := bind_eq_ok.mp h
    obtain rfl := Except.ok.inj h
    exact FusedRun.use_exact_iff hrun
  | fusedQkvProjection call matmul => exact fusedQkvProjection_exact_iff h
  | scaledDotProductAttention => cases h

/-- Three rows of 64 elements. -/
theorem uint_indices_exact_iff_rows :
    ∃ use, (UIntCall.softmax (indexTensor [3, 64] .Float32 (by decide) (by decide)) (-1)).use
        (fun _ _ => .ok ()) (fun _ => .ok ()) = .ok use ∧ use.Exact :=
  ⟨_, rfl, (@uint_indices_exact_iff (fun _ _ => .ok ()) (fun _ => .ok ()) _
    (.softmax (indexTensor [3, 64] .Float32 (by decide) (by decide)) (-1)) rfl).mpr
    ((forall_dim_iff rfl).mpr ⟨⟨by decide, by decide, by decide⟩, by decide⟩)⟩

/-- Rows of two elements in `2 ^ 16` planes of `2 ^ 16` columns: every size passes its check, and
    the index of the first element of the second half of the planes is zero again. -/
theorem indices_of_large_rows_wrap :
    ∃ use, (UIntCall.logSoftmax (indexTensor [65536, 2, 65536] .Float32 (by decide) (by decide))
        1).use (fun _ _ => .ok ()) (fun _ => .ok ()) = .ok use ∧ ¬ use.Exact := by
  refine ⟨_, rfl, ?_⟩
  intro h
  have hfirst := h.indices (((32768 * 2 + 0) * 65536 + 0 : ℕ), 0)
    ⟨32768, by decide, 0, by decide, 0, by decide, rfl⟩
  exact absurd hfirst (by decide)

end Calls

end MetalNative
