import MetalNative.Ops.Embedding
import MetalNative.Ops.FastOperators
import MetalNative.Ops.FusedNorm
import MetalNative.Ops.FusedResidualNorm
import MetalNative.Ops.OperatorCalls
import MetalNative.Ops.ReductionCoverage
import MetalNative.Ops.Rope
import MetalNative.Ops.SoftmaxCoverage

namespace MetalNative

open List ReductionSizes ReductionRun

open Broadcast (Within)

/-!
# Sizes and indices in 32 bits

What the operators narrow to `uint32_t`, and the flat indices that their kernels form in `uint`: of
`softmax` and `log_softmax`, the reductions, `embedding`, `speculative_verify` and the `fast::`
operators.

* `WordUse` — the numbers of a launch with the words that stand for them; `WordUse.Exact` says that
  they are the same.
* `use`, `useBias` and `rowUse` — those of the launches; each has a lemma `use_exact_iff` with the
  bounds on the products of its sizes.
-/

/-! ### Launches -/

/-- What the host of a launch narrows, and the flat indices that the threads form: each with the
    word that stands for it. -/
structure WordUse where
  counts : List (ℤ × ℕ)
  indices : Set (ℤ × ℕ)

namespace WordUse

/-- The words are the numbers. -/
structure Exact (use : WordUse) : Prop where
  counts : ∀ c ∈ use.counts, (c.2 : ℤ) = c.1
  indices : ∀ x ∈ use.indices, (x.2 : ℤ) = x.1

/-- A launch is exact where its counts fit and, once they do, its indices. -/
theorem exact_iff {use : WordUse} {P Q : Prop} (hcounts : (∀ c ∈ use.counts, (c.2 : ℤ) = c.1) ↔ P)
    (hindices : P → ((∀ x ∈ use.indices, (x.2 : ℤ) = x.1) ↔ Q)) : use.Exact ↔ P ∧ Q := by
  constructor
  · intro h
    have hP := hcounts.mp h.counts
    exact ⟨hP, (hindices hP).mp h.indices⟩
  · intro h
    exact ⟨hcounts.mpr h.1, (hindices h.1).mpr h.2⟩

end WordUse

/-! ### Along one dimension -/

/-- The sizes of a reduction along a dimension. -/
def exactSizes (dims : List ℕ) (dim : ℕ) : ReductionSizes where
  outer_size := (dims.take dim).prod
  reduce_size := dims.getD dim 0
  inner_size := (dims.drop (dim + 1)).prod

namespace ReductionSizes

/-- The sizes in words. -/
def words (s : ReductionSizes) : ReductionSizes where
  outer_size := toUInt s.outer_size
  reduce_size := toUInt s.reduce_size
  inner_size := toUInt s.inner_size

/-- The sizes have 32 bits. -/
structure Small (s : ReductionSizes) : Prop where
  outer : s.outer_size < uintRange
  reduce : s.reduce_size < uintRange
  inner : s.inner_size < uintRange

/-- The indices of the elements do, or those at which the rows of a vectorised kernel begin. -/
def IndicesFit (s : ReductionSizes) (vec4 : Bool) : Prop :=
  if vec4 then s.outer_size * s.reduce_size < uintRange + s.reduce_size
  else s.outer_size * s.reduce_size * s.inner_size ≤ uintRange

instance (s : ReductionSizes) (vec4 : Bool) : Decidable (s.IndicesFit vec4) :=
  inferInstanceAs (Decidable (ite _ _ _))

variable {s : ReductionSizes}

theorem words_eq (h : s.Small) : s.words = s := by
  unfold words
  rw [toUInt_of_lt h.outer, toUInt_of_lt h.reduce, toUInt_of_lt h.inner]

/-- The three sizes with their words. -/
def counts (s w : ReductionSizes) : List (ℤ × ℕ) :=
  [((s.outer_size : ℤ), w.outer_size), ((s.reduce_size : ℤ), w.reduce_size),
    ((s.inner_size : ℤ), w.inner_size)]

theorem counts_exact_iff : (∀ c ∈ s.counts s.words, (c.2 : ℤ) = c.1) ↔ s.Small := by
  unfold counts words
  simp only [forall_mem_cons, Nat.cast_inj, toUInt_eq_iff]
  constructor
  · rintro ⟨houter, hreduce, hinner, -⟩
    exact ⟨houter, hreduce, hinner⟩
  · intro h
    exact ⟨h.outer, h.reduce, h.inner, by simp⟩

end ReductionSizes

theorem checkedUInt_eq {caller : String} {size : ℤ} {n : ℕ} (h : checkedUInt caller size = .ok n) :
    n = uintOfInt size := by
  unfold checkedUInt at h
  simp only [bind, Except.bind] at h
  split_ifs at h
  exact (Except.ok.inj h).symm

/-- The word of a product of dimensions. -/
theorem uintOfInt_numel (dims : List ℕ) :
    uintOfInt (MNShape.numel (dims.map Nat.cast)) = toUInt dims.prod := by
  rw [MNShape.numel_map_natCast, uintOfInt_toInt64, uintOfInt_natCast_eq]

/-- The host narrows the sizes of its shape. -/
theorem checkedSizes_eq {caller : String} {dims : List ℕ} {dim : ℕ} {sizes : ReductionSizes}
    (houter : checkedUInt caller (MNShape.numel ((dims.map Nat.cast : MNShape).take dim))
      = .ok sizes.outer_size)
    (hreduce : checkedUInt caller ((dims.map Nat.cast : MNShape).getD dim 0)
      = .ok sizes.reduce_size)
    (hinner : checkedUInt caller (MNShape.numel ((dims.map Nat.cast : MNShape).drop (dim + 1)))
      = .ok sizes.inner_size) : sizes = (exactSizes dims dim).words := by
  have hO := checkedUInt_eq houter
  have hR := checkedUInt_eq hreduce
  have hI := checkedUInt_eq hinner
  have hgetD : (dims.map Nat.cast : MNShape).getD dim 0 = ((dims.getD dim 0 : ℕ) : ℤ) := by
    rw [getD_eq_getElem?_getD, getElem?_map, getD_eq_getElem?_getD]
    cases dims[dim]? <;> rfl
  rw [← map_take, uintOfInt_numel] at hO
  rw [hgetD, uintOfInt_natCast_eq] at hR
  rw [← map_drop, uintOfInt_numel] at hI
  unfold exactSizes words
  rw [← hO, ← hR, ← hI]

/-! #### `softmax` and `log_softmax` -/

/-- `log_softmax`, once the output has been allocated: its kernels go through the rows like
    `softmax_online_fp32`. -/
def logSoftmax (input : MNTensor ℝ) (dim : ℤ) : Except MNException SoftmaxRun := do
  let sizes ← softmaxSizes input dim
  let kernel_name ← logSoftmaxKernelName input.dtype
  return {
    kernel := ⟨.online, kernel_name⟩
    sizes
    gridX := sizes.inner_size
    gridY := sizes.outer_size
    groupX := 32 }

/-- The sizes of the rows, `num_outputs` of a large reduction, and the indices of the elements. -/
def SoftmaxRun.use (run : SoftmaxRun) (s : ReductionSizes) : WordUse where
  counts := s.counts run.sizes ++
    if useLarge run.sizes then
      [(((s.outer_size * s.inner_size : ℕ) : ℤ),
        toUInt (run.sizes.outer_size * run.sizes.inner_size))]
    else []
  indices := {x | ∃ o < s.outer_size, ∃ r < s.reduce_size, ∃ i < s.inner_size,
    x = ((((o * s.reduce_size + r) * s.inner_size + i : ℕ) : ℤ), run.address (o, i) r)}

section Softmax

variable {input : MNTensor ℝ} {dim : ℤ} {d : ℕ} {sizes : ReductionSizes} {run : SoftmaxRun}

theorem softmaxSizes_eq (hdim : normalizeDim "softmax" dim input.shape.length = .ok d)
    (h : softmaxSizes input dim = .ok sizes) : sizes = (exactSizes input.dims d).words := by
  unfold softmaxSizes at h
  obtain ⟨d', hd', h⟩ := bind_eq_ok.mp h
  obtain rfl : d = d' := Except.ok.inj (hdim.symm.trans hd')
  unfold computeReductionSizes at h
  obtain ⟨outer_size, houter, h⟩ := bind_eq_ok.mp h
  obtain ⟨reduce_size, hreduce, h⟩ := bind_eq_ok.mp h
  obtain ⟨inner_size, hinner, h⟩ := bind_eq_ok.mp h
  obtain rfl := Except.ok.inj h
  exact checkedSizes_eq houter hreduce hinner

/-- The data types that have a kernel. -/
theorem softmaxKernel_dtype {dtype : MNDType} {kernel : SoftmaxKernel}
    (h : softmaxKernel dtype sizes = .ok kernel) :
    (dtype = .Float32 ∨ dtype = .Float16) ∨ dtype = .BFloat16 := by
  unfold softmaxKernel dtypeKernel at h
  cases dtype
  case Float32 => simp
  case Float16 => simp
  case BFloat16 => simp
  all_goals
    simp only at h
    split_ifs at h

/-- The selection takes a vectorised kernel where the sizes are those of one. -/
theorem softmaxKernel_isVec4 {dtype : MNDType} (h : softmaxKernel dtype sizes = .ok run.kernel) :
    run.isVec4 = (useVec4 sizes && dtype ≠ .BFloat16) := by
  rcases softmaxKernel_dtype h with hfloat | rfl
  · obtain ⟨kernel, hkernel, hfamily⟩ := softmaxKernel_float hfloat sizes
    obtain rfl : run.kernel = kernel := Except.ok.inj (h.symm.trans hkernel)
    have hne : dtype ≠ .BFloat16 := by rcases hfloat with rfl | rfl <;> decide
    unfold SoftmaxRun.isVec4
    rw [hfamily, floatFamily]
    cases hvec : useVec4 sizes <;> cases hlarge : useLarge sizes <;> simp [hne]
    all_goals split_ifs <;> rfl
  · unfold SoftmaxRun.isVec4
    rw [softmaxKernel_bf16_eq h]
    simp

/-- The indices of a launch on sizes that fit. -/
theorem SoftmaxRun.indices_exact_iff
    (hinner : run.isVec4 = true → run.sizes.inner_size = 1) :
    (∀ x ∈ (run.use run.sizes).indices, (x.2 : ℤ) = x.1) ↔ run.sizes.IndicesFit run.isVec4 := by
  unfold SoftmaxRun.use IndicesFit SoftmaxRun.address
  dsimp only
  cases hvec : run.isVec4 with
  | true =>
    -- a vectorised kernel forms the start of a row only
    rw [if_pos rfl, ← starts_lt_iff (by decide), hinner hvec]
    constructor
    · intro h o ho
      rcases Nat.eq_zero_or_pos run.sizes.reduce_size with hzero | hpos
      · rw [hzero, Nat.mul_zero]
        decide
      have hstart := h _ ⟨o, ho, 0, hpos, 0, Nat.one_pos, rfl⟩
      rw [if_pos rfl, Nat.add_zero, Nat.add_zero, Nat.mul_one] at hstart
      exact toUInt_eq_iff.mp (Nat.cast_injective hstart)
    · rintro h x ⟨o, ho, r, hr, i, hi, rfl⟩
      obtain rfl : i = 0 := by omega
      rw [if_pos rfl]
      show ((toUInt (o * run.sizes.reduce_size) + r : ℕ) : ℤ) = _
      rw [toUInt_of_lt (h o ho), Nat.mul_one, Nat.add_zero]
  | false =>
    rw [if_neg (by decide), ← elements_lt_iff]
    constructor
    · intro h o ho r hr i hi
      have helem := h _ ⟨o, ho, r, hr, i, hi, rfl⟩
      rw [if_neg (by decide)] at helem
      exact toUInt_eq_iff.mp (Nat.cast_injective helem)
    · rintro h x ⟨o, ho, r, hr, i, hi, rfl⟩
      rw [if_neg (by decide)]
      exact congrArg Nat.cast (toUInt_of_lt (h o ho r hr i hi))

/-- A launch on rows of any sizes. -/
theorem SoftmaxRun.use_exact_iff {s : ReductionSizes} {vec4 : Bool} (hsizes : run.sizes = s.words)
    (hvec : s.Small → run.isVec4 = vec4)
    (hinner : s.Small → run.isVec4 = true → s.inner_size = 1) :
    (run.use s).Exact ↔ s.Small ∧ s.IndicesFit vec4 := by
  constructor
  · intro h
    have hsmall : s.Small := by
      rw [← counts_exact_iff, ← hsizes]
      intro c hc
      exact h.counts c (mem_append_left _ hc)
    have hwords : run.sizes = s := hsizes.trans (words_eq hsmall)
    subst hwords
    refine ⟨hsmall, ?_⟩
    rw [← hvec hsmall]
    exact (SoftmaxRun.indices_exact_iff (hinner hsmall)).mp h.indices
  · rintro ⟨hsmall, hfit⟩
    have hwords : run.sizes = s := hsizes.trans (words_eq hsmall)
    subst hwords
    rw [← hvec hsmall] at hfit
    refine ⟨?_, (SoftmaxRun.indices_exact_iff (hinner hsmall)).mpr hfit⟩
    intro c hc
    rcases mem_append.mp hc with hc | hc
    · have hcounts := counts_exact_iff.mpr hsmall
      rw [words_eq hsmall] at hcounts
      exact hcounts c hc
    · -- the number of threadgroups of a large kernel
      split_ifs at hc with hlarge
      · rw [mem_singleton] at hc
        subst hc
        have hlong : 2048 ≤ run.sizes.reduce_size := by simpa [useLarge] using hlarge
        refine congrArg Nat.cast (toUInt_of_lt ?_)
        unfold IndicesFit at hfit
        cases hrun : run.isVec4 with
        | true =>
          rw [hinner hsmall hrun, Nat.mul_one]
          exact hsmall.outer
        | false =>
          rw [hrun, if_neg (by decide), Nat.mul_right_comm] at hfit
          have hle := Nat.mul_le_mul_left (run.sizes.outer_size * run.sizes.inner_size) hlong
          unfold uintRange at hfit ⊢
          omega
      · simp at hc

end Softmax

/-! #### The reductions -/

/-- The sizes of the rows and the number of outputs, and the indices of the outputs and of the
    elements. -/
def ReductionRun.use (run : ReductionRun) (s : ReductionSizes) : WordUse where
  counts := s.counts run.sizes ++
    [(((s.outer_size * s.inner_size : ℕ) : ℤ),
      toUInt (run.sizes.outer_size * run.sizes.inner_size))]
  indices := {x | ∃ o < s.outer_size, ∃ i < s.inner_size,
      x = (((o * s.inner_size + i : ℕ) : ℤ), toUInt (o * s.inner_size + i))} ∪
    {x | ∃ o < s.outer_size, ∃ r < s.reduce_size, ∃ i < s.inner_size,
      x = ((((o * s.reduce_size + r) * s.inner_size + i : ℕ) : ℤ),
        run.inputIdx (toUInt (o * s.inner_size + i)) r)}

section Reduction

variable {α : Type*} {op : ReductionOp} {input : MNTensor α} {dim : ℤ} {d : ℕ} {run : ReductionRun}

/-- What an accepted call launches. -/
theorem dispatchReduction_eq_ok
    (hdim : normalizeDim "reduction" dim input.shape.length = .ok d)
    (h : dispatchReduction op input dim = .ok run) :
    run.sizes = (exactSizes input.dims d).words ∧
      run.use_vec4 = (reductionExtents input.shape d).useVec4 ∧
      (run.use_vec4 = true → run.sizes.inner_size = 1) := by
  unfold dispatchReduction at h
  obtain ⟨d', hd', h⟩ := bind_eq_ok.mp h
  obtain rfl : d = d' := Except.ok.inj (hdim.symm.trans hd')
  by_cases hcont : input.isContiguous = true
  swap
  · rw [if_pos hcont] at h
    cases h
  rw [if_neg (not_not.mpr hcont)] at h
  obtain ⟨kernel_name, hname, h⟩ := bind_eq_ok.mp h
  obtain ⟨u, hpipeline, h⟩ := bind_eq_ok.mp h
  obtain ⟨sizes, hsizes, h⟩ := bind_eq_ok.mp h
  obtain rfl := Except.ok.inj h
  refine ⟨?_, rfl, fun hvec => ((ReductionExtents.constants_spec hsizes).2.2 hvec).1⟩
  unfold ReductionExtents.constants at hsizes
  obtain ⟨outer_size, houter, hsizes⟩ := bind_eq_ok.mp hsizes
  obtain ⟨reduce_size, hreduce, hsizes⟩ := bind_eq_ok.mp hsizes
  obtain ⟨inner_size, hinner, hsizes⟩ := bind_eq_ok.mp hsizes
  obtain rfl := Except.ok.inj hsizes
  exact checkedSizes_eq houter hreduce hinner

/-- The index that a threadgroup of an output forms for an element of its row. -/
theorem ReductionRun.inputIdx_eq {o i : ℕ} (ho : o < run.sizes.outer_size)
    (hi : i < run.sizes.inner_size)
    (hfit : run.sizes.outer_size * run.sizes.inner_size < uintRange) (r : ℕ) :
    run.inputIdx (toUInt (o * run.sizes.inner_size + i)) r =
      if run.use_vec4 then toUInt ((o * run.sizes.inner_size + i) * run.sizes.reduce_size) + r
      else toUInt ((o * run.sizes.reduce_size + r) * run.sizes.inner_size + i) := by
  have hrow := rows_lt_iff.mpr (le_refl _) o ho i hi
  unfold inputIdx
  rw [toUInt_of_lt (hrow.trans hfit)]
  have hdiv : (o * run.sizes.inner_size + i) / run.sizes.inner_size = o := by
    rw [Nat.mul_comm, Nat.mul_add_div (by omega), Nat.div_eq_of_lt hi, Nat.add_zero]
  have hmod : (o * run.sizes.inner_size + i) % run.sizes.inner_size = i := by
    rw [Nat.mul_comm, Nat.mul_add_mod, Nat.mod_eq_of_lt hi]
  rw [hdiv, hmod]

/-- The indices of a launch on sizes that fit. -/
theorem ReductionRun.indices_exact_iff
    (hinner : run.use_vec4 = true → run.sizes.inner_size = 1)
    (hfit : run.sizes.outer_size * run.sizes.inner_size < uintRange) :
    (∀ x ∈ (run.use run.sizes).indices, (x.2 : ℤ) = x.1)
      ↔ run.sizes.IndicesFit run.use_vec4 := by
  unfold IndicesFit
  cases hvec : run.use_vec4 with
  | true =>
    rw [if_pos rfl, ← starts_lt_iff (by decide)]
    have hone := hinner hvec
    constructor
    · intro h o ho
      rcases Nat.eq_zero_or_pos run.sizes.reduce_size with hzero | hpos
      · rw [hzero, Nat.mul_zero]
        decide
      have hi : 0 < run.sizes.inner_size := by omega
      have hstart := h _ (Or.inr ⟨o, ho, 0, hpos, 0, hi, rfl⟩)
      rw [inputIdx_eq ho hi hfit, hvec, if_pos rfl, hone] at hstart
      simp only [Nat.add_zero, Nat.mul_one] at hstart
      exact toUInt_eq_iff.mp (Nat.cast_injective hstart)
    · rintro h x (⟨o, ho, i, hi, rfl⟩ | ⟨o, ho, r, hr, i, hi, rfl⟩)
      · exact congrArg Nat.cast (toUInt_of_lt ((rows_lt_iff.mpr (le_refl _) o ho i hi).trans hfit))
      · show ((run.inputIdx _ _ : ℕ) : ℤ) = _
        rw [inputIdx_eq ho hi hfit, hvec, if_pos rfl]
        rw [hone] at hi ⊢
        obtain rfl : i = 0 := by omega
        simp only [Nat.add_zero, Nat.mul_one]
        rw [toUInt_of_lt (h o ho)]
  | false =>
    rw [if_neg (by decide), ← elements_lt_iff]
    constructor
    · intro h o ho r hr i hi
      have helem := h _ (Or.inr ⟨o, ho, r, hr, i, hi, rfl⟩)
      rw [inputIdx_eq ho hi hfit, hvec, if_neg (by decide)] at helem
      exact toUInt_eq_iff.mp (Nat.cast_injective helem)
    · rintro h x (⟨o, ho, i, hi, rfl⟩ | ⟨o, ho, r, hr, i, hi, rfl⟩)
      · exact congrArg Nat.cast (toUInt_of_lt ((rows_lt_iff.mpr (le_refl _) o ho i hi).trans hfit))
      · show ((run.inputIdx _ _ : ℕ) : ℤ) = _
        rw [inputIdx_eq ho hi hfit, hvec, if_neg (by decide)]
        exact congrArg Nat.cast (toUInt_of_lt (h o ho r hr i hi))

/-- A launch on rows of any sizes. -/
theorem ReductionRun.use_exact_iff {s : ReductionSizes} (hsizes : run.sizes = s.words)
    (hinner : run.use_vec4 = true → run.sizes.inner_size = 1) :
    (run.use s).Exact ↔ (s.Small ∧ s.outer_size * s.inner_size < uintRange)
      ∧ s.IndicesFit run.use_vec4 := by
  have hcounts : (∀ c ∈ (run.use s).counts, (c.2 : ℤ) = c.1)
      ↔ s.Small ∧ s.outer_size * s.inner_size < uintRange := by
    unfold use
    rw [forall_mem_append, hsizes, counts_exact_iff]
    refine and_congr_right fun hsmall => ?_
    rw [words_eq hsmall, forall_mem_singleton, Nat.cast_inj]
    exact toUInt_eq_iff
  apply WordUse.exact_iff hcounts
  rintro ⟨hsmall, hfit⟩
  have hwords : run.sizes = s := hsizes.trans (words_eq hsmall)
  subst hwords
  exact indices_exact_iff hinner hfit

end Reduction

/-! ### `embedding` -/

section Embedding

variable {α : Type} [Zero α] {call : EmbeddingCall α} {run : EmbeddingRun α}

/-- The three sizes, and the indices into the output and the table. -/
def EmbeddingCall.use (call : EmbeddingCall α) (run : EmbeddingRun α) : WordUse where
  counts := [((call.count : ℤ), run.args.num_indices), ((call.vocabSize : ℤ), run.args.vocab_size),
    ((call.embedDim : ℤ), run.args.embed_dim)]
  indices := {x | ∃ g < call.count, ∃ d < call.embedDim,
      x = (((g * call.embedDim + d : ℕ) : ℤ), run.args.outputCell (toUInt g) d)} ∪
    {x | ∃ g < call.count, ¬ (run.args.idx (toUInt g) < 0 ∨
        run.args.idx (toUInt g) ≥ int32OfUInt run.args.vocab_size) ∧
      ∃ d < call.embedDim, x = (run.args.idx (toUInt g) * call.embedDim + d,
        run.args.weightCell (toUInt g) d)}

/-- The output has no more than `2 ^ 32` elements, and the rows that are looked up end there. -/
def EmbeddingCall.IndicesFit (call : EmbeddingCall α) : Prop :=
  call.count * call.embedDim ≤ uintRange ∧
    (call.vocabSize < 2 ^ 31 → ∀ g < call.count, 0 ≤ call.args.idx g →
      call.args.idx g < call.vocabSize → (call.args.idx g + 1) * call.embedDim ≤ uintRange)

omit [Zero α] in
/-- The row of a word in the table. -/
theorem EmbeddingArgs.weightCell_eq_iff {a : EmbeddingArgs α} {g d : ℕ} (hlow : 0 ≤ a.idx g)
    (hhigh : a.idx g < 2 ^ 31) :
    ((a.weightCell g d : ℕ) : ℤ) = a.idx g * a.embed_dim + d
      ↔ a.idx g * a.embed_dim + d < uintRange := by
  obtain ⟨w, hw⟩ := Int.eq_ofNat_of_zero_le hlow
  unfold EmbeddingArgs.weightCell
  rw [hw] at hhigh ⊢
  have hword : uintOfInt ((w : ℕ) : ℤ) = w := by
    apply uintOfInt_natCast
    unfold uintRange
    omega
  have hcast : ((w : ℕ) : ℤ) * a.embed_dim + d = ((w * a.embed_dim + d : ℕ) : ℤ) := by
    push_cast
    rfl
  rw [hword, hcast, Nat.cast_inj, toUInt_eq_iff, Nat.cast_lt]

/-- The words that have a row are those of the vocabulary; a table that has too many rows for an
    `int32_t` has none. -/
theorem not_outside_iff {v : ℕ} (hv : v < uintRange) (w : ℤ) :
    ¬ (w < 0 ∨ w ≥ int32OfUInt v) ↔ v < 2 ^ 31 ∧ 0 ≤ w ∧ w < v := by
  by_cases hsmall : v < 2 ^ 31
  · rw [int32OfUInt_of_lt hsmall]
    omega
  · have hneg := int32OfUInt_neg (Nat.not_lt.mp hsmall) hv
    omega

omit [Zero α] in
theorem EmbeddingCall.Accepted.use_exact_iff (h : call.Accepted run) :
    (call.use run).Exact ↔ call.IndicesFit := by
  have hidx : run.args.idx = call.args.idx := by
    unfold EmbeddingArgs.idx
    rw [h.indices]
    rfl
  have hgid : ∀ g < call.count, toUInt g = g := fun g hg => toUInt_of_lt (hg.trans h.count_lt)
  have hout : (∀ g < call.count, ∀ d < call.embedDim,
      ((run.args.outputCell (toUInt g) d : ℕ) : ℤ) = ((g * call.embedDim + d : ℕ) : ℤ))
        ↔ call.count * call.embedDim ≤ uintRange := by
    rw [← rows_lt_iff]
    refine forall₂_congr fun g hg => forall₂_congr fun d _ => ?_
    unfold EmbeddingArgs.outputCell
    rw [hgid g hg, h.embed_dim, Nat.cast_inj, toUInt_eq_iff]
  -- a row ends where its last element does
  have hrow : ∀ g < call.count, 0 ≤ call.args.idx g → call.args.idx g < 2 ^ 31 →
      ((∀ d < call.embedDim, ((run.args.weightCell (toUInt g) d : ℕ) : ℤ)
          = run.args.idx (toUInt g) * call.embedDim + d)
        ↔ (call.args.idx g + 1) * call.embedDim ≤ uintRange) := by
    intro g hg hlow hhigh
    rw [hgid g hg]
    have hcell : ∀ d, ((run.args.weightCell g d : ℕ) : ℤ) = run.args.idx g * call.embedDim + d
        ↔ call.args.idx g * call.embedDim + d < uintRange := by
      intro d
      have hiff := run.args.weightCell_eq_iff (d := d) (hidx ▸ hlow) (hidx ▸ hhigh)
      rw [hidx]
      rwa [h.embed_dim, hidx] at hiff
    simp only [hcell]
    have hsplit : (call.args.idx g + 1) * call.embedDim
        = call.args.idx g * call.embedDim + call.embedDim := by ring
    rw [hsplit]
    constructor
    · intro hall
      rcases Nat.eq_zero_or_pos call.embedDim with hzero | hpos
      · rw [hzero]
        simp
      have hlast := hall (call.embedDim - 1) (by omega)
      omega
    · intro hle d hd
      omega
  constructor
  · intro hexact
    refine ⟨hout.mp fun g hg d hd => hexact.indices _ (Or.inl ⟨g, hg, d, hd, rfl⟩), ?_⟩
    intro hsmall g hg hlow hhigh
    rw [← hrow g hg hlow (by omega)]
    intro d hd
    refine hexact.indices _ (Or.inr ⟨g, hg, ?_, d, hd, rfl⟩)
    rw [h.vocab_size, not_outside_iff h.vocab_lt, hidx, hgid g hg]
    exact ⟨hsmall, hlow, hhigh⟩
  · rintro ⟨houtput, htable⟩
    constructor
    · intro c hc
      simp only [use, mem_cons, not_mem_nil, or_false] at hc
      rcases hc with rfl | rfl | rfl
      · exact congrArg Nat.cast h.num_indices
      · exact congrArg Nat.cast h.vocab_size
      · exact congrArg Nat.cast h.embed_dim
    · rintro x (⟨g, hg, d, hd, rfl⟩ | ⟨g, hg, hinside, d, hd, rfl⟩)
      · exact hout.mpr houtput g hg d hd
      · rw [h.vocab_size, not_outside_iff h.vocab_lt, hidx, hgid g hg] at hinside
        obtain ⟨hsmall, hlow, hhigh⟩ := hinside
        exact (hrow g hg hlow (by omega)).mpr (htable hsmall g hg hlow hhigh) d hd

end Embedding

/-! ### `speculative_verify` -/

section Speculative

variable {α : Type} [LinearOrder α] [Zero α] [One α] {div : α → α → α} {call : SpeculativeCall α}
  {run : VerifyRun α}

/-- The two sizes, and the indices of the rows, of their positions and of the probabilities that the
    threads read. -/
def SpeculativeCall.use (call : SpeculativeCall α) (div : α → α → α) (run : VerifyRun α) :
    WordUse where
  counts := [((call.draftLength : ℤ), run.args.K), ((call.vocabSize : ℤ), run.args.vocab_size)]
  indices := {x | ∃ b < call.batchSize, x = ((b : ℤ), toUInt b)} ∪
    ({x | ∃ b < call.batchSize, ∃ i < call.draftLength,
      x = (((b * call.draftLength + i : ℕ) : ℤ), run.args.cell (toUInt b) i)} ∪
    {x | ∃ b < call.batchSize, ∃ r ∈ (run.args.thread div (toUInt b)).reads,
      x = (((b * call.draftLength * call.vocabSize + r.1 * call.vocabSize : ℕ) : ℤ)
        + run.args.draft_tokens r.2.1, r.2.2)})

/-- The flat index of the probability of a draft token. -/
def SpeculativeCall.flatIndex (call : SpeculativeCall α) (b i : ℕ) : ℤ :=
  ((b * call.draftLength * call.vocabSize + i * call.vocabSize : ℕ) : ℤ)
    + call.draft_tokens.data (b * call.draftLength + i)

/-- The sizes and the positions have 32 bits, and so have the flat indices of the tokens, up to the
    first one of a row that is refused. -/
structure SpeculativeCall.Fits (call : SpeculativeCall α) (div : α → α → α) : Prop where
  length_lt : call.draftLength < uintRange
  vocab_lt : call.vocabSize < uintRange
  batch_le : call.batchSize ≤ uintRange
  cells_le : call.batchSize * call.draftLength ≤ uintRange
  entry_lt : ∀ b < call.batchSize, ∀ i < call.draftLength,
    (∀ j < i, call.args.accepts div b j = true) →
      0 ≤ call.flatIndex b i ∧ call.flatIndex b i < uintRange

/-- What a thread reads: the positions up to the first one that it refuses. -/
theorem VerifyArgs.mem_reads {a : VerifyArgs α} (hK : a.K < uintRange) {b : ℕ} {r : ℕ × ℕ × ℕ} :
    r ∈ (a.thread div b).reads ↔ ∃ i < a.K, (∀ j < i, a.accepts div b j = true) ∧
      r = (i, a.cell b i, a.entry b i) := by
  rw [VerifyArgs.thread_eq hK]
  simp only [mem_map, mem_filter, mem_range, allAccepted, all_eq_true]
  constructor
  · rintro ⟨i, ⟨hi, hall⟩, rfl⟩
    exact ⟨i, hi, hall, rfl⟩
  · rintro ⟨i, hi, hall, rfl⟩
    exact ⟨i, ⟨hi, hall⟩, rfl⟩

theorem SpeculativeCall.use_exact_iff (hargs : run.args = call.args) :
    (call.use div run).Exact ↔ call.Fits div := by
  have hcounts : (∀ c ∈ (call.use div run).counts, (c.2 : ℤ) = c.1)
      ↔ call.draftLength < uintRange ∧ call.vocabSize < uintRange := by
    unfold use
    rw [hargs, forall_mem_cons, forall_mem_singleton, Nat.cast_inj, Nat.cast_inj]
    exact and_congr toUInt_eq_iff toUInt_eq_iff
  -- the positions of the rows, once their length fits
  have hcells : call.draftLength < uintRange → call.batchSize ≤ uintRange →
      ((∀ b < call.batchSize, ∀ i < call.draftLength,
          ((run.args.cell (toUInt b) i : ℕ) : ℤ) = ((b * call.draftLength + i : ℕ) : ℤ))
        ↔ call.batchSize * call.draftLength ≤ uintRange) := by
    intro hlength hbatch
    rw [← rows_lt_iff]
    refine forall₂_congr fun b hb => forall₂_congr fun i _ => ?_
    unfold VerifyArgs.cell
    rw [toUInt_of_lt (hb.trans_le hbatch), hargs, show call.args.K = call.draftLength from
      toUInt_of_lt hlength, Nat.cast_inj, toUInt_eq_iff]
  -- and the flat indices, once the positions do
  have hentry : call.draftLength < uintRange → call.vocabSize < uintRange →
      ∀ b < uintRange, ∀ i, call.args.cell b i = b * call.draftLength + i →
        call.args.entry b i = uintOfInt (call.flatIndex b i) := by
    intro hlength hvocab b _ i hcell
    unfold VerifyArgs.entry flatIndex
    rw [hcell, show call.args.K = call.draftLength from toUInt_of_lt hlength,
      show call.args.vocab_size = call.vocabSize from toUInt_of_lt hvocab, uintOfInt_natCast_add]
    rfl
  constructor
  · intro h
    obtain ⟨hlength, hvocab⟩ := hcounts.mp h.counts
    have hbatch : call.batchSize ≤ uintRange := by
      by_contra hlt
      have hword := h.indices _ (Or.inl ⟨uintRange, Nat.not_le.mp hlt, rfl⟩)
      exact absurd (toUInt_eq_iff.mp (Nat.cast_injective hword)) (lt_irrefl _)
    have hcell : ∀ b < call.batchSize, ∀ i < call.draftLength,
        ((run.args.cell (toUInt b) i : ℕ) : ℤ) = ((b * call.draftLength + i : ℕ) : ℤ) :=
      fun b hb i hi => h.indices _ (Or.inr (Or.inl ⟨b, hb, i, hi, rfl⟩))
    refine ⟨hlength, hvocab, hbatch, (hcells hlength hbatch).mp hcell, ?_⟩
    intro b hb i hi hall
    have hb' : toUInt b = b := toUInt_of_lt (hb.trans_le hbatch)
    have hplace := Nat.cast_injective (hcell b hb i hi)
    rw [hargs, hb'] at hplace
    have hread : (i, call.args.cell b i, call.args.entry b i)
        ∈ (run.args.thread div (toUInt b)).reads := by
      rw [hargs, hb', VerifyArgs.mem_reads (toUInt_lt _)]
      exact ⟨i, hi.trans_eq (toUInt_of_lt hlength).symm, hall, rfl⟩
    have hexact := h.indices _ (Or.inr (Or.inr ⟨b, hb, _, hread, rfl⟩))
    dsimp only at hexact
    rw [hentry hlength hvocab b (hb.trans_le hbatch) i hplace, hargs, hplace] at hexact
    exact uintOfInt_eq_iff.mp hexact
  · intro h
    refine ⟨hcounts.mpr ⟨h.length_lt, h.vocab_lt⟩, ?_⟩
    have hcell := (hcells h.length_lt h.batch_le).mpr h.cells_le
    rintro x (⟨b, hb, rfl⟩ | ⟨b, hb, i, hi, rfl⟩ | ⟨b, hb, r, hr, rfl⟩)
    · exact congrArg Nat.cast (toUInt_of_lt (hb.trans_le h.batch_le))
    · exact hcell b hb i hi
    · have hb' : toUInt b = b := toUInt_of_lt (hb.trans_le h.batch_le)
      rw [hargs, hb', VerifyArgs.mem_reads (toUInt_lt _)] at hr
      obtain ⟨i, hi, hall, rfl⟩ := hr
      have hi' : i < call.draftLength := hi.trans_eq (toUInt_of_lt h.length_lt)
      have hplace := Nat.cast_injective (hcell b hb i hi')
      rw [hargs, hb'] at hplace
      dsimp only
      rw [hentry h.length_lt h.vocab_lt b (hb.trans_le h.batch_le) i hplace, hargs, hplace]
      exact uintOfInt_eq_iff.mpr (h.entry_lt b hb i hi' hall)

end Speculative

/-! ### The activations -/

section Activations

variable {α : Type}

/-- The number of elements, what the grid is computed from, and the indices `idx + j` that a thread
    forms, for `j` up to `last`. -/
def VectorRun.use (run : VectorRun α) (n last : ℕ) : WordUse where
  counts := [((n : ℤ), run.num_elements), (((n + 3 : ℕ) : ℤ), toUInt (run.num_elements + 3))]
  indices := {x | ∃ id < run.grid, ∃ j ≤ last,
    x = (((4 * id + j : ℕ) : ℤ), toUInt (vectorBase id + j))}

/-- And, of `fused_bias_gelu`, the sizes that it compares and the indices into the bias. -/
def VectorRun.useBias (run : VectorRun α) (n bias_size last_dim : ℕ) : WordUse where
  counts := [((bias_size : ℤ), toUInt bias_size), ((last_dim : ℤ), toUInt last_dim)]
    ++ (run.use n 3).counts
  indices := (run.use n 3).indices ∪ {x | ∃ id < run.grid, ∃ j ≤ 3,
    x = ((((4 * id + j) % bias_size : ℕ) : ℤ), biasCell (toUInt bias_size) (vectorBase id + j))}

variable {run : VectorRun α} {n : ℕ}

/-- The indices of a thread, where the grid has not wrapped around. -/
theorem activationIndex_eq (hn : n + 3 < uintRange) {id j : ℕ} (hid : id < (n + 3) / 4)
    (hj : j ≤ 4) : toUInt (vectorBase id + j) = 4 * id + j := by
  unfold vectorBase toUInt uintRange at *
  omega

theorem VectorRun.use_exact_iff {last : ℕ} (hlast : last ≤ 4)
    (hnum : run.num_elements = toUInt n) (hgrid : run.grid = activationGrid run.num_elements) :
    (run.use n last).Exact ↔ n + 3 < uintRange := by
  constructor
  · intro h
    have hword := h.counts _ (mem_cons_self ..)
    have hgrown := h.counts _ (mem_cons_of_mem _ (mem_singleton_self _))
    have hexact : toUInt n = n := by
      rw [← hnum]
      exact Nat.cast_injective hword
    rw [hnum, hexact] at hgrown
    exact toUInt_eq_iff.mp (Nat.cast_injective hgrown)
  · intro hn
    have hword : run.num_elements = n := hnum.trans (toUInt_of_lt (by omega))
    have hthreads : run.grid = (n + 3) / 4 := by
      rw [hgrid, hword, activationGrid, toUInt_of_lt hn]
    constructor
    · intro c hc
      simp only [use, mem_cons, not_mem_nil, or_false] at hc
      rcases hc with rfl | rfl
      · exact congrArg Nat.cast hword
      · dsimp only
        rw [hword, toUInt_of_lt hn]
    · rintro x ⟨id, hid, j, hj, rfl⟩
      exact congrArg Nat.cast (activationIndex_eq hn (hthreads ▸ hid) (hj.trans hlast))

theorem VectorRun.useBias_exact_iff {bias_size last_dim : ℕ}
    (hnum : run.num_elements = toUInt n) (hgrid : run.grid = activationGrid run.num_elements) :
    (run.useBias n bias_size last_dim).Exact
      ↔ bias_size < uintRange ∧ last_dim < uintRange ∧ n + 3 < uintRange := by
  have huse : (run.use n 3).Exact ↔ n + 3 < uintRange :=
    VectorRun.use_exact_iff (by decide) hnum hgrid
  constructor
  · intro h
    have hbias := h.counts _ (mem_append_left _ (mem_cons_self ..))
    have hlast := h.counts _ (mem_append_left _
      (mem_cons_of_mem _ (mem_singleton_self _)))
    refine ⟨toUInt_eq_iff.mp (Nat.cast_injective hbias),
      toUInt_eq_iff.mp (Nat.cast_injective hlast), huse.mp ⟨?_, ?_⟩⟩
    · exact fun c hc => h.counts c (mem_append_right _ hc)
    · exact fun x hx => h.indices x (Or.inl hx)
  · rintro ⟨hbias, hlast, hn⟩
    have hexact := huse.mpr hn
    have hthreads : run.grid = (n + 3) / 4 := by
      rw [hgrid, hnum, toUInt_of_lt (show n < uintRange by omega), activationGrid,
        toUInt_of_lt hn]
    constructor
    · intro c hc
      rcases mem_append.mp hc with hc | hc
      · simp only [mem_cons, not_mem_nil, or_false] at hc
        rcases hc with rfl | rfl
        · exact congrArg Nat.cast (toUInt_of_lt hbias)
        · exact congrArg Nat.cast (toUInt_of_lt hlast)
      · exact hexact.counts c hc
    · rintro x (hx | ⟨id, hid, j, hj, rfl⟩)
      · exact hexact.indices x hx
      · unfold biasCell
        rw [toUInt_of_lt hbias, activationIndex_eq hn (hthreads ▸ hid) (by omega)]

end Activations

/-! ### The fused normalisations -/

section Norms

variable {α : Type*} {input : MNTensor α} {sizes : NormSizes} {address : ℕ → ℕ → ℕ}

/-- The size and the number of the rows, and the indices of their elements. -/
def rowUse (input : MNTensor α) (sizes : NormSizes) (address : ℕ → ℕ → ℕ) : WordUse where
  counts := [((lastDim input : ℤ), sizes.norm_size),
    (((input.dims.prod / lastDim input : ℕ) : ℤ), sizes.batch_size)]
  indices := {x | ∃ row < input.dims.prod / lastDim input, ∃ i < lastDim input,
    x = (((row * lastDim input + i : ℕ) : ℤ), address row i)}

/-- The sizes and the indices of the rows have 32 bits. -/
structure RowsFit (input : MNTensor α) : Prop where
  size : lastDim input < uintRange
  count : input.dims.prod / lastDim input < uintRange
  elements : input.dims.prod ≤ uintRange

theorem lastDim_mem (hne : input.dims ≠ []) : lastDim input ∈ input.dims := by
  have hlast : lastDim input = input.dims.getLast hne := by
    unfold lastDim
    rw [getLast_eq_getElem, getD_eq_getElem?_getD, getElem?_eq_getElem]
    rfl
  rw [hlast]
  exact getLast_mem hne

/-- The words of the sizes. -/
theorem normSizes_eq (hne : input.dims ≠ []) :
    toUInt (toSizeT (input.shape.getD (input.shape.length - 1) 0)) = toUInt (lastDim input) ∧
      ∀ n : ℕ, toUInt (toSizeT (input.numel.tdiv n)) = toUInt (input.dims.prod / n) := by
  have hnumel := input.numel_lt
  constructor
  · have hgetD : input.shape.getD (input.shape.length - 1) 0 = ((lastDim input : ℕ) : ℤ) := by
      rw [input.shape_getD, lastDim, MNTensor.shape, length_map]
    have hlt := input.dims_lt _ (lastDim_mem hne)
    rw [hgetD, toSizeT_natCast (hlt.trans (by decide))]
  · intro n
    have hdiv : input.dims.prod / n ≤ input.dims.prod := Nat.div_le_self ..
    rw [input.numel_eq, ← Int.ofNat_tdiv, toSizeT_natCast (by unfold sizeTRange; omega)]

/-- A launch that addresses its elements as long as they have 32 bits. -/
theorem rowUse_exact_iff (hne : input.dims ≠ []) (hnorm : sizes.norm_size = toUInt (lastDim input))
    (hbatch : sizes.batch_size = toUInt (input.dims.prod / sizes.norm_size))
    (haddress : sizes.norm_size = lastDim input → ∀ row, ∀ i < lastDim input,
      row * lastDim input + i < uintRange → address row i = row * lastDim input + i)
    (hlast : sizes.norm_size = lastDim input → 0 < lastDim input → ∀ row,
      address row (lastDim input - 1) = row * lastDim input + (lastDim input - 1) →
        row * lastDim input + lastDim input ≤ uintRange) :
    (rowUse input sizes address).Exact ↔ RowsFit input := by
  constructor
  · intro h
    have hsize : lastDim input < uintRange := by
      have hword := h.counts _ (mem_cons_self ..)
      rw [hnorm] at hword
      exact toUInt_eq_iff.mp (Nat.cast_injective hword)
    rw [toUInt_of_lt hsize] at hnorm
    have hcount : input.dims.prod / lastDim input < uintRange := by
      have hword := h.counts _ (mem_cons_of_mem _ (mem_singleton_self _))
      rw [hbatch, hnorm] at hword
      exact toUInt_eq_iff.mp (Nat.cast_injective hword)
    refine ⟨hsize, hcount, ?_⟩
    rcases Nat.eq_zero_or_pos (lastDim input) with hzero | hlen
    · rw [prod_eq_zero (hzero ▸ lastDim_mem hne)]
      exact Nat.zero_le _
    rcases Nat.eq_zero_or_pos (input.dims.prod / lastDim input) with hnone | hrows
    · rw [← prod_div_lastDim input hlen, hnone, Nat.zero_mul]
      exact Nat.zero_le _
    -- the last element of the last row
    have hsplit : (input.dims.prod / lastDim input - 1) * lastDim input + lastDim input
        = input.dims.prod := by
      rw [← Nat.add_one_mul, Nat.sub_add_cancel hrows, prod_div_lastDim input hlen]
    rw [← hsplit]
    exact hlast hnorm hlen _ (Nat.cast_injective
      (h.indices _ ⟨input.dims.prod / lastDim input - 1, by omega, lastDim input - 1, by omega,
        rfl⟩))
  · intro h
    have hnorm' : sizes.norm_size = lastDim input := hnorm.trans (toUInt_of_lt h.size)
    have hbatch' : sizes.batch_size = input.dims.prod / lastDim input := by
      rw [hbatch, hnorm', toUInt_of_lt h.count]
    constructor
    · intro c hc
      simp only [rowUse, mem_cons, not_mem_nil, or_false] at hc
      rcases hc with rfl | rfl
      · exact congrArg Nat.cast hnorm'
      · exact congrArg Nat.cast hbatch'
    · rintro x ⟨row, hrow, i, hi, rfl⟩
      have hlt := rows_lt_iff.mpr (le_refl _) row hrow i hi
      rw [prod_div_lastDim input (by omega)] at hlt
      exact congrArg Nat.cast (haddress hnorm' row i hi (hlt.trans_le h.elements))

/-- A tensor whose last dimension is read has one. -/
theorem dims_ne_nil (h : ¬ input.shape.length = 0) : input.dims ≠ [] := by
  rintro hnil
  rw [MNTensor.shape, hnil] at h
  exact h rfl

/-- The sizes that `fast::fused_residual_norm` launches with. -/
theorem fusedResidualNorm_sizes {residual weight : MNTensor α} {run : FusedRun}
    (h : fusedResidualNorm input residual weight = .ok run) :
    input.dims ≠ [] ∧ run.sizes.norm_size = toUInt (lastDim input) ∧
      run.sizes.batch_size = toUInt (input.dims.prod / run.sizes.norm_size) := by
  simp only [fusedResidualNorm, bind, Except.bind, pure, Except.pure] at h
  split at h
  · cases h
  split at h
  · cases h
  split at h
  · cases h
  split at h
  · cases h
  next hdims =>
    split at h
    · cases h
    obtain rfl := Except.ok.inj h
    have hne := dims_ne_nil hdims
    obtain ⟨hnorm, hbatch⟩ := normSizes_eq hne
    exact ⟨hne, hnorm, hbatch _⟩

theorem FusedRun.use_exact_iff {residual weight : MNTensor α} {run : FusedRun}
    (h : fusedResidualNorm input residual weight = .ok run) :
    (rowUse input run.sizes run.address).Exact ↔ RowsFit input := by
  obtain ⟨hne, hnorm, hbatch⟩ := fusedResidualNorm_sizes h
  have haddress : run.sizes.norm_size = lastDim input → ∀ row i,
      run.address row i = toUInt (row * lastDim input + i) := by
    intro hsize row i
    unfold FusedRun.address
    rw [toUInt_toUInt_add, hsize]
  apply rowUse_exact_iff hne hnorm hbatch
  · intro hsize row i _ hlt
    rw [haddress hsize]
    exact toUInt_of_lt hlt
  · intro hsize hlen row heq
    rw [haddress hsize, toUInt_eq_iff] at heq
    omega

/-- The sizes that `fast::rms_norm` and `fast::layer_norm` launch with. -/
theorem fusedNorm_sizes {op : NormOp} {run : FusedNormRun} (h : fusedNorm op input = .ok run) :
    input.dims ≠ [] ∧ run.sizes.norm_size = toUInt (lastDim input) ∧
      run.sizes.batch_size = toUInt (input.dims.prod / run.sizes.norm_size) := by
  simp only [fusedNorm, bind, Except.bind, pure, Except.pure] at h
  split at h
  · cases h
  next hdims =>
    obtain rfl := Except.ok.inj h
    have hne := dims_ne_nil hdims
    obtain ⟨hnorm, hbatch⟩ := normSizes_eq hne
    exact ⟨hne, hnorm, hbatch _⟩

/-- A vector begins in 32 bits, and so does the whole row where its elements come in fours. -/
theorem FusedNormRun.address_of_lt (run : FusedNormRun) {row i : ℕ}
    (hlt : row * run.sizes.norm_size + i < uintRange) :
    run.address row i = row * run.sizes.norm_size + i := by
  unfold FusedNormRun.address FusedNormRun.vectorIndex
  dsimp only
  split_ifs with hvec
  · rw [toUInt_toUInt_add, toUInt_of_lt (by omega)]
    omega
  · rw [toUInt_toUInt_add, toUInt_of_lt hlt]

theorem FusedNormRun.use_exact_iff {op : NormOp} {run : FusedNormRun}
    (h : fusedNorm op input = .ok run) :
    (rowUse input run.sizes run.address).Exact ↔ RowsFit input := by
  obtain ⟨hne, hnorm, hbatch⟩ := fusedNorm_sizes h
  apply rowUse_exact_iff hne hnorm hbatch
  · intro hsize row i _ hlt
    rw [← hsize] at hlt ⊢
    exact run.address_of_lt hlt
  · intro hsize hlen row heq
    rw [← hsize] at hlen heq ⊢
    unfold FusedNormRun.address FusedNormRun.vectorIndex at heq
    dsimp only at heq
    split_ifs at heq with hvec
    · -- the last element is in a vector, so that the rows are rows of vectors
      rw [toUInt_toUInt_add] at heq
      have hstart := toUInt_lt (row * run.sizes.norm_size + (run.sizes.norm_size - 1) / 4 * 4)
      have hmul : row * run.sizes.norm_size % 4 = 0 := by
        rw [Nat.mul_mod, show run.sizes.norm_size % 4 = 0 by omega]
        simp
      unfold uintRange at hstart ⊢
      omega
    · rw [toUInt_toUInt_add, toUInt_eq_iff] at heq
      omega

end Norms

/-! ### `fast::rope` -/

section Rope

variable {call : RopeCall}

/-- The constants and the number of slices, and the indices into the tables and those of the two
    components of a pair. -/
def RopeCall.use (call : RopeCall) (a : RopeArgs) : WordUse where
  counts := [((call.q.dim 0 : ℤ), a.batch_size), ((call.q.dim 1 : ℤ), a.num_heads),
    ((call.q.dim 2 : ℤ), a.seq_len), ((call.q.dim 3 : ℤ), a.head_dim),
    (call.start_pos, a.start_pos), (((call.q.dim 0 * call.q.dim 1 : ℕ) : ℤ), a.heads)]
  indices := {x | ∃ bh < call.q.dim 0 * call.q.dim 1, ∃ s < call.q.dim 2,
    ∃ p < call.q.dim 3 / 2,
      x = ((call.start_pos + s) * ((call.q.dim 3 / 2 : ℕ) : ℤ) + p, a.cacheCell s p) ∨
      x = ((((bh * call.q.dim 2 + s) * call.q.dim 3 + 2 * p : ℕ) : ℤ), a.dim0 bh s p) ∨
      x = ((((bh * call.q.dim 2 + s) * call.q.dim 3 + 2 * p + 1 : ℕ) : ℤ), a.dim1 bh s p)}

/-- There are no pairs. -/
def RopeCall.NoPairs (call : RopeCall) : Prop :=
  call.q.dim 0 * call.q.dim 1 = 0 ∨ call.q.dim 2 = 0 ∨ call.q.dim 3 / 2 = 0

/-- The constants have 32 bits, and so have the indices of the last pair. -/
structure RopeCall.Fits (call : RopeCall) : Prop where
  batch : call.q.dim 0 < uintRange
  heads : call.q.dim 1 < uintRange
  seq : call.q.dim 2 < uintRange
  head : call.q.dim 3 < uintRange
  start : 0 ≤ call.start_pos ∧ call.start_pos < uintRange
  slices : call.q.dim 0 * call.q.dim 1 < uintRange
  pairs : call.NoPairs ∨
    (call.start_pos + call.q.dim 2) * ((call.q.dim 3 / 2 : ℕ) : ℤ) ≤ uintRange ∧
      (call.q.dim 0 * call.q.dim 1 * call.q.dim 2 - 1) * call.q.dim 3 + 2 * (call.q.dim 3 / 2)
        ≤ uintRange

/-- The words of the constants are the numbers. -/
theorem RopeCall.counts_exact_iff :
    (∀ c ∈ (call.use call.args).counts, (c.2 : ℤ) = c.1) ↔
      (call.q.dim 0 < uintRange ∧ call.q.dim 1 < uintRange ∧ call.q.dim 2 < uintRange ∧
        call.q.dim 3 < uintRange) ∧ (0 ≤ call.start_pos ∧ call.start_pos < uintRange) ∧
      call.q.dim 0 * call.q.dim 1 < uintRange := by
  have hheads : call.q.dim 0 < uintRange → call.q.dim 1 < uintRange →
      (call.args.heads = call.q.dim 0 * call.q.dim 1
        ↔ call.q.dim 0 * call.q.dim 1 < uintRange) := by
    intro hbatch hheads
    unfold RopeArgs.heads args
    dsimp only
    rw [toUInt_of_lt hbatch, toUInt_of_lt hheads]
    exact toUInt_eq_iff
  unfold use
  simp only [forall_mem_cons, Nat.cast_inj]
  constructor
  · rintro ⟨hbatch, hhead, hseq, hdim, hstart, hslices, -⟩
    have hbatch := toUInt_eq_iff.mp hbatch
    have hhead := toUInt_eq_iff.mp hhead
    exact ⟨⟨hbatch, hhead, toUInt_eq_iff.mp hseq, toUInt_eq_iff.mp hdim⟩,
      uintOfInt_eq_iff.mp hstart, (hheads hbatch hhead).mp hslices⟩
  · rintro ⟨⟨hbatch, hhead, hseq, hdim⟩, hstart, hslices⟩
    exact ⟨toUInt_of_lt hbatch, toUInt_of_lt hhead, toUInt_of_lt hseq, toUInt_of_lt hdim,
      uintOfInt_eq_iff.mpr hstart, (hheads hbatch hhead).mpr hslices, by simp⟩

theorem RopeCall.use_exact_iff : (call.use call.args).Exact ↔ call.Fits := by
  constructor
  · intro h
    obtain ⟨⟨hbatch, hheads, hseq, hdim⟩, hstart, hslices⟩ := counts_exact_iff.mp h.counts
    refine ⟨hbatch, hheads, hseq, hdim, hstart, hslices, ?_⟩
    by_cases hnone : call.NoPairs
    · exact Or.inl hnone
    right
    unfold NoPairs at hnone
    have hbh : call.q.dim 0 * call.q.dim 1 - 1 < call.q.dim 0 * call.q.dim 1 := by omega
    have hs : call.q.dim 2 - 1 < call.q.dim 2 := by omega
    have hp : call.q.dim 3 / 2 - 1 < call.q.dim 3 / 2 := by omega
    -- the last pair of the last position
    have hcache := h.indices _ ⟨_, hbh, _, hs, _, hp, Or.inl rfl⟩
    have hdim1 := h.indices _ ⟨_, hbh, _, hs, _, hp, Or.inr (Or.inr rfl)⟩
    constructor
    · have hlt : ((call.args.cacheCell (call.q.dim 2 - 1) (call.q.dim 3 / 2 - 1) : ℕ) : ℤ)
          < uintRange := by
        exact_mod_cast toUInt_lt _
      rw [hcache] at hlt
      have hsplit : (call.start_pos + call.q.dim 2) * ((call.q.dim 3 / 2 : ℕ) : ℤ)
          = (call.start_pos + ((call.q.dim 2 - 1 : ℕ) : ℤ)) * ((call.q.dim 3 / 2 : ℕ) : ℤ)
            + ((call.q.dim 3 / 2 : ℕ) : ℤ) := by
        rw [Nat.cast_sub (by omega), Nat.cast_one]
        ring
      rw [hsplit]
      omega
    · have hlt := toUInt_lt (call.args.base (call.q.dim 0 * call.q.dim 1 - 1) (call.q.dim 2 - 1)
        + 2 * (call.q.dim 3 / 2 - 1) + 1)
      have hword := Nat.cast_injective hdim1
      unfold RopeArgs.dim1 at hword
      dsimp only at hword
      rw [hword] at hlt
      have hrow : (call.q.dim 0 * call.q.dim 1 - 1) * call.q.dim 2 + (call.q.dim 2 - 1)
          = call.q.dim 0 * call.q.dim 1 * call.q.dim 2 - 1 := by
        have hle : call.q.dim 2 ≤ call.q.dim 0 * call.q.dim 1 * call.q.dim 2 :=
          Nat.le_mul_of_pos_left _ (by omega)
        rw [Nat.sub_mul, Nat.one_mul]
        omega
      rw [hrow] at hlt
      omega
  · intro h
    refine ⟨counts_exact_iff.mpr
      ⟨⟨h.batch, h.heads, h.seq, h.head⟩, h.start, h.slices⟩, ?_⟩
    rintro x ⟨bh, hbh, s, hs, p, hp, hx⟩
    rcases h.pairs with hnone | ⟨htable, hlast⟩
    · unfold NoPairs at hnone
      omega
    have hS : call.args.seq_len = call.q.dim 2 := toUInt_of_lt h.seq
    have hD : call.args.head_dim = call.q.dim 3 := toUInt_of_lt h.head
    obtain ⟨hcache, hdim0, hdim1⟩ := call.args.pair_eq bh s p
    rw [hS, hD] at hdim0 hdim1
    rw [hD] at hcache
    have hrow := rows_lt_iff.mpr (le_refl _) bh hbh s hs
    have hend : (bh * call.q.dim 2 + s) * call.q.dim 3
        ≤ (call.q.dim 0 * call.q.dim 1 * call.q.dim 2 - 1) * call.q.dim 3 :=
      Nat.mul_le_mul_right _ (by omega)
    rcases hx with rfl | rfl | rfl
    · obtain ⟨start, hstart⟩ := Int.eq_ofNat_of_zero_le h.start.1
      have hpos : call.args.start_pos = start := by
        have hlt := h.start.2
        unfold args
        dsimp only
        rw [hstart] at hlt ⊢
        exact uintOfInt_natCast (by exact_mod_cast hlt)
      have hle : (start + s + 1) * (call.q.dim 3 / 2) ≤ uintRange := by
        have hmono : (start + s + 1) * (call.q.dim 3 / 2)
            ≤ (start + call.q.dim 2) * (call.q.dim 3 / 2) := Nat.mul_le_mul_right _ (by omega)
        rw [hstart] at htable
        exact hmono.trans (by exact_mod_cast htable)
      rw [Nat.add_one_mul] at hle
      dsimp only
      rw [hcache, hpos, toUInt_of_lt (by omega), hstart]
      push_cast
      ring
    · dsimp only
      rw [hdim0, toUInt_of_lt (by omega)]
    · dsimp only
      rw [hdim1, toUInt_of_lt (by omega)]

end Rope

/-! ### `fast::fused_qkv_projection` -/

section Projection

variable {call : QkvProjectionCall}

/-- The constants, and the indices of the elements in the product and in the three results. -/
def QkvProjectionCall.use (call : QkvProjectionCall) (a : QkvSplitArgs) : WordUse where
  counts := [((call.input.dim 0 : ℤ), a.batch_size), ((call.input.dim 1 : ℤ), a.seq_len),
    (call.num_heads, a.num_heads), (call.head_dim, a.head_dim)]
  indices := {x | ∃ b < call.input.dim 0, ∃ h < call.num_heads.toNat, ∃ s < call.input.dim 1,
    ∃ d < call.head_dim.toNat,
      (∃ part < 3, x = ((((((b * call.input.dim 1 + s) * 3 + part) * call.num_heads.toNat + h)
          * call.head_dim.toNat + d : ℕ) : ℤ),
        a.srcCell part (toUInt (b * call.num_heads.toNat + h)) (toUInt s) (toUInt d))) ∨
      x = (((((b * call.num_heads.toNat + h) * call.input.dim 1 + s) * call.head_dim.toNat + d
          : ℕ) : ℤ),
        a.dstCell (toUInt (b * call.num_heads.toNat + h)) (toUInt s) (toUInt d))}

/-- The constants have 32 bits, and so have the indices of the product. -/
structure QkvProjectionCall.Fits (call : QkvProjectionCall) : Prop where
  batch : call.input.dim 0 < uintRange
  seq : call.input.dim 1 < uintRange
  heads : 0 ≤ call.num_heads ∧ call.num_heads < uintRange
  head : 0 ≤ call.head_dim ∧ call.head_dim < uintRange
  elements : call.input.dim 0 * call.input.dim 1 * 3 * call.num_heads.toNat * call.head_dim.toNat
    ≤ uintRange

/-- The indices of the thread of an element. -/
theorem QkvSplitArgs.cells_eq (a : QkvSplitArgs) (part : ℕ) {b h s d : ℕ} (hh : h < a.num_heads) :
    a.srcCell part (b * a.num_heads + h) s d
        = toUInt ((((b * a.seq_len + s) * 3 + part) * a.num_heads + h) * a.head_dim + d) ∧
      a.dstCell (b * a.num_heads + h) s d
        = toUInt (((b * a.num_heads + h) * a.seq_len + s) * a.head_dim + d) := by
  have hdiv : (b * a.num_heads + h) / a.num_heads = b := by
    rw [Nat.mul_comm, Nat.mul_add_div (by omega), Nat.div_eq_of_lt hh, Nat.add_zero]
  have hmod : (b * a.num_heads + h) % a.num_heads = h := by
    rw [Nat.mul_comm, Nat.mul_add_mod, Nat.mod_eq_of_lt hh]
  unfold srcCell dstCell
  rw [hdiv, hmod]
  exact ⟨congrArg toUInt (by ring), congrArg toUInt (by ring)⟩

theorem QkvProjectionCall.counts_exact_iff :
    (∀ c ∈ (call.use call.args).counts, (c.2 : ℤ) = c.1) ↔
      (call.input.dim 0 < uintRange ∧ call.input.dim 1 < uintRange) ∧
      (0 ≤ call.num_heads ∧ call.num_heads < uintRange) ∧
      0 ≤ call.head_dim ∧ call.head_dim < uintRange := by
  unfold use
  simp only [forall_mem_cons, Nat.cast_inj]
  constructor
  · rintro ⟨hbatch, hseq, hheads, hhead, -⟩
    exact ⟨⟨toUInt_eq_iff.mp hbatch, toUInt_eq_iff.mp hseq⟩, uintOfInt_eq_iff.mp hheads,
      uintOfInt_eq_iff.mp hhead⟩
  · rintro ⟨⟨hbatch, hseq⟩, hheads, hhead⟩
    exact ⟨toUInt_of_lt hbatch, toUInt_of_lt hseq, uintOfInt_eq_iff.mpr hheads,
      uintOfInt_eq_iff.mpr hhead, by simp⟩

theorem QkvProjectionCall.use_exact_iff : (call.use call.args).Exact ↔ call.Fits := by
  constructor
  · intro h
    obtain ⟨⟨hbatch, hseq⟩, hheads, hhead⟩ := counts_exact_iff.mp h.counts
    refine ⟨hbatch, hseq, hheads, hhead, ?_⟩
    rw [← elements_lt_iff]
    intro bs hbs h' hh d hd
    -- every position of the product has a thread, whose index is a word
    have hS : 0 < call.input.dim 1 := Nat.pos_of_ne_zero fun h0 => by simp [h0] at hbs
    have hb : bs / 3 / call.input.dim 1 < call.input.dim 0 := by
      rw [Nat.div_div_eq_div_mul]
      apply Nat.div_lt_of_lt_mul
      calc bs < call.input.dim 0 * call.input.dim 1 * 3 := hbs
        _ = 3 * call.input.dim 1 * call.input.dim 0 := by ring
    have hexact := h.indices _ ⟨_, hb, h', hh, bs / 3 % call.input.dim 1, Nat.mod_lt _ hS, d, hd,
      Or.inl ⟨bs % 3, Nat.mod_lt _ (by decide), rfl⟩⟩
    dsimp only at hexact
    rw [Nat.div_add_mod', Nat.div_add_mod'] at hexact
    rw [← Nat.cast_injective hexact]
    exact toUInt_lt _
  · intro h
    refine ⟨counts_exact_iff.mpr ⟨⟨h.batch, h.seq⟩, h.heads, h.head⟩, ?_⟩
    rintro x ⟨b, hb, h', hh, s, hs, d, hd, hx⟩
    have hS : call.args.seq_len = call.input.dim 1 := toUInt_of_lt h.seq
    have hH : call.args.num_heads = call.num_heads.toNat := uintOfInt_eq_toNat h.heads
    have hD : call.args.head_dim = call.head_dim.toNat := uintOfInt_eq_toNat h.head
    have hbs := rows_lt_iff.mpr (le_refl _) b hb s hs
    have hbh := rows_lt_iff.mpr (le_refl _) b hb h' hh
    have hlast := elements_lt_iff.mpr h.elements
    -- the number of the slice is below that of the elements
    have hdst : ((b * call.num_heads.toNat + h') * call.input.dim 1 + s) * call.head_dim.toNat + d
        < call.input.dim 0 * call.num_heads.toNat * call.input.dim 1 * call.head_dim.toNat :=
      elements_lt_iff.mpr (le_refl _) _ hbh s hs d hd
    have hle : call.input.dim 0 * call.num_heads.toNat * call.input.dim 1 * call.head_dim.toNat
        ≤ uintRange := by
      have hthree := h.elements
      have heq : call.input.dim 0 * call.input.dim 1 * 3 * call.num_heads.toNat
          * call.head_dim.toNat = 3 * (call.input.dim 0 * call.num_heads.toNat
            * call.input.dim 1 * call.head_dim.toNat) := by ring
      omega
    have hslice : b * call.num_heads.toNat + h'
        ≤ ((b * call.num_heads.toNat + h') * call.input.dim 1 + s) * call.head_dim.toNat + d := by
      have hfirst := Nat.le_mul_of_pos_right (b * call.num_heads.toNat + h')
        (show 0 < call.input.dim 1 by omega)
      have hsecond := Nat.le_mul_of_pos_right
        ((b * call.num_heads.toNat + h') * call.input.dim 1 + s)
        (show 0 < call.head_dim.toNat by omega)
      omega
    have hseq := h.seq
    have hhead := h.head.2
    have hcell := fun part => call.args.cells_eq part (b := b) (s := s) (d := d) (hH ▸ hh)
    rw [hS, hH, hD] at hcell
    rcases hx with ⟨part, hpart, rfl⟩ | rfl
    · dsimp only
      rw [toUInt_of_lt (show b * call.num_heads.toNat + h' < uintRange by omega),
        toUInt_of_lt (show s < uintRange by omega), toUInt_of_lt (show d < uintRange by omega),
        (hcell part).1, toUInt_of_lt (hlast _ (rows_lt_iff.mpr (le_refl _) _ hbs part hpart)
          h' hh d hd)]
    · dsimp only
      rw [toUInt_of_lt (show b * call.num_heads.toNat + h' < uintRange by omega),
        toUInt_of_lt (show s < uintRange by omega), toUInt_of_lt (show d < uintRange by omega),
        (hcell 0).2, toUInt_of_lt (hdst.trans_le hle)]

end Projection

end MetalNative
