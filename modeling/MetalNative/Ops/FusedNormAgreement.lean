import MetalNative.Ops.FusedNorm

namespace MetalNative

open ExtReal NormFamily ThreadLoop

/-!
# The fused normalisations against the plain ones

* `NormCall.fusedLaunch_eq` — the launch of a call that the plain function accepts.
* `FusedNormRun.aligned_iff` — the row lengths for which all vectors are aligned.
* `FusedNormRun.writes_eq_reference` — what a launch writes whose indices do not wrap around.
* `FusedNormRun.agrees_iff` — the launches that agree with the plain one.
* `fused_norm_agrees` — the calls that do, and the products with aligned vectors.
-/

/-! ### The launch -/

/-- The rows and the elements of a row. -/
theorem MNTensor.prod_take_mul_last {α : Type*} (t : MNTensor α) (h : 1 ≤ t.dims.length) :
    (t.dims.take (t.dims.length - 1)).prod * t.dims.getD (t.dims.length - 1) 0 = t.dims.prod := by
  have hlt : t.dims.length - 1 < t.dims.length := by omega
  have hlast : t.dims.getD (t.dims.length - 1) 0 = t.dims[t.dims.length - 1] := by
    rw [List.getD_eq_getElem?_getD, List.getElem?_eq_getElem hlt, Option.getD_some]
  rw [hlast, ← List.prod_take_succ, Nat.sub_add_cancel h, List.take_length]

/-- **What the fused function launches** where the plain one has accepted the call. -/
theorem NormCall.fusedLaunch_eq {α : Type*} (call : NormCall α) {plain : NormRun}
    (h : call.launch = .ok plain) (hnorm : 1 ≤ plain.sizes.norm_size) :
    plain.op = call.op ∧ call.fusedLaunch = .ok
      { op := call.op
        kernel_name := (fusedNormKernel call.op call.dtype (plain.sizes.norm_size ≥ 2048)).1
        use_large := plain.sizes.norm_size ≥ 2048
        dtype := (fusedNormKernel call.op call.dtype (plain.sizes.norm_size ≥ 2048)).2
        sizes := plain.sizes } := by
  obtain ⟨hdims, hplain⟩ := call.launched h
  refine ⟨hplain.function, ?_⟩
  have hlength : call.input.shape.length = call.input.dims.length := List.length_map _
  have hlast : plain.sizes.norm_size
      = call.input.dims.getD (call.input.dims.length - 1) 0 := by
    exact_mod_cast checkedUInt_natCast hplain.row
  have hprod := call.input.prod_take_mul_last hdims
  rw [← hlast] at hprod
  -- the rows can be counted in an `int64_t`
  have hrows : plain.sizes.batch_size
      = (call.input.dims.take (call.input.dims.length - 1)).prod := by
    have hlt : (call.input.dims.take (call.input.dims.length - 1)).prod < 2 ^ 63 :=
      lt_of_le_of_lt (Nat.le_mul_of_pos_right _ hnorm) (hprod ▸ call.input.numel_lt)
    have hcheck := hplain.rows
    rw [MNTensor.shape, ← List.map_take, MNShape.numel_map_natCast, toInt64_natCast hlt] at hcheck
    exact_mod_cast checkedUInt_natCast hcheck
  have hword : ∀ n : ℕ, n < uintRange → toUInt (toSizeT n) = n := by
    intro n hn
    rw [toSizeT_natCast (lt_of_lt_of_le hn (by decide)), toUInt_of_lt hn]
  -- the conversions that the fused function does not check are those that the plain one checked
  have hnorm_size : toUInt (toSizeT (call.input.shape.getD (call.input.shape.length - 1) 0))
      = plain.sizes.norm_size := by
    rw [call.input.shape_getD, hlength, ← hlast]
    exact hword _ (checkedUInt_lt hplain.row)
  have hbatch_size : toUInt (toSizeT (call.input.numel.tdiv plain.sizes.norm_size))
      = plain.sizes.batch_size := by
    rw [call.input.numel_eq, ← hprod, ← hrows, ← Int.ofNat_tdiv, Nat.mul_div_cancel _ hnorm]
    exact hword _ (checkedUInt_lt hplain.rows)
  have hfused : call.fusedLaunch = fusedNorm call.op call.input := by cases call <;> rfl
  have hne : ¬ call.input.shape.length = 0 := by omega
  rw [hfused, call.dtype_eq]
  simp only [fusedNorm, hne, hnorm_size, hbatch_size, if_false, bind, Except.bind, pure,
    Except.pure]

namespace FusedNormRun

variable {run : FusedNormRun}

/-! ### The vectors -/

/-- The vector of an element starts at a multiple of four when its row does. -/
theorem dvd_vectorIndex {row r : ℕ} :
    4 ∣ run.vectorIndex row r ↔ 4 ∣ row * run.sizes.norm_size := by
  have hvector : 4 ∣ r / 4 * 4 := Nat.dvd_mul_left 4 _
  rw [vectorIndex, four_dvd_toUInt, ← Nat.dvd_add_iff_left hvector, four_dvd_toUInt]

theorem mem_vectorIndices (hsmall : run.use_large = false) {idx : ℕ} :
    idx ∈ run.vectorIndices ↔ ∃ row < run.sizes.batch_size, ∃ lane < 32,
      ∃ i ∈ stride (lane * 4) 128 (run.sizes.norm_size / 4 * 4),
        idx = run.vectorIndex row i ∨ idx = i := by
  simp [vectorIndices, hsmall]

/-- The vector of an element is one of those. -/
theorem vectorIndex_mem (hsmall : run.use_large = false) {row r : ℕ}
    (hrow : row < run.sizes.batch_size) (hr : r < run.sizes.norm_size / 4 * 4) :
    run.vectorIndex row r ∈ run.vectorIndices := by
  refine (mem_vectorIndices hsmall).mpr ⟨row, hrow, r / 4 % 32, Nat.mod_lt _ (by decide),
    r / 4 * 4, (mem_stride (by decide)).mpr ⟨r / 4 / 32, by omega, by omega⟩, Or.inl ?_⟩
  simp only [vectorIndex, Nat.mul_div_cancel _ (show 0 < 4 by decide)]

/-- **The row lengths for which all vectors are aligned.** -/
theorem aligned_iff : (∀ idx ∈ run.vectorIndices, VectorAligned run.dtype idx)
    ↔ run.sizes.batch_size = 0 ∨ run.use_large = true ∨ run.sizes.norm_size < 4
      ∨ run.sizes.batch_size = 1 ∨ 4 ∣ run.sizes.norm_size := by
  cases hsmall : run.use_large with
  | true => simp [vectorIndices, hsmall]
  | false =>
    constructor
    · intro h
      by_contra hnone
      simp only [Bool.false_eq_true, false_or, not_or] at hnone
      obtain ⟨hzero, hlong, hone, hdvd⟩ := hnone
      -- the second row starts at its length
      have hmem := vectorIndex_mem hsmall (show 1 < run.sizes.batch_size by omega)
        (show 0 < run.sizes.norm_size / 4 * 4 by omega)
      have hrow := dvd_vectorIndex.mp (vectorAligned_iff.mp (h _ hmem))
      rw [Nat.one_mul] at hrow
      exact hdvd hrow
    · intro h idx hidx
      rw [vectorAligned_iff]
      obtain ⟨row, hrow, lane, -, i, hi, hat⟩ := (mem_vectorIndices hsmall).mp hidx
      obtain ⟨t, rfl, hlt⟩ := (mem_stride (by decide)).mp hi
      rcases hat with rfl | rfl
      · -- a vector of the input
        rw [dvd_vectorIndex]
        rcases h with hzero | hlarge | hshort | hone | hdvd
        · omega
        · cases hlarge
        · omega
        · have hfirst : row = 0 := by omega
          simp [hfirst]
        · exact Dvd.dvd.mul_left hdvd row
      · -- a vector of the weight or of the bias
        omega

/-! ### The writes -/

theorem mem_writes {eps : ℝ} {x w b : ℕ → ℝ} {idx : ℕ} {v : ExtReal} :
    (idx, v) ∈ run.writes eps x w b ↔ ∃ row < run.sizes.batch_size, ∃ r < run.sizes.norm_size,
      run.address row r = idx ∧ run.output eps x w b row r = v := by
  simp only [writes, List.mem_flatMap, List.mem_map, List.mem_range, mem_rowElements,
    Prod.mk.injEq]

/-- No index wraps around. -/
theorem address_eq (hfit : run.sizes.batch_size * run.sizes.norm_size ≤ uintRange) {row r : ℕ}
    (hrow : row < run.sizes.batch_size) (hr : r < run.sizes.norm_size) :
    run.address row r = row * run.sizes.norm_size + r := by
  have hle := Nat.mul_le_mul_right run.sizes.norm_size (Nat.succ_le_of_lt hrow)
  rw [Nat.succ_mul] at hle
  have hbase : toUInt (row * run.sizes.norm_size) = row * run.sizes.norm_size :=
    toUInt_of_lt (by omega)
  rw [address, vectorIndex, hbase]
  split_ifs
  · rw [toUInt_of_lt (by omega)]
    omega
  · exact toUInt_of_lt (by omega)

/-- An aligned vector ends below the end of the words. -/
theorem address_lt (haligned : ∀ idx ∈ run.vectorIndices, VectorAligned run.dtype idx) {row r : ℕ}
    (hrow : row < run.sizes.batch_size) : run.address row r < uintRange := by
  rw [address]
  split_ifs with hvector
  · obtain ⟨hsmall, hr⟩ := hvector
    have hmem := vectorIndex_mem (by simpa using hsmall) hrow hr
    have hdvd := vectorAligned_iff.mp (haligned _ hmem)
    have hword : run.vectorIndex row r < uintRange := toUInt_lt _
    unfold uintRange at hword ⊢
    omega
  · exact toUInt_lt _

/-- **What is written** when no index wraps around. -/
theorem writes_eq_reference (hfit : run.sizes.batch_size * run.sizes.norm_size ≤ uintRange)
    (hn : 1 ≤ run.sizes.norm_size) (eps : ℝ) (x w b : ℕ → ℝ) {row r : ℕ}
    (hrow : row < run.sizes.batch_size) (hr : r < run.sizes.norm_size) {v : ExtReal} :
    (row * run.sizes.norm_size + r, v) ∈ run.writes eps x w b
      ↔ v = normReference run.op eps run.sizes.norm_size
        (fun i => x (row * run.sizes.norm_size + i)) w b r := by
  have houtput : run.output eps x w b row r = normReference run.op eps run.sizes.norm_size
      (fun i => x (row * run.sizes.norm_size + i)) w b r := by
    simp only [output, rowSum_eq]
    exact normOutput_of_reads (fun h => absurd h run.family_ne_regcache) run.op _ eps hn
      (fun i hi => address_eq hfit hrow hi) x w b hr
  rw [mem_writes]
  constructor
  · rintro ⟨row', hrow', r', hr', haddr, rfl⟩
    rw [address_eq hfit hrow' hr'] at haddr
    obtain ⟨rfl, rfl⟩ := quotient_remainder_inj hr' hr haddr
    exact houtput
  · rintro rfl
    exact ⟨row, hrow, r, hr, address_eq hfit hrow hr, houtput⟩

/-- **The loops end** when no index wraps around. -/
theorem ended_of_fits (hlarge : run.use_large = true → run.sizes.norm_size + 256 ≤ uintRange)
    (hsmall : run.use_large = false → run.sizes.norm_size < 2048) {fuel : ℕ}
    (hfuel : run.sizes.norm_size < fuel) : run.ended fuel = true := by
  simp only [ended, List.all_eq_true, List.mem_range]
  intro _ _ p hp
  cases huse : run.use_large with
  | true =>
    have hlt : p < 256 := by simpa [threads, huse] using hp
    rw [if_pos rfl, wordFor_eq (by decide) (hlarge huse) hlt hfuel]
    rfl
  | false =>
    have hlt : p < 32 := by simpa [threads, huse] using hp
    have hshort := hsmall huse
    have hrange : uintRange = 4294967296 := rfl
    rw [if_neg (by decide), wordFor_ends (by decide) (by omega) (by omega) (by omega),
      wordFor_ends (by decide) (by omega) (toUInt_lt _) hfuel]
    rfl

/-- The loop of the first thread of a large kernel goes on forever over a row that is too long. -/
theorem not_ended_of_long (huse : run.use_large = true) (hbatch : 0 < run.sizes.batch_size)
    (hlong : ¬ run.sizes.norm_size + 256 ≤ uintRange) (fuel : ℕ) : ¬ run.ended fuel = true := by
  intro hended
  simp only [ended, List.all_eq_true, List.mem_range, huse, if_true] at hended
  have hthread := hended 0 hbatch 0 (by simp [threads, huse])
  rw [wordFor_none (by decide) (by decide) (by omega) (by decide) (by decide)] at hthread
  simp at hthread

/-! ### The agreement -/

/-- What a fused launch is to do beside the plain one: both end, every element is read and written
in the data type of the tensors, both launches write it and with one value only, and all vectors are
aligned. -/
structure Agrees (fused : FusedNormRun) (plain : NormRun) (dtype : MNDType) (eps : ℝ) : Prop where
  ended : ∃ enough, ∀ fuel ≥ enough, fused.ended fuel = true ∧ plain.ended fuel = true
  elements : ∀ row < plain.sizes.batch_size, ∀ r < plain.sizes.norm_size,
    fused.dtype = dtype ∧ ∀ x w b : ℕ → ℝ, ∃ v,
      (row * plain.sizes.norm_size + r, v) ∈ fused.writes eps x w b ∧
      (row * plain.sizes.norm_size + r, v) ∈ plain.writes eps x w b ∧
      ∀ v', (row * plain.sizes.norm_size + r, v') ∈ fused.writes eps x w b
        ∨ (row * plain.sizes.norm_size + r, v') ∈ plain.writes eps x w b → v' = v
  aligned : ∀ idx ∈ fused.vectorIndices, VectorAligned fused.dtype idx

/-- The row lengths for which the launches agree: the short rows start at vectors, and the long ones
have a place in the caches of the plain kernels and a loop that ends. -/
def RowCovered (sizes : NormSizes) : Prop :=
  if sizes.norm_size < 2048 then
    sizes.norm_size < 4 ∨ sizes.batch_size = 1 ∨ 4 ∣ sizes.norm_size
  else ¬ (8192 < sizes.norm_size ∧ sizes.norm_size < 8448) ∧ sizes.norm_size + 256 ≤ uintRange

/-- The calls for which the launches agree. -/
def Covered (dtype : MNDType) (sizes : NormSizes) : Prop :=
  sizes.batch_size = 0 ∨ dtype ≠ .BFloat16
    ∧ sizes.batch_size * sizes.norm_size ≤ uintRange ∧ RowCovered sizes

/-- The two launches of one call. -/
structure Paired (fused : FusedNormRun) (plain : NormRun) (dtype : MNDType) : Prop where
  launch : plain.IsLaunch dtype
  op : fused.op = plain.op
  sizes : fused.sizes = plain.sizes
  use_large : fused.use_large = true ↔ 2048 ≤ plain.sizes.norm_size
  dtype_eq : fused.dtype = if dtype = .Float32 then .Float32 else .Float16

variable {fused : FusedNormRun} {plain : NormRun} {dtype : MNDType} {eps : ℝ}

/-- The plain launch computes its rows. -/
theorem Paired.plain_succeeds (h : fused.Paired plain dtype) (hnorm : 1 ≤ plain.sizes.norm_size)
    (hbatch : 0 < plain.sizes.batch_size) (hdtype : dtype ≠ .BFloat16)
    (hfit : plain.sizes.batch_size * plain.sizes.norm_size ≤ uintRange)
    (hrow : RowCovered plain.sizes) : plain.Succeeds eps := by
  rw [NormRun.succeeds_iff h.launch hnorm]
  refine Or.inr ?_
  rw [if_neg hdtype, FloatNormCovered]
  split_ifs with hsmall hshort
  · exact hfit
  · have hend := NormRun.lastIndex_add_one hbatch hnorm
    exact ⟨by omega, Or.inr hfit⟩
  · rw [RowCovered, if_neg hshort] at hrow
    exact ⟨hrow.1, hrow.2, hfit⟩

/-- **The launches that agree.** -/
theorem agrees_of_covered (h : fused.Paired plain dtype) (hnorm : 1 ≤ plain.sizes.norm_size)
    (hbatch : 0 < plain.sizes.batch_size) (hdtype : dtype ≠ .BFloat16)
    (hfit : plain.sizes.batch_size * plain.sizes.norm_size ≤ uintRange)
    (hcovered : RowCovered plain.sizes) : fused.Agrees plain dtype eps := by
  have hsucceeds : plain.Succeeds eps := h.plain_succeeds hnorm hbatch hdtype hfit hcovered
  obtain ⟨⟨enough, henough⟩, -, hcomputes⟩ := hsucceeds
  have hsizes := h.sizes
  rw [RowCovered] at hcovered
  refine ⟨⟨max enough (plain.sizes.norm_size + 1), ?_⟩, ?_, ?_⟩
  · -- both end, with the fuel of the slower one
    intro fuel hfuel
    refine ⟨fused.ended_of_fits ?_ ?_ ?_, henough fuel (le_trans (le_max_left _ _) hfuel)⟩
    · intro huse
      rw [if_neg (not_lt.mpr (h.use_large.mp huse))] at hcovered
      rw [hsizes]
      exact hcovered.2
    · intro huse
      rw [hsizes]
      by_contra hnot
      rw [h.use_large.mpr (not_lt.mp hnot)] at huse
      cases huse
    · rw [hsizes]
      exact lt_of_lt_of_le (Nat.lt_succ_self _) (le_trans (le_max_right _ _) hfuel)
  · intro row hrow r hr
    have hread : fused.dtype = dtype := by
      rw [h.dtype_eq]
      rcases h.launch.supported with rfl | rfl | rfl
      · rfl
      · rfl
      · exact absurd rfl hdtype
    refine ⟨hread, ?_⟩
    intro x w b
    obtain ⟨⟨v, hv⟩, hplain⟩ := hcomputes x w b row hrow r hr
    have hvalue := hplain v hv
    -- the fused kernel writes the reference as well
    have hfused : ∀ v', (row * plain.sizes.norm_size + r, v') ∈ fused.writes eps x w b
        ↔ v' = v := by
      intro v'
      rw [hvalue, ← h.op, ← hsizes]
      rw [← hsizes] at hfit hnorm hrow hr
      exact fused.writes_eq_reference hfit hnorm eps x w b hrow hr
    refine ⟨v, (hfused v).mpr rfl, hv, ?_⟩
    rintro v' (hv' | hv')
    · exact (hfused v').mp hv'
    · rw [hplain v' hv', hvalue]
  · rw [aligned_iff, h.use_large, hsizes]
    by_cases hsmall : plain.sizes.norm_size < 2048
    · rw [if_pos hsmall] at hcovered
      exact Or.inr (Or.inr hcovered)
    · exact Or.inr (Or.inl (not_lt.mp hsmall))

/-- **An agreement covers the sizes.** -/
theorem Agrees.covered (hagrees : fused.Agrees plain dtype eps) (h : fused.Paired plain dtype)
    (hnorm : 1 ≤ plain.sizes.norm_size) (hbatch : 0 < plain.sizes.batch_size) :
    dtype ≠ .BFloat16 ∧ plain.sizes.batch_size * plain.sizes.norm_size ≤ uintRange
      ∧ RowCovered plain.sizes := by
  have hsizes := h.sizes
  -- a tensor of `BFloat16` is read as one of `Float16`
  have hdtype : dtype ≠ .BFloat16 := by
    rintro rfl
    have hread := (hagrees.elements 0 hbatch 0 hnorm).1
    rw [h.dtype_eq] at hread
    simp at hread
  have hfit : plain.sizes.batch_size * plain.sizes.norm_size ≤ uintRange := by
    -- the last element has to be written
    have hend := NormRun.lastIndex_add_one hbatch hnorm
    obtain ⟨v, hv, -⟩ := (hagrees.elements _ (Nat.sub_one_lt_of_lt hbatch) _
      (Nat.sub_one_lt_of_lt hnorm)).2 (fun _ => 0) (fun _ => 0) (fun _ => 0)
    obtain ⟨row, hrow, r, -, haddr, -⟩ := mem_writes.mp hv
    have hword := address_lt hagrees.aligned hrow (r := r)
    omega
  refine ⟨hdtype, hfit, ?_⟩
  rw [RowCovered]
  split_ifs with hshort
  · -- the small kernels load vectors
    have haligned := aligned_iff.mp hagrees.aligned
    rw [h.use_large, hsizes] at haligned
    exact (haligned.resolve_left hbatch.ne').resolve_left (not_le.mpr hshort)
  · constructor
    · -- the plain kernel leaves out the element behind its caches
      rintro ⟨hrest, hcache⟩
      obtain ⟨-, hfamily, -, -⟩ := h.launch
      rw [if_neg hdtype, NormRun.normFamily_eq, if_neg (by omega), if_neg hshort,
        if_pos hcache] at hfamily
      obtain ⟨v, -, hv, -⟩ := (hagrees.elements 0 hbatch 8192 hrest).2 (fun _ => 0) (fun _ => 0)
        (fun _ => 0)
      exact NormRun.not_mem_writes_regcache hfamily hrest hfit hv
    · -- the loop of the large fused kernel does not end
      by_contra hloop
      obtain ⟨enough, henough⟩ := hagrees.ended
      refine not_ended_of_long (h.use_large.mpr (not_lt.mp hshort)) ?_ ?_ enough
        (henough enough (le_refl _)).1
      · rwa [hsizes]
      · rwa [hsizes]

/-- A launch without rows agrees with the plain one. -/
theorem agrees_of_zero (h : fused.Paired plain dtype) (hbatch : plain.sizes.batch_size = 0) :
    fused.Agrees plain dtype eps := by
  have hnone : fused.sizes.batch_size = 0 := by rw [h.sizes, hbatch]
  obtain ⟨⟨enough, henough⟩, -, -⟩ := NormRun.succeeds_of_zero hbatch eps
  refine ⟨⟨enough, ?_⟩, ?_, aligned_iff.mpr (Or.inl hnone)⟩
  · intro fuel hfuel
    exact ⟨by simp [FusedNormRun.ended, hnone], henough fuel hfuel⟩
  · intro row hrow
    omega

/-- **When the launches of a call agree.** -/
theorem agrees_iff (h : fused.Paired plain dtype) (hnorm : 1 ≤ plain.sizes.norm_size) :
    fused.Agrees plain dtype eps ↔ Covered dtype plain.sizes := by
  rw [Covered]
  by_cases hbatch : plain.sizes.batch_size = 0
  · exact iff_of_true (agrees_of_zero h hbatch) (Or.inl hbatch)
  rw [or_iff_right hbatch]
  constructor
  · intro hagrees
    exact hagrees.covered h hnorm (Nat.pos_of_ne_zero hbatch)
  · rintro ⟨hdtype, hfit, hrow⟩
    exact agrees_of_covered h hnorm (Nat.pos_of_ne_zero hbatch) hdtype hfit hrow

end FusedNormRun

/-! ### The calls -/

/-- The launch of a call that the plain function accepts. -/
theorem NormCall.exists_paired {α : Type*} (call : NormCall α) {plain : NormRun}
    (h : call.launch = .ok plain) (hnorm : 1 ≤ plain.sizes.norm_size) :
    ∃ fused, call.fusedLaunch = .ok fused ∧ fused.Paired plain call.dtype := by
  obtain ⟨hop, hfused⟩ := call.fusedLaunch_eq h hnorm
  refine ⟨_, hfused, call.isLaunch h, hop.symm, rfl, ?_, ?_⟩
  · exact decide_eq_true_iff
  · rw [fusedNormKernel]
    split_ifs <;> rfl

/-- **The fused normalisations.** On a call that the plain function accepts, the fused one agrees
with it exactly for the sizes that are covered, and a product on the vector-matrix path loads
aligned vectors only exactly when the rows that it reads start at vectors. -/
theorem fused_norm_agrees (call : NormCall ℝ) (eps : ℝ) {plain : NormRun}
    (hcall : call.launch = .ok plain) (hnorm : 1 ≤ plain.sizes.norm_size) :
    ((∀ fused, call.fusedLaunch = .ok fused → fused.Agrees plain call.dtype eps)
      ↔ FusedNormRun.Covered call.dtype plain.sizes) ∧
    ∀ (a b : MNTensor ℝ) (transpose_a transpose_b : Bool) (d : MatmulDims),
      matmulCheck a b transpose_a transpose_b = .ok d → matmulPath a b d = .VecMat →
        ((matmulVecMat a b transpose_a transpose_b d).Aligned a.dtype
          ↔ VecMatRowsAligned a b transpose_b d) := by
  constructor
  · obtain ⟨fused, hfused, hpaired⟩ := call.exists_paired hcall hnorm
    rw [← FusedNormRun.agrees_iff hpaired hnorm]
    constructor
    · intro hagrees
      exact hagrees fused hfused
    · intro hagrees fused' hfused'
      obtain rfl := Except.ok.inj (hfused.symm.trans hfused')
      exact hagrees
  · intro a b transpose_a transpose_b d _ hpath
    exact VecMatRun.aligned_iff (matmulPath_vecMat hpath)

/-- Five rows of 64 elements, and one row of 256 elements by a square of as many rows. -/
theorem fused_norm_agrees_rows :
    (∃ fused, NormCall.fusedLaunch (.rms (indexTensor [5, 64] .Float16 (by decide) (by decide))
        (indexTensor [64] .Float16 (by decide) (by decide))) = .ok fused
      ∧ fused.Agrees ⟨.rms, ⟨"rms_norm_kernel_fp16", .basic⟩, ⟨5, 64⟩, false⟩ .Float16 1) ∧
    (matmulVecMat (indexTensor [1, 256] .Float16 (by decide) (by decide))
      (indexTensor [256, 256] .Float16 (by decide) (by decide)) false false
      ⟨1, 256, 256⟩).Aligned .Float16 := by
  have hsizes : FusedNormRun.Covered .Float16 ⟨5, 64⟩ := by
    refine Or.inr ⟨by decide, by decide, ?_⟩
    exact Or.inr (Or.inr (by decide))
  have hrows : VecMatRowsAligned (indexTensor [1, 256] .Float16 (by decide) (by decide))
      (indexTensor [256, 256] .Float16 (by decide) (by decide)) false ⟨1, 256, 256⟩ :=
    Or.inr (Or.inr (Or.inr ⟨Or.inl (by decide), Or.inr (Or.inr (by decide))⟩))
  have hlaunch : NormCall.launch (.rms (indexTensor [5, 64] .Float16 (by decide) (by decide))
      (indexTensor [64] .Float16 (by decide) (by decide)))
        = .ok ⟨.rms, ⟨"rms_norm_kernel_fp16", .basic⟩, ⟨5, 64⟩, false⟩ := rfl
  have hboth := fused_norm_agrees _ 1 hlaunch (by decide)
  exact ⟨⟨_, rfl, hboth.1.mpr hsizes _ rfl⟩,
    (hboth.2 _ _ false false ⟨1, 256, 256⟩ rfl (by rfl)).mpr hrows⟩

/-- The second of two rows of five elements starts in the middle of a vector, and a row of
`BFloat16` is read as one of `Float16`. -/
theorem fused_norm_agrees_fails :
    (∃ plain fused, NormCall.launch (.rms (indexTensor [2, 5] .Float32 (by decide) (by decide))
        (indexTensor [5] .Float32 (by decide) (by decide))) = .ok plain
      ∧ 1 ≤ plain.sizes.norm_size
      ∧ NormCall.fusedLaunch (.rms (indexTensor [2, 5] .Float32 (by decide) (by decide))
        (indexTensor [5] .Float32 (by decide) (by decide))) = .ok fused
      ∧ ¬ fused.Agrees plain .Float32 1) ∧
    ∃ plain fused, NormCall.launch (.rms (indexTensor [1, 4] .BFloat16 (by decide) (by decide))
        (indexTensor [4] .BFloat16 (by decide) (by decide))) = .ok plain
      ∧ 1 ≤ plain.sizes.norm_size
      ∧ NormCall.fusedLaunch (.rms (indexTensor [1, 4] .BFloat16 (by decide) (by decide))
        (indexTensor [4] .BFloat16 (by decide) (by decide))) = .ok fused
      ∧ ¬ fused.Agrees plain .BFloat16 1 := by
  constructor
  · refine ⟨⟨.rms, ⟨"rms_norm_kernel", .basic⟩, ⟨2, 5⟩, false⟩,
      ⟨.rms, "fused_rms_norm_fp32", false, .Float32, ⟨2, 5⟩⟩, rfl, by decide, rfl, ?_⟩
    intro hagrees
    have haligned := FusedNormRun.aligned_iff.mp hagrees.aligned
    revert haligned
    decide
  · refine ⟨⟨.rms, ⟨"rms_norm_kernel_bf16", .basic⟩, ⟨1, 4⟩, false⟩,
      ⟨.rms, "fused_rms_norm_fp16", false, .Float16, ⟨1, 4⟩⟩, rfl, by decide, rfl, ?_⟩
    intro hagrees
    have hread := (hagrees.elements 0 (by decide) 0 (by decide)).1
    cases hread

end MetalNative
