import MetalNative.Lib.SimdMatrix
import MetalNative.Matmul.LaneSum
import MetalNative.Matmul.Product

namespace MetalNative

open ThreadLoop SimdMatrix

/-!
# The vector-matrix path against the product

The kernels read `b` the other way round than the flag says, take nothing from `gid.z`, and start at
the beginning of the buffers.

* `VecMatRun.result_eq` — the sum that a SIMD group stores.
* `VecMatRun.tasks_eq` — the outputs of a launch, each as often as there are batches.
* `VecMatMatches` — when what is read adds up to the product.
* `vecmat_product` — the path computes the product exactly then; for all contents of its operands
  only when there is nothing to compute.
-/

/-! ### The sum of an output -/

namespace VecMatRun

variable {α : Type*} [CommRing α]

/-- The terms of an output, in the order of `k`. -/
def term (run : VecMatRun) (A B : ℕ → α) (row out k : ℕ) : α :=
  A (run.args.aIndex row k) * B (run.args.bIndex out k)

/-- Every term once, and the last full vectors twice in the kernel with `k_rem`. -/
def readSum (run : VecMatRun) (A B : ℕ → α) (row out : ℕ) : α :=
  ∑ k ∈ Finset.range run.args.K, run.term A B row out k
    + if run.kernel.recounted run.args.transpose_b then
        ∑ k ∈ Finset.range run.args.K, lastVectors run.args.K (run.term A B row out) k
      else 0

/-- **What `simd_sum` returns.** -/
theorem result_eq (run : VecMatRun) (hK : run.args.K < uintRange) (A B : ℕ → α) (row out : ℕ) :
    run.result A B row out = run.readSum A B row out := by
  unfold result terms readSum
  change ((List.flatMap _ _).map (run.term A B row out)).sum = _
  by_cases hunrolled : run.kernel.unrolled run.args.transpose_b = true
  · -- an unrolled loop is not one with `k_rem`: the flags differ
    have hnot : ¬ run.kernel.recounted run.args.transpose_b = true := by
      intro hrec
      unfold VecMatKernel.unrolled at hunrolled
      unfold VecMatKernel.recounted at hrec
      simp_all
    have hterms : run.kernel.terms run.args.transpose_b run.args.K
        = laneTermsUnrolled run.args.K := by
      ext lane
      simp [VecMatKernel.terms, hunrolled]
    rw [if_neg hnot, add_zero, hterms, sum_laneTermsUnrolled]
  · by_cases hrec : run.kernel.recounted run.args.transpose_b = true
    · have hterms : run.kernel.terms run.args.transpose_b run.args.K
          = laneTermsRecounted run.args.K := by
        ext lane
        simp [VecMatKernel.terms, hunrolled, hrec]
      rw [if_pos hrec, hterms, sum_laneTermsRecounted hK]
    · have hterms : run.kernel.terms run.args.transpose_b run.args.K = laneTerms run.args.K := by
        ext lane
        simp [VecMatKernel.terms, hunrolled, hrec]
      rw [if_neg hrec, add_zero, hterms, sum_laneTerms]

/-- When only the first term is not zero, the sum is not zero either. -/
theorem readSum_of_single (run : VecMatRun) {A B : ℕ → α} {row out : ℕ} (hK : 0 < run.args.K)
    (hterm : ∀ k, run.term A B row out k = if k = 0 then 1 else 0) :
    ∃ c : ℕ, c ≠ 0 ∧ run.readSum A B row out = c := by
  have hmem : 0 ∈ Finset.range run.args.K := Finset.mem_range.mpr hK
  have hsum : ∑ k ∈ Finset.range run.args.K, run.term A B row out k = 1 := by
    simp only [hterm]
    rw [Finset.sum_ite_eq' _ 0, if_pos hmem]
  have hlast : ∑ k ∈ Finset.range run.args.K,
      lastVectors run.args.K (run.term A B row out) k
        = if inLastVector run.args.K 0 then 1 else 0 := by
    rw [Finset.sum_eq_single 0]
    · simp [lastVectors, hterm]
    · intro k _ hk
      simp [lastVectors, hterm, hk]
    · exact fun hout => absurd hmem hout
  rw [readSum, hsum, hlast]
  split_ifs
  · exact ⟨2, by decide, by norm_num⟩
  · exact ⟨1, by decide, by simp⟩
  · exact ⟨1, by decide, by simp⟩

/-! ### The outputs of a launch -/

/-- The outputs that the grid reaches in a row. -/
def reach (run : VecMatRun) : ℕ := run.kernel.outputsPerSimd * (8 * run.gridX)

/-- The SIMD groups of a row compute its outputs in order, each once. -/
theorem rowOutputs_eq (run : VecMatRun) (hfit : run.reach ≤ uintRange) :
    run.rowOutputs = List.range (min run.reach run.args.N) := by
  have hbelow : List.range (min run.reach run.args.N)
      = (List.range run.reach).flatMap fun i => if i ≥ run.args.N then [] else [i] := by
    exact (List.map_id _).symm.trans (flatMap_range_below _ _ id).symm
  have hcases : run.kernel = .fp16Multi2 ∨ run.kernel ≠ .fp16Multi2 := eq_or_ne _ _
  rw [hbelow]
  unfold reach at hfit ⊢
  unfold rowOutputs
  rcases hcases with hmulti | hsingle
  · -- two outputs for each group
    rw [hmulti] at hfit ⊢
    rw [VecMatKernel.outputsPerSimd, flatMap_range_mul 2, flatMap_range_mul 8]
    rw [VecMatKernel.outputsPerSimd] at hfit
    apply List.flatMap_congr
    intro x hx
    apply List.flatMap_congr
    intro g hg
    have hx' := List.mem_range.mp hx
    have hg' := List.mem_range.mp hg
    have h0 : toUInt (x * 16 + g * 2) = 2 * (8 * x + g) := by
      rw [toUInt_of_lt (by omega)]
      omega
    have h1 : toUInt (2 * (8 * x + g) + 1) = 2 * (8 * x + g) + 1 := toUInt_of_lt (by omega)
    simp only [VecMatKernel.outputs, h0, h1, List.range_succ, List.range_zero, List.nil_append,
      List.flatMap_append, List.flatMap_cons, List.flatMap_nil, List.append_nil, Nat.add_zero]
    by_cases hout : 2 * (8 * x + g) ≥ run.args.N
    · have hnext : 2 * (8 * x + g) + 1 ≥ run.args.N := by omega
      simp [hout, hnext]
    · by_cases hnext : 2 * (8 * x + g) + 1 < run.args.N
      · simp [hout, hnext]
      · simp [hout, hnext]
  · have hone : run.kernel.outputsPerSimd = 1 := by
      cases hk : run.kernel <;> simp_all [VecMatKernel.outputsPerSimd]
    rw [hone, Nat.one_mul] at hfit ⊢
    rw [flatMap_range_mul 8]
    apply List.flatMap_congr
    intro x hx
    apply List.flatMap_congr
    intro g hg
    have hx' := List.mem_range.mp hx
    have hg' := List.mem_range.mp hg
    have h0 : toUInt (x * 8 + g) = 8 * x + g := by
      rw [toUInt_of_lt (by omega)]
      omega
    cases hk : run.kernel <;> simp_all [VecMatKernel.outputs]

/-- The tasks of one batch. -/
def batchTasks (rows outputs : ℕ) : List (ℕ × ℕ) :=
  (List.range rows).flatMap fun row => (List.range outputs).map fun out => (row, out)

/-- **The tasks of a launch**: those of one batch, as often as there are batches. -/
theorem tasks_eq (run : VecMatRun) (hfit : run.reach ≤ uintRange)
    (hrows : (List.range run.gridY).flatMap (run.kernel.rows run.args.M) = List.range rows) :
    run.tasks
      = (List.range run.gridZ).flatMap fun _ => batchTasks rows (min run.reach run.args.N) := by
  unfold tasks batchTasks
  rw [run.rowOutputs_eq hfit, ← hrows]
  simp only [List.flatMap_assoc]

theorem mem_batchTasks {rows outputs : ℕ} {t : ℕ × ℕ} :
    t ∈ batchTasks rows outputs ↔ t.1 < rows ∧ t.2 < outputs := by
  obtain ⟨row, out⟩ := t
  simp [batchTasks]

omit [CommRing α] in
/-- The stores of one batch, when all outputs of its rows are computed. -/
theorem filter_batchTasks {M N m n : ℕ} (hm : m < M) (hn : n < N) (value : ℕ → ℕ → α) :
    ((batchTasks M N).map fun t => (t.1 * N + t.2, value t.1 t.2)).filter
        (fun w => w.1 = m * N + n)
      = [(m * N + n, value m n)] := by
  have hflat : (batchTasks M N).map (fun t => (t.1 * N + t.2, value t.1 t.2))
      = (List.range (N * M)).map fun p => (p, value (p / N) (p % N)) := by
    rw [← List.flatMap_singleton' ((List.range (N * M)).map _), List.flatMap_map,
      flatMap_range_mul, batchTasks, List.map_flatMap]
    apply List.flatMap_congr
    intro row _
    rw [List.map_map, ← List.flatMap_pure_eq_map]
    apply List.flatMap_congr
    intro out hout
    have hlt := List.mem_range.mp hout
    rw [Nat.mul_comm N row]
    simp [rowMajor_div hlt, rowMajor_mod hlt]
  have hp : m * N + n < N * M := by
    rw [Nat.mul_comm N M]
    exact rowMajor_lt hm hn
  rw [hflat, filter_map_range _ _ _ hp, rowMajor_div hn, rowMajor_mod hn]

end VecMatRun

/-! ### The launch of the host -/

section Launch

variable {α : Type*} {a b : MNTensor α} {transpose_a transpose_b : Bool} {d : MatmulDims}

/-- The grid is the one of 16 outputs for each threadgroup, the kernel one of 8. -/
def HalfGrid (dtype : MNDType) (d : MatmulDims) : Prop := dtype = .Float32 ∧ useMulti2 d = true

theorem useMulti2_eq_true : useMulti2 d = true ↔ d.M = 1 ∧ d.K ≥ 512 := by simp [useMulti2]

theorem vecMatKernel_isBatch (dtype : MNDType) :
    (vecMatKernel dtype d).isBatch = decide (d.M > 1) := by
  by_cases hM : d.M > 1 <;> by_cases hmulti : useMulti2 d = true <;>
    by_cases hdt : dtype = .Float16 <;>
    simp [vecMatKernel, hM, hmulti, hdt, VecMatKernel.isBatch]

/-- Only the half-precision kernel for long rows computes two outputs in a group. -/
theorem vecMatKernel_outputsPerSimd (dtype : MNDType) :
    (vecMatKernel dtype d).outputsPerSimd
      = if useMulti2 d = true ∧ dtype = .Float16 then 2 else 1 := by
  by_cases hM : d.M > 1
  · have hmulti : ¬ (useMulti2 d = true ∧ dtype = .Float16) := by
      rw [useMulti2_eq_true]
      omega
    rw [if_neg hmulti, vecMatKernel, if_pos hM]
    split <;> rfl
  · by_cases hmulti : useMulti2 d = true <;> by_cases hdt : dtype = .Float16 <;>
      simp [vecMatKernel, hM, hmulti, hdt, VecMatKernel.outputsPerSimd]

variable (transpose_a transpose_b) in
/-- How far the grid reaches in a row. -/
theorem reach_spec (h : VecMatChosen a b d) (hN : d.N < uintRange) :
    (matmulVecMat a b transpose_a transpose_b d).reach ≤ uintRange ∧
      (¬ HalfGrid a.dtype d → d.N ≤ (matmulVecMat a b transpose_a transpose_b d).reach) ∧
      (HalfGrid a.dtype d → (matmulVecMat a b transpose_a transpose_b d).reach < d.N) := by
  have hge := h.N_ge
  have hrange : uintRange = 4294967296 := rfl
  have hreach : (matmulVecMat a b transpose_a transpose_b d).reach
      = (vecMatKernel a.dtype d).outputsPerSimd
          * (8 * if useMulti2 d = true then (d.N + 15) / 16 else (d.N + 7) / 8) := rfl
  rw [hreach, vecMatKernel_outputsPerSimd, HalfGrid]
  by_cases hmulti : useMulti2 d = true
  · rcases h.dtype with hdt | hdt
    · simp only [hmulti, hdt, and_self, if_true]
      refine ⟨by omega, fun _ => by omega, fun hhalf => ?_⟩
      cases hhalf.1
    · -- 16 outputs for each threadgroup of the grid, 8 for the kernel
      have hnot : ¬ (MNDType.Float32 = MNDType.Float16) := by decide
      simp only [hmulti, hdt, hnot, and_false, if_true, if_false, and_self]
      refine ⟨by omega, fun hhalf => absurd trivial hhalf, fun _ => by omega⟩
  · have hnone : ¬ (useMulti2 d = true ∧ a.dtype = .Float16) := fun h => hmulti h.1
    rw [if_neg hnone, if_neg hmulti]
    exact ⟨by omega, fun _ => by omega, fun hhalf => absurd hhalf.2 hmulti⟩

/-- A batch kernel has the rows of its grid, the others have one. -/
theorem rows_of_isBatch {kernel : VecMatKernel} (h : kernel.isBatch = true) (M : ℕ) :
    (List.range M).flatMap (kernel.rows M) = List.range M := by
  have hrows : kernel.rows M = fun y => if y ≥ M then [] else [id y] := by
    ext y
    simp [VecMatKernel.rows, h]
  rw [hrows, flatMap_range_below, min_self, List.map_id]

theorem rows_of_not_isBatch {kernel : VecMatKernel} (h : kernel.isBatch = false) (M : ℕ) :
    (List.range 1).flatMap (kernel.rows M) = List.range 1 := by
  simp [VecMatKernel.rows, h]

/-- The rows of the grid: those of `a`, but never none. -/
theorem rows_spec (h : VecMatChosen a b d) :
    (List.range (matmulVecMat a b transpose_a transpose_b d).gridY).flatMap
        ((matmulVecMat a b transpose_a transpose_b d).kernel.rows
          (matmulVecMat a b transpose_a transpose_b d).args.M)
      = List.range (max d.M 1) := by
  have hle := h.M_le
  have hM : toUInt d.M = d.M := toUInt_of_lt (by unfold uintRange; omega)
  have hbatch := vecMatKernel_isBatch (d := d) a.dtype
  simp only [matmulVecMat, hM]
  by_cases hgt : d.M > 1
  · have hmax : max d.M 1 = d.M := by omega
    rw [if_pos hgt, hmax]
    exact rows_of_isBatch (by simpa [hgt] using hbatch) d.M
  · have hmax : max d.M 1 = 1 := by omega
    rw [if_neg hgt, hmax]
    exact rows_of_not_isBatch (by simpa [hgt] using hbatch) d.M

/-- The tasks of the host's launch. -/
theorem vecMat_tasks (h : VecMatChosen a b d) (hN : d.N < uintRange) :
    (matmulVecMat a b transpose_a transpose_b d).tasks
      = (List.range (toSizeT (batchSize a))).flatMap fun _ =>
          VecMatRun.batchTasks (max d.M 1)
            (min (matmulVecMat a b transpose_a transpose_b d).reach d.N) := by
  rw [VecMatRun.tasks_eq _ (reach_spec transpose_a transpose_b h hN).1 (rows_spec h)]
  simp only [matmulVecMat, toUInt_of_lt hN]

/-- Every store goes to an output that the grid reaches. -/
theorem vecMat_writes_of_mem [CommRing α] (h : VecMatChosen a b d) {A B : ℕ → α} {p : ℕ}
    (hp : ∃ w ∈ (matmulVecMat a b transpose_a transpose_b d).writes A B, w.1 = p) :
    (vecMatKernel a.dtype d).loopsEnd transpose_b (toUInt d.K) = true ∧ p < uintRange ∧
      (d.N < uintRange → d.M ≤ 1 →
        p < min (matmulVecMat a b transpose_a transpose_b d).reach d.N) := by
  obtain ⟨w, hw, rfl⟩ := hp
  unfold VecMatRun.writes at hw
  split_ifs at hw with hloops
  · obtain ⟨t, ht, rfl⟩ := List.mem_map.mp hw
    refine ⟨hloops, toUInt_lt _, fun hN hM => ?_⟩
    have hmax : max d.M 1 = 1 := by omega
    rw [vecMat_tasks h hN, hmax] at ht
    obtain ⟨-, -, ht⟩ := List.mem_flatMap.mp ht
    obtain ⟨hrow, hout⟩ := VecMatRun.mem_batchTasks.mp ht
    have hzero : t.1 = 0 := by omega
    have hlt : t.2 < uintRange := by omega
    simp only [VecMatArgs.cIndex, hzero, Nat.zero_mul, Nat.zero_add, toUInt_of_lt hlt]
    exact hout
  · cases hw

/-- The stores of a launch whose indices fit a `uint` and whose grid is whole. -/
theorem vecMat_writes_eq [CommRing α] (h : VecMatChosen a b d) (hM : 0 < d.M)
    (hloops : (vecMatKernel a.dtype d).loopsEnd transpose_b (toUInt d.K) = true)
    (hN : d.N < uintRange) (hMN : d.M * d.N ≤ uintRange) (hgrid : ¬ HalfGrid a.dtype d)
    (A B : ℕ → α) :
    (matmulVecMat a b transpose_a transpose_b d).writes A B
      = (List.range (toSizeT (batchSize a))).flatMap fun _ =>
          (VecMatRun.batchTasks d.M d.N).map fun t =>
            (t.1 * d.N + t.2,
              (matmulVecMat a b transpose_a transpose_b d).readSum A B t.1 t.2) := by
  have hmax : max d.M 1 = d.M := by omega
  have hmin : min (matmulVecMat a b transpose_a transpose_b d).reach d.N = d.N :=
    Nat.min_eq_right ((reach_spec transpose_a transpose_b h hN).2.1 hgrid)
  unfold VecMatRun.writes
  refine (if_pos hloops).trans ?_
  rw [vecMat_tasks h hN, hmax, hmin, List.map_flatMap]
  apply List.flatMap_congr
  intro _ _
  apply List.map_congr_left
  intro t ht
  obtain ⟨hrow, hout⟩ := VecMatRun.mem_batchTasks.mp ht
  have hlt : t.1 * d.N + t.2 < uintRange := Nat.lt_of_lt_of_le (rowMajor_lt hrow hout) hMN
  have hindex : (matmulVecMat a b transpose_a transpose_b d).args.cIndex t.1 t.2
      = t.1 * d.N + t.2 := by
    simp only [VecMatArgs.cIndex, matmulVecMat, toUInt_of_lt hN, toUInt_of_lt hlt]
  rw [hindex, VecMatRun.result_eq _ (toUInt_lt _)]

/-! ### When the path computes the product -/

/-- What is read adds up to the product: one batch, a grid for all outputs, indices that fit a
`uint`, and for each entry the sum of what the kernel reads is the sum of the product. -/
structure VecMatMatches [CommRing α] (a b : MNTensor α) (transpose_a transpose_b : Bool)
    (d : MatmulDims) : Prop where
  one_batch : a.matrices = 1
  whole_grid : ¬ HalfGrid a.dtype d
  outputs_lt : d.N < uintRange
  entries_le : d.M * d.N ≤ uintRange
  loops_end : (vecMatKernel a.dtype d).loopsEnd transpose_b (toUInt d.K) = true
  sums : ∀ m < d.M, ∀ n < d.N,
    (matmulVecMat a b transpose_a transpose_b d).readSum a.buffer b.buffer m n
      = product a b transpose_a transpose_b d 0 m n

/-- The matrices of `a` are not empty where there is a row. -/
theorem matrixSize_pos (hok : MatmulChecked a b transpose_a transpose_b d) (hM : 0 < d.M)
    (hK : 0 < d.K) : 0 < a.matrixSize := by
  have hpos := Nat.mul_pos hM hK
  rw [MNTensor.matrixSize, hok.rows_a, hok.cols_a]
  cases transpose_a
  · exact hpos
  · rw [Nat.mul_comm] at hpos
    exact hpos

/-- The stores at one entry: as many as there are batches. -/
theorem filter_vecMat_writes [CommRing α] (h : VecMatChosen a b d)
    (hok : MatmulChecked a b transpose_a transpose_b d)
    (hloops : (vecMatKernel a.dtype d).loopsEnd transpose_b (toUInt d.K) = true)
    (hN : d.N < uintRange) (hMN : d.M * d.N ≤ uintRange) (hgrid : ¬ HalfGrid a.dtype d)
    (A B : ℕ → α) {m n : ℕ} (hm : m < d.M) (hn : n < d.N) :
    (((matmulVecMat a b transpose_a transpose_b d).writes A B).filter
        fun w => w.1 = (0 * d.M + m) * d.N + n).map Prod.snd
      = List.replicate a.matrices
          ((matmulVecMat a b transpose_a transpose_b d).readSum A B m n) := by
  have hK := h.K_ge
  have hpos := matrixSize_pos hok (by omega) (by omega)
  rw [vecMat_writes_eq h (by omega) hloops hN hMN hgrid, Nat.zero_mul, Nat.zero_add,
    toSizeT_batchSize a hok.ndim_a hpos,
    filter_flatMap_const _ _ _ (VecMatRun.filter_batchTasks hm hn _), List.map_replicate]

/-- **One launch.**  The stores are those of the product exactly when there is nothing to store or
what is read adds up to the product. -/
theorem vecMat_writesProduct_iff [CommRing α]
    (hok : MatmulChecked a b transpose_a transpose_b d) (h : VecMatChosen a b d) :
    WritesProduct ((matmulVecMat a b transpose_a transpose_b d).writes a.buffer b.buffer)
      a.matrices d
        (product a b transpose_a transpose_b d)
      ↔ a.matrices * d.M = 0 ∨ VecMatMatches a b transpose_a transpose_b d := by
  have hge := h.N_ge
  constructor
  · intro hright
    rw [or_iff_not_imp_left]
    intro hne
    have hbatch : 0 < a.matrices := Nat.pos_of_ne_zero fun h0 => hne (by rw [h0, Nat.zero_mul])
    have hM : 0 < d.M := Nat.pos_of_ne_zero fun h0 => hne (by rw [h0, Nat.mul_zero])
    -- every entry of the first batch is stored
    have hstored : ∀ m < d.M, ∀ n < d.N,
        ∃ w ∈ (matmulVecMat a b transpose_a transpose_b d).writes a.buffer b.buffer,
          w.1 = m * d.N + n := by
      intro m hm n hn
      have hone := hright 0 hbatch m hm n hn
      obtain ⟨w, hw⟩ : ∃ w, w ∈ ((matmulVecMat a b transpose_a transpose_b d).writes a.buffer
          b.buffer).filter fun w => w.1 = (0 * d.M + m) * d.N + n := by
        apply List.exists_mem_of_ne_nil
        intro hnil
        rw [hnil] at hone
        cases hone
      obtain ⟨hmem, hat⟩ := List.mem_filter.mp hw
      refine ⟨w, hmem, ?_⟩
      simpa using hat
    have hloops := (vecMat_writes_of_mem h (hstored 0 hM 0 (by omega))).1
    -- the last entry has an index that fits a `uint`
    have hlast := (vecMat_writes_of_mem h (hstored (d.M - 1) (by omega) (d.N - 1) (by omega))).2.1
    have hMN : d.M * d.N ≤ uintRange := by
      have hsplit : d.M * d.N = (d.M - 1) * d.N + d.N := by
        rw [← Nat.add_one_mul, Nat.sub_add_cancel hM]
      omega
    have hNle : d.N ≤ uintRange := le_trans (Nat.le_mul_of_pos_left d.N hM) hMN
    have hN : d.N < uintRange := by
      by_contra hnot
      -- `N` is `0` as a `uint`, and the kernel has no output
      have hzero : toUInt d.N = 0 := by
        rw [show d.N = uintRange by omega]
        exact Nat.mod_self _
      obtain ⟨w, hw, -⟩ := hstored 0 hM 0 (by omega)
      have hnone : (matmulVecMat a b transpose_a transpose_b d).rowOutputs = [] := by
        simp only [VecMatRun.rowOutputs, matmulVecMat, hzero, List.flatMap_eq_nil_iff]
        intro x _ g _
        cases vecMatKernel a.dtype d <;> simp [VecMatKernel.outputs]
      simp [VecMatRun.writes, VecMatRun.tasks, hnone] at hw
    have hgrid : ¬ HalfGrid a.dtype d := by
      intro hhalf
      have hM1 := (useMulti2_eq_true.mp hhalf.2).1
      have hreach := (reach_spec transpose_a transpose_b h hN).2.2
        hhalf
      have hout := (vecMat_writes_of_mem h (hstored 0 hM (d.N - 1) (by omega))).2.2 hN (by omega)
      omega
    have hfilter := fun m hm n hn => filter_vecMat_writes h hok hloops hN hMN hgrid a.buffer
        b.buffer
      (m := m) (n := n) hm hn
    have hone : a.matrices = 1 := by
      have hlen := congrArg List.length (hfilter 0 hM 0 (by omega))
      rw [hright 0 hbatch 0 hM 0 (by omega)] at hlen
      simpa using hlen.symm
    refine ⟨hone, hgrid, hN, hMN, hloops, fun m hm n hn => ?_⟩
    have hvalue := hfilter m hm n hn
    rw [hright 0 hbatch m hm n hn, hone, List.replicate_one] at hvalue
    exact (List.singleton_inj.mp hvalue).symm
  · rintro (hempty | hmatch)
    · apply WritesProduct.of_empty
      rw [hempty, Nat.zero_mul]
    · intro i hi m hm n hn
      have hi0 : i = 0 := by
        have hone := hmatch.one_batch
        omega
      subst hi0
      rw [filter_vecMat_writes h hok hmatch.loops_end hmatch.outputs_lt hmatch.entries_le
        hmatch.whole_grid a.buffer b.buffer hm hn, hmatch.one_batch, hmatch.sums m hm n hn]
      rfl

/-! ### Contents that tell the two readings of `b` apart -/

/-- The terms of an entry in the first row. -/
theorem product_withBuffer [CommRing α] (A B : ℕ → α) (n : ℕ) :
    product (a.withBuffer A) (b.withBuffer B) transpose_a transpose_b d 0 0 n
      = ∑ k ∈ Finset.range d.K, A (a.offset + a.entryIndex transpose_a 0 0 k)
          * B (b.offset + b.entryIndex transpose_b 0 k n) := by
  have hzero : (b.withBuffer B).matrixOf 0 = 0 := by
    unfold MNTensor.matrixOf
    split <;> rfl
  rw [product, hzero]
  rfl

/-- A one at index `p`. -/
def oneAt [CommRing α] (p : ℕ) : ℕ → α := fun j => if j = p then 1 else 0

/-- With the flag off the kernel reads the first entries of `b` for output `0`, which asks for the
first column; here the one is in the last row of that. -/
theorem wrong_of_not_transposed [CommRing α] [Nontrivial α]
    (hok : MatmulChecked a b transpose_a false d) (h : VecMatChosen a b d) :
    (matmulVecMat a b transpose_a false d).readSum (fun _ => (1 : α))
        (oneAt (b.offset + (d.K - 1) * d.N)) 0 0
      ≠ product (a.withBuffer fun _ => 1) (b.withBuffer (oneAt (b.offset + (d.K - 1) * d.N)))
          transpose_a false d 0 0 0 := by
  have hK := h.K_ge
  have hN := h.N_ge
  have hcols : b.cols = d.N := by simpa using hok.cols_b
  have hproduct : product (a.withBuffer fun _ => (1 : α))
      (b.withBuffer (oneAt (b.offset + (d.K - 1) * d.N))) transpose_a false d 0 0 0 = 1 := by
    rw [product_withBuffer, Finset.sum_eq_single (d.K - 1)]
    · simp [MNTensor.entryIndex, hcols, oneAt]
    · intro k _ hk
      have hne : ¬ k * d.N = (d.K - 1) * d.N := fun heq =>
        hk (Nat.eq_of_mul_eq_mul_right (by omega) heq)
      simp [MNTensor.entryIndex, hcols, oneAt, hne]
    · intro hout
      exact absurd (Finset.mem_range.mpr (by omega)) hout
  have hread : (matmulVecMat a b transpose_a false d).readSum (fun _ => (1 : α))
      (oneAt (b.offset + (d.K - 1) * d.N)) 0 0 = 0 := by
    have hfar : d.K ≤ (d.K - 1) * d.N := by
      calc d.K ≤ (d.K - 1) * 2 := by omega
        _ ≤ (d.K - 1) * d.N := Nat.mul_le_mul_left _ (by omega)
    have hnot : ¬ (matmulVecMat a b transpose_a false d).kernel.recounted
        (matmulVecMat a b transpose_a false d).args.transpose_b = true := by
      simp [VecMatKernel.recounted, matmulVecMat]
    have hsum : ∑ k ∈ Finset.range (toUInt d.K),
        (matmulVecMat a b transpose_a false d).term (fun _ => (1 : α))
          (oneAt (b.offset + (d.K - 1) * d.N)) 0 0 k = 0 := by
      apply Finset.sum_eq_zero
      intro k hk
      have hlt := Finset.mem_range.mp hk
      have hle : toUInt d.K ≤ d.K := Nat.mod_le _ _
      have hne : ¬ k = b.offset + (d.K - 1) * d.N := by omega
      simp [VecMatRun.term, matmulVecMat, VecMatArgs.bIndex, toUInt, oneAt, hne]
    rw [VecMatRun.readSum, if_neg hnot, add_zero]
    exact hsum
  rw [hproduct, hread]
  exact zero_ne_one

/-- With the flag on it reads entry `1` of `b` for output `1`, which asks for the second row. -/
theorem exists_wrong_of_transposed [CommRing α] [CharZero α]
    (hok : MatmulChecked a b transpose_a true d) (h : VecMatChosen a b d) :
    ∃ A B : ℕ → α, (matmulVecMat a b transpose_a true d).readSum A B 0 1
      ≠ product (a.withBuffer A) (b.withBuffer B) transpose_a true d 0 0 1 := by
  have hK := h.K_ge
  have hcols : b.cols = d.K := by simpa using hok.cols_b
  by_cases hzero : toUInt d.K = 0
  · -- the row has no terms as a `uint`
    refine ⟨fun _ => 1, fun _ => 1, ?_⟩
    have hread : (matmulVecMat a b transpose_a true d).readSum (fun _ => (1 : α)) (fun _ => 1) 0 1
        = 0 := by
      simp [VecMatRun.readSum, matmulVecMat, hzero]
    have hproduct : product (a.withBuffer fun _ => (1 : α)) (b.withBuffer fun _ => 1)
        transpose_a true d 0 0 1 = d.K := by
      rw [product_withBuffer]
      simp
    rw [hread, hproduct]
    exact (Nat.cast_ne_zero.mpr (by omega)).symm
  · refine ⟨oneAt 0, oneAt 1, ?_⟩
    have hproduct : product (a.withBuffer (oneAt 0 : ℕ → α)) (b.withBuffer (oneAt 1))
        transpose_a true d 0 0 1 = 0 := by
      rw [product_withBuffer]
      apply Finset.sum_eq_zero
      intro k _
      have hne : ¬ b.offset + (d.K + k) = 1 := by omega
      simp [MNTensor.entryIndex, hcols, oneAt, hne]
    -- only the first term is not zero
    have hterm : ∀ k, (matmulVecMat a b transpose_a true d).term (oneAt 0 : ℕ → α) (oneAt 1) 0 1 k
        = if k = 0 then 1 else 0 := by
      intro k
      by_cases hk : k = 0
      · subst hk
        simp [VecMatRun.term, matmulVecMat, VecMatArgs.aIndex, VecMatArgs.bIndex, toUInt, oneAt]
      · simp [VecMatRun.term, matmulVecMat, VecMatArgs.aIndex, toUInt, oneAt, hk]
    obtain ⟨c, hc, hread⟩ := VecMatRun.readSum_of_single _ (Nat.pos_of_ne_zero hzero) hterm
    rw [hproduct, hread]
    exact Nat.cast_ne_zero.mpr hc

/-- **The vector-matrix path.**  On the operands that it is chosen for its stores are those of the
product exactly when there is nothing to store or what the kernel reads adds up to the product; and
for all contents of the operands' buffers only when there is nothing to store. -/
theorem vecmat_product [CommRing α] [CharZero α]
    (hcheck : matmulCheck a b transpose_a transpose_b = .ok d)
      (hpath : matmulPath a b d = .VecMat) :
    (WritesProduct ((matmulVecMat a b transpose_a transpose_b d).writes a.buffer b.buffer)
      a.matrices d
        (product a b transpose_a transpose_b d)
      ↔ a.matrices * d.M = 0 ∨ VecMatMatches a b transpose_a transpose_b d)
    ∧ ((∀ A B : ℕ → α,
          WritesProduct ((matmulVecMat a b transpose_a transpose_b d).writes A B) a.matrices d
            (product (a.withBuffer A) (b.withBuffer B) transpose_a transpose_b d))
        ↔ a.matrices * d.M = 0) := by
  have hok := matmulCheck_eq_ok hcheck
  have hchosen := matmulPath_vecMat hpath
  refine ⟨vecMat_writesProduct_iff hok hchosen, ?_, ?_⟩
  · intro hall
    by_contra hne
    have hM : 0 < d.M := Nat.pos_of_ne_zero fun h0 => hne (by rw [h0, Nat.mul_zero])
    have hN := hchosen.N_ge
    have hsums : ∀ A B : ℕ → α, ∀ n < d.N,
        (matmulVecMat a b transpose_a transpose_b d).readSum A B 0 n
          = product (a.withBuffer A) (b.withBuffer B) transpose_a transpose_b d 0 0 n := by
      intro A B n hn
      have hok' : MatmulChecked (a.withBuffer A) (b.withBuffer B) transpose_a transpose_b d :=
        ⟨hok.ndim_a, hok.ndim_b, hok.dtype, hok.rows_a, hok.cols_a, hok.rows_b, hok.cols_b⟩
      have hchosen' : VecMatChosen (a.withBuffer A) (b.withBuffer B) d :=
        ⟨hchosen.M_le, hchosen.N_ge, hchosen.K_ge, hchosen.dtype, hchosen.contiguous⟩
      have hmatch := ((vecMat_writesProduct_iff hok' hchosen').mp (hall A B)).resolve_left hne
      exact hmatch.sums 0 hM n hn
    cases transpose_b with
    | false =>
      exact wrong_of_not_transposed hok hchosen (hsums _ _ 0 (by omega))
    | true =>
      obtain ⟨A, B, hwrong⟩ := exists_wrong_of_transposed (α := α) hok hchosen
      exact hwrong (hsums A B 1 (by omega))
  · intro hempty A B
    apply WritesProduct.of_empty
    rw [hempty, Nat.zero_mul]

end Launch

/-! ### A row times a square matrix -/

/-- A row of 256 half-precision numbers. -/
def halfRow (buffer : ℕ → ℤ) : MNTensor ℤ where
  buffer
  dims := [1, 256]
  strides := [256, 1]
  dtype := .Float16
  dims_lt := by decide
  numel_lt := by decide

/-- A square matrix of 256 rows. -/
def halfSquare (buffer : ℕ → ℤ) : MNTensor ℤ where
  buffer
  dims := [256, 256]
  strides := [256, 1]
  dtype := .Float16
  dims_lt := by decide
  numel_lt := by decide

theorem halfSquare_check (A B : ℕ → ℤ) :
    matmulCheck (halfRow A) (halfSquare B) false false = .ok ⟨1, 256, 256⟩ := rfl

theorem halfSquare_path (A B : ℕ → ℤ) :
    matmulPath (halfRow A) (halfSquare B) ⟨1, 256, 256⟩ = .VecMat := rfl

/-- The unit matrix. -/
def unitMatrix (j : ℕ) : ℤ := if j / 256 = j % 256 then 1 else 0

/-- A row times the unit matrix: read either way, that is the same. -/
theorem vecMatMatches_unit :
    VecMatMatches (halfRow fun j => j) (halfSquare unitMatrix) false false ⟨1, 256, 256⟩ where
  one_batch := rfl
  whole_grid := fun h => by cases h.1
  outputs_lt := by decide
  entries_le := by decide
  loops_end := by decide
  sums := by
    intro m hm n hn
    obtain rfl : m = 0 := Nat.lt_one_iff.mp hm
    have hn' : n < 256 := hn
    have hsmall : toUInt (n * 256) = n * 256 := toUInt_of_lt (by unfold uintRange; omega)
    have hread : (matmulVecMat (halfRow fun j => j) (halfSquare unitMatrix) false false
        ⟨1, 256, 256⟩).readSum (fun j => (j : ℤ)) unitMatrix 0 n
          = ∑ k ∈ Finset.range 256, (k : ℤ) * unitMatrix (n * 256 + k) := by
      refine (add_zero _).trans (Finset.sum_congr rfl fun k _ => ?_)
      change (((toUInt (0 * 256) + k : ℕ) : ℤ)) * unitMatrix (toUInt (n * 256) + k) = _
      rw [hsmall, Nat.zero_mul, show toUInt 0 = 0 from rfl, Nat.zero_add]
    refine hread.trans (Finset.sum_congr rfl fun k hk => ?_)
    have hk' := Finset.mem_range.mp hk
    -- the unit matrix is symmetric
    have hsymm : unitMatrix (n * 256 + k) = unitMatrix (k * 256 + n) := by
      unfold unitMatrix
      rw [rowMajor_div hk', rowMajor_mod hk', rowMajor_div hn', rowMajor_mod hn']
      simp [eq_comm]
    change (k : ℤ) * unitMatrix (n * 256 + k)
      = ((0 + (0 * (1 * 256) + (0 * 256 + k)) : ℕ) : ℤ) *
        unitMatrix (0 + (0 * (256 * 256) + (k * 256 + n)))
    rw [hsymm]
    simp

theorem vecmat_product_unit :
    WritesProduct ((matmulVecMat (halfRow fun j => j) (halfSquare unitMatrix) false false
        ⟨1, 256, 256⟩).writes (halfRow fun j => j).buffer (halfSquare unitMatrix).buffer) 1
      ⟨1, 256, 256⟩ (product (halfRow fun j => j) (halfSquare unitMatrix) false false
        ⟨1, 256, 256⟩) :=
  (vecmat_product (halfSquare_check _ _) (halfSquare_path _ _)).1.mpr (.inr vecMatMatches_unit)

/-- A row of ones times a matrix whose only one stands in the last row and the first column. -/
theorem vecmat_reads_transposed :
    ¬ WritesProduct ((matmulVecMat (halfRow fun _ => 1) (halfSquare (oneAt 65280)) false false
        ⟨1, 256, 256⟩).writes (halfRow fun _ => 1).buffer (halfSquare (oneAt 65280)).buffer) 1
      ⟨1, 256, 256⟩
      (product (halfRow fun _ => 1) (halfSquare (oneAt 65280)) false false ⟨1, 256, 256⟩) := by
  intro hright
  have hok := matmulCheck_eq_ok (halfSquare_check (fun _ => 1) (oneAt 65280))
  have hchosen := matmulPath_vecMat (halfSquare_path (fun _ => 1) (oneAt 65280))
  have hmatch := ((vecMat_writesProduct_iff hok hchosen).mp hright).resolve_left (by decide)
  exact wrong_of_not_transposed hok hchosen (hmatch.sums 0 (by decide) 0 (by decide))

end MetalNative
