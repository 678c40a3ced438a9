import MetalNative.Matmul.VecMatCoverage
import MetalNative.Matmul.VecMatProduct

namespace MetalNative

open ThreadLoop

/-!
# The vector loads of the vector-matrix kernels

A `half4` or `float4` is loaded from an address that has to be a multiple of its size.

* `VectorAligned` — the indices at which a vector may start.
* `VecMatRun.vectorReads` — the indices at which the kernels load vectors, in any number of turns of
  their loops.
* `VecMatRun.aligned_iff` — the launches that load aligned vectors only.
-/

/-! ### Aligned vectors -/

/-- Four elements from index `idx` on are an aligned vector, wherever the elements start at an
aligned address. -/
def VectorAligned (dtype : MNDType) (idx : ℕ) : Prop :=
  ∀ start, 4 * dtypeSize dtype ∣ start → 4 * dtypeSize dtype ∣ start + idx * dtypeSize dtype

theorem vectorAligned_iff {dtype : MNDType} {idx : ℕ} : VectorAligned dtype idx ↔ 4 ∣ idx := by
  have hpos : 0 < dtypeSize dtype := by cases dtype <;> decide
  constructor
  · intro h
    have hzero := h 0 (Nat.dvd_zero _)
    rw [Nat.zero_add] at hzero
    exact (Nat.mul_dvd_mul_iff_right hpos).mp hzero
  · intro h start hstart
    exact Nat.dvd_add hstart (Nat.mul_dvd_mul_right h _)

/-- Words are counted modulo a multiple of four. -/
theorem four_dvd_toUInt {n : ℕ} : 4 ∣ toUInt n ↔ 4 ∣ n :=
  Nat.dvd_mod_iff (by decide)

/-! ### The loads -/

namespace VecMatKernel

/-- The values of `k` at which a lane loads vectors, in the first `turns` turns of each of its
loops. -/
def vectorTurns (kernel : VecMatKernel) (transpose_b : Bool) (K turns lane : ℕ) : List ℕ :=
  if kernel.unrolled transpose_b then
    (wordTurns uintRange K 132 256 turns (lane * 4)).flatMap (fun k => [k, k + 128])
      ++ (wordLoop uintRange K 132 256 turns (lane * 4)).elim [] fun main =>
        wordTurns uintRange K 4 128 turns main.2
  else wordTurns uintRange K 4 128 turns (lane * 4)

variable {kernel : VecMatKernel}

/-- The turns of a lane are four elements apart, or a multiple of that. -/
theorem dvd_of_mem_vectorTurns {transpose_b : Bool} {K turns lane k : ℕ}
    (hk : k ∈ kernel.vectorTurns transpose_b K turns lane) : 4 ∣ k := by
  have hstart : 4 ∣ lane * 4 := Nat.dvd_mul_left 4 lane
  have hrange : 4 ∣ uintRange := by decide
  rw [vectorTurns] at hk
  split_ifs at hk with hunrolled
  · rcases List.mem_append.mp hk with hmain | hrest
    · obtain ⟨i, hi, hik⟩ := List.mem_flatMap.mp hmain
      have hdvd := dvd_of_mem_wordTurns hrange (by decide) turns _ hstart i hi
      simp only [List.mem_cons, List.not_mem_nil, or_false] at hik
      omega
    · cases hloop : wordLoop uintRange K 132 256 turns (lane * 4) with
      | none => simp [hloop] at hrest
      | some main =>
        -- the second loop goes on where the first one has ended
        rw [hloop] at hrest
        have hexit := dvd_of_wordLoop hrange (by decide) turns _ hstart main hloop
        exact dvd_of_mem_wordTurns hrange (by decide) turns _ hexit k hrest
  · exact dvd_of_mem_wordTurns hrange (by decide) turns _ hstart k hk

/-- The first lane starts with a vector at the beginning of the row. -/
theorem zero_mem_vectorTurns (kernel : VecMatKernel) (transpose_b : Bool) {K : ℕ} (hK : 4 ≤ K) :
    0 ∈ kernel.vectorTurns transpose_b K 1 0 := by
  have hword : ∀ reach < uintRange, (0 * 4 + reach) % uintRange = reach := by
    intro reach hreach
    rw [Nat.zero_mul, Nat.zero_add, Nat.mod_eq_of_lt hreach]
  have hsingle : 0 ∈ wordTurns uintRange K 4 128 1 (0 * 4) := by
    rw [wordTurns, hword 4 (by decide), if_pos hK]
    simp
  rw [vectorTurns]
  split_ifs with hunrolled
  · apply List.mem_append.mpr
    by_cases hlong : 132 ≤ K
    · left
      rw [wordTurns, hword 132 (by decide), if_pos hlong]
      simp
    · right
      rw [wordLoop, hword 132 (by decide), if_neg hlong]
      exact hsingle
  · exact hsingle

/-- The loops over a row shorter than a vector have no turn. -/
theorem vectorTurns_of_short {transpose_b : Bool} {K turns lane : ℕ}
    (hK : K < 4) (hlane : lane < 32) : kernel.vectorTurns transpose_b K turns lane = [] := by
  cases turns with
  | zero => simp [vectorTurns, wordTurns, wordLoop]
  | succ turns =>
    have hout : ∀ reach, 4 ≤ reach → reach ≤ 132 → ¬ (lane * 4 + reach) % uintRange ≤ K := by
      intro reach hlow hhigh
      rw [Nat.mod_eq_of_lt (show lane * 4 + reach < uintRange by unfold uintRange; omega)]
      omega
    have hsingle : wordTurns uintRange K 4 128 (turns + 1) (lane * 4) = [] := by
      rw [wordTurns, if_neg (hout 4 (by decide) (by decide))]
    have hloop : wordLoop uintRange K 132 256 (turns + 1) (lane * 4) = some ([], lane * 4) := by
      rw [wordLoop, if_neg (hout 132 (by decide) (by decide))]
    have hdouble : wordTurns uintRange K 132 256 (turns + 1) (lane * 4) = [] := by
      rw [wordTurns, if_neg (hout 132 (by decide) (by decide))]
    simp [vectorTurns, hsingle, hloop, hdouble]

/-- The outputs of a group are those of the product. -/
theorem lt_of_mem_outputs {N x g out : ℕ}
    (h : out ∈ kernel.outputs N x g) : out < N := by
  cases kernel
  case fp16Multi2 =>
    simp only [outputs] at h
    split_ifs at h with hfirst hsecond
    · simp at h
    · rcases List.mem_cons.mp h with rfl | hlast
      · omega
      · obtain rfl := List.mem_singleton.mp hlast
        exact hsecond
    · obtain rfl := List.mem_singleton.mp h
      omega
  all_goals
    simp only [outputs] at h
    split_ifs at h with hfirst
    · simp at h
    · obtain rfl := List.mem_singleton.mp h
      omega

/-- The first two outputs are computed in the first threadgroup. -/
theorem mem_outputs (kernel : VecMatKernel) {N out : ℕ} (hsmall : out ≤ 1) (hout : out < N) :
    ∃ g < 8, out ∈ kernel.outputs N 0 g := by
  have hword : toUInt out = out := toUInt_of_lt (lt_of_le_of_lt hsmall (by decide))
  cases kernel
  case fp16Multi2 =>
    -- one group computes both
    refine ⟨0, by decide, ?_⟩
    have hzero : toUInt 0 = 0 := toUInt_of_lt (by decide)
    have hone : toUInt 1 = 1 := toUInt_of_lt (by decide)
    simp only [outputs, Nat.zero_mul, Nat.zero_add, hzero, hone]
    rcases Nat.le_one_iff_eq_zero_or_eq_one.mp hsmall with rfl | rfl
    · rw [if_neg (not_le.mpr hout)]
      split_ifs <;> simp
    · have hpos : ¬ N = 0 := by omega
      simp [hout, hpos]
  all_goals
    refine ⟨out, by omega, ?_⟩
    simp [outputs, hword, hout]

end VecMatKernel

namespace VecMatRun

variable {run : VecMatRun}

/-- The indices at which vectors of `A` are loaded, and vectors of the rows of `B`; a column of `B`
is gathered element by element. -/
def vectorReads (run : VecMatRun) (turns : ℕ) : List ℕ :=
  run.tasks.flatMap fun t => (List.range 32).flatMap fun lane =>
    (run.kernel.vectorTurns run.args.transpose_b run.args.K turns lane).flatMap fun k =>
      run.args.aIndex t.1 k
        :: if !run.args.transpose_b then [run.args.bIndex t.2 k] else []

/-- All vectors are aligned where the buffers are. -/
def Aligned (run : VecMatRun) (dtype : MNDType) : Prop :=
  ∀ turns, ∀ idx ∈ run.vectorReads turns, VectorAligned dtype idx

/-- The rows of `A` and of `B` that the tasks read have to start at vectors. -/
theorem aligned_of_tasks {dtype : MNDType} (hK : 4 ≤ run.args.K) : run.Aligned dtype ↔
    ∀ t ∈ run.tasks, 4 ∣ t.1 * run.args.lda
      ∧ (run.args.transpose_b = false → 4 ∣ t.2 * run.args.ldb) := by
  constructor
  · intro h t ht
    -- the first lane loads the beginning of both rows
    have hread : ∀ idx ∈ run.args.aIndex t.1 0
        :: (if !run.args.transpose_b then [run.args.bIndex t.2 0] else []), 4 ∣ idx := by
      intro idx hidx
      apply vectorAligned_iff.mp
      apply h 1
      simp only [vectorReads, List.mem_flatMap]
      exact ⟨t, ht, 0, by simp, 0, run.kernel.zero_mem_vectorTurns _ hK, hidx⟩
    constructor
    · exact four_dvd_toUInt.mp (hread _ (by simp [VecMatArgs.aIndex]))
    · intro hrow
      exact four_dvd_toUInt.mp (hread _ (by simp [VecMatArgs.bIndex, hrow]))
  · intro h turns idx hidx
    rw [vectorAligned_iff]
    simp only [vectorReads, List.mem_flatMap] at hidx
    obtain ⟨t, ht, lane, -, k, hk, hread⟩ := hidx
    obtain ⟨hA, hB⟩ := h t ht
    have hturn := VecMatKernel.dvd_of_mem_vectorTurns hk
    rcases List.mem_cons.mp hread with rfl | hrow
    · exact Nat.dvd_add (four_dvd_toUInt.mpr hA) hturn
    · split_ifs at hrow with htrans
      · rw [Bool.not_eq_true'] at htrans
        obtain rfl := List.mem_singleton.mp hrow
        rw [VecMatArgs.bIndex, htrans]
        exact Nat.dvd_add (four_dvd_toUInt.mpr (hB htrans)) hturn
      · simp at hrow

theorem lt_of_mem_rowOutputs {out : ℕ} (h : out ∈ run.rowOutputs) : out < run.args.N := by
  simp only [rowOutputs, List.mem_flatMap] at h
  obtain ⟨x, -, g, -, hout⟩ := h
  exact VecMatKernel.lt_of_mem_outputs hout

/-- Without a full vector there is no load. -/
theorem aligned_of_short {dtype : MNDType} (hK : run.args.K < 4) : run.Aligned dtype := by
  intro turns idx hidx
  simp only [vectorReads, List.mem_flatMap, List.mem_range] at hidx
  obtain ⟨_, -, lane, hlane, k, hk, -⟩ := hidx
  rw [VecMatKernel.vectorTurns_of_short hK hlane] at hk
  simp at hk

end VecMatRun

/-! ### The launch of the host -/

section Launch

variable {α : Type*} {a b : MNTensor α} {transpose_a transpose_b : Bool} {d : MatmulDims}

/-- The tasks of a launch: the rows of `a`, but never none, with the outputs that a row has. -/
theorem mem_vecMat_tasks (h : VecMatChosen a b d) {t : ℕ × ℕ} :
    t ∈ (matmulVecMat a b transpose_a transpose_b d).tasks ↔ 0 < toSizeT (batchSize a)
      ∧ t.1 < max d.M 1 ∧ t.2 ∈ (matmulVecMat a b transpose_a transpose_b d).rowOutputs := by
  obtain ⟨row, out⟩ := t
  have hrow : row < max d.M 1 ↔ row ∈ (List.range
      (matmulVecMat a b transpose_a transpose_b d).gridY).flatMap
        ((matmulVecMat a b transpose_a transpose_b d).kernel.rows
          (matmulVecMat a b transpose_a transpose_b d).args.M) := by
    rw [rows_spec h, List.mem_range]
  rw [hrow]
  simp only [VecMatRun.tasks, List.mem_flatMap, List.mem_map, List.mem_range, Prod.mk.injEq]
  constructor
  · rintro ⟨z, hz, y, hy, _, hmem, _, hout, rfl, rfl⟩
    exact ⟨Nat.zero_lt_of_lt hz, ⟨y, hy, hmem⟩, hout⟩
  · rintro ⟨hz, ⟨y, hy, hmem⟩, hout⟩
    exact ⟨0, hz, y, hy, row, hmem, out, hout, rfl, rfl⟩

/-- The first two outputs, where the product has them. -/
theorem mem_vecMat_rowOutputs (h : VecMatChosen a b d) {out : ℕ} (hsmall : out ≤ 1)
    (hout : out < toUInt d.N) :
    out ∈ (matmulVecMat a b transpose_a transpose_b d).rowOutputs := by
  have hgrid : 0 < (matmulVecMat a b transpose_a transpose_b d).gridX := by
    have hN := h.N_ge
    simp only [matmulVecMat]
    split_ifs
    · omega
    · omega
  obtain ⟨g, hg, hmem⟩ := VecMatKernel.mem_outputs
    (matmulVecMat a b transpose_a transpose_b d).kernel hsmall hout
  simp only [VecMatRun.rowOutputs, List.mem_flatMap, List.mem_range]
  exact ⟨0, hgrid, g, hg, hmem⟩

/-- The products for which the rows that are read start at a vector. -/
def VecMatRowsAligned (a b : MNTensor α) (transpose_b : Bool) (d : MatmulDims) : Prop :=
  toSizeT (batchSize a) = 0 ∨ toUInt d.N = 0 ∨ toUInt d.K < 4 ∨
    (d.M ≤ 1 ∨ 4 ∣ a.cols) ∧ (transpose_b = true ∨ toUInt d.N ≤ 1 ∨ 4 ∣ b.cols)

/-- **The launches that load aligned vectors only.** -/
theorem VecMatRun.aligned_iff (h : VecMatChosen a b d) :
    (matmulVecMat a b transpose_a transpose_b d).Aligned a.dtype
      ↔ VecMatRowsAligned a b transpose_b d := by
  rw [VecMatRowsAligned]
  by_cases hK : toUInt d.K < 4
  · exact iff_of_true (aligned_of_short hK) (Or.inr (Or.inr (Or.inl hK)))
  rw [aligned_of_tasks (not_lt.mp hK), or_iff_right hK]
  constructor
  · intro hall
    by_cases hbatch : toSizeT (batchSize a) = 0
    · exact Or.inl hbatch
    by_cases hN : toUInt d.N = 0
    · exact Or.inr (Or.inl hN)
    refine Or.inr (Or.inr ⟨?_, ?_⟩)
    · by_cases hM : d.M ≤ 1
      · exact Or.inl hM
      · -- the second row of `a` is read for the first output
        have hrow := (hall (1, 0) ((mem_vecMat_tasks h).mpr ⟨Nat.pos_of_ne_zero hbatch,
          lt_of_lt_of_le (not_le.mp hM) (le_max_left _ _),
          mem_vecMat_rowOutputs h (by simp) (Nat.pos_of_ne_zero hN)⟩)).1
        rw [Nat.one_mul] at hrow
        exact Or.inr (four_dvd_toUInt.mp hrow)
    · by_cases hsingle : toUInt d.N ≤ 1
      · exact Or.inr (Or.inl hsingle)
      · cases htrans : transpose_b with
        | true => exact Or.inl rfl
        | false =>
          -- the second row of `b` is read for the second output
          have hout := (hall (0, 1) ((mem_vecMat_tasks h).mpr ⟨Nat.pos_of_ne_zero hbatch,
            lt_of_lt_of_le Nat.one_pos (le_max_right _ _),
            mem_vecMat_rowOutputs h (by simp) (not_le.mp hsingle)⟩)).2 htrans
          rw [Nat.one_mul] at hout
          exact Or.inr (Or.inr (four_dvd_toUInt.mp hout))
  · intro hcond t ht
    obtain ⟨hbatch, hrow, hout⟩ := (mem_vecMat_tasks h).mp ht
    have hlt := VecMatRun.lt_of_mem_rowOutputs hout
    -- there is an output, so `N` is not zero
    have hN : ¬ toUInt d.N = 0 := fun hzero => by
      simp only [matmulVecMat, hzero] at hlt
      omega
    obtain ⟨hA, hB⟩ := (hcond.resolve_left hbatch.ne').resolve_left hN
    constructor
    · rcases hA with hM | hcols
      · have hzero : t.1 = 0 := by omega
        simp [hzero]
      · exact Dvd.dvd.mul_left (four_dvd_toUInt.mpr hcols) _
    · intro htrans
      rcases hB with hflag | hsingle | hcols
      · simp only [matmulVecMat, hflag] at htrans
        cases htrans
      · have hzero : t.2 = 0 := Nat.lt_one_iff.mp (lt_of_lt_of_le hlt hsingle)
        simp [hzero]
      · exact Dvd.dvd.mul_left (four_dvd_toUInt.mpr hcols) _

end Launch

end MetalNative
