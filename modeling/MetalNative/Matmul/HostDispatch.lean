import MetalNative.Core.Tensor

namespace MetalNative

/-!
# `matmul`: the checks and the choice of a path

A translation of the host side of `matmul.mm` up to the point where one of its paths is entered.

* `matmulCheck` — the checks of `matmul`, and the sizes that every path is called with.
* `shouldUseCpuPath`, `selectKernel` — which path is taken.
* `batchSize`, `aBatchStride`, `bBatchStride` — what each path derives from the shapes.
-/

/-- `MatmulKernelType`. -/
inductive MatmulKernelType where
  | VecMat
  | SIMD32
  | Tiled64
  | MPSGraph
  | CPU
  deriving DecidableEq, Repr

/-- The largest dimension of the custom kernels. -/
def kSIMDMatmulMaxDim : ℕ := 512

/-- The sizes `M`, `N` and `K` of a product. -/
structure MatmulDims where
  M : ℕ
  N : ℕ
  K : ℕ
  deriving DecidableEq, Repr

namespace MNTensor

variable {α : Type*}

/-- `ndim()`. -/
def ndim (t : MNTensor α) : ℕ := t.dims.length

/-- `shape()[i]`. -/
def dim (t : MNTensor α) (i : ℕ) : ℕ := t.dims.getD i 0

/-- The four dimensions of a tensor. -/
theorem dims_eq_four {t : MNTensor α} (h : t.ndim = 4) :
    t.dims = [t.dim 0, t.dim 1, t.dim 2, t.dim 3] := by
  unfold dim
  unfold ndim at h
  rcases hdims : t.dims with _ | ⟨a, _ | ⟨b, _ | ⟨c, _ | ⟨e, _ | ⟨g, ds⟩⟩⟩⟩⟩
  all_goals simp_all

/-- `shape()[ndim() - 2]`. -/
def rows (t : MNTensor α) : ℕ := t.dim (t.ndim - 2)

/-- `shape()[ndim() - 1]`. -/
def cols (t : MNTensor α) : ℕ := t.dim (t.ndim - 1)

/-- The dimensions before the last two. -/
def leading (t : MNTensor α) : List ℕ := t.dims.take (t.ndim - 2)

/-- A tensor of two or more dimensions: its leading ones, its rows and its columns. -/
theorem dims_eq (t : MNTensor α) (h : 2 ≤ t.ndim) : t.dims = t.leading ++ [t.rows, t.cols] := by
  unfold leading rows cols dim
  unfold ndim at h ⊢
  rcases List.eq_nil_or_concat t.dims with hd | ⟨init, c, hd⟩
  · rw [hd] at h
    simp at h
  · rcases List.eq_nil_or_concat init with rfl | ⟨lead, r, rfl⟩
    · rw [hd] at h
      simp at h
    · rw [hd]
      simp

end MNTensor

variable {α : Type*}

/-- The checks of `matmul`. -/
def matmulCheck (a b : MNTensor α) (transpose_a transpose_b : Bool) :
    Except MNException MatmulDims := do
  if ¬ a.ndim ≥ 2 then
    throw ⟨.InvalidArgument, "matmul: input 'a' must have at least 2 dimensions"⟩
  if ¬ b.ndim ≥ 2 then
    throw ⟨.InvalidArgument, "matmul: input 'b' must have at least 2 dimensions"⟩
  if ¬ a.dtype = b.dtype then
    throw ⟨.InvalidArgument, "matmul: input dtypes must match"⟩
  let M := if transpose_a then a.cols else a.rows
  let K_a := if transpose_a then a.rows else a.cols
  let K_b := if transpose_b then b.cols else b.rows
  let N := if transpose_b then b.rows else b.cols
  if ¬ K_a = K_b then
    throw ⟨.InvalidArgument, "matmul: incompatible dimensions for matrix multiplication"⟩
  return ⟨M, N, K_a⟩

/-- `should_use_cpu_path`. -/
def shouldUseCpuPath (a b : MNTensor α) (d : MatmulDims) : Bool :=
  if a.dtype ≠ .Float32 then false
  else if ¬ a.isContiguous ∨ ¬ b.isContiguous then false
  else max (max d.M d.N) d.K ≤ 512

/-- `select_kernel`. -/
def selectKernel (d : MatmulDims) (dtype : MNDType) (isContiguous : Bool) : MatmulKernelType :=
  if ¬ isContiguous then .MPSGraph
  else if dtype ≠ .Float16 ∧ dtype ≠ .Float32 ∧ dtype ≠ .BFloat16 then .MPSGraph
  else if d.M ≤ 8 ∧ d.N ≥ 256 ∧ d.K ≥ 256 then .VecMat
  else if d.M ≤ 128 ∧ d.N ≤ 128 ∧ d.K ≤ 128 then .SIMD32
  else if d.M ≤ kSIMDMatmulMaxDim ∧ d.N ≤ kSIMDMatmulMaxDim ∧ d.K ≤ kSIMDMatmulMaxDim then .Tiled64
  else .MPSGraph

/-- The path that `matmul` takes after its checks; the vector-matrix path passes `BFloat16` on. -/
def matmulPath (a b : MNTensor α) (d : MatmulDims) : MatmulKernelType :=
  if shouldUseCpuPath a b d then .CPU
  else
    match selectKernel d a.dtype (a.isContiguous && b.isContiguous) with
    | .VecMat => if a.dtype = .Float16 ∨ a.dtype = .Float32 then .VecMat else .SIMD32
    | path => path

/-- `batch_size`: the product of the leading dimensions of `a`, in `int64_t`. -/
def batchSize (a : MNTensor α) : ℤ := MNShape.numel (a.leading.map Nat.cast)

/-- The shape of the product. -/
def matmulShape (a : MNTensor α) (d : MatmulDims) : List ℕ := a.leading ++ [d.M, d.N]

/-! ### What the checks leave -/

variable {a b : MNTensor α} {transpose_a transpose_b : Bool} {d : MatmulDims}

/-- What the checks of `matmul` have established when they pass. -/
structure MatmulChecked (a b : MNTensor α) (transpose_a transpose_b : Bool) (d : MatmulDims) :
    Prop where
  ndim_a : 2 ≤ a.ndim
  ndim_b : 2 ≤ b.ndim
  dtype : a.dtype = b.dtype
  rows_a : a.rows = if transpose_a then d.K else d.M
  cols_a : a.cols = if transpose_a then d.M else d.K
  rows_b : b.rows = if transpose_b then d.N else d.K
  cols_b : b.cols = if transpose_b then d.K else d.N

theorem matmulCheck_eq_ok (h : matmulCheck a b transpose_a transpose_b = .ok d) :
    MatmulChecked a b transpose_a transpose_b d := by
  unfold matmulCheck at h
  by_cases ha : a.ndim ≥ 2
  · by_cases hb : b.ndim ≥ 2
    · by_cases hdt : a.dtype = b.dtype
      · rw [if_neg (not_not.mpr ha), if_neg (not_not.mpr hb), if_neg (not_not.mpr hdt)] at h
        by_cases hK : (if transpose_a then a.rows else a.cols)
            = if transpose_b then b.cols else b.rows
        · rw [if_neg (not_not.mpr hK)] at h
          obtain rfl := Except.ok.inj h
          refine ⟨ha, hb, hdt, ?_, ?_, ?_, ?_⟩
          -- the four combinations of the flags
          all_goals cases transpose_a <;> cases transpose_b <;> simp_all
        · rw [if_pos hK] at h
          cases h
      · rw [if_neg (not_not.mpr ha), if_neg (not_not.mpr hb), if_pos hdt] at h
        cases h
    · rw [if_neg (not_not.mpr ha), if_pos hb] at h
      cases h
  · rw [if_pos ha] at h
    cases h

/-- What the vector-matrix path is chosen for. -/
structure VecMatChosen (a b : MNTensor α) (d : MatmulDims) : Prop where
  M_le : d.M ≤ 8
  N_ge : 256 ≤ d.N
  K_ge : 256 ≤ d.K
  dtype : a.dtype = .Float16 ∨ a.dtype = .Float32
  contiguous : a.isContiguous ∧ b.isContiguous

/-- The kernel type that `select_kernel` answers with is the vector-matrix one. -/
theorem selectKernel_vecMat {dtype : MNDType} {isContiguous : Bool}
    (h : selectKernel d dtype isContiguous = .VecMat) :
    isContiguous ∧ d.M ≤ 8 ∧ d.N ≥ 256 ∧ d.K ≥ 256 := by
  unfold selectKernel at h
  split_ifs at h with hcont hdtype hsmall
  exact ⟨hcont, hsmall⟩

theorem matmulPath_vecMat (h : matmulPath a b d = .VecMat) : VecMatChosen a b d := by
  unfold matmulPath at h
  by_cases hcpu : shouldUseCpuPath a b d = true
  · rw [if_pos hcpu] at h
    cases h
  · rw [if_neg hcpu] at h
    cases hselect : selectKernel d a.dtype (a.isContiguous && b.isContiguous) with
    | VecMat =>
      simp only [hselect] at h
      split_ifs at h with hdtype
      obtain ⟨hcont, hM, hN, hK⟩ := selectKernel_vecMat hselect
      exact ⟨hM, hN, hK, hdtype, by simpa using hcont⟩
    | SIMD32 | Tiled64 | MPSGraph | CPU =>
      simp only [hselect] at h
      cases h

end MetalNative
