import MetalNative.Matmul.VecMatAlignment
import MetalNative.Ops.NormalizationCoverage

namespace MetalNative

open ExtReal NormFamily ThreadLoop

/-!
# The fused normalisations

A translation of `fast::rms_norm` and `fast::layer_norm` in `future_stubs.mm` and of the kernels of
`fused_norm.metal`.  A short row is shared by one SIMD group, four elements at a time, a long one by
256 threads.

* `NormCall.fusedLaunch` — the selection of the kernel and the launch, with no check of the weight.
* `FusedNormRun.vectorIndices` — where the vectors are loaded and stored.
* `FusedNormRun.writes` — all writes of a launch.
* `FusedNormRun.elements_eq`, `FusedNormRun.rowSum_eq` — a row is gone through like in the
  vectorised and in the large kernels of the plain functions.
-/

/-! ### The host -/

/-- A launch; `dtype` is the type of the elements that the kernel reads and writes. -/
structure FusedNormRun where
  op : NormOp
  kernel_name : String
  use_large : Bool
  dtype : MNDType
  sizes : NormSizes
  deriving DecidableEq, Repr

/-- `kernel_name`, and the type that the kernel is written for: those that are not `Float32` share
the half precision ones. -/
def fusedNormKernel (op : NormOp) (dtype : MNDType) (use_large : Bool) : String × MNDType :=
  let variant := if use_large then "_large" else ""
  if dtype = .Float32 then ("fused_" ++ op.functionName ++ variant ++ "_fp32", .Float32)
  else ("fused_" ++ op.functionName ++ variant ++ "_fp16", .Float16)

section host

variable {α : Type*}

/-- Both functions, once the output has been allocated. -/
def fusedNorm (op : NormOp) (input : MNTensor α) : Except MNException FusedNormRun := do
  if input.shape.length = 0 then
    throw ⟨.InvalidArgument, "MNShape index -1 out of range for shape with 0 dimensions"⟩
  let norm_size := toUInt (toSizeT (input.shape.getD (input.shape.length - 1) 0))
  let batch_size := toUInt (toSizeT (input.numel.tdiv norm_size))
  let use_large : Bool := norm_size ≥ 2048
  let (kernel_name, dtype) := fusedNormKernel op input.dtype use_large
  return { op, kernel_name, use_large, dtype, sizes := { batch_size, norm_size } }

/-- What `fast::layer_norm` or `fast::rms_norm` launches on the arguments of a call; the weight and
the bias are only bound. -/
def NormCall.fusedLaunch : NormCall α → Except MNException FusedNormRun
  | layer input _ _ => fusedNorm .layer input
  | rms input _ => fusedNorm .rms input

end host

/-! ### The kernels -/

/-- The elements of a lane of a SIMD group: the vectors below `vec_end`, and the scalar tail. -/
def smallElements (norm_size lane : ℕ) : List ℕ :=
  let vec_end := norm_size / 4 * 4
  (stride (lane * 4) 128 vec_end).flatMap vec4 ++ stride (vec_end + lane) 32 norm_size

/-- `sum` or `sum_sq` of a lane of a SIMD group; `val` is what is added for an element. -/
noncomputable def smallPartialSum (norm_size : ℕ) (val : ℕ → ExtReal) (lane : ℕ) : ExtReal :=
  let vec_end := norm_size / 4 * 4
  let sum := (stride (lane * 4) 128 vec_end).foldl (fun sum i =>
    sum + (val i + val (i + 1) + val (i + 2) + val (i + 3))) (real 0)
  (stride (vec_end + lane) 32 norm_size).foldl (fun sum i => sum + val i) sum

namespace FusedNormRun

variable (run : FusedNormRun)

/-- The threads of a row: one SIMD group, or `FUSED_LARGE_THREADS`. -/
def threads : ℕ := if run.use_large then 256 else 32

/-- The elements of a thread. -/
def elements (p : ℕ) : List ℕ :=
  if run.use_large then stride p 256 run.sizes.norm_size else smallElements run.sizes.norm_size p

/-- The elements that all threads of a row go through. -/
def rowElements : List ℕ := (List.range run.threads).flatMap run.elements

/-- A sum over a row.  The large kernels add up the sums of their eight SIMD groups like the large
kernels of the plain functions. -/
noncomputable def rowSum (val : ℕ → ExtReal) : ExtReal :=
  if run.use_large then NormFamily.large.teamSum run.sizes.norm_size val 0
  else simdSum fun lane => smallPartialSum run.sizes.norm_size val lane

/-- `base_offset + i`, where the vector of element `r` starts. -/
def vectorIndex (row r : ℕ) : ℕ :=
  let base_offset := toUInt (row * run.sizes.norm_size)
  toUInt (base_offset + r / 4 * 4)

/-- The index of element `r` of a row: in a vector below `vec_end`, or `base_offset + r`. -/
def address (row r : ℕ) : ℕ :=
  let base_offset := toUInt (row * run.sizes.norm_size)
  let vec_end := run.sizes.norm_size / 4 * 4
  if ¬ run.use_large ∧ r < vec_end then run.vectorIndex row r + r % 4
  else toUInt (base_offset + r)

/-- The indices at which vectors start: those of the input and of the output, and those of the
weight and of the bias.  The large kernels have scalar accesses only. -/
def vectorIndices : List ℕ :=
  if run.use_large then [] else
    (List.range run.sizes.batch_size).flatMap fun row => (List.range 32).flatMap fun lane =>
      (stride (lane * 4) 128 (run.sizes.norm_size / 4 * 4)).flatMap fun i =>
        [run.vectorIndex row i, i]

/-- What is written for element `r` of a row.  The variance is cut off at zero in all kernels; the
second pass of a thread takes the elements of the first one, from the input or from its own cells of
`shared_input`. -/
noncomputable def output (eps : ℝ) (x w b : ℕ → ℝ) (row r : ℕ) : ExtReal :=
  let val := fun r => real (x (run.address row r))
  let total_sum := run.rowSum val
  let total_sq_sum := run.rowSum fun r => val r * val r
  normOutput run.op .large run.sizes.norm_size eps total_sum total_sq_sum (val r) (real (w r))
    (real (b r))

/-- All writes of the launch: the index and the value. -/
noncomputable def writes (eps : ℝ) (x w b : ℕ → ℝ) : List (ℕ × ExtReal) :=
  (List.range run.sizes.batch_size).flatMap fun row => run.rowElements.map fun r =>
    (run.address row r, run.output eps x w b row r)

/-- The loops of all threads end in fewer than `fuel` turns. -/
def ended (fuel : ℕ) : Bool :=
  let vec_end := run.sizes.norm_size / 4 * 4
  (List.range run.sizes.batch_size).all fun _ => (List.range run.threads).all fun p =>
    if run.use_large then (wordFor uintRange run.sizes.norm_size 256 fuel p).isSome
    else (wordFor uintRange vec_end 128 fuel (p * 4)).isSome
      && (wordFor uintRange run.sizes.norm_size 32 fuel (toUInt (vec_end + p))).isSome

end FusedNormRun

/-! ### The rows -/

theorem vec4_eq (i : ℕ) : vec4 (i * 4) = vecElements i := by
  rw [Nat.mul_comm]
  rfl

/-- The vectors of a lane. -/
theorem stride_vectors (n lane : ℕ) :
    stride (lane * 4) 128 (n / 4 * 4) = (stride lane 32 (n / 4)).map (· * 4) :=
  stride_mul (by decide) lane 32 (n / 4)

/-- The tail has fewer elements than there are lanes. -/
theorem stride_tail (n lane : ℕ) :
    stride (n / 4 * 4 + lane) 32 n = if lane < n % 4 then [n / 4 * 4 + lane] else [] := by
  split_ifs with hlane
  · rw [stride_eq_cons (by decide) (by omega), stride_eq_nil (by decide) (by omega)]
  · exact stride_eq_nil (by decide) (by omega)

theorem smallElements_eq (n lane : ℕ) : smallElements n lane = vec.elements n lane := by
  simp only [smallElements, NormFamily.elements, stride_vectors, stride_tail, List.flatMap_map,
    vec4_eq]

theorem smallPartialSum_eq (n : ℕ) (val : ℕ → ExtReal) (lane : ℕ) :
    smallPartialSum n val lane = vec.partialSum n val lane := by
  have hvector : ∀ i, val (i * 4) + val (i * 4 + 1) + val (i * 4 + 2) + val (i * 4 + 3)
      = val (4 * i + 0) + val (4 * i + 1) + val (4 * i + 2) + val (4 * i + 3) := by
    intro i
    simp [Nat.mul_comm i]
  simp only [smallPartialSum, NormFamily.partialSum, stride_vectors, stride_tail, List.foldl_map,
    hvector]
  by_cases hlane : lane < n % 4
  · simp [hlane]
  · simp [hlane]

namespace FusedNormRun

variable (run : FusedNormRun)

/-- The kernels of the plain functions that go through a row in the same way. -/
def family : NormFamily := if run.use_large then .large else .vec

theorem family_ne_regcache : run.family ≠ .regcache := by
  rw [family]
  split_ifs <;> simp

theorem threads_eq : run.threads = run.family.threads := by
  rw [threads, family]
  split_ifs <;> rfl

theorem elements_eq : run.elements = run.family.elements run.sizes.norm_size := by
  ext1 p
  rw [elements, family]
  split_ifs
  · rfl
  · exact smallElements_eq _ p

/-- **Every element of a row once.** -/
theorem rowElements_perm : run.rowElements.Perm (List.range run.sizes.norm_size) := by
  rw [rowElements, threads_eq, elements_eq]
  exact elements_perm fun h => absurd h run.family_ne_regcache

theorem mem_rowElements {r : ℕ} : r ∈ run.rowElements ↔ r < run.sizes.norm_size := by
  rw [run.rowElements_perm.mem_iff, List.mem_range]

/-- **The sum of a row.** -/
theorem rowSum_eq (val : ℕ → ExtReal) :
    run.rowSum val = run.family.teamSum run.sizes.norm_size val 0 := by
  rw [rowSum, family]
  split_ifs
  · rfl
  · simp only [smallPartialSum_eq, teamSum, Nat.zero_add]

end FusedNormRun

end MetalNative
