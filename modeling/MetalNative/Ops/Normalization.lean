import MetalNative.Ops.NormRow
import MetalNative.Ops.ReductionSizes

namespace MetalNative

open ExtReal

/-!
# Layer and RMS normalisation

A translation of `layer_norm` and `rms_norm` in `normalization.mm` and of the kernels that they
launch.  A kernel goes through a row in one of the ways of `NormFamily`.  What it reads and writes
is a function of the index, counted from the bound offsets; the arithmetic is exact, with the
special values of floating point, and the kernels of the three data types do the same on converted
elements.

* `layerNorm`, `rmsNorm` — the checks, the selection of the kernel and the launch.
* `NormRun.teams` — the teams of threads and the rows that they work on.
* `NormRun.writes` — all writes of a launch.
-/

/-! ### The host -/

/-- The two normalisations. -/
inductive NormOp where
  | layer
  | rms
  deriving DecidableEq, Repr

/-- The name of the function, with which its kernels and its messages begin. -/
def NormOp.functionName : NormOp → String
  | layer => "layer_norm"
  | rms => "rms_norm"

/-- A kernel and its name in the shader library. -/
structure NormKernel where
  kernel_name : String
  family : NormFamily
  deriving DecidableEq, Repr

/-- `batch_size` and `norm_size`. -/
structure NormSizes where
  batch_size : ℕ
  norm_size : ℕ
  deriving DecidableEq, Repr

/-- `use_large`. -/
def normUseLarge (norm_size : ℤ) : Bool := norm_size ≥ 2048

/-- `use_vectorized`. -/
def normUseVectorized (norm_size : ℤ) : Bool :=
  ¬ normUseLarge norm_size ∧ norm_size ≥ 128 ∧ norm_size ≤ 8192

/-- `use_regcache`. -/
def normUseRegcache (norm_size : ℤ) : Bool := normUseLarge norm_size ∧ norm_size / 256 ≤ 32

/-- The family of the kernels for `Float32` and `Float16`. -/
def normFamily (norm_size : ℤ) : NormFamily :=
  if normUseRegcache norm_size then .regcache
  else if normUseLarge norm_size then .large
  else if normUseVectorized norm_size then .vec
  else .basic

/-- The kernel that is selected. -/
def normKernel (op : NormOp) (dtype : MNDType) (norm_size : ℤ) : Except MNException NormKernel :=
  match dtype with
  | .Float32 => .ok ⟨op.functionName ++ match normFamily norm_size with
      | .regcache => "_large_regcache_fp32"
      | .large => "_large_fp32"
      | .vec => "_vec_fp32"
      | .basic => "_kernel", normFamily norm_size⟩
  | .Float16 => .ok ⟨op.functionName ++ match normFamily norm_size with
      | .regcache => "_large_regcache_fp16"
      | .large => "_large_fp16"
      | .vec => "_vec_fp16"
      | .basic => "_kernel_fp16", normFamily norm_size⟩
  | .BFloat16 => .ok ⟨op.functionName ++ "_kernel_bf16", .basic⟩
  | _ => .error ⟨.InvalidArgument,
      op.functionName ++ ": unsupported dtype (only Float32, Float16, and BFloat16)"⟩

/-- A launch: with `use_large` a threadgroup of 256 threads for each row, in one row of threads, and
32 threads for each row of a grid of two dimensions otherwise. -/
structure NormRun where
  op : NormOp
  kernel : NormKernel
  sizes : NormSizes
  use_large : Bool
  deriving DecidableEq, Repr

section host

variable {α : Type*}

/-- `norm_size` and `batch_size`, behind the check of the number of dimensions. -/
def normExtents (op : NormOp) (input : MNTensor α) : Except MNException (ℤ × ℤ) := do
  if ¬ input.shape.length ≥ 1 then
    throw ⟨.InvalidArgument, op.functionName ++ ": input must have at least 1 dimension"⟩
  let norm_size := input.shape.getD (input.shape.length - 1) 0
  let batch_size := MNShape.numel (input.shape.take (input.shape.length - 1))
  return (norm_size, batch_size)

/-- `weight` or `bias` has one dimension, of `norm_size` elements. -/
def isNormVector (t : MNTensor α) (norm_size : ℤ) : Bool :=
  t.shape.length = 1 ∧ t.shape.getD 0 0 = norm_size

/-- The selection of the kernel and the launch. -/
def normLaunch (op : NormOp) (dtype : MNDType) (norm_size batch_size : ℤ) :
    Except MNException NormRun := do
  let kernel ← normKernel op dtype norm_size
  let batch_size_u32 ← checkedUInt "normalization" batch_size
  let norm_size_u32 ← checkedUInt "normalization" norm_size
  return ⟨op, kernel, ⟨batch_size_u32, norm_size_u32⟩, normUseLarge norm_size⟩

/-- `layer_norm`, once the output has been allocated. -/
def layerNorm (input weight bias : MNTensor α) : Except MNException NormRun := do
  let (norm_size, batch_size) ← normExtents .layer input
  if ¬ isNormVector weight norm_size then
    throw ⟨.InvalidArgument, "layer_norm: weight shape must match normalized dimension"⟩
  if ¬ isNormVector bias norm_size then
    throw ⟨.InvalidArgument, "layer_norm: bias shape must match normalized dimension"⟩
  if ¬ (input.dtype = weight.dtype ∧ input.dtype = bias.dtype) then
    throw ⟨.InvalidArgument, "layer_norm: all inputs must have the same dtype"⟩
  normLaunch .layer input.dtype norm_size batch_size

/-- `rms_norm`, once the output has been allocated. -/
def rmsNorm (input weight : MNTensor α) : Except MNException NormRun := do
  let (norm_size, batch_size) ← normExtents .rms input
  if ¬ isNormVector weight norm_size then
    throw ⟨.InvalidArgument, "rms_norm: weight shape must match normalized dimension"⟩
  if ¬ input.dtype = weight.dtype then
    throw ⟨.InvalidArgument, "rms_norm: input and weight must have the same dtype"⟩
  normLaunch .rms input.dtype norm_size batch_size

/-- A call of one of the two functions. -/
inductive NormCall (α : Type*) where
  | layer (input weight bias : MNTensor α)
  | rms (input weight : MNTensor α)

/-- What the call launches. -/
def NormCall.launch : NormCall α → Except MNException NormRun
  | layer input weight bias => layerNorm input weight bias
  | rms input weight => rmsNorm input weight

/-- The data type of the call. -/
def NormCall.dtype : NormCall α → MNDType
  | layer input _ _ => input.dtype
  | rms input _ => input.dtype

end host

/-! ### The kernels -/

/-- What is written for the element `val` of a row with the sums `total_sum` and `total_sq_sum`. -/
noncomputable def normOutput (op : NormOp) (family : NormFamily) (norm_size : ℕ) (eps : ℝ)
    (total_sum total_sq_sum val weight bias : ExtReal) : ExtReal :=
  match op with
  | .layer =>
    let mean := total_sum / real norm_size
    let variance := total_sq_sum / real norm_size - mean * mean
    let inv_std := real 1 / sqrt
      ((match family with
        | .vec | .large => ExtReal.max variance (real 0)
        | .basic | .regcache => variance) + real eps)
    let normalized := (val - mean) * inv_std
    normalized * weight + bias
  | .rms =>
    let rms := sqrt (total_sq_sum / real norm_size + real eps)
    let inv_rms := real 1 / rms
    val * inv_rms * weight

namespace NormRun

variable (run : NormRun)

/-- The teams of threads: the row that they work on, and the position of the first thread.  A kernel
with a grid of two dimensions takes the position in the first one as its lane; launched with
`use_large` it sees the threads of all threadgroups there, and no other row than the first. -/
def teams : List (ℕ × ℕ) :=
  let started := match run.kernel.family with
    | .basic | .vec =>
      if run.use_large then (List.range (run.sizes.batch_size * 8)).map fun g => (0, 32 * g)
      else (List.range run.sizes.batch_size).map fun batch_idx => (batch_idx, 0)
    | .large | .regcache => (List.range run.sizes.batch_size).map fun tg_idx => (tg_idx, 0)
  started.filter fun team => ¬ team.1 ≥ run.sizes.batch_size

/-- The index of element `r` of a row: `base_offset + r`, or element `r` behind the pointer
`input + base_offset` in the vectors of a vectorised kernel. -/
def address (batch_idx r : ℕ) : ℕ :=
  let base_offset := toUInt (batch_idx * run.sizes.norm_size)
  match run.kernel.family with
  | .vec => if r < run.sizes.norm_size / 4 * 4 then base_offset + r else toUInt (base_offset + r)
  | .basic | .large | .regcache => toUInt (base_offset + r)

/-- The elements that the threads of a team go through. -/
def teamElements (first : ℕ) : List ℕ :=
  (List.range run.kernel.family.threads).flatMap fun lane =>
    run.kernel.family.elements run.sizes.norm_size (first + lane)

/-- What a team writes for element `r` of its row. -/
noncomputable def output (eps : ℝ) (x w b : ℕ → ℝ) (team : ℕ × ℕ) (r : ℕ) : ExtReal :=
  let val := fun r => real (x (run.address team.1 r))
  let total_sum := run.kernel.family.teamSum run.sizes.norm_size val team.2
  let total_sq_sum :=
    run.kernel.family.teamSum run.sizes.norm_size (fun r => val r * val r) team.2
  normOutput run.op run.kernel.family run.sizes.norm_size eps total_sum total_sq_sum (val r)
    (real (w r)) (real (b r))

/-- All writes of the launch: the index and the value.  The second loop of a thread goes through the
elements of the first one, with the values of the cache where there is one. -/
noncomputable def writes (eps : ℝ) (x w b : ℕ → ℝ) : List (ℕ × ExtReal) :=
  run.teams.flatMap fun team => (run.teamElements team.2).map fun r =>
    (run.address team.1 r, run.output eps x w b team r)

/-- The loops of all threads end in fewer than `fuel` turns. -/
def ended (fuel : ℕ) : Bool :=
  run.teams.all fun team => (List.range run.kernel.family.threads).all fun lane =>
    run.kernel.family.ended run.sizes.norm_size fuel (team.2 + lane)

end NormRun

end MetalNative
