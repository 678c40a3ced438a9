import MetalNative.Lib.ExtReal
import MetalNative.Lib.WordLoop
import MetalNative.Ops.ReductionSizes

namespace MetalNative

open ExtReal ThreadLoop

/-!
# Reductions

A translation of `dispatch_reduction` in `reduction.mm` and of the kernels of
`reduction_kernel.metal`: 256 threads reduce one row.  The arithmetic is exact, with the special
values of floating point; the half precision kernels do the same on converted elements.

* `dispatchReduction` — the checks, the name of the kernel and the launch.
* `groupValue` — what thread 0 holds in the kernels of the sums, the means and the extremes.
* `argIndex` — the index that thread 0 holds in `argmax` and `argmin`.
* `ReductionRun.writes` — all writes of a launch.
-/

/-! ### The operations -/

/-- The reductions of `reduction.h`. -/
inductive ReductionOp where
  | sum
  | mean
  | max
  | min
  | argmax
  | argmin
  deriving DecidableEq, Repr

namespace ReductionOp

/-- `kernel_prefix`. -/
def kernelPrefix : ReductionOp → String
  | sum => "reduce_sum"
  | mean => "reduce_mean"
  | max => "reduce_max"
  | min => "reduce_min"
  | argmax => "argmax"
  | argmin => "argmin"

/-- The operation returns an index. -/
def isArg : ReductionOp → Bool
  | argmax | argmin => true
  | _ => false

/-- What `partial` starts with. -/
noncomputable def start : ReductionOp → ExtReal
  | sum | mean => real 0
  | max | argmax => negInf
  | min | argmin => posInf

/-- `+`, `max` or `min`, and `simd_sum`, `simd_max` or `simd_min` of two lanes. -/
noncomputable def combine : ReductionOp → ExtReal → ExtReal → ExtReal
  | sum | mean => (· + ·)
  | max | argmax => ExtReal.max
  | min | argmin => ExtReal.min

/-- The components of a vector. -/
noncomputable def combine4 (op : ReductionOp) (v : ℕ → ExtReal) : ExtReal :=
  match op with
  | sum | mean => v 0 + v 1 + v 2 + v 3
  | _ => op.combine (op.combine (v 0) (v 1)) (op.combine (v 2) (v 3))

/-- What is written for the value `val` of thread 0. -/
noncomputable def finish (op : ReductionOp) (reduce_size : ℕ) (val : ExtReal) : ExtReal :=
  match op with
  | mean => val / real reduce_size
  | _ => val

/-- The comparison of `argmax` and `argmin`: `other` takes the place of `own`. -/
def better (op : ReductionOp) (other own : ExtReal) : Prop :=
  match op with
  | argmin => other < own
  | _ => own < other

end ReductionOp

/-! ### The host -/

/-- The kernels of `reduction_kernel.metal`. -/
def reductionKernels : List String :=
  ["reduce_sum_fp32", "reduce_sum_fp16", "reduce_mean_fp32", "reduce_mean_fp16",
    "reduce_max_fp32", "reduce_max_fp16", "reduce_min_fp32", "reduce_min_fp16",
    "argmax_fp32", "argmax_fp16", "argmin_fp32", "argmin_fp16",
    "reduce_sum_vec4_fp32", "reduce_sum_vec4_fp16", "reduce_mean_vec4_fp32",
    "reduce_mean_vec4_fp16", "reduce_max_vec4_fp32", "reduce_max_vec4_fp16"]

/-- `outer_size`, `reduce_size` and `inner_size` in `int64_t`. -/
structure ReductionExtents where
  outer_size : ℤ
  reduce_size : ℤ
  inner_size : ℤ

/-- The loops over the dimensions before and behind `dim`. -/
def reductionExtents (shape : MNShape) (dim : ℕ) : ReductionExtents where
  outer_size := MNShape.numel (shape.take dim)
  reduce_size := shape.getD dim 0
  inner_size := MNShape.numel (shape.drop (dim + 1))

/-- `use_vec4`. -/
def ReductionExtents.useVec4 (extents : ReductionExtents) : Bool :=
  extents.inner_size = 1 ∧ extents.reduce_size ≥ 16 ∧ extents.reduce_size % 4 = 0

/-- The three checks, and the constants that are passed to the kernel. -/
def ReductionExtents.constants (extents : ReductionExtents) :
    Except MNException ReductionSizes := do
  let outer_size ← checkedUInt "reduction" extents.outer_size
  let reduce_size ← checkedUInt "reduction" extents.reduce_size
  let inner_size ← checkedUInt "reduction" extents.inner_size
  return { outer_size, reduce_size, inner_size }

/-- `kernel_name_str`. -/
def reductionKernelName (op : ReductionOp) (use_vec4 : Bool) (dtype : MNDType) :
    Except MNException String :=
  match dtype with
  | .Float32 => .ok (op.kernelPrefix ++ if use_vec4 then "_vec4_fp32" else "_fp32")
  | .Float16 => .ok (op.kernelPrefix ++ if use_vec4 then "_vec4_fp16" else "_fp16")
  | _ => .error ⟨.InvalidArgument, "reduction: unsupported dtype"⟩

/-- `get_pipeline`, of a registry that has loaded the library. -/
def reductionPipeline (kernel_name : String) : Except MNException Unit :=
  if kernel_name ∈ reductionKernels then .ok ()
  else .error ⟨.KernelCompilationFailed,
    "KernelRegistry: function '" ++ kernel_name ++ "' not found in loaded Metal library"⟩

/-- A launch: the number of threadgroups, each of 256 threads. -/
structure ReductionRun where
  op : ReductionOp
  kernel_name : String
  use_vec4 : Bool
  sizes : ReductionSizes
  groups : ℕ
  deriving DecidableEq, Repr

/-- `dispatch_reduction`, once the output has been allocated. -/
def dispatchReduction {α : Type*} (op : ReductionOp) (input : MNTensor α) (dim : ℤ) :
    Except MNException ReductionRun := do
  let dim ← normalizeDim "reduction" dim input.shape.length
  if ¬ input.isContiguous then
    throw ⟨.InvalidArgument, "reduction: input must be contiguous"⟩
  let extents := reductionExtents input.shape dim
  let use_vec4 := extents.useVec4
  let kernel_name ← reductionKernelName op use_vec4 input.dtype
  reductionPipeline kernel_name
  let sizes ← extents.constants
  return { op, kernel_name, use_vec4, sizes, groups := sizes.outer_size * sizes.inner_size }

/-! ### Sums, means and extremes -/

namespace ReductionRun

variable (run : ReductionRun)

/-- The threadgroups that do not return at once. -/
def activeGroups : List ℕ :=
  if run.use_vec4 then (List.range run.groups).map toUInt
  else (List.range run.groups).flatMap fun group =>
    if toUInt group ≥ toUInt (run.sizes.outer_size * run.sizes.inner_size) then []
    else [toUInt group]

/-- `input_idx`, or the index of an element of a vector behind
`reinterpret_cast<device const float4*>(input + base)`. -/
def inputIdx (gid r : ℕ) : ℕ :=
  if run.use_vec4 then toUInt (gid * run.sizes.reduce_size) + r
  else toUInt ((gid / run.sizes.inner_size * run.sizes.reduce_size + r) * run.sizes.inner_size
    + gid % run.sizes.inner_size)

/-- The loop of a thread ends in fewer than `fuel` turns; its index may wrap around. -/
def ended (fuel : ℕ) : Bool :=
  run.activeGroups.isEmpty || (List.range 256).all fun tid =>
    (wordFor uintRange (if run.use_vec4 then run.sizes.reduce_size / 4 else run.sizes.reduce_size)
      256 fuel tid).isSome

/-- `partial` behind the loop of a thread, and behind the remainder of a vectorised one. -/
noncomputable def partialValue (input : ℕ → ExtReal) (gid tid : ℕ) : ExtReal :=
  if run.use_vec4 then
    let vec_count := run.sizes.reduce_size / 4
    let remainder := run.sizes.reduce_size % 4
    let sum := (stride tid 256 vec_count).foldl (fun val i =>
      run.op.combine val (run.op.combine4 fun j => input (run.inputIdx gid (4 * i + j))))
        run.op.start
    let rem_base := vec_count * 4
    if tid < remainder then
      run.op.combine sum
        (input (toUInt (toUInt (gid * run.sizes.reduce_size) + rem_base + tid)))
    else sum
  else
    (stride tid 256 run.sizes.reduce_size).foldl (fun val r =>
      run.op.combine val (input (run.inputIdx gid r))) run.op.start

/-- What the 32 lanes of a group hold together. -/
noncomputable def simdReduce (lanes : ℕ) (value : ℕ → ExtReal) : ExtReal :=
  ((List.range lanes).map value).foldr run.op.combine run.op.start

/-- `val` of thread 0: the lanes of each SIMD group, and then the values of the eight groups in
`shared`. -/
noncomputable def groupValue (input : ℕ → ExtReal) (gid : ℕ) : ExtReal :=
  run.simdReduce 8 fun simd_gid =>
    run.simdReduce 32 fun simd_lid => run.partialValue input gid (32 * simd_gid + simd_lid)

end ReductionRun

/-! ### The indices of the extremes -/

/-- `ValueIndexPair`. -/
structure ValueIndexPair where
  value : ExtReal
  index : ℕ

open Classical in
/-- The pair with the better value; the own one where neither is. -/
noncomputable def pickBetter (op : ReductionOp) (own other : ValueIndexPair) : ValueIndexPair :=
  if op.better other.value own.value then other else own

/-- One turn of the loop of `simd_argmax_reduce`.  A shuffle from a lane at or above `active` is
undefined: `undefined` is what comes from there. -/
noncomputable def argShuffle (op : ReductionOp) (active : ℕ) (undefined : ℕ → ℕ → ValueIndexPair)
    (value : ℕ → ValueIndexPair) (offset : ℕ) : ℕ → ValueIndexPair := fun simd_lid =>
  let other := if simd_lid + offset < active then value (simd_lid + offset)
    else undefined offset simd_lid
  if simd_lid + offset < 32 then pickBetter op (value simd_lid) other else value simd_lid

/-- `simd_argmax_reduce` and `simd_argmin_reduce`, what lane 0 returns. -/
noncomputable def simdArgReduce (op : ReductionOp) (active : ℕ)
    (undefined : ℕ → ℕ → ValueIndexPair) (value : ℕ → ValueIndexPair) : ValueIndexPair :=
  [16, 8, 4, 2, 1].foldl (argShuffle op active undefined) value 0

namespace ReductionRun

variable (run : ReductionRun)

/-- `partial` behind the loop of a thread. -/
noncomputable def partialPair (input : ℕ → ExtReal) (gid tid : ℕ) : ValueIndexPair :=
  (stride tid 256 run.sizes.reduce_size).foldl (fun pair r =>
    pickBetter run.op pair ⟨input (run.inputIdx gid r), r⟩) ⟨run.op.start, 0⟩

/-- `val.index` of thread 0: in the last phase only the first eight lanes are active. -/
noncomputable def argIndex (input : ℕ → ExtReal) (undefined : ℕ → ℕ → ValueIndexPair) (gid : ℕ) :
    ℕ :=
  (simdArgReduce run.op 8 undefined fun simd_gid =>
    simdArgReduce run.op 32 undefined fun simd_lid =>
      run.partialPair input gid (32 * simd_gid + simd_lid)).index

end ReductionRun

/-! ### The launch -/

/-- An element of the output. -/
inductive ReductionResult where
  | value (val : ExtReal)
  | index (i : ℕ)

/-- All writes of the launch: the index and the element. -/
noncomputable def ReductionRun.writes (run : ReductionRun) (x : ℕ → ℝ)
    (undefined : ℕ → ℕ → ValueIndexPair) : List (ℕ × ReductionResult) :=
  run.activeGroups.map fun gid => (gid,
    if run.op.isArg then .index (run.argIndex (fun i => real (x i)) undefined gid)
    else .value (run.op.finish run.sizes.reduce_size
      (run.groupValue (fun i => real (x i)) gid)))

end MetalNative
