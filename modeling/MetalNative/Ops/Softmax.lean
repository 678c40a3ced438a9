import MetalNative.Ops.ReductionSizes
import MetalNative.Ops.SoftmaxLarge

namespace MetalNative

open ExtReal ThreadLoop

/-!
# Softmax

A translation of `softmax` in `softmax.mm` and of the kernels that it launches.  A row is the
elements `x[o, r, i]` of one pair `(o, i)`.  What a kernel reads and writes is a function of the
index, counted from the bound offset; the arithmetic is exact, with the special values of floating
point.

* `softmaxKernel` — the kernel that the host selects.
* `SoftmaxRun.rows`, `SoftmaxRun.elements`, `SoftmaxRun.address` — the rows that the threads of a
  launch work on, the elements of them that they write, and where.
* `SoftmaxRun.rowStats` — the maximum and the sum that they divide by.
* `softmax` — the launch.
-/

/-! ### The sizes -/

/-- `compute_reduction_sizes`. -/
def computeReductionSizes (shape : MNShape) (dim : ℕ) : Except MNException ReductionSizes := do
  let outer_size ← checkedUInt "softmax" (MNShape.numel (shape.take dim))
  let reduce_size ← checkedUInt "softmax" (shape.getD dim 0)
  let inner_size ← checkedUInt "softmax" (MNShape.numel (shape.drop (dim + 1)))
  return { outer_size, reduce_size, inner_size }

/-! ### The selection -/

/-- The kernels of `softmax_kernel.metal` that `softmax` launches. -/
inductive SoftmaxFamily where
  | online
  | onlineVec4
  | simdCooperative
  | simdCooperativeVec4
  | large
  | largeVec4
  deriving DecidableEq, Repr

/-- The prefix of a kernel's name. -/
def SoftmaxFamily.prefixName : SoftmaxFamily → String
  | online => "softmax_online"
  | onlineVec4 => "softmax_online_vec4"
  | simdCooperative => "softmax_simd_cooperative"
  | simdCooperativeVec4 => "softmax_simd_cooperative_vec4"
  | large => "softmax_large"
  | largeVec4 => "softmax_large_vec4"

/-- A kernel and its name in the shader library. -/
structure SoftmaxKernel where
  family : SoftmaxFamily
  kernelName : String
  deriving DecidableEq, Repr

/-- The kernel of a family for a data type; `bf16` is what is taken for `BFloat16`. -/
def dtypeKernel (family : SoftmaxFamily) (dtype : MNDType)
    (bf16 : Except MNException SoftmaxKernel) : Except MNException SoftmaxKernel :=
  match dtype with
  | .Float32 => .ok ⟨family, family.prefixName ++ "_fp32"⟩
  | .Float16 => .ok ⟨family, family.prefixName ++ "_fp16"⟩
  | .BFloat16 => bf16
  | _ => .error ⟨.InvalidArgument,
      "softmax: unsupported dtype (only Float32, Float16, and BFloat16)"⟩

/-- `softmax_online_bf16`. -/
def softmaxOnlineBf16 : SoftmaxKernel := ⟨.online, "softmax_online_bf16"⟩

/-- `use_vec4`. -/
def useVec4 (sizes : ReductionSizes) : Bool :=
  sizes.inner_size = 1 ∧ sizes.reduce_size % 4 = 0

/-- `use_large`. -/
def useLarge (sizes : ReductionSizes) : Bool := sizes.reduce_size ≥ 2048

/-- The kernel that `softmax` selects. -/
def softmaxKernel (dtype : MNDType) (sizes : ReductionSizes) : Except MNException SoftmaxKernel :=
  if useLarge sizes && useVec4 sizes then dtypeKernel .largeVec4 dtype (.ok softmaxOnlineBf16)
  else if useLarge sizes then dtypeKernel .large dtype (.ok softmaxOnlineBf16)
  else if useVec4 sizes && sizes.reduce_size ≥ 128 then
    match dtype with
    | .Float32 => .ok ⟨.simdCooperativeVec4, "softmax_simd_cooperative_vec4_fp32"⟩
    | .Float16 => .ok ⟨.simdCooperativeVec4, "softmax_simd_cooperative_vec4_fp16"⟩
    | _ => .error ⟨.InvalidArgument, "softmax: unsupported dtype (only Float32 and Float16)"⟩
  else if useVec4 sizes then dtypeKernel .onlineVec4 dtype (.ok softmaxOnlineBf16)
  else if sizes.reduce_size ≥ 32 then dtypeKernel .simdCooperative dtype (.ok softmaxOnlineBf16)
  else dtypeKernel .online dtype (.ok softmaxOnlineBf16)

/-- A launch: the threads of the grid in `x` and `y`, and those of a threadgroup, all of them in
`x`. -/
structure SoftmaxRun where
  kernel : SoftmaxKernel
  sizes : ReductionSizes
  gridX : ℕ
  gridY : ℕ
  groupX : ℕ
  deriving DecidableEq, Repr

/-- The dispatch of a kernel. -/
def softmaxLaunch (sizes : ReductionSizes) (kernel : SoftmaxKernel) : SoftmaxRun :=
  if useLarge sizes then
    let num_outputs := toUInt (sizes.outer_size * sizes.inner_size)
    { kernel, sizes, gridX := num_outputs * 256, gridY := 1, groupX := 256 }
  else if useVec4 sizes then
    { kernel, sizes, gridX := sizes.outer_size, gridY := 1, groupX := 32 }
  else
    { kernel, sizes, gridX := sizes.inner_size, gridY := sizes.outer_size, groupX := 32 }

/-- `softmax` behind its checks: the selection and the dispatch. -/
def softmaxRun (dtype : MNDType) (sizes : ReductionSizes) : Except MNException SoftmaxRun := do
  let kernel ← softmaxKernel dtype sizes
  return softmaxLaunch sizes kernel

/-- The sizes of a call, or the error of its checks. -/
def softmaxSizes (input : MNTensor ℝ) (dim : ℤ) : Except MNException ReductionSizes := do
  let dim ← normalizeDim "softmax" dim input.shape.length
  computeReductionSizes input.shape dim

/-- `softmax`, once the output has been allocated. -/
def softmax (input : MNTensor ℝ) (dim : ℤ) : Except MNException SoftmaxRun := do
  let sizes ← softmaxSizes input dim
  softmaxRun input.dtype sizes

/-! ### The maximum and the sum of a row -/

/-- A maximum that is taken one value after the other. -/
noncomputable def runningMax (row : ℕ → ExtReal) (elements : List ℕ) : ExtReal :=
  elements.foldl (fun max_val i => max max_val (row i)) negInf

/-- A sum of exponentials that is taken one value after the other. -/
noncomputable def runningSum (row : ℕ → ExtReal) (max_val : ExtReal) (elements : List ℕ) :
    ExtReal :=
  elements.foldl (fun sum_exp i => sum_exp + exp (row i - max_val)) (real 0)

/-- `max_val` and `sum_exp` of `softmax_online_fp32` and its siblings. -/
noncomputable def onlineStats (row : ℕ → ExtReal) (reduce_size : ℕ) : ExtReal × ExtReal :=
  let max_val := runningMax row (List.range reduce_size)
  (max_val, runningSum row max_val (List.range reduce_size))

/-- `max_val` and `sum_exp` of `softmax_online_vec4_fp32` and `softmax_online_vec4_fp16`. -/
noncomputable def onlineVec4Stats (row : ℕ → ExtReal) (reduce_size : ℕ) : ExtReal × ExtReal :=
  let vec_count := reduce_size / 4
  let max4 := fun j => runningMax (fun i => row (4 * i + j)) (List.range vec_count)
  let max_val := max (max (max4 0) (max4 1)) (max (max4 2) (max4 3))
  let e := fun i j => exp (row (4 * i + j) - max_val)
  (max_val, (List.range vec_count).foldl
    (fun sum_exp i => sum_exp + (e i 0 + e i 1 + e i 2 + e i 3)) (real 0))

/-- `row_max` and `row_sum` of the SIMD-cooperative kernels: `simd_max` and `simd_sum` over the
active lanes, each of which goes through its own elements of its own row. -/
noncomputable def cooperativeStats (lanes : List ℕ) (row : ℕ → ℕ → ExtReal)
    (elements : ℕ → List ℕ) : ExtReal × ExtReal :=
  let row_max := (lanes.map fun lane => runningMax (row lane) (elements lane)).foldr max negInf
  (row_max, (lanes.map fun lane => runningSum (row lane) row_max (elements lane)).sum)

/-- What is written for element `r`. -/
noncomputable def normalized (stats : ExtReal × ExtReal) (row : ℕ → ExtReal) (r : ℕ) : ExtReal :=
  let inv_sum := real 1 / stats.2
  exp (row r - stats.1) * inv_sum

/-! ### The launch -/

namespace SoftmaxRun

variable (run : SoftmaxRun)

/-- The rows `(outer_idx, inner_idx)` that the threads of the launch work on, one after the other:
a row for each thread, or for each threadgroup of a large kernel. -/
def rows : List (ℕ × ℕ) :=
  match run.kernel.family with
  | .online | .simdCooperative =>
    (List.range run.gridY).flatMap fun y => (List.range run.gridX).flatMap fun x =>
      if x ≥ run.sizes.inner_size ∨ y ≥ run.sizes.outer_size then [] else [(y, x)]
  | .onlineVec4 | .simdCooperativeVec4 =>
    (List.range run.gridX).flatMap fun gid =>
      if gid ≥ run.sizes.outer_size then [] else [(gid, 0)]
  | .large =>
    (List.range (run.gridX / run.groupX)).flatMap fun tg_idx =>
      if tg_idx ≥ toUInt (run.sizes.outer_size * run.sizes.inner_size) then []
      else [(tg_idx / run.sizes.inner_size, tg_idx % run.sizes.inner_size)]
  | .largeVec4 =>
    (List.range (run.gridX / run.groupX)).flatMap fun tg_idx =>
      if tg_idx ≥ run.sizes.outer_size then [] else [(tg_idx, 0)]

/-- The kernel has a loop in which a thread takes every 256th element or vector. -/
def isVec4 : Bool :=
  match run.kernel.family with
  | .onlineVec4 | .simdCooperativeVec4 | .largeVec4 => true
  | _ => false

/-- The elements of a row that the thread at position `x` takes in a SIMD-cooperative kernel. -/
def laneElements (x : ℕ) : List ℕ :=
  let lane := x % 32
  if run.isVec4 then (stride lane 32 (run.sizes.reduce_size / 4)).flatMap vecElements
  else stride lane 32 run.sizes.reduce_size

/-- The position in `x` of the thread of a row. -/
def position (row : ℕ × ℕ) : ℕ := if run.isVec4 then row.1 else row.2

/-- The elements of a row that are written by the threads that work on it. -/
def elements (row : ℕ × ℕ) : List ℕ :=
  match run.kernel.family with
  | .online => List.range run.sizes.reduce_size
  | .onlineVec4 => (List.range (run.sizes.reduce_size / 4)).flatMap vecElements
  | .simdCooperative | .simdCooperativeVec4 => run.laneElements (run.position row)
  | .large | .largeVec4 =>
    (List.range 256).flatMap (largeElements run.isVec4 run.sizes.reduce_size)

/-- The index of element `r` of a row: `base + i * stride`, or element `r` behind
`reinterpret_cast<device float4*>(input + base)`. -/
def address (row : ℕ × ℕ) (r : ℕ) : ℕ :=
  if run.isVec4 then toUInt (row.1 * run.sizes.reduce_size) + r
  else toUInt ((row.1 * run.sizes.reduce_size + r) * run.sizes.inner_size + row.2)

/-- A row of the input, as the threads read it. -/
noncomputable def inputRow (x : ℕ → ℝ) (row : ℕ × ℕ) (r : ℕ) : ExtReal :=
  real (x (run.address row r))

/-- The positions of the SIMD group of a thread at which there is an active thread. -/
def activeLanes (x : ℕ) : List ℕ :=
  let bound := if run.isVec4 then run.sizes.outer_size else run.sizes.inner_size
  ((List.range 32).map (x / 32 * 32 + ·)).filter fun x' => x' < run.gridX ∧ x' < bound

/-- The maximum and the sum that the threads of a row have. -/
noncomputable def rowStats (x : ℕ → ℝ) (row : ℕ × ℕ) : ExtReal × ExtReal :=
  match run.kernel.family with
  | .online => onlineStats (run.inputRow x row) run.sizes.reduce_size
  | .onlineVec4 => onlineVec4Stats (run.inputRow x row) run.sizes.reduce_size
  | .simdCooperative | .simdCooperativeVec4 =>
    cooperativeStats (run.activeLanes (run.position row))
      (fun x' => run.inputRow x (if run.isVec4 then (x', 0) else (row.1, x'))) run.laneElements
  | .large | .largeVec4 =>
    globalStats (run.inputRow x row) (largeElements run.isVec4 run.sizes.reduce_size)

/-- The loops of all threads have ended after fewer than `fuel` turns.  Only those of the large
kernels have an index that may wrap around. -/
def ended (fuel : ℕ) : Bool :=
  match run.kernel.family with
  | .large | .largeVec4 =>
    run.rows.isEmpty ||
      (List.range 256).all fun tid =>
        (threadElements run.isVec4 run.sizes.reduce_size fuel tid).isSome
  | _ => true

/-- All writes of the launch: the index and the value. -/
noncomputable def writes (x : ℕ → ℝ) : List (ℕ × ExtReal) :=
  run.rows.flatMap fun row => (run.elements row).map fun r =>
    (run.address row r, normalized (run.rowStats x row) (run.inputRow x row) r)

end SoftmaxRun

end MetalNative
