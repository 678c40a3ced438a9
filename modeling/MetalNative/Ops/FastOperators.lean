import MetalNative.Matmul.HostDispatch
import MetalNative.Ops.VectorKernels

namespace MetalNative

open ThreadLoop

/-!
# `fast::swiglu`, `fast::fused_bias_gelu` and `fast::fused_qkv_projection`

Translations of the three operators in `future_stubs.mm`, of their kernels in `fused_swiglu.metal`
and `fused_matmul_gelu.metal`, and of the indices of the kernels in `fused_qkv_split.metal`.  The
number of elements is cast to `uint32_t` first, and the grid is computed from what is left of it.

* `VectorRun` — a launch of the two activations; `geluIndices` are the elements of a thread.
* `QkvProjectionCall`, `QkvSplitArgs` — the projection: `srcCell` and `dstCell` are the indices of
  its second kernel.
-/

/-! ### The activations -/

/-- A launch of `grid` threads: the elements that they work on, and what they leave. -/
structure VectorRun (α : Type) where
  kernelName : String
  num_elements : ℕ
  grid : ℕ
  items : List ℕ
  output : ℕ → Option α

/-- `(num_elements + 3) / 4`, in `uint32_t`. -/
def activationGrid (num_elements : ℕ) : ℕ := toUInt (num_elements + 3) / 4

section Activations

variable {α : Type} [Add α] [Mul α]
  (allocate : MNShape → MNDType → Except MNException Unit)
  (pipeline : String → Except MNException Unit)

/-- `fast::swiglu`; `silu` is what the kernel computes from an element of `gate`. -/
def swiglu (silu : α → α) (gate up : MNTensor α) : Except MNException (VectorRun α) := do
  mnCheck (gate.dtype = up.dtype) "fast::swiglu: gate and up must have same dtype"
  mnCheck (gate.numel = up.numel) "fast::swiglu: gate and up must have same number of elements"
  emptyTensorCheck gate.shape gate.dtype (allocate gate.shape gate.dtype)
  let kernel_name := if gate.dtype = .Float32 then "fused_swiglu_fp32" else "fused_swiglu_fp16"
  pipeline kernel_name
  let num_elements := toUInt (toSizeT gate.numel)
  let grid := activationGrid num_elements
  let items := gridIndices num_elements grid
  return ⟨kernel_name, num_elements, grid, items,
    binaryKernel (fun g u => silu g * u) gate.data up.data items⟩

/-- The elements that thread `id` of `fused_bias_gelu_fp32` or `fused_bias_gelu_fp16` works on. -/
def geluIndices (num_elements id : ℕ) : List ℕ :=
  if vectorBase id ≥ num_elements then []
  else (List.range (min (num_elements - vectorBase id) 4)).map (vectorBase id + ·)

/-- `(idx + i) % bias_size`. -/
def biasCell (bias_size idx : ℕ) : ℕ := toUInt idx % bias_size

/-- `fast::fused_bias_gelu`; `gelu` is what the kernel computes from a sum. -/
def fusedBiasGelu (gelu : α → α) (input bias : MNTensor α) :
    Except MNException (VectorRun α) := do
  mnCheck (input.dtype = bias.dtype)
    "fast::fused_bias_gelu: input and bias must have same dtype"
  mnCheck (input.ndim ≥ 1) "fast::fused_bias_gelu: input must be at least 1D"
  let bias_size := toUInt (toSizeT bias.numel)
  let last_dim := toUInt (input.dim (input.ndim - 1))
  mnCheck (bias_size = last_dim)
    "fast::fused_bias_gelu: bias size must match input's last dimension"
  emptyTensorCheck input.shape input.dtype (allocate input.shape input.dtype)
  let kernel_name :=
    if input.dtype = .Float32 then "fused_bias_gelu_fp32" else "fused_bias_gelu_fp16"
  pipeline kernel_name
  let num_elements := toUInt (toSizeT input.numel)
  let grid := activationGrid num_elements
  let items := (List.range grid).flatMap (geluIndices num_elements)
  return ⟨kernel_name, num_elements, grid, items,
    storeAll items id (fun i => some (gelu (input.data i + bias.data (biasCell bias_size i))))
      fun _ => none⟩

end Activations

/-! ### The projection -/

/-- The constants of `qkv_split_reshape_fp32` and `qkv_split_reshape_fp16`. -/
structure QkvSplitArgs where
  batch_size : ℕ
  seq_len : ℕ
  num_heads : ℕ
  head_dim : ℕ
  deriving DecidableEq, Repr

namespace QkvSplitArgs

variable (a : QkvSplitArgs)

/-- `q_src`, `k_src` and `v_src` of the thread at `(d, s, bh)`: the section `part` is 0, 1 or 2. -/
def srcCell (part bh s d : ℕ) : ℕ :=
  let qkv_stride := 3 * a.num_heads * a.head_dim
  toUInt (bh / a.num_heads * a.seq_len * qkv_stride + s * qkv_stride
    + part * a.num_heads * a.head_dim + bh % a.num_heads * a.head_dim + d)

/-- `dst_idx`. -/
def dstCell (bh s d : ℕ) : ℕ :=
  toUInt (bh / a.num_heads * a.num_heads * a.seq_len * a.head_dim
    + bh % a.num_heads * a.seq_len * a.head_dim + s * a.head_dim + d)

end QkvSplitArgs

/-- The arguments of `fast::fused_qkv_projection`. -/
structure QkvProjectionCall where
  input : MNTensor Unit
  w_qkv : MNTensor Unit
  num_heads : ℤ
  head_dim : ℤ

/-- A launch of the second kernel. -/
structure QkvSplitRun where
  kernelName : String
  args : QkvSplitArgs
  deriving DecidableEq, Repr

namespace QkvProjectionCall

variable (call : QkvProjectionCall)

/-- The constants, cast to `uint32_t`. -/
def args : QkvSplitArgs where
  batch_size := toUInt (call.input.dim 0)
  seq_len := toUInt (call.input.dim 1)
  num_heads := uintOfInt call.num_heads
  head_dim := uintOfInt call.head_dim

/-- The shape of the three results. -/
def outputShape : MNShape :=
  [(call.input.dim 0 : ℤ), call.num_heads, (call.input.dim 1 : ℤ), call.head_dim]

/-- The checks of the shapes. -/
def check : Except MNException Unit := do
  mnCheck (call.input.ndim = 3)
    "fast::fused_qkv_projection: input must be 3D [batch, seq_len, hidden_dim]"
  mnCheck (call.w_qkv.ndim = 2)
    "fast::fused_qkv_projection: w_qkv must be 2D [hidden_dim, 3*num_heads*head_dim]"
  mnCheck (call.w_qkv.dim 0 = call.input.dim 2)
    "fast::fused_qkv_projection: w_qkv first dimension must match input hidden_dim"
  mnCheck ((call.w_qkv.dim 1 : ℤ) = toInt64 (toInt64 (3 * call.num_heads) * call.head_dim))
    "fast::fused_qkv_projection: w_qkv second dimension must be 3*num_heads*head_dim"

/-- `fast::fused_qkv_projection`, up to the second launch; the parameters are what `matmul`, the
    allocator and the registry answer. -/
def fusedQkvProjection (matmul : Except MNException Unit)
    (allocate : MNShape → MNDType → Except MNException Unit)
    (pipeline : String → Except MNException Unit) : Except MNException QkvSplitRun := do
  call.check
  matmul
  emptyTensorCheck call.outputShape call.input.dtype
    (allocate call.outputShape call.input.dtype)
  emptyTensorCheck call.outputShape call.input.dtype
    (allocate call.outputShape call.input.dtype)
  emptyTensorCheck call.outputShape call.input.dtype
    (allocate call.outputShape call.input.dtype)
  let kernel_name :=
    if call.input.dtype = .Float32 then "qkv_split_reshape_fp32" else "qkv_split_reshape_fp16"
  pipeline kernel_name
  return ⟨kernel_name, call.args⟩

end QkvProjectionCall

end MetalNative
