import MetalNative.Attention.FusedQkv
import MetalNative.Dispatch.OperatorSteps
import MetalNative.Memory.KVCache
import MetalNative.Ops.Elementwise
import MetalNative.Ops.Normalization
import MetalNative.Ops.Reduction
import MetalNative.Ops.Softmax
import MetalNative.Ops.SpeculativeVerify

namespace MetalNative

open OperatorStep Run

/-!
# What operators leave behind when they throw

The element-wise operators, the reductions, `softmax`, `log_softmax`, the normalisations, the
attention operators and `speculative_verify`, as the steps in which they can throw.  The contents of
tensors play no part; what the allocator, the kernel registry and the queue answer is given with the
call.

* `KernelAnswers` — the answers to one kernel's requests.
* `OperatorCall.steps` — the operators.
* `failed_operators_leave_usable` — which of them leave the pipeline usable when they throw.
* `missing_kernel_spoils` — a kernel that the library does not have.
-/

/-- What the callees of an operator answer while it encodes one kernel. -/
structure KernelAnswers where
  /-- The allocator. -/
  allocate : MNShape → MNDType → Except MNException Unit := fun _ _ => .ok ()
  /-- `KernelRegistry::get_pipeline`. -/
  pipeline : String → Except MNException Unit := fun _ => .ok ()
  /-- The queue, in `current_buffer()`. -/
  current : Env := {}
  /-- The queue, in `commit_and_continue()`. -/
  next : Env := {}

/-- `MNTensor::empty`. -/
def KernelAnswers.empty (ans : KernelAnswers) (shape : MNShape) (dtype : MNDType) :
    Except MNException Unit :=
  emptyTensorCheck shape dtype (ans.allocate shape dtype)

/-- A new tensor of the same shape. -/
def MNTensor.emptyLike (t : MNTensor Unit) (dtype : MNDType) : MNTensor Unit :=
  { t with strides := t.shape.contiguousStrides, dtype, offset := 0 }

/-! ### Element-wise operators -/

/-- `dispatch_binary_op`. -/
def dispatchBinaryOpSteps ( kernel_prefix : String) (a b : MNTensor Unit) (ans : KernelAnswers) :
    List OperatorStep :=
  [.kernel
    (do
      mnCheck (a.dtype = b.dtype) "elementwise: operands must have same dtype"
      mnCheck (a.isContiguous ∧ b.isContiguous) "elementwise: operands must be contiguous"
      let output_shape ← a.shape.broadcastWith b.shape
      ans.empty output_shape a.dtype
      let kernel_name := kernel_prefix ++ (← kernelSuffix "elementwise" a.dtype)
      ans.pipeline kernel_name
      return ⟨kernel_name, [uintSite "elementwise" output_shape.numel]⟩)
    ans.current ans.next]

/-- The prefix of the kernels of a binary operation. -/
def BinaryOp.kernelPrefix : BinaryOp → String
  | .add => "add"
  | .sub => "sub"
  | .mul => "mul"
  | .div => "div"

/-- The unary operations; `sqrt` and `clamp` have host code of their own. -/
inductive UnaryOp where
  | exp
  | log
  | sqrt
  | abs
  | neg
  | clamp
  deriving DecidableEq, Repr

/-- The prefix of the kernels of a unary operation. -/
def UnaryOp.kernelPrefix : UnaryOp → String
  | .exp => "exp"
  | .log => "log"
  | .sqrt => "sqrt"
  | .abs => "abs"
  | .neg => "neg"
  | .clamp => "clamp"

/-- What the messages of a unary operation begin with. -/
def UnaryOp.caller : UnaryOp → String
  | .sqrt => "sqrt"
  | .clamp => "clamp"
  | _ => "elementwise"

/-- `dispatch_unary_op`, `sqrt` and `clamp`. -/
def dispatchUnaryOpSteps (op : UnaryOp) (x : MNTensor Unit) (ans : KernelAnswers) :
    List OperatorStep :=
  [.kernel
    (do
      mnCheck x.isContiguous (op.caller ++ ": input must be contiguous")
      ans.empty x.shape x.dtype
      let kernel_name := op.kernelPrefix ++ (← kernelSuffix op.caller x.dtype)
      ans.pipeline kernel_name
      return ⟨kernel_name, [uintSite "elementwise" x.numel]⟩)
    ans.current ans.next]

/-- `where`, which checks nothing once its encoder is open. -/
def whereSteps (condition x y : MNTensor Unit) (ans : KernelAnswers) : List OperatorStep :=
  [.kernel
    (do
      mnCheck (condition.dtype = .Bool) "where: condition must be Bool dtype"
      mnCheck (x.dtype = y.dtype) "where: x and y must have same dtype"
      mnCheck (condition.isContiguous ∧ x.isContiguous ∧ y.isContiguous)
        "where: all inputs must be contiguous"
      let shape1 ← condition.shape.broadcastWith x.shape
      let output_shape ← shape1.broadcastWith y.shape
      ans.empty output_shape x.dtype
      let kernel_name := "where" ++ (← kernelSuffix "where" x.dtype)
      ans.pipeline kernel_name
      return ⟨kernel_name, []⟩)
    ans.current ans.next]

/-- `cast_dtype`; nothing is encoded when the data type is there already. -/
def castDtypeSteps (input : MNTensor Unit) (target_dtype : MNDType) (ans : KernelAnswers) :
    List OperatorStep :=
  if input.dtype = target_dtype then []
  else
    [.kernel
      (do
        mnCheck input.isContiguous "cast_dtype: input must be contiguous"
        mnCheck (input.dtype = .Float32 ∧ target_dtype = .Float16 ∨
            input.dtype = .Float16 ∧ target_dtype = .Float32)
          "cast_dtype: only FP32 ↔ FP16 conversions are currently supported"
        ans.empty input.shape target_dtype
        let kernel_name :=
          if input.dtype = .Float32 then "cast_fp32_to_fp16" else "cast_fp16_to_fp32"
        ans.pipeline kernel_name
        return ⟨kernel_name, [uintSite "cast_dtype" input.numel]⟩)
      ans.current ans.next]

/-! ### Reductions -/

/-- `compute_reduction_shape`. -/
def computeReductionShape (input_shape : MNShape) (dim : ℕ) (keepdim : Bool) : MNShape :=
  input_shape.take dim ++ (if keepdim then [1] else []) ++ input_shape.drop (dim + 1)

/-- The data type of a reduction's result. -/
def ReductionOp.outputDtype (dtype : MNDType) : ReductionOp → MNDType
  | .sum | .mean => if dtype = .Float16 then .Float32 else dtype
  | .max | .min => dtype
  | .argmax | .argmin => .Int64

/-- `dispatch_reduction`: the pipeline state is asked for with the encoder open. -/
def dispatchReductionSteps (op : ReductionOp) (input : MNTensor Unit) (dim : ℤ) (keepdim : Bool)
    (ans : KernelAnswers) : List OperatorStep :=
  [.kernel
    (do
      let dim ← normalizeDim "reduction" dim input.shape.length
      mnCheck input.isContiguous "reduction: input must be contiguous"
      ans.empty (computeReductionShape input.shape dim (keepdim && !op.isArg))
        (op.outputDtype input.dtype)
      let extents := reductionExtents input.shape dim
      let kernel_name ← reductionKernelName op extents.useVec4 input.dtype
      return ⟨kernel_name, [ans.pipeline kernel_name, uintSite "reduction" extents.outer_size,
        uintSite "reduction" extents.reduce_size, uintSite "reduction" extents.inner_size]⟩)
    ans.current ans.next]

/-- `softmax`. -/
def softmaxSteps (input : MNTensor Unit) (dim : ℤ) (ans : KernelAnswers) : List OperatorStep :=
  [.kernel
    (do
      let dim ← normalizeDim "softmax" dim input.shape.length
      ans.empty input.shape input.dtype
      let sizes ← computeReductionSizes input.shape dim
      let kernel ← softmaxKernel input.dtype sizes
      return ⟨kernel.kernelName, [ans.pipeline kernel.kernelName]⟩)
    ans.current ans.next]

/-- The kernel of `log_softmax`. -/
def logSoftmaxKernelName : MNDType → Except MNException String
  | .Float32 => .ok "log_softmax_online_fp32"
  | .Float16 => .ok "log_softmax_online_fp16"
  | _ => .error ⟨.InvalidArgument,
      "log_softmax: unsupported dtype (only Float32 and Float16)"⟩

/-- `log_softmax`, with the helpers of `softmax`. -/
def logSoftmaxSteps (input : MNTensor Unit) (dim : ℤ) (ans : KernelAnswers) : List OperatorStep :=
  [.kernel
    (do
      let dim ← normalizeDim "softmax" dim input.shape.length
      ans.empty input.shape input.dtype
      let _sizes ← computeReductionSizes input.shape dim
      let kernel_name ← logSoftmaxKernelName input.dtype
      return ⟨kernel_name, [ans.pipeline kernel_name]⟩)
    ans.current ans.next]

/-! ### Normalisations -/

/-- The common part of the two, from the allocation on. -/
def normEncoding (op : NormOp) (input : MNTensor Unit) (norm_size batch_size : ℤ)
    (ans : KernelAnswers) : Except MNException KernelEncoding := do
  ans.empty input.shape input.dtype
  let kernel ← normKernel op input.dtype norm_size
  ans.pipeline kernel.kernel_name
  return ⟨kernel.kernel_name, [uintSite "normalization" batch_size,
    uintSite "normalization" norm_size]⟩

/-- `layer_norm`. -/
def layerNormSteps (input weight bias : MNTensor Unit) (ans : KernelAnswers) :
    List OperatorStep :=
  [.kernel
    (do
      let (norm_size, batch_size) ← normExtents .layer input
      mnCheck (isNormVector weight norm_size)
        "layer_norm: weight shape must match normalized dimension"
      mnCheck (isNormVector bias norm_size)
        "layer_norm: bias shape must match normalized dimension"
      mnCheck (input.dtype = weight.dtype ∧ input.dtype = bias.dtype)
        "layer_norm: all inputs must have the same dtype"
      normEncoding .layer input norm_size batch_size ans)
    ans.current ans.next]

/-- `rms_norm`. -/
def rmsNormSteps (input weight : MNTensor Unit) (ans : KernelAnswers) : List OperatorStep :=
  [.kernel
    (do
      let (norm_size, batch_size) ← normExtents .rms input
      mnCheck (isNormVector weight norm_size)
        "rms_norm: weight shape must match normalized dimension"
      mnCheck (input.dtype = weight.dtype)
        "rms_norm: input and weight must have the same dtype"
      normEncoding .rms input norm_size batch_size ans)
    ans.current ans.next]

/-! ### Attention -/

/-- The tensors that `flash_attention` is called with. -/
structure FlashTensors where
  query : MNTensor Unit
  key : MNTensor Unit
  value : MNTensor Unit
  mask : Option (MNTensor Unit)

namespace FlashTensors

/-- The sizes that `flash_attention` reads from the shapes. -/
def dims (t : FlashTensors) : AttentionDims where
  batch := t.query.dim 0
  num_heads := t.query.dim 1
  seq_len_q := t.query.dim 2
  head_dim := t.query.dim 3
  num_kv_heads := t.key.dim 1
  seq_len_k := t.key.dim 2

/-- The checks of a mask. -/
def maskCheck (d : AttentionDims) : Option (MNTensor Unit) → Except MNException Unit
  | none => .ok ()
  | some mask => do
    mnCheck (mask.ndim = 4) "flash_attention: mask must be 4D [batch, 1, seq_len_q, seq_len_k]"
    mnCheck (mask.dim 0 = d.batch ∧ mask.dim 2 = d.seq_len_q ∧ mask.dim 3 = d.seq_len_k)
      "flash_attention: mask shape incompatible with query/key"

/-- The checks of `flash_attention`. -/
def check (t : FlashTensors) : Except MNException Unit := do
  mnCheck (t.query.ndim = 4)
    "flash_attention: query must be 4D [batch, num_heads, seq_len_q, head_dim]"
  mnCheck (t.key.ndim = 4)
    "flash_attention: key must be 4D [batch, num_kv_heads, seq_len_k, head_dim]"
  mnCheck (t.value.ndim = 4)
    "flash_attention: value must be 4D [batch, num_kv_heads, seq_len_v, head_dim]"
  mnCheck (t.query.dtype = t.key.dtype ∧ t.query.dtype = t.value.dtype)
    "flash_attention: all inputs must have the same dtype"
  mnCheck (t.dims.seq_len_k = t.value.dim 2)
    "flash_attention: key and value sequence lengths must match"
  mnCheck (t.dims.batch = t.key.dim 0 ∧ t.dims.batch = t.value.dim 0)
    "flash_attention: batch dimensions must match"
  mnCheck (t.dims.num_kv_heads = t.value.dim 1)
    "flash_attention: num_kv_heads must match between key and value"
  mnCheck (t.dims.num_heads ≥ t.dims.num_kv_heads)
    "flash_attention: num_heads must be >= num_kv_heads"
  mnCheck (t.dims.num_heads % t.dims.num_kv_heads = 0)
    "flash_attention: num_heads must be divisible by num_kv_heads"
  mnCheck (t.dims.head_dim = t.key.dim 3 ∧ t.dims.head_dim = t.value.dim 3)
    "flash_attention: head_dim must match across inputs"
  maskCheck t.dims t.mask

end FlashTensors

/-- What the answers to the requests of `flash_attention` are: those of the kernel itself, and with
    grouped queries in `Float32` those of the output that is not used and of the conversions. -/
structure AttentionAnswers where
  kernel : KernelAnswers := {}
  output : KernelAnswers := {}
  query : KernelAnswers := {}
  key : KernelAnswers := {}
  value : KernelAnswers := {}
  mask : KernelAnswers := {}
  result : KernelAnswers := {}

/-- What the choice of a kernel depends on besides the arguments. -/
structure AttentionSettings where
  /-- `g_use_texture_attention`. -/
  use_texture_attention : Bool := false
  /-- The texture for the scores has been created. -/
  score_texture : Bool := true
  pressure : MemoryPressureLevel := .Normal

/-- The kernel for `Float32` tensors with as many key heads as query heads. -/
def flashKernelNameFp32 (st : AttentionSettings) (d : AttentionDims) : String :=
  if st.use_texture_attention ∧ st.score_texture then "flash_attention_texture_fp32"
  else if d.seq_len_k ≥ 1024 then "flash_attention_large_fp32"
  else if d.seq_len_k ≥ 256 ∧ d.head_dim ≤ 128 then "flash_attention_4simd_fp32"
  else "flash_attention_simd_kernel"

/-- The kernel for `Float16` tensors. -/
def flashKernelNameFp16 (st : AttentionSettings) (d : AttentionDims) : String :=
  if d.isGqa then
    if d.seq_len_k ≥ 512 then "flash_attention_gqa_4simd_fp16" else "flash_attention_gqa_fp16"
  else
    let relaxed : Bool := pressureMultiplier st.pressure ≥ 1
    let use_8simd : Bool := d.seq_len_k ≥ 1024 ∧ d.head_dim ≤ 128 ∧ relaxed
    let use_4simd : Bool := ¬ use_8simd ∧ d.seq_len_k ≥ 256 ∧ d.head_dim ≤ 128
    let use_tile24 : Bool := ¬ use_8simd ∧ ¬ use_4simd ∧ d.head_dim ≤ 128 ∧ relaxed
    let use_multi_simd : Bool := d.seq_len_k ≥ 64
    if use_8simd then "flash_attention_large_fp16"
    else if use_4simd then "flash_attention_4simd_fp16"
    else if use_tile24 then "flash_attention_simd_kernel_fp16_tile24"
    else if use_multi_simd then "flash_attention_simd_kernel_fp16_multi"
    else "flash_attention_simd_kernel_fp16"

/-- `kernel_name`. -/
def flashKernelName (st : AttentionSettings) (dtype : MNDType) (d : AttentionDims) :
    Except MNException String :=
  match dtype with
  | .Float32 => .ok (flashKernelNameFp32 st d)
  | .Float16 => .ok (flashKernelNameFp16 st d)
  | _ => .error ⟨.InvalidArgument,
      "flash_attention: unsupported dtype (only Float32 and Float16)"⟩

/-- The throw sites of `flash_attention` with its encoder open: none on the path with a texture. -/
def flashSites (kernel_name : String) (d : AttentionDims) : List (Except MNException Unit) :=
  if kernel_name = "flash_attention_texture_fp32" then []
  else
    [uintSite "attention" d.batch, uintSite "attention" d.num_heads,
      uintSite "attention" d.seq_len_q, uintSite "attention" d.seq_len_k,
      uintSite "attention" d.head_dim]
    ++ if d.isGqa then [uintSite "attention" d.num_kv_heads] else []

/-- `flash_attention` where nothing has to be converted. -/
def flashKernelStep (st : AttentionSettings) (shape : MNShape) (dtype : MNDType)
    (d : AttentionDims) (ans : KernelAnswers) : OperatorStep :=
  .kernel
    (do
      ans.empty shape dtype
      let kernel_name ← flashKernelName st dtype d
      ans.pipeline kernel_name
      return ⟨kernel_name, flashSites kernel_name d⟩)
    ans.current ans.next

/-- A tensor converted to `Float16`, or the tensor itself. -/
def asFloat16 (t : MNTensor Unit) : MNTensor Unit :=
  if t.dtype = .Float16 then t else t.emptyLike .Float16

/-- The tensors converted to `Float16`. -/
def FlashTensors.asFloat16 (t : FlashTensors) : FlashTensors where
  query := MetalNative.asFloat16 t.query
  key := MetalNative.asFloat16 t.key
  value := MetalNative.asFloat16 t.value
  mask := t.mask.map MetalNative.asFloat16

/-- `flash_attention`.  Grouped queries in `Float32` are converted, the function calls itself, and
    the result is converted back. -/
def flashAttentionSteps (st : AttentionSettings) (t : FlashTensors) (ans : AttentionAnswers) :
    List OperatorStep :=
  if t.query.dtype = .Float32 ∧ t.dims.isGqa then
    [.check t.check, .check (ans.output.empty t.query.shape .Float32)]
    ++ castDtypeSteps t.query .Float16 ans.query
    ++ castDtypeSteps t.key .Float16 ans.key
    ++ castDtypeSteps t.value .Float16 ans.value
    ++ (t.mask.toList.flatMap fun mask => castDtypeSteps mask .Float16 ans.mask)
    ++ [.check t.asFloat16.check,
      flashKernelStep st t.query.shape .Float16 t.asFloat16.dims ans.kernel]
    ++ castDtypeSteps (t.query.emptyLike .Float16) .Float32 ans.result
  else [.check t.check, flashKernelStep st t.query.shape t.query.dtype t.dims ans.kernel]

/-- `get_key` and `get_value`, which encode a copy. -/
def cacheCopyStep (name : String) (cache : KVCache) (layer : ℕ) (ans : KernelAnswers) :
    OperatorStep :=
  .kernel
    (do
      mnCheck (layer < cache.config.numLayers)
        ("KVCache::" ++ name ++ ": layer index out of bounds")
      ans.empty cache.cacheShape cache.config.dtype
      let _element_size ← KVCache.elementSize cache.config.dtype
      return ⟨"copyFromBuffer", []⟩)
    ans.current ans.next

/-- `flash_attention_with_kv_cache`, with the tensors that `get_key` and `get_value` return. -/
def flashAttentionWithKvCacheSteps (st : AttentionSettings) (cache : KVCache) (layer : ℕ)
    (t : FlashTensors) (cached_key cached_value : KernelAnswers) (ans : AttentionAnswers) :
    List OperatorStep :=
  cacheCopyStep "get_key" cache layer cached_key
    :: cacheCopyStep "get_value" cache layer cached_value
    :: flashAttentionSteps st t ans

/-- `fused_qkv_split_rope`. -/
def fusedQkvSplitRopeSteps (call : QkvCall) (ans : KernelAnswers) : List OperatorStep :=
  [.kernel
    (do
      call.check
      let kernel_name ← call.kernelName
      ans.pipeline kernel_name
      return ⟨kernel_name, call.uintChecks⟩)
    ans.current ans.next]

/-! ### Speculative decoding -/

/-- `speculative_verify`: the pipeline state is asked for with the encoder open. -/
def speculativeVerifySteps (p_target p_draft draft_tokens random_vals : MNTensor Unit)
    (ans : KernelAnswers) : List OperatorStep :=
  [.kernel
    (do
      speculativeCheck p_target p_draft draft_tokens random_vals
      ans.empty (p_target.shape.take 2) .Int32
      ans.empty (p_target.shape.take 1) .Int32
      let kernel_name :=
        if p_target.dtype = .Float32 then "speculative_verify_fp32" else "speculative_verify_fp16"
      return ⟨kernel_name, [ans.pipeline kernel_name]⟩)
    ans.current ans.next]

/-! ### All of them -/

/-- A call of an operator, with what its callees answer. -/
inductive OperatorCall where
  | binary (op : BinaryOp) (a b : MNTensor Unit) (ans : KernelAnswers)
  | unary (op : UnaryOp) (x : MNTensor Unit) (ans : KernelAnswers)
  | whereOp (condition x y : MNTensor Unit) (ans : KernelAnswers)
  | castDtype (input : MNTensor Unit) (target_dtype : MNDType) (ans : KernelAnswers)
  | reduction (op : ReductionOp) (input : MNTensor Unit) (dim : ℤ) (keepdim : Bool)
      (ans : KernelAnswers)
  | softmax (input : MNTensor Unit) (dim : ℤ) (ans : KernelAnswers)
  | logSoftmax (input : MNTensor Unit) (dim : ℤ) (ans : KernelAnswers)
  | layerNorm (input weight bias : MNTensor Unit) (ans : KernelAnswers)
  | rmsNorm (input weight : MNTensor Unit) (ans : KernelAnswers)
  | flashAttention (st : AttentionSettings) (t : FlashTensors) (ans : AttentionAnswers)
  | flashAttentionWithKvCache (st : AttentionSettings) (cache : KVCache) (layer : ℕ)
      (t : FlashTensors) (cached_key cached_value : KernelAnswers) (ans : AttentionAnswers)
  | fusedQkvSplitRope (call : QkvCall) (ans : KernelAnswers)
  | speculativeVerify (p_target p_draft draft_tokens random_vals : MNTensor Unit)
      (ans : KernelAnswers)

/-- What the call does, up to where it throws. -/
def OperatorCall.steps : OperatorCall → List OperatorStep
  | .binary op a b ans => dispatchBinaryOpSteps op.kernelPrefix a b ans
  | .unary op x ans => dispatchUnaryOpSteps op x ans
  | .whereOp condition x y ans => whereSteps condition x y ans
  | .castDtype input target_dtype ans => castDtypeSteps input target_dtype ans
  | .reduction op input dim keepdim ans => dispatchReductionSteps op input dim keepdim ans
  | .softmax input dim ans => softmaxSteps input dim ans
  | .logSoftmax input dim ans => logSoftmaxSteps input dim ans
  | .layerNorm input weight bias ans => layerNormSteps input weight bias ans
  | .rmsNorm input weight ans => rmsNormSteps input weight ans
  | .flashAttention st t ans => flashAttentionSteps st t ans
  | .flashAttentionWithKvCache st cache layer t cached_key cached_value ans =>
    flashAttentionWithKvCacheSteps st cache layer t cached_key cached_value ans
  | .fusedQkvSplitRope call ans => fusedQkvSplitRopeSteps call ans
  | .speculativeVerify p_target p_draft draft_tokens random_vals ans =>
    speculativeVerifySteps p_target p_draft draft_tokens random_vals ans

/-- **Operators that throw.**  On a usable pipeline a call that throws leaves no open encoder on the
    active buffer, which has not been committed, and keeps what has been encoded, so that the next
    operator can encode and commit, exactly where it does not spoil the pipeline: it gets as far as
    an encoder and then fails at one of the throw sites before the encoder's end, or at the creation
    of the buffer behind its submission. -/
theorem failed_operators_leave_usable (c : OperatorCall) (s : OperatorState) (h : s.pipe.Usable) :
    ((∃ e, (runAll s c.steps).1 = .error e) → LeavesUsable s (runAll s c.steps).2)
      ↔ ¬ Spoils s.pipe c.steps := runAll_usable h

/-- A pipeline before its first operator. -/
def freshState : OperatorState where
  pipe := { bufferCount := 3 }

theorem freshState_usable : freshState.pipe.Usable where
  buffer := nofun
  closed := nofun
  uncommitted := nofun
  active_lt := nofun
  committed_lt := nofun
  open_lt := nofun

/-- A matrix of sixteen columns. -/
def rowOfSixteen (dtype : MNDType) : MNTensor Unit where
  buffer _ := ()
  dims := [1, 16]
  strides := [16, 1]
  dtype := dtype
  dims_lt := by decide
  numel_lt := by decide

/-- The smallest element of a row of sixteen: the library has no `reduce_min_vec4_fp32`. -/
def missingMinimum : OperatorCall :=
  .reduction .min (rowOfSixteen .Float32) 1 false { pipeline := reductionPipeline }

theorem missing_minimum_not_found : ∃ e, reductionPipeline "reduce_min_vec4_fp32" = .error e :=
  ⟨_, if_neg (by decide)⟩

/-- The throw leaves an open encoder on the active buffer. -/
theorem missing_kernel_spoils :
    freshState.pipe.Usable ∧ (∃ e, (runAll freshState missingMinimum.steps).1 = .error e) ∧
      ¬ LeavesUsable freshState (runAll freshState missingMinimum.steps).2 := by
  have hspoils : Spoils freshState.pipe missingMinimum.steps := by
    obtain ⟨e, he⟩ := missing_minimum_not_found
    exact ⟨_, rfl, .inr rfl, .inl ⟨e, List.mem_cons.mpr (.inl he.symm)⟩⟩
  obtain ⟨hno, -⟩ | ⟨-, hthrow, hbad⟩ := @runAll_cases freshState _ freshState_usable
  · exact absurd hspoils hno
  · exact ⟨freshState_usable, hthrow, fun hleaves => hbad hleaves.usable⟩

/-- An unsupported data type is found before the encoder is opened. -/
theorem failed_operators_leave_usable_unsupported :
    freshState.pipe.Usable ∧
      ¬ Spoils freshState.pipe (OperatorCall.softmax (rowOfSixteen .Int32) 1 {}).steps ∧
      (∃ e, (runAll freshState (OperatorCall.softmax (rowOfSixteen .Int32) 1 {}).steps).1 =
        .error e) ∧
      LeavesUsable freshState
        (runAll freshState (OperatorCall.softmax (rowOfSixteen .Int32) 1 {}).steps).2 := by
  have hthrow : ∃ e,
      (runAll freshState (OperatorCall.softmax (rowOfSixteen .Int32) 1 {}).steps).1 = .error e :=
    ⟨_, rfl⟩
  have hno : ¬ Spoils freshState.pipe (OperatorCall.softmax (rowOfSixteen .Int32) 1 {}).steps := by
    rintro ⟨k, hk, -⟩
    cases hk
  exact ⟨freshState_usable, hno, hthrow,
    (failed_operators_leave_usable _ freshState freshState_usable).mpr hno hthrow⟩

end MetalNative
