import MetalNative.Attention.FlashAttention

namespace MetalNative

/-!
# `fused_qkv_split_rope`: the host

A translation of the host side in `attention.mm`.  The contents of the tensors play no part in it.

* `QkvCall.check` — the checks before the kernel is chosen.
* `QkvCall.kernelName` — the choice, and `QkvCall.uintChecks` the checks behind it.
-/

/-- The check of a size before it is passed to a kernel as a `uint`. -/
def uintSite (caller : String) (size : ℤ) : Except MNException Unit :=
  mnCheck (size ≤ UINT32_MAX) (caller ++ ": dimension exceeds uint32_t range")

/-- The arguments of `fused_qkv_split_rope`. -/
structure QkvCall where
  qkv_proj : MNTensor Unit
  cos_table : MNTensor Unit
  sin_table : MNTensor Unit
  q_out : MNTensor Unit
  k_out : MNTensor Unit
  v_out : MNTensor Unit
  batch : ℤ
  seq_len : ℤ
  num_heads : ℤ
  head_dim : ℤ
  start_pos : ℤ

namespace QkvCall

/-- An output has the shape `[batch, num_heads, seq_len, head_dim]`. -/
def isOutput (call : QkvCall) (t : MNTensor Unit) : Bool :=
  t.shape.getD 0 0 = call.batch ∧ t.shape.getD 1 0 = call.num_heads ∧
    t.shape.getD 2 0 = call.seq_len ∧ t.shape.getD 3 0 = call.head_dim

/-- The checks of `fused_qkv_split_rope`. -/
def check (call : QkvCall) : Except MNException Unit := do
  mnCheck (call.qkv_proj.ndim = 3)
    "fused_qkv_split_rope: qkv_proj must be 3D [batch, seq_len, 3*num_heads*head_dim]"
  mnCheck (call.qkv_proj.shape.getD 0 0 = call.batch)
    "fused_qkv_split_rope: qkv_proj batch dimension mismatch"
  mnCheck (call.qkv_proj.shape.getD 1 0 = call.seq_len)
    "fused_qkv_split_rope: qkv_proj seq_len dimension mismatch"
  mnCheck (call.qkv_proj.shape.getD 2 0 = toInt64 (toInt64 (3 * call.num_heads) * call.head_dim))
    "fused_qkv_split_rope: qkv_proj last dimension must be 3*num_heads*head_dim"
  mnCheck (call.head_dim.tmod 2 = 0)
    "fused_qkv_split_rope: head_dim must be even for RoPE"
  mnCheck (call.cos_table.ndim = 2 ∧ call.sin_table.ndim = 2)
    "fused_qkv_split_rope: cos_table and sin_table must be 2D"
  mnCheck (call.cos_table.shape.getD 1 0 = call.head_dim.tdiv 2 ∧
      call.sin_table.shape.getD 1 0 = call.head_dim.tdiv 2)
    "fused_qkv_split_rope: cos_table and sin_table second dim must be head_dim/2"
  mnCheck (call.qkv_proj.dtype = call.cos_table.dtype ∧
      call.qkv_proj.dtype = call.sin_table.dtype)
    "fused_qkv_split_rope: all inputs must have the same dtype"
  mnCheck (call.q_out.ndim = 4 ∧ call.k_out.ndim = 4 ∧ call.v_out.ndim = 4)
    "fused_qkv_split_rope: output tensors must be 4D [batch, num_heads, seq_len, head_dim]"
  mnCheck (call.isOutput call.q_out) "fused_qkv_split_rope: q_out shape mismatch"
  mnCheck (call.isOutput call.k_out) "fused_qkv_split_rope: k_out shape mismatch"
  mnCheck (call.isOutput call.v_out) "fused_qkv_split_rope: v_out shape mismatch"

/-- `use_vectorized`. -/
def useVectorized (call : QkvCall) : Bool := call.head_dim.tmod 4 = 0

/-- `kernel_name`. -/
def kernelName (call : QkvCall) : Except MNException String :=
  match call.qkv_proj.dtype with
  | .Float32 =>
    .ok (if call.useVectorized then "fused_qkv_rope_fp32_vec4" else "fused_qkv_rope_fp32")
  | .Float16 =>
    .ok (if call.useVectorized then "fused_qkv_rope_fp16_vec4" else "fused_qkv_rope_fp16")
  | _ => .error ⟨.InvalidArgument,
      "fused_qkv_split_rope: unsupported dtype (only Float32 and Float16)"⟩

/-- The sizes that are passed on as `uint` values. -/
def uintSizes (call : QkvCall) : List ℤ :=
  [call.batch, call.seq_len, call.num_heads, call.head_dim, call.start_pos]

/-- The checks before the sizes are passed on. -/
def uintChecks (call : QkvCall) : List (Except MNException Unit) :=
  call.uintSizes.map (uintSite "fused_qkv_split_rope")

end QkvCall

end MetalNative
