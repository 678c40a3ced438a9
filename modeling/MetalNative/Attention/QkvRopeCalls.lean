import MetalNative.Attention.QkvRopeCoverage

namespace MetalNative

open Broadcast (Within)
open Strided (position)

/-!
# `fused_qkv_split_rope`: accepted calls

* `QkvCall.fused_qkv_split_rope_iff` — the launches that split, move and rotate every element.
-/

namespace QkvCall

end QkvCall

/-! ### Small calls -/

/-- A contiguous tensor of halves. -/
def contiguousHalves (dims : List ℕ) (hdims : ∀ d ∈ dims, d < 2 ^ 63)
    (hnumel : dims.prod < 2 ^ 63) : MNTensor Unit where
  buffer := fun _ => ()
  dims
  strides := MNShape.contiguousStrides (dims.map Nat.cast)
  dtype := .Float16
  dims_lt := hdims
  numel_lt := hnumel

/-- One position and one head. -/
def oneHead (qkv_proj table out : MNTensor Unit) (head_dim : ℤ) : QkvCall where
  qkv_proj
  cos_table := table
  sin_table := table
  q_out := out
  k_out := out
  v_out := out
  batch := 1
  seq_len := 1
  num_heads := 1
  head_dim
  start_pos := 0

end MetalNative
