import MetalNative.Core.Words
import MetalNative.Matmul.HostDispatch

namespace MetalNative

/-!
# `fast::rope`: the launch

A translation of `fast::rope` in `future_stubs.mm` and of the indices of the kernels in
`fused_rope.metal`.  The sizes of the one grid are those of `q`; `k` and the tables are only bound.

* `RopeCall`, `rope` — the checks, the name of the kernel and the constants.
* `RopeArgs.threads` — the threads of the grid; `RopeArgs.cacheCell`, `RopeArgs.dim0` and
  `RopeArgs.dim1` are their indices into the tables, and into `q` and `k`.
-/

/-- The arguments of `fast::rope`. -/
structure RopeCall where
  q : MNTensor Unit
  k : MNTensor Unit
  cos_cache : MNTensor Unit
  sin_cache : MNTensor Unit
  start_pos : ℤ

/-- The constants of a launch. -/
structure RopeArgs where
  batch_size : ℕ
  num_heads : ℕ
  seq_len : ℕ
  head_dim : ℕ
  start_pos : ℕ
  deriving DecidableEq, Repr

/-- A launch. -/
structure RopeRun where
  kernelName : String
  args : RopeArgs
  deriving DecidableEq, Repr

/-! ### The kernel -/

namespace RopeArgs

variable (a : RopeArgs)

/-- `half_dim`. -/
def half_dim : ℕ := a.head_dim / 2

/-- `batch_size * num_heads`. -/
def heads : ℕ := toUInt (a.batch_size * a.num_heads)

/-- The threads `(pair_idx, seq_idx, bh_idx)` of the grid that do not return at once. -/
def threads : List (ℕ × ℕ × ℕ) :=
  (List.range a.heads).flatMap fun bh_idx => (List.range a.seq_len).flatMap fun seq_idx =>
    (List.range a.half_dim).flatMap fun pair_idx =>
      if pair_idx ≥ a.half_dim ∨ seq_idx ≥ a.seq_len ∨ bh_idx ≥ a.heads then []
      else [(pair_idx, seq_idx, bh_idx)]

/-- `pos`, the position in the sequence. -/
def pos (seq_idx : ℕ) : ℕ := toUInt (a.start_pos + seq_idx)

/-- `pos * half_dim + pair_idx`. -/
def cacheCell (seq_idx pair_idx : ℕ) : ℕ := toUInt (a.pos seq_idx * a.half_dim + pair_idx)

/-- `base`, where the slice of a batch, a head and a position begins. -/
def base (bh_idx seq_idx : ℕ) : ℕ :=
  toUInt (bh_idx * a.seq_len * a.head_dim + seq_idx * a.head_dim)

/-- `dim0`, the real component. -/
def dim0 (bh_idx seq_idx pair_idx : ℕ) : ℕ := toUInt (a.base bh_idx seq_idx + 2 * pair_idx)

/-- `dim1`, the imaginary component. -/
def dim1 (bh_idx seq_idx pair_idx : ℕ) : ℕ := toUInt (a.base bh_idx seq_idx + 2 * pair_idx + 1)

end RopeArgs

/-! ### The host -/

/-- The kernel, and the type of the elements that it is written for. -/
def ropeKernel (dtype : MNDType) : String × MNDType :=
  if dtype = .Float32 then ("fused_rope_fp32", .Float32) else ("fused_rope_fp16", .Float16)

namespace RopeCall

variable (call : RopeCall)

/-- The constants, cast to `uint32_t`. -/
def args : RopeArgs where
  batch_size := toUInt (call.q.dim 0)
  num_heads := toUInt (call.q.dim 1)
  seq_len := toUInt (call.q.dim 2)
  head_dim := toUInt (call.q.dim 3)
  start_pos := uintOfInt call.start_pos

/-- `fast::rope`, up to the launch; `pipeline` is what the registry answers. -/
def rope (pipeline : String → Except MNException Unit) : Except MNException RopeRun := do
  mnCheck (call.q.ndim = 4) "fast::rope: Q must be 4D [batch, heads, seq_len, head_dim]"
  mnCheck (call.k.ndim = 4) "fast::rope: K must be 4D [batch, heads, seq_len, head_dim]"
  pipeline (ropeKernel call.q.dtype).1
  return ⟨(ropeKernel call.q.dtype).1, call.args⟩

variable {call} {pipeline : String → Except MNException Unit} {run : RopeRun}

/-- What an accepted call launches. -/
theorem rope_eq_ok (h : call.rope pipeline = .ok run) :
    call.q.ndim = 4 ∧ call.k.ndim = 4 ∧ run = ⟨(ropeKernel call.q.dtype).1, call.args⟩ := by
  unfold rope at h
  obtain ⟨hq, h⟩ := mnCheck_bind_eq_ok.mp h
  obtain ⟨hk, h⟩ := mnCheck_bind_eq_ok.mp h
  obtain ⟨-, -, h⟩ := bind_eq_ok.mp h
  exact ⟨hq, hk, (Except.ok.inj h).symm⟩

end RopeCall

/-- The threads are those of the three sizes. -/
theorem RopeArgs.mem_threads (a : RopeArgs) {pair_idx seq_idx bh_idx : ℕ} :
    (pair_idx, seq_idx, bh_idx) ∈ a.threads
      ↔ pair_idx < a.half_dim ∧ seq_idx < a.seq_len ∧ bh_idx < a.heads := by
  unfold threads
  simp only [List.mem_flatMap, List.mem_range]
  constructor
  · rintro ⟨bh, hbh, s, hs, p, hp, hmem⟩
    rw [if_neg (by omega), List.mem_singleton, Prod.mk.injEq, Prod.mk.injEq] at hmem
    omega
  · rintro ⟨hp, hs, hbh⟩
    refine ⟨bh_idx, hbh, seq_idx, hs, pair_idx, hp, ?_⟩
    rw [if_neg (by omega)]
    simp

/-- The indices of a pair. -/
theorem RopeArgs.pair_eq (a : RopeArgs) (bh s p : ℕ) :
    a.cacheCell s p = toUInt ((a.start_pos + s) * (a.head_dim / 2) + p) ∧
      a.dim0 bh s p = toUInt ((bh * a.seq_len + s) * a.head_dim + 2 * p) ∧
      a.dim1 bh s p = toUInt ((bh * a.seq_len + s) * a.head_dim + 2 * p + 1) := by
  have hbase : bh * a.seq_len * a.head_dim + s * a.head_dim
      = (bh * a.seq_len + s) * a.head_dim := by ring
  unfold cacheCell pos dim0 dim1 base half_dim
  rw [hbase]
  exact ⟨toUInt_toUInt_mul_add .., toUInt_toUInt_add .., toUInt_toUInt_add _ (2 * p + 1)⟩

end MetalNative
