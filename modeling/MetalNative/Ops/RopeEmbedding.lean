import MetalNative.Core.Places
import MetalNative.Lib.Rotation
import MetalNative.Lib.SimdMatrix
import MetalNative.Ops.Embedding
import Mathlib.Data.Real.Basic

namespace MetalNative

open Broadcast (Within)
open Rotation MNTensor SimdMatrix
open Strided (position)

/-!
# `rope_embedding`

A translation of `rope_embedding` in `embedding.mm` and of the rotating kernels of
`embedding_kernel.metal`.  The output has a buffer of its own, in row-major order; the arithmetic is
exact.

* `RopeEmbeddingCall`, `ropeEmbedding` — the host; `RopeEmbeddingArgs` — the indices of a thread.
* `RopeEmbeddingCall.Rotated` — what a launch is to do.
* `RopeEmbeddingCall.Rotatable` — where it does; `RopeEmbeddingCall.rotated_iff` says that it is
  exactly there.
-/

/-! ### The kernel -/

/-- The constants of a launch, and the bytes of the position ids. -/
structure RopeEmbeddingArgs where
  batch : ℕ
  seq_len : ℕ
  num_heads : ℕ
  head_dim : ℕ
  position_ids : ℕ → UInt8

namespace RopeEmbeddingArgs

variable (a : RopeEmbeddingArgs)

/-- `half_dim`. -/
def half_dim : ℕ := a.head_dim / 2

/-- `total_pairs`. -/
def total_pairs : ℕ := toUInt (a.batch * a.seq_len * a.num_heads * a.half_dim)

/-- `pair_idx`. -/
def pair_idx (gid : ℕ) : ℕ := gid % a.half_dim

/-- `head_idx`. -/
def head_idx (gid : ℕ) : ℕ := gid / a.half_dim % a.num_heads

/-- `seq_idx`. -/
def seq_idx (gid : ℕ) : ℕ := gid / a.half_dim / a.num_heads % a.seq_len

/-- `batch_idx`. -/
def batch_idx (gid : ℕ) : ℕ := gid / a.half_dim / a.num_heads / a.seq_len

/-- An `int32_t` of `position_ids`. -/
def word (i : ℕ) : ℤ := signedValue ((List.range 4).map fun b => a.position_ids (4 * i + b))

/-- `pos`. -/
def pos (gid : ℕ) : ℤ := a.word (toUInt (a.batch_idx gid * a.seq_len + a.seq_idx gid))

/-- `cache_offset + pair_idx`. -/
def cacheCell (gid : ℕ) : ℕ :=
  toUInt (toUInt (uintOfInt (a.pos gid) * a.head_dim) + a.pair_idx gid)

/-- `input_base`, which is also `output_base`. -/
def input_base (gid : ℕ) : ℕ :=
  toUInt (((a.batch_idx gid * a.seq_len + a.seq_idx gid) * a.num_heads + a.head_idx gid)
    * a.head_dim)

/-- The cell of a component, which is read and written. -/
def cell (slot : ℕ × Bool) : ℕ :=
  toUInt (a.input_base slot.1 + 2 * a.pair_idx slot.1 + slot.2.toNat)

end RopeEmbeddingArgs

/-! ### The host -/

/-- The arguments of `rope_embedding`. -/
structure RopeEmbeddingCall where
  input : MNTensor Unit
  cos_cache : MNTensor Unit
  sin_cache : MNTensor Unit
  position_ids : ByteTensor

/-- A launch: a kernel with the type that it is written for, the arguments and the grid. -/
structure RopeEmbeddingRun where
  kernel : String × MNDType
  args : RopeEmbeddingArgs
  grid : ℕ

/-- The choice of the kernel. -/
def ropeEmbeddingKernel (dtype : MNDType) : Except MNException (String × MNDType) :=
  if dtype = .Float32 then .ok ("rope_embedding_fp32", .Float32)
  else if dtype = .Float16 then .ok ("rope_embedding_fp16", .Float16)
  else .error ⟨.InvalidArgument, "rope_embedding: unsupported dtype"⟩

/-- The threads of the grid that do not return at once. -/
def RopeEmbeddingRun.threads (run : RopeEmbeddingRun) : List ℕ :=
  ((List.range run.grid).map toUInt).filter fun gid => gid < run.args.total_pairs

/-- They read elements of a table only. -/
def RopeEmbeddingRun.ReadsInside (run : RopeEmbeddingRun) (table : MNTensor Unit) : Prop :=
  ∀ gid ∈ run.threads, ∃ row < table.dim 0, ∃ col < table.dim 1,
    table.cellAt run.kernel.2 (run.args.cacheCell gid) = table.placeOf [row, col]

open RopeEmbeddingArgs

namespace RopeEmbeddingCall

variable (call : RopeEmbeddingCall)

/-- The tensor of the results. -/
def output : MNTensor Unit where
  buffer := fun _ => ()
  dims := call.input.dims
  strides := call.input.shape.contiguousStrides
  dtype := call.input.dtype
  dims_lt := call.input.dims_lt
  numel_lt := call.input.numel_lt

/-- The checks before the output is allocated. -/
def check : Except MNException Unit := do
  mnCheck (call.input.ndim = 4)
    "rope_embedding: input must be 4D [batch, seq_len, num_heads, head_dim]"
  mnCheck (call.cos_cache.ndim = 2 ∧ call.sin_cache.ndim = 2)
    "rope_embedding: cos_cache and sin_cache must be 2D [max_seq_len, head_dim]"
  mnCheck (call.position_ids.shape.length = 2)
    "rope_embedding: position_ids must be 2D [batch, seq_len]"
  mnCheck (call.cos_cache.dim 1 = call.input.dim 3 ∧ call.sin_cache.dim 1 = call.input.dim 3)
    "rope_embedding: cache head_dim must match input head_dim"
  mnCheck (call.position_ids.shape.getD 0 0 = call.input.dim 0 ∧
      call.position_ids.shape.getD 1 0 = call.input.dim 1)
    "rope_embedding: position_ids shape must match [batch, seq_len]"

/-- The checks of the constants. -/
def uintCheck : Except MNException Unit := do
  mnCheck (call.input.dim 0 ≤ UINT32_MAX) "embedding: dimension exceeds uint32_t range"
  mnCheck (call.input.dim 1 ≤ UINT32_MAX) "embedding: dimension exceeds uint32_t range"
  mnCheck (call.input.dim 2 ≤ UINT32_MAX) "embedding: dimension exceeds uint32_t range"
  mnCheck (call.input.dim 3 ≤ UINT32_MAX) "embedding: dimension exceeds uint32_t range"

/-- What the launch is given. -/
def args : RopeEmbeddingArgs where
  batch := toUInt (call.input.dim 0)
  seq_len := toUInt (call.input.dim 1)
  num_heads := toUInt (call.input.dim 2)
  head_dim := toUInt (call.input.dim 3)
  position_ids := call.position_ids.rawData

/-- `total_threads`, of one thread for each pair. -/
def total_threads : ℤ :=
  toInt64 (toInt64 (toInt64 (call.input.dim 0 * call.input.dim 1) * call.input.dim 2)
    * (call.input.dim 3 / 2 : ℕ))

/-- `rope_embedding`, up to the launch; the parameters are what the allocator and the registry
    answer. -/
def ropeEmbedding (allocate : MNShape → MNDType → Except MNException Unit)
    (pipeline : String → Except MNException Unit) : Except MNException RopeEmbeddingRun := do
  call.check
  emptyTensorCheck call.input.shape call.input.dtype (allocate call.input.shape call.input.dtype)
  let kernel ← ropeEmbeddingKernel call.input.dtype
  pipeline kernel.1
  call.uintCheck
  return ⟨kernel, call.args, toSizeT call.total_threads⟩

/-! ### What a call is to do -/

/-- Where a thread has a pair and its angle from. -/
def reads (run : RopeEmbeddingRun) (gid : ℕ) : Rotation.Reads Place Place Place where
  first := call.input.cellAt run.kernel.2 (run.args.cell (gid, false))
  second := call.input.cellAt run.kernel.2 (run.args.cell (gid, true))
  cos := call.cos_cache.cellAt run.kernel.2 (run.args.cacheCell gid)
  sin := call.sin_cache.cellAt run.kernel.2 (run.args.cacheCell gid)

/-- The stores of a launch. -/
def storesOf (run : RopeEmbeddingRun) (load cos sin : Place → ℝ) : List (Store Place ℝ) :=
  stores run.threads (fun slot => call.output.cellAt run.kernel.2 (run.args.cell slot))
    (call.reads run) load cos sin

/-- Those that touch an element of the output. -/
def touching (run : RopeEmbeddingRun) (load cos sin : Place → ℝ) (idx : List ℕ) :
    List (Store Place ℝ) :=
  Rotation.touching (fun p => p.overlaps (call.output.placeOf idx)) (call.storesOf run load cos sin)

variable (positionOf : MNDType → List UInt8 → ℤ)

/-- The position of an element; `positionOf` is what the elements of a data type stand for. -/
def position_id (b s : ℕ) : ℤ :=
  positionOf call.position_ids.dtype (call.position_ids.element [b, s])

/-- Where a pair and the angle of its position and its place in the row are. -/
def pairReads (b s h i : ℕ) : Rotation.Reads Place Place Place where
  first := call.input.placeOf [b, s, h, 2 * i]
  second := call.input.placeOf [b, s, h, 2 * i + 1]
  cos := call.cos_cache.placeOf [(call.position_id positionOf b s).toNat, i]
  sin := call.sin_cache.placeOf [(call.position_id positionOf b s).toNat, i]

/-- The two elements of each pair are written once, with their components of the rotation, and the
    other ones with what the input has there; nothing is written outside of the output. -/
structure OutputRotated (run : RopeEmbeddingRun) (load cos sin : Place → ℝ) : Prop where
  pairs : ∀ b < call.input.dim 0, ∀ s < call.input.dim 1, ∀ h < call.input.dim 2,
    ∀ i < call.input.dim 3 / 2, ∀ second : Bool,
      call.touching run load cos sin [b, s, h, 2 * i + second.toNat]
        = [⟨call.output.placeOf [b, s, h, 2 * i + second.toNat],
            component second ((call.pairReads positionOf b s h i).rotation load cos sin)⟩]
  rest : ∀ b < call.input.dim 0, ∀ s < call.input.dim 1, ∀ h < call.input.dim 2,
    ∀ d < call.input.dim 3, 2 * (call.input.dim 3 / 2) ≤ d →
      call.touching run load cos sin [b, s, h, d]
        = [⟨call.output.placeOf [b, s, h, d], load (call.input.placeOf [b, s, h, d])⟩]
  inside : ∀ w ∈ call.storesOf run load cos sin, call.output.IsElement w.place

/-- What a launch is to do, whatever the input and the tables hold. -/
structure Rotated (run : RopeEmbeddingRun) : Prop where
  output : ∀ load cos sin, call.OutputRotated positionOf run load cos sin
  cos : run.ReadsInside call.cos_cache
  sin : run.ReadsInside call.sin_cache

/-- The tables cover the positions that are used. -/
def Covered : Prop :=
  ∀ b < call.input.dim 0, ∀ s < call.input.dim 1, 0 ≤ call.position_id positionOf b s ∧
    (call.position_id positionOf b s).toNat < call.cos_cache.dim 0 ∧
    (call.position_id positionOf b s).toNat < call.sin_cache.dim 0

/-! ### The condition -/

/-- A table of the type of the input, in which the kernel finds the angle of each position: its rows
    are those of the `int32_t` that it reads as the position. -/
structure TableFits (table : MNTensor Unit) : Prop where
  dtype : table.dtype = call.input.dtype
  angles : ∀ b < call.input.dim 0, ∀ s < call.input.dim 1, ∀ i < call.input.dim 3 / 2,
    table.cellOf [(call.position_id positionOf b s).toNat, i]
      = toUInt (uintOfInt (call.args.word (b * call.input.dim 1 + s)) * call.input.dim 3 + i)

/-- Rows of pairs only, no more than `2 ^ 32` elements in row-major order, and tables that fit. -/
structure Rowed : Prop where
  even : call.input.dim 3 % 2 = 0
  elements : call.input.dims.prod ≤ uintRange
  rows : ∀ idx, Within call.input.dims idx → call.input.cellOf idx = position call.input.dims idx
  cos : call.TableFits positionOf call.cos_cache
  sin : call.TableFits positionOf call.sin_cache

/-- The condition: there are no elements, or they are in such rows. -/
def Rotatable : Prop := call.input.dims.prod = 0 ∨ call.Rowed positionOf

/-! ### What is known of a launch -/

/-- The sizes of an accepted call, and what is launched. -/
structure Accepted (run : RopeEmbeddingRun) : Prop where
  dims : call.input.dims = [call.input.dim 0, call.input.dim 1, call.input.dim 2, call.input.dim 3]
  cos_columns : call.cos_cache.dim 1 = call.input.dim 3
  sin_columns : call.sin_cache.dim 1 = call.input.dim 3
  kernel : run.kernel.2 = call.input.dtype
  batch : run.args.batch = call.input.dim 0
  seq_len : run.args.seq_len = call.input.dim 1
  num_heads : run.args.num_heads = call.input.dim 2
  head_dim : run.args.head_dim = call.input.dim 3
  position_ids : run.args.word = call.args.word
  grid : run.grid
    = call.input.dim 0 * call.input.dim 1 * call.input.dim 2 * (call.input.dim 3 / 2)

variable {call} {run : RopeEmbeddingRun}

theorem prod_eq (h : call.Accepted run) : call.input.dims.prod
    = call.input.dim 0 * call.input.dim 1 * call.input.dim 2 * call.input.dim 3 := by
  rw [h.dims]
  simp [Nat.mul_assoc]

/-- The number of pairs is counted without wrapping around. -/
theorem toSizeT_total_threads
    (hdims : call.input.dims
      = [call.input.dim 0, call.input.dim 1, call.input.dim 2, call.input.dim 3]) :
    toSizeT call.total_threads
      = call.input.dim 0 * call.input.dim 1 * call.input.dim 2 * (call.input.dim 3 / 2) := by
  have hlt : call.input.dim 0 * call.input.dim 1 * call.input.dim 2 * (call.input.dim 3 / 2)
      < 2 ^ 63 := by
    refine lt_of_le_of_lt ?_ call.input.numel_lt
    rw [hdims]
    simp only [List.prod_cons, List.prod_nil, Nat.mul_one, ← Nat.mul_assoc]
    exact Nat.mul_le_mul_left _ (Nat.div_le_self _ 2)
  have hmul : ∀ m n : ℤ, toInt64 (toInt64 m * n) = toInt64 (m * n) := by
    intro m n
    unfold toInt64
    rw [Int.bmod_mul_bmod]
  have htotal : call.total_threads = toInt64 ((call.input.dim 0 * call.input.dim 1
      * call.input.dim 2 * (call.input.dim 3 / 2) : ℕ) : ℤ) := by
    unfold total_threads
    rw [hmul, mul_assoc, hmul, ← mul_assoc, Nat.cast_mul, Nat.cast_mul, Nat.cast_mul]
  rw [htotal, toInt64_natCast hlt]
  apply toSizeT_natCast
  unfold sizeTRange
  omega

theorem accepted {allocate : MNShape → MNDType → Except MNException Unit}
    {pipeline : String → Except MNException Unit}
    (h : call.ropeEmbedding allocate pipeline = .ok run) : call.Accepted run := by
  unfold ropeEmbedding at h
  obtain ⟨u, hcheck, h⟩ := bind_eq_ok.mp h
  obtain ⟨-, -, h⟩ := bind_eq_ok.mp h
  obtain ⟨kernel, hkernel, h⟩ := bind_eq_ok.mp h
  obtain ⟨-, -, h⟩ := bind_eq_ok.mp h
  obtain ⟨u', huint, h⟩ := bind_eq_ok.mp h
  obtain rfl := Except.ok.inj h
  unfold check at hcheck
  obtain ⟨hndim, hcheck⟩ := mnCheck_bind_eq_ok.mp hcheck
  obtain ⟨-, hcheck⟩ := mnCheck_bind_eq_ok.mp hcheck
  obtain ⟨-, hcheck⟩ := mnCheck_bind_eq_ok.mp hcheck
  obtain ⟨⟨hcos, hsin⟩, -⟩ := mnCheck_bind_eq_ok.mp hcheck
  unfold uintCheck at huint
  obtain ⟨hbatch, huint⟩ := mnCheck_bind_eq_ok.mp huint
  obtain ⟨hseq, huint⟩ := mnCheck_bind_eq_ok.mp huint
  obtain ⟨hheads, huint⟩ := mnCheck_bind_eq_ok.mp huint
  have hdim := mnCheck_eq_ok.mp huint
  have hword : ∀ {n : ℕ}, n ≤ UINT32_MAX → toUInt n = n := by
    intro n hn
    apply toUInt_of_lt
    unfold UINT32_MAX uintRange at hn
    unfold uintRange
    omega
  have hdims := dims_eq_four hndim
  refine ⟨hdims, hcos, hsin, ?_, hword hbatch, hword hseq, hword hheads, hword hdim, rfl, ?_⟩
  · unfold ropeEmbeddingKernel at hkernel
    split_ifs at hkernel with h32 h16
    · rw [← Except.ok.inj hkernel, h32]
    · rw [← Except.ok.inj hkernel, h16]
  · dsimp only
    exact toSizeT_total_threads hdims

/-! ### Elements and threads -/

/-- A multi-index of four dimensions. -/
theorem exists_of_within {A B C D : ℕ} {idx : List ℕ} (h : Within [A, B, C, D] idx) :
    ∃ i < A, ∃ j < B, ∃ k < C, ∃ l < D, idx = [i, j, k, l] := by
  match idx, h with
  | [i, j, k, l], ⟨hi, hj, hk, hl, _⟩ => exact ⟨i, hi, j, hj, k, hk, l, hl, rfl⟩

/-- The output is in row-major order. -/
theorem output_cellOf {idx : List ℕ} (hidx : Within call.input.dims idx) :
    call.output.cellOf idx = position call.input.dims idx :=
  MNShape.linear_contiguousStrides call.input.numel_lt hidx

section Accepted

variable (ha : call.Accepted run)

include ha

theorem Accepted.within {b s h d : ℕ} (hb : b < call.input.dim 0) (hs : s < call.input.dim 1)
    (hh : h < call.input.dim 2) (hd : d < call.input.dim 3) :
    Within call.input.dims [b, s, h, d] := by
  rw [ha.dims]
  exact ⟨hb, hs, hh, hd, trivial⟩

/-- The number of an element. -/
theorem Accepted.position_eq (b s h d : ℕ) : position call.input.dims [b, s, h, d]
    = ((b * call.input.dim 1 + s) * call.input.dim 2 + h) * call.input.dim 3 + d := by
  rw [ha.dims, position_quad]

/-- The number of a pair tells its coordinates. -/
theorem Accepted.decode {b s h i : ℕ} (hs : s < call.input.dim 1) (hh : h < call.input.dim 2)
    (hi : i < call.input.dim 3 / 2) :
    let gid := ((b * call.input.dim 1 + s) * call.input.dim 2 + h) * (call.input.dim 3 / 2) + i
    run.args.batch_idx gid = b ∧ run.args.seq_idx gid = s ∧ run.args.head_idx gid = h ∧
      run.args.pair_idx gid = i := by
  intro gid
  unfold batch_idx seq_idx head_idx
    pair_idx half_dim
  rw [ha.head_dim, ha.num_heads, ha.seq_len]
  refine ⟨?_, ?_, ?_, ?_⟩
  · rw [rowMajor_div hi, rowMajor_div hh, rowMajor_div hs]
  · rw [rowMajor_div hi, rowMajor_div hh, rowMajor_mod hs]
  · rw [rowMajor_div hi, rowMajor_mod hh]
  · exact rowMajor_mod hi

/-- And the coordinates tell the number. -/
theorem Accepted.encode {gid : ℕ} (hgid : gid < run.grid) :
    (run.args.batch_idx gid < call.input.dim 0 ∧ run.args.seq_idx gid < call.input.dim 1 ∧
      run.args.head_idx gid < call.input.dim 2 ∧
      run.args.pair_idx gid < call.input.dim 3 / 2) ∧
      ((run.args.batch_idx gid * call.input.dim 1 + run.args.seq_idx gid) * call.input.dim 2
        + run.args.head_idx gid) * (call.input.dim 3 / 2) + run.args.pair_idx gid = gid := by
  rw [ha.grid] at hgid
  have hpos : 0 < call.input.dim 0 * call.input.dim 1 * call.input.dim 2
      * (call.input.dim 3 / 2) := by omega
  have hhalf := Nat.pos_of_mul_pos_left hpos
  have hheads := Nat.pos_of_mul_pos_left (Nat.pos_of_mul_pos_right hpos)
  have hseq := Nat.pos_of_mul_pos_left (Nat.pos_of_mul_pos_right (Nat.pos_of_mul_pos_right hpos))
  unfold batch_idx seq_idx head_idx
    pair_idx half_dim
  rw [ha.head_dim, ha.num_heads, ha.seq_len]
  refine ⟨⟨?_, Nat.mod_lt _ hseq, Nat.mod_lt _ hheads, Nat.mod_lt _ hhalf⟩, ?_⟩
  · rw [Nat.div_div_eq_div_mul, Nat.div_div_eq_div_mul]
    apply Nat.div_lt_of_lt_mul
    calc gid < _ := hgid
      _ = _ := by ring
  · rw [Nat.div_add_mod', Nat.div_add_mod', Nat.div_add_mod']

end Accepted

section Elements

variable (ha : call.Accepted run) (hmax : call.input.dims.prod ≤ uintRange)

include ha hmax

theorem Accepted.grid_lt (hpos : call.input.dims.prod ≠ 0) : run.grid < uintRange := by
  rw [ha.grid]
  rw [prod_eq ha] at hmax hpos
  have hD : call.input.dim 3 / 2 < call.input.dim 3 := by
    have hne : call.input.dim 3 ≠ 0 := by
      intro h0
      rw [h0, Nat.mul_zero] at hpos
      exact hpos rfl
    omega
  have hN : 0 < call.input.dim 0 * call.input.dim 1 * call.input.dim 2 :=
    Nat.pos_of_mul_pos_right (Nat.pos_of_ne_zero hpos)
  exact lt_of_lt_of_le (Nat.mul_lt_mul_of_pos_left hD hN) hmax

/-- There is one thread for each pair. -/
theorem Accepted.threads_eq (hpos : call.input.dims.prod ≠ 0) :
    run.threads = List.range run.grid := by
  have hlt := ha.grid_lt hmax hpos
  have htotal : run.args.total_pairs = run.grid := by
    unfold total_pairs half_dim
    rw [ha.batch, ha.seq_len, ha.num_heads, ha.head_dim, ← ha.grid]
    exact toUInt_of_lt hlt
  have hmap : (List.range run.grid).map toUInt = List.range run.grid := by
    conv_rhs => rw [← List.map_id (List.range run.grid)]
    apply List.map_congr_left
    intro gid hgid
    exact toUInt_of_lt ((List.mem_range.mp hgid).trans hlt)
  unfold RopeEmbeddingRun.threads
  rw [hmap, htotal, List.filter_eq_self]
  intro gid hgid
  simpa using hgid

/-- The cell of a component is its number. -/
theorem Accepted.cell_eq {gid : ℕ} (hgid : gid < run.grid) (second : Bool) :
    run.args.cell (gid, second) = position call.input.dims [run.args.batch_idx gid,
      run.args.seq_idx gid, run.args.head_idx gid, 2 * run.args.pair_idx gid + second.toNat] := by
  obtain ⟨⟨hb, hs, hh, hi⟩, -⟩ := ha.encode hgid
  have hbit := Bool.toNat_lt second
  have hlt := Strided.position_lt (ha.within hb hs hh
    (by omega : 2 * run.args.pair_idx gid + second.toNat < call.input.dim 3))
  rw [ha.position_eq] at hlt ⊢
  unfold cell input_base
  rw [ha.seq_len, ha.num_heads, ha.head_dim, Nat.add_assoc, toUInt_toUInt_add]
  exact toUInt_of_lt (lt_of_lt_of_le hlt hmax)

/-- The cell of a table is that of the `int32_t` that has been read. -/
theorem Accepted.cacheCell_eq (hpos : call.input.dims.prod ≠ 0) {gid : ℕ}
    (hgid : gid < run.grid) : run.args.cacheCell gid
      = toUInt (uintOfInt (call.args.word (run.args.batch_idx gid * call.input.dim 1
          + run.args.seq_idx gid)) * call.input.dim 3 + run.args.pair_idx gid) := by
  obtain ⟨⟨hb, hs, -⟩, -⟩ := ha.encode hgid
  have hrow : run.args.batch_idx gid * call.input.dim 1 + run.args.seq_idx gid < uintRange := by
    have hlt := SimdMatrix.rowMajor_lt hb hs
    rw [prod_eq ha] at hmax hpos
    rw [Nat.mul_assoc] at hmax hpos
    have hrest := Nat.pos_of_mul_pos_left (Nat.pos_of_ne_zero hpos)
    have hle := Nat.le_mul_of_pos_right (call.input.dim 0 * call.input.dim 1) hrest
    omega
  unfold cacheCell pos
  rw [ha.seq_len, ha.head_dim, ha.position_ids, toUInt_of_lt hrow, toUInt_toUInt_add]

/-- A cell tells the thread and the component. -/
theorem Accepted.slot_eq {gid b s h i : ℕ} {second second' : Bool} (hgid : gid < run.grid)
    (hb : b < call.input.dim 0) (hs : s < call.input.dim 1) (hh : h < call.input.dim 2)
    (hi : i < call.input.dim 3 / 2)
    (heq : run.args.cell (gid, second)
      = position call.input.dims [b, s, h, 2 * i + second'.toNat]) :
    (run.args.batch_idx gid = b ∧ run.args.seq_idx gid = s ∧ run.args.head_idx gid = h ∧
      run.args.pair_idx gid = i) ∧ second = second' := by
  obtain ⟨⟨hb', hs', hh', hi'⟩, -⟩ := ha.encode hgid
  have hbit := Bool.toNat_lt second
  have hbit' := Bool.toNat_lt second'
  rw [ha.cell_eq hmax hgid second] at heq
  have hidx := Strided.position_inj (ha.within hb' hs' hh' (by omega))
      (ha.within hb hs hh (by omega))
    heq
  simp only [List.cons.injEq] at hidx
  obtain ⟨hbatch, hseq, hhead, hpair, -⟩ := hidx
  refine ⟨⟨hbatch, hseq, hhead, by omega⟩, ?_⟩
  cases second <;> cases second' <;> simp at hpair ⊢ <;> omega

end Elements

/-! ### The condition is exact -/

variable {positionOf : MNDType → List UInt8 → ℤ}

/-- The thread that writes an element, and where it has its pair from. -/
theorem Rotated.exists_thread (h : call.Rotated positionOf run) {b s hd i : ℕ}
    (hb : b < call.input.dim 0) (hs : s < call.input.dim 1) (hh : hd < call.input.dim 2)
    (hi : i < call.input.dim 3 / 2) (second : Bool) :
    ∃ gid ∈ run.threads,
      call.output.cellAt run.kernel.2 (run.args.cell (gid, second))
        = call.output.placeOf [b, s, hd, 2 * i + second.toNat] ∧
      call.reads run gid = call.pairReads positionOf b s hd i := by
  obtain ⟨gid, hgid, hplace, hreads, -⟩ := exists_slot_of_touching fun load cos sin =>
    (h.output load cos sin).pairs b hb s hs hd hh i hi second
  exact ⟨gid, hgid, hplace, hreads⟩

/-- There is no element outside of the pairs: no thread copies one. -/
theorem Rotated.even (h : call.Rotated positionOf run) (ha : call.Accepted run)
    (hpos : call.input.dims.prod ≠ 0) : call.input.dim 3 % 2 = 0 := by
  by_contra hodd
  rw [prod_eq ha] at hpos
  have hpos' := Nat.pos_of_ne_zero hpos
  have hN := Nat.pos_of_mul_pos_right hpos'
  have hh := Nat.pos_of_mul_pos_left hN
  have hs := Nat.pos_of_mul_pos_left (Nat.pos_of_mul_pos_right hN)
  have hb := Nat.pos_of_mul_pos_right (Nat.pos_of_mul_pos_right hN)
  -- tables of zeros, and an input of ones
  have hcopied := (h.output (fun _ => 1) (fun _ => 0) fun _ => 0).rest 0 hb 0 hs 0 hh
    (call.input.dim 3 - 1) (by omega) (by omega)
  have hmem := List.mem_singleton_self (⟨call.output.placeOf [0, 0, 0, call.input.dim 3 - 1], 1⟩ :
    Store Place ℝ)
  rw [← hcopied] at hmem
  have hstore := (List.mem_filter.mp hmem).1
  unfold storesOf stores writes at hstore
  obtain ⟨slot, -, hvalue⟩ := List.mem_map.mp hstore
  have hone := congrArg Store.value hvalue
  simp [Rotation.Reads.rotation, component_rotate] at hone

/-- Every element has a number of 32 bits. -/
theorem Rotated.elements (h : call.Rotated positionOf run) (ha : call.Accepted run)
    (heven : call.input.dim 3 % 2 = 0) : call.input.dims.prod ≤ uintRange := by
  by_contra hgt
  have hwithin := Strided.within_unravel (by omega : uintRange < call.input.dims.prod)
  have hnumber := Strided.position_unravel (by omega : uintRange < call.input.dims.prod)
  have hquad := hwithin
  rw [ha.dims] at hquad
  obtain ⟨b, hb, s, hs, hd, hh, d, hdim, hidx⟩ := exists_of_within hquad
  rw [← ha.dims] at hidx
  rw [hidx] at hwithin hnumber
  obtain ⟨gid, -, hplace, -⟩ := h.exists_thread hb hs hh (by omega : d / 2 < call.input.dim 3 / 2)
    (decide (d % 2 = 1))
  rw [two_mul_div_add_bit] at hplace
  have hcell := (cellAt_eq_placeOf.mp hplace).2
  rw [output_cellOf hwithin, hnumber] at hcell
  have hlt : run.args.cell (gid, decide (d % 2 = 1)) < uintRange := toUInt_lt _
  omega

/-- What is needed for the rotation. -/
theorem Rotated.rowed (h : call.Rotated positionOf run) (ha : call.Accepted run)
    (hpos : call.input.dims.prod ≠ 0) : call.Rowed positionOf := by
  have heven := h.even ha hpos
  have hmax := h.elements ha heven
  have hthread : ∀ {gid}, gid ∈ run.threads → gid < run.grid := by
    intro gid hgid
    rw [ha.threads_eq hmax hpos] at hgid
    exact List.mem_range.mp hgid
  have hpos' := hpos
  rw [prod_eq ha] at hpos'
  have hh : 0 < call.input.dim 2 :=
    Nat.pos_of_mul_pos_left (Nat.pos_of_mul_pos_right (Nat.pos_of_ne_zero hpos'))
  -- the thread of the first head reads the tables for the others, too
  have hangle : ∀ {b s i}, b < call.input.dim 0 → s < call.input.dim 1 →
      i < call.input.dim 3 / 2 → ∃ gid, run.args.cacheCell gid
        = toUInt (uintOfInt (call.args.word (b * call.input.dim 1 + s)) * call.input.dim 3 + i) ∧
        call.reads run gid = call.pairReads positionOf b s 0 i := by
    intro b s i hb hs hi
    obtain ⟨gid, hgid, hplace, hreads⟩ := h.exists_thread hb hs hh hi false
    have hcell := (cellAt_eq_placeOf.mp hplace).2
    have hfirst : 2 * i + false.toNat < call.input.dim 3 := by
      simp only [Bool.toNat_false]
      omega
    rw [output_cellOf (ha.within hb hs hh hfirst)] at hcell
    obtain ⟨⟨rfl, rfl, -, rfl⟩, -⟩ := ha.slot_eq hmax (hthread hgid) hb hs hh hi hcell
    exact ⟨gid, ha.cacheCell_eq hmax hpos (hthread hgid), hreads⟩
  have hfits : ∀ {table : MNTensor Unit}, (∀ b < call.input.dim 0, ∀ s < call.input.dim 1,
      ∀ i < call.input.dim 3 / 2, ∃ gid, run.args.cacheCell gid
        = toUInt (uintOfInt (call.args.word (b * call.input.dim 1 + s)) * call.input.dim 3 + i) ∧
        table.cellAt run.kernel.2 (run.args.cacheCell gid)
          = table.placeOf [(call.position_id positionOf b s).toNat, i]) →
      call.TableFits positionOf table := by
    intro table htable
    have hD : 0 < call.input.dim 3 := Nat.pos_of_mul_pos_left (Nat.pos_of_ne_zero hpos')
    have hN := Nat.pos_of_mul_pos_right (Nat.pos_of_mul_pos_right (Nat.pos_of_ne_zero hpos'))
    obtain ⟨gid, -, hplace⟩ := htable 0 (Nat.pos_of_mul_pos_right hN) 0
      (Nat.pos_of_mul_pos_left hN) 0 (by omega)
    refine ⟨?_, ?_⟩
    · rw [← (cellAt_eq_placeOf.mp hplace).1, ha.kernel]
    · intro b hb s hs i hi
      obtain ⟨gid, hcell, hplace⟩ := htable b hb s hs i hi
      rw [← hcell]
      exact (cellAt_eq_placeOf.mp hplace).2.symm
  refine ⟨heven, hmax, ?_, ?_, ?_⟩
  · intro idx hidx
    have hquad := hidx
    rw [ha.dims] at hquad
    obtain ⟨b, hb, s, hs, hd, hh, d, hdim, rfl⟩ := exists_of_within hquad
    obtain ⟨gid, hgid, hplace, hreads⟩ := h.exists_thread hb hs hh
      (by omega : d / 2 < call.input.dim 3 / 2) (decide (d % 2 = 1))
    rw [two_mul_div_add_bit] at hplace
    have hcell := (cellAt_eq_placeOf.mp hplace).2
    rw [output_cellOf hidx] at hcell
    rw [← hcell]
    -- the component is read where it is written
    have hfirst := congrArg Rotation.Reads.first hreads
    have hsecond := congrArg Rotation.Reads.second hreads
    have hdiv := two_mul_div_add_bit d
    rcases Nat.mod_two_eq_zero_or_one d with hmod | hmod
    · simp only [hmod, zero_ne_one, decide_false, Bool.toNat_false, Nat.add_zero] at hdiv ⊢
      have hcell' := (cellAt_eq_placeOf.mp hfirst).2
      rw [hdiv] at hcell'
      exact hcell'.symm
    · simp only [hmod, decide_true, Bool.toNat_true] at hdiv ⊢
      have hcell' := (cellAt_eq_placeOf.mp hsecond).2
      rw [hdiv] at hcell'
      exact hcell'.symm
  · apply hfits
    intro b hb s hs i hi
    obtain ⟨gid, hcell, hreads⟩ := hangle hb hs hi
    exact ⟨gid, hcell, congrArg Rotation.Reads.cos hreads⟩
  · apply hfits
    intro b hb s hs i hi
    obtain ⟨gid, hcell, hreads⟩ := hangle hb hs hi
    exact ⟨gid, hcell, congrArg Rotation.Reads.sin hreads⟩

/-- Nothing is to be rotated, and nothing is. -/
theorem Accepted.rotated_of_empty (ha : call.Accepted run) (hzero : call.input.dims.prod = 0) :
    call.Rotated positionOf run := by
  rw [prod_eq ha] at hzero
  have hnone : run.threads = [] := by
    have hgrid : run.grid = 0 := by
      rw [ha.grid]
      rcases Nat.mul_eq_zero.mp hzero with hN | hD
      · rw [hN, Nat.zero_mul]
      · rw [hD]
        rfl
    unfold RopeEmbeddingRun.threads
    rw [hgrid]
    rfl
  have hempty : ∀ b < call.input.dim 0, ∀ s < call.input.dim 1, ∀ h < call.input.dim 2,
      ∀ d < call.input.dim 3, False := by
    intro b hb s hs h hh d hd
    have hpos : 0 < call.input.dim 0 * call.input.dim 1 * call.input.dim 2 * call.input.dim 3 := by
      have hb' : 0 < call.input.dim 0 := by omega
      have hs' : 0 < call.input.dim 1 := by omega
      have hh' : 0 < call.input.dim 2 := by omega
      have hd' : 0 < call.input.dim 3 := by omega
      positivity
    omega
  refine ⟨fun load cos sin => ⟨?_, ?_, ?_⟩, ?_, ?_⟩
  · intro b hb s hs h hh i hi
    exact (hempty b hb s hs h hh (2 * i) (by omega)).elim
  · intro b hb s hs h hh d hd
    exact (hempty b hb s hs h hh d hd).elim
  · intro w hw
    unfold storesOf stores writes slots at hw
    rw [hnone] at hw
    simp at hw
  · intro gid hgid
    rw [hnone] at hgid
    cases hgid
  · intro gid hgid
    rw [hnone] at hgid
    cases hgid

/-- Rows of pairs are rotated. -/
theorem Rowed.rotated (h : call.Rowed positionOf) (ha : call.Accepted run)
    (hcov : call.Covered positionOf) (hpos : call.input.dims.prod ≠ 0) :
    call.Rotated positionOf run := by
  have hmax := h.elements
  have hthreads := ha.threads_eq hmax hpos
  have hslot : ∀ {slot}, slot ∈ slots run.threads → slot.1 < run.grid := by
    intro slot hslot
    have hmem := mem_slots.mp hslot
    rw [hthreads] at hmem
    exact List.mem_range.mp hmem
  have hdtype : run.kernel.2 = call.output.dtype := ha.kernel
  have hinside : ∀ {table : MNTensor Unit}, call.TableFits positionOf table →
      table.dim 1 = call.input.dim 3 →
      (∀ b < call.input.dim 0, ∀ s < call.input.dim 1,
        (call.position_id positionOf b s).toNat < table.dim 0) → run.ReadsInside table := by
    intro table hfits hcolumns hrows gid hgid
    rw [hthreads] at hgid
    have hlt := List.mem_range.mp hgid
    obtain ⟨⟨hb, hs, -, hi⟩, -⟩ := ha.encode hlt
    refine ⟨_, hrows _ hb _ hs, run.args.pair_idx gid, by omega, ?_⟩
    rw [cellAt_eq_placeOf, ha.cacheCell_eq hmax hpos hlt, hfits.angles _ hb _ hs _ hi,
      ha.kernel]
    exact ⟨hfits.dtype.symm, rfl⟩
  refine ⟨fun load cos sin => ⟨?_, ?_, ?_⟩,
    hinside h.cos ha.cos_columns fun b hb s hs => (hcov b hb s hs).2.1,
    hinside h.sin ha.sin_columns fun b hb s hs => (hcov b hb s hs).2.2⟩
  · intro b hb s hs hd hh i hi second
    have hbit := Bool.toNat_lt second
    obtain ⟨gid, hgid⟩ : ∃ gid, gid
        = ((b * call.input.dim 1 + s) * call.input.dim 2 + hd) * (call.input.dim 3 / 2) + i :=
      ⟨_, rfl⟩
    have hlt : gid < run.grid := by
      rw [ha.grid, hgid]
      exact SimdMatrix.rowMajor_lt (SimdMatrix.rowMajor_lt (SimdMatrix.rowMajor_lt hb hs) hh) hi
    obtain ⟨hbatch, hseq, hhead, hpair⟩ := ha.decode hs hh hi (b := b)
    rw [← hgid] at hbatch hseq hhead hpair
    have hcell : ∀ second', run.args.cell (gid, second')
        = position call.input.dims [b, s, hd, 2 * i + second'.toNat] := by
      intro second'
      rw [ha.cell_eq hmax hlt, hbatch, hseq, hhead, hpair]
    have hin := ha.within hb hs hh (by omega : 2 * i + second.toNat < call.input.dim 3)
    have hplace : call.output.cellAt run.kernel.2 (run.args.cell (gid, second))
        = call.output.placeOf [b, s, hd, 2 * i + second.toNat] := by
      rw [cellAt_eq_placeOf, hcell, output_cellOf hin]
      exact ⟨hdtype, rfl⟩
    have hreads : call.reads run gid = call.pairReads positionOf b s hd i := by
      have hangle := ha.cacheCell_eq hmax hpos hlt
      rw [hbatch, hseq, hpair] at hangle
      unfold reads pairReads
      rw [Reads.mk.injEq]
      simp only [cellAt_eq_placeOf]
      refine ⟨⟨ha.kernel, ?_⟩, ⟨ha.kernel, ?_⟩, ⟨ha.kernel.trans h.cos.dtype.symm, ?_⟩,
        ha.kernel.trans h.sin.dtype.symm, ?_⟩
      · rw [hcell]
        exact (h.rows [b, s, hd, 2 * i] (ha.within hb hs hh (by omega))).symm
      · rw [hcell]
        exact (h.rows [b, s, hd, 2 * i + 1] (ha.within hb hs hh (by omega))).symm
      · rw [hangle, h.cos.angles b hb s hs i hi]
      · rw [hangle, h.sin.angles b hb s hs i hi]
    have hmem : gid ∈ run.threads := by
      rw [hthreads]
      exact List.mem_range.mpr hlt
    have hnodup : run.threads.Nodup := by
      rw [hthreads]
      exact List.nodup_range
    rw [← hplace, ← hreads]
    refine touching_eq_singleton hnodup hmem ?_ ?_ load cos sin
    · rw [hplace, Place.overlaps_self]
    · rintro ⟨gid', second'⟩ hmem' hhit
      have hlt' : gid' < run.grid := hslot hmem'
      rw [cellAt_overlaps hdtype, output_cellOf hin] at hhit
      obtain ⟨⟨hb', hs', hh', hi'⟩, rfl⟩ := ha.slot_eq hmax hlt' hb hs hh hi hhit
      have hencode := (ha.encode hlt').2
      rw [hb', hs', hh', hi', ← hgid] at hencode
      rw [hencode]
  · intro b hb s hs hd hh d hdim hodd
    have heven := h.even
    omega
  · refine (forall_writes_iff call.output.IsElement _).mpr ?_
    rintro ⟨gid, second⟩ hmem
    have hlt : gid < run.grid := hslot hmem
    have hbit := Bool.toNat_lt second
    obtain ⟨⟨hb, hs, hh, hi⟩, -⟩ := ha.encode hlt
    refine ⟨_, hb, _, hs, _, hh, 2 * run.args.pair_idx gid + second.toNat, ?_, ?_⟩
    · change _ < call.input.dim 3
      omega
    · rw [cellAt_eq_placeOf, ha.cell_eq hmax hlt,
        output_cellOf (ha.within hb hs hh (by omega))]
      exact ⟨ha.kernel, rfl⟩

/-- A launch rotates every pair of an accepted input exactly where there is no element, or the
    elements are in such rows. -/
theorem rotated_iff (ha : call.Accepted run) (hcov : call.Covered positionOf) :
    call.Rotated positionOf run ↔ call.Rotatable positionOf := by
  unfold Rotatable
  by_cases hpos : call.input.dims.prod = 0
  · exact iff_of_true (ha.rotated_of_empty hpos) (.inl hpos)
  · constructor
    · intro h
      exact .inr (h.rowed ha hpos)
    · rintro (hzero | h)
      · exact absurd hzero hpos
      · exact h.rotated ha hcov hpos

end RopeEmbeddingCall

end MetalNative
