import MetalNative.Attention.FusedQkv
import MetalNative.Core.Places
import MetalNative.Core.Words
import MetalNative.Lib.Rotation

namespace MetalNative

open Broadcast (Within)
open Rotation
open Strided (position)

/-!
# `fused_qkv_split_rope`: the kernels

A translation of the indices of `fused_qkv_rope.metal` and of the launch in `attention.mm`.  The
kernels whose names end in `vec4` are the other ones with the buffers in vectors of four elements:
a thread handles the two pairs of a vector.

* `QkvArgs` — the indices of a thread; `QkvRun.workers` — the pairs that the threads of the grid
  handle.
* `QkvCall.Split` — what a launch is to do.
* `QkvCall.Splittable` — where it does.
-/

/-! ### The kernels -/

/-- A part of `qkv_proj`, and the output that it goes to. -/
inductive QkvPart where
  | q
  | k
  | v
  deriving DecidableEq, Repr

/-- Its place among the three. -/
def QkvPart.index : QkvPart → ℕ
  | .q => 0
  | .k => 1
  | .v => 2

/-- The constants of a launch, and which of the two kernels it is. -/
structure QkvArgs where
  vectorized : Bool
  batch : ℕ
  seq_len : ℕ
  num_heads : ℕ
  head_dim : ℕ
  start_pos : ℕ
  deriving DecidableEq, Repr

/-- A thread of the grid, and which of its pairs. -/
structure QkvWorker where
  x : ℕ
  y : ℕ
  z : ℕ
  pair : ℕ
  deriving DecidableEq, Repr

namespace QkvArgs

variable (a : QkvArgs)

/-- The elements of a vector. -/
def lanes : ℕ := if a.vectorized then 4 else 1

/-- The pairs of a thread. -/
def threadPairs : ℕ := if a.vectorized then 2 else 1

/-- `half_dim`, or `head_dim_div4`: the threads of a row. -/
def columns : ℕ := a.head_dim / (2 * a.threadPairs)

/-- `head_dim`, or `head_dim_div4`: the vectors of a row. -/
def head_vectors : ℕ := a.head_dim / a.lanes

/-- `qkv_dim`, or `qkv_dim_div4`. -/
def qkv_vectors : ℕ := toUInt (3 * a.num_heads * a.head_dim) / a.lanes

/-- The threads that do not return at once. -/
def passes (x y z : ℕ) : Prop :=
  toUInt x < a.columns ∧ toUInt y < a.seq_len ∧ toUInt z < toUInt (a.batch * a.num_heads)

instance (x y z : ℕ) : Decidable (a.passes x y z) :=
  inferInstanceAs (Decidable (_ ∧ _ ∧ _))

/-- `b`. -/
def b (w : QkvWorker) : ℕ := toUInt w.z / a.num_heads

/-- `h`. -/
def h (w : QkvWorker) : ℕ := toUInt w.z % a.num_heads

/-- An element of a row: the first one of the pair or the second one. -/
def element (slot : QkvWorker × Bool) : ℕ :=
  2 * (a.threadPairs * toUInt slot.1.x + slot.1.pair) + slot.2.toNat

/-- `q_offset`, `k_offset` or `v_offset`, in vectors and without the part of the thread. -/
def offset (part : QkvPart) (w : QkvWorker) : ℕ :=
  toUInt (toUInt (a.b w * a.seq_len * a.qkv_vectors + toUInt w.y * a.qkv_vectors)
    + part.index * a.num_heads * a.head_vectors + a.h w * a.head_vectors)

/-- The cell of `qkv_proj` that is read. -/
def sourceCell (part : QkvPart) (slot : QkvWorker × Bool) : ℕ :=
  a.lanes * toUInt (a.offset part slot.1 + a.element slot / a.lanes) + a.element slot % a.lanes

/-- `out_base`, in vectors. -/
def out_base (w : QkvWorker) : ℕ :=
  toUInt (toUInt w.z * a.seq_len * a.head_vectors + toUInt w.y * a.head_vectors)

/-- The cell of an output that is written. -/
def outCell (slot : QkvWorker × Bool) : ℕ :=
  a.lanes * toUInt (a.out_base slot.1 + a.element slot / a.lanes) + a.element slot % a.lanes

/-- The first cell of the tables that is read: of the only element, or of a vector of four. -/
def tableCell (w : QkvWorker) : ℕ :=
  a.lanes * toUInt (toUInt (a.start_pos + toUInt w.y) * a.columns + toUInt w.x)

end QkvArgs

/-! ### The host -/

/-- A launch: the kernel, the constants and the threadgroups of the grid. -/
structure QkvRun where
  kernelName : String
  args : QkvArgs
  gridX : ℕ
  gridY : ℕ
  gridZ : ℕ
  deriving DecidableEq, Repr

namespace QkvRun

variable (run : QkvRun)

/-- The threads of the grid, in groups of 32, that do not return at once. -/
def threads : List (ℕ × ℕ × ℕ) :=
  (List.range (32 * run.gridX) ×ˢ List.range run.gridY ×ˢ List.range run.gridZ).filter
    fun tid => run.args.passes tid.1 tid.2.1 tid.2.2

/-- Their pairs. -/
def workers : List QkvWorker :=
  (run.threads ×ˢ List.range run.args.threadPairs).map fun p =>
    ⟨p.1.1, p.1.2.1, p.1.2.2, p.2⟩

end QkvRun

/-- Checks, one after the other. -/
def runChecks : List (Except MNException Unit) → Except MNException Unit
  | [] => .ok ()
  | c :: cs => do
    c
    runChecks cs

namespace QkvCall

variable (call : QkvCall)

/-- The constants, cast to `uint32_t`. -/
def args : QkvArgs where
  vectorized := call.useVectorized
  batch := uintOfInt call.batch
  seq_len := uintOfInt call.seq_len
  num_heads := uintOfInt call.num_heads
  head_dim := uintOfInt call.head_dim
  start_pos := uintOfInt call.start_pos

/-- `fused_qkv_split_rope`, up to the launch; `pipeline` is what the registry answers. -/
def fusedQkvSplitRope (pipeline : String → Except MNException Unit) :
    Except MNException QkvRun := do
  call.check
  let kernel_name ← call.kernelName
  pipeline kernel_name
  runChecks call.uintChecks
  return {
    kernelName := kernel_name
    args := call.args
    gridX := uintOfInt (if call.useVectorized then call.head_dim.tdiv 4 else call.head_dim.tdiv 2)
    gridY := toSizeT call.seq_len
    gridZ := toSizeT (toInt64 (call.batch * call.num_heads)) }

/-! ### What a call is to do -/

/-- The output of a part. -/
def out : QkvPart → MNTensor Unit
  | .q => call.q_out
  | .k => call.k_out
  | .v => call.v_out

/-- `batch`, as a number. -/
def batches : ℕ := call.batch.toNat

/-- `seq_len`, as a number. -/
def positions : ℕ := call.seq_len.toNat

/-- `num_heads`, as a number. -/
def heads : ℕ := call.num_heads.toNat

/-- `head_dim`, as a number. -/
def dims : ℕ := call.head_dim.toNat

/-- Where an element of a part is in `qkv_proj`. -/
def sourceIndex (part : QkvPart) (b h s d : ℕ) : List ℕ :=
  [b, s, (part.index * call.heads + h) * call.dims + d]

/-- Where a pair and the angle of its position and its place in the row are. -/
def pairReads (part : QkvPart) (b h s i : ℕ) : Rotation.Reads Place Place Place where
  first := call.qkv_proj.placeOf (call.sourceIndex part b h s (2 * i))
  second := call.qkv_proj.placeOf (call.sourceIndex part b h s (2 * i + 1))
  cos := call.cos_table.placeOf [call.start_pos.toNat + s, i]
  sin := call.sin_table.placeOf [call.start_pos.toNat + s, i]

variable (run : QkvRun)

/-- Where an element is read in `qkv_proj`. -/
def sourcePlace (part : QkvPart) (slot : QkvWorker × Bool) : Place :=
  call.qkv_proj.cellAt call.qkv_proj.dtype (run.args.sourceCell part slot)

/-- Where it is written. -/
def outPlace (part : QkvPart) (slot : QkvWorker × Bool) : Place :=
  (call.out part).cellAt call.qkv_proj.dtype (run.args.outCell slot)

/-- Where a pair and its angle are read; the second pair of a vector has the third lane. -/
def reads (part : QkvPart) (w : QkvWorker) : Rotation.Reads Place Place Place where
  first := call.sourcePlace run part (w, false)
  second := call.sourcePlace run part (w, true)
  cos := call.cos_table.cellAt call.qkv_proj.dtype (run.args.tableCell w + 2 * w.pair)
  sin := call.sin_table.cellAt call.qkv_proj.dtype (run.args.tableCell w + 2 * w.pair)

/-- The stores to `q_out` or to `k_out`. -/
def rotations (part : QkvPart) (load cos sin : Place → ℝ) : List (Store Place ℝ) :=
  stores run.workers (call.outPlace run part) (call.reads run part) load cos sin

/-- The stores to `v_out`. -/
def copies (load : Place → ℝ) : List (Store Place ℝ) :=
  writes (slots run.workers) (call.outPlace run .v) fun slot => load (call.sourcePlace run .v slot)

/-- An element of an output. -/
structure Element (b h s d : ℕ) : Prop where
  batch : b < call.batches
  head : h < call.heads
  position : s < call.positions
  dim : d < call.dims

/-- The threads read elements of a table only, also in the lanes that they do not use. -/
def ReadsInside (table : MNTensor Unit) : Prop :=
  ∀ w ∈ run.workers, ∀ lane < run.args.lanes, ∃ row < table.dim 0, ∃ col < table.dim 1,
    table.cellAt call.qkv_proj.dtype (run.args.tableCell w + lane) = table.placeOf [row, col]

/-- Every element of the outputs has its source in `qkv_proj` and is written exactly once, rotated
    or copied, whatever the inputs hold. -/
structure Split : Prop where
  sources : ∀ part {b h s d}, call.Element b h s d →
    Within call.qkv_proj.dims (call.sourceIndex part b h s d)
  rotated : ∀ part, part ≠ .v → ∀ {b h s i} (second : Bool),
    call.Element b h s (2 * i + second.toNat) → ∀ load cos sin,
      touching (fun p => p.overlaps ((call.out part).placeOf [b, h, s, 2 * i + second.toNat]))
          (call.rotations run part load cos sin)
        = [⟨(call.out part).placeOf [b, h, s, 2 * i + second.toNat],
            component second ((call.pairReads part b h s i).rotation load cos sin)⟩]
  copied : ∀ {b h s d}, call.Element b h s d → ∀ load,
    touching (fun p => p.overlaps (call.v_out.placeOf [b, h, s, d])) (call.copies run load)
      = [⟨call.v_out.placeOf [b, h, s, d],
          load (call.qkv_proj.placeOf (call.sourceIndex .v b h s d))⟩]
  cos : call.ReadsInside run call.cos_table
  sin : call.ReadsInside run call.sin_table

/-- Contiguous `qkv_proj`, outputs of its type, and positions of the tables. -/
structure Admissible : Prop where
  contiguous : call.qkv_proj.isContiguous = true
  dtype : ∀ part, (call.out part).dtype = call.qkv_proj.dtype
  start_pos : 0 ≤ call.start_pos
  cos_rows : call.start_pos.toNat + call.positions ≤ call.cos_table.dim 0
  sin_rows : call.start_pos.toNat + call.positions ≤ call.sin_table.dim 0

/-! ### The condition -/

/-- The cell that a thread reads first in a table, of position `s`. -/
def angleCell (s x : ℕ) : ℕ :=
  call.args.lanes
    * toUInt ((call.start_pos.toNat + s) * (call.dims / (2 * call.args.threadPairs)) + x)

/-- A table in which the angle of a pair is where the kernel reads it, in vectors of its own
    elements. -/
structure TableFits (table : MNTensor Unit) : Prop where
  angles : ∀ s < call.positions, ∀ i < call.dims / 2,
    table.cellOf [call.start_pos.toNat + s, i]
      = call.angleCell s (i / call.args.threadPairs) + 2 * (i % call.args.threadPairs)
  inside : ∀ s < call.positions, ∀ x < call.dims / (2 * call.args.threadPairs),
    ∀ lane < call.args.lanes, ∃ row < table.dim 0, ∃ col < table.dim 1,
      table.cellOf [row, col] = call.angleCell s x + lane

/-- Sizes for which no index wraps around, outputs in row-major order, and tables that fit. -/
structure Fits : Prop where
  grid : 32 * (call.dims / (2 * call.args.threadPairs)) ≤ uintRange
  elements : call.batches * call.positions * (3 * call.heads * call.dims)
    ≤ call.args.lanes * uintRange
  rows : call.batches * call.positions = 1 ∨ 3 * call.heads * call.dims < uintRange
  outputs : ∀ part {b h s d}, call.Element b h s d →
    (call.out part).cellOf [b, h, s, d]
      = ((b * call.heads + h) * call.positions + s) * call.dims + d
  cos : call.TableFits call.cos_table
  sin : call.TableFits call.sin_table

/-- The condition: there are no elements, or everything fits. -/
def Splittable : Prop :=
  (∀ b h s d, ¬ call.Element b h s d) ∨ call.Fits

end QkvCall

end MetalNative
