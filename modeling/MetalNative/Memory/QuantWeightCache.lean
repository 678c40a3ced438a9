import MetalNative.Core.Tensor
import MetalNative.Lib.Keyed
import MetalNative.Memory.BudgetController

namespace MetalNative

/-!
# `QuantWeightCache`: quantised weights with half-precision copies

A translation of `quant_weight_cache.mm` and of the kernels of `dequantize_kernel.metal`.  The
copy of a weight is made by the first `get_dequantized` and kept while memory pressure allows; a
dequantised tensor is described by the kernel launch that fills it.

The scalars are any commutative ring: a product is exact, before it is rounded to a half.  A
kernel sees the codes and the scales as they lie in the buffers, from the offsets on that they
are bound at.

* `DequantizeKernel.run` — one thread of a kernel: the scales it reads and what it writes.
* `QuantWeightCache.registerWeight`, `getDequantized`, `evictDequantized` — the calls.
-/

/-- `QuantFormat`. -/
inductive QuantFormat where
  | INT8
  | INT4
  deriving DecidableEq, Repr

/-! ### The kernels -/

/-- The kernels of `dequantize_kernel.metal`. -/
inductive DequantizeKernel where
  | int8
  | int4
  | int8Vec
  | int4Vec
  deriving DecidableEq, Repr

/-- The name in the shader library. -/
def DequantizeKernel.name : DequantizeKernel → String
  | .int8 => "dequantize_int8_to_fp16"
  | .int4 => "dequantize_int4_to_fp16"
  | .int8Vec => "dequantize_int8_to_fp16_vec"
  | .int4Vec => "dequantize_int4_to_fp16_vec"

/-- The `uint` arguments of a kernel. -/
structure DequantizeArgs where
  num_elements : ℕ
  group_size : ℕ
  deriving DecidableEq, Repr

/-- The contents of the two buffers that a kernel reads. -/
structure DequantizeOperands (α : Type) where
  input : ℕ → UInt8
  scales : ℕ → α

/-- What one thread does: the scales it reads, and the elements it writes with their values. -/
structure DequantizeRun (α : Type) where
  scaleReads : List ℕ := []
  writes : List (ℕ × α) := []

/-- The value of a `char`. -/
def charCode (v : UInt8) : ℤ := v.toInt8.toInt

/-- The code in the low nibble of a byte. -/
def lowCode (packed : UInt8) : ℤ := (packed &&& 0x0F).toNat - 8

/-- The code in the high nibble. -/
def highCode (packed : UInt8) : ℤ := ((packed >>> 4) &&& 0x0F).toNat - 8

/-- The group of an element; `none` is a division by zero. -/
def DequantizeArgs.group (args : DequantizeArgs) (e : ℕ) : Option ℕ :=
  if args.group_size = 0 then none else some (e / args.group_size)

section Kernels

variable {α : Type} [CommRing α]

/-- The store of a `half4`: four codes, multiplied by one scale. -/
def storeHalf4 (base : ℕ) (codes : ℕ → ℤ) (scale : α) : List (ℕ × α) :=
  [(base, (codes 0 : α) * scale), (base + 1, (codes 1 : α) * scale),
    (base + 2, (codes 2 : α) * scale), (base + 3, (codes 3 : α) * scale)]

/-- `dequantize_int8_to_fp16`. -/
def dequantizeInt8 (args : DequantizeArgs) (ops : DequantizeOperands α) (gid : ℕ) :
    Option (DequantizeRun α) :=
  if gid ≥ args.num_elements then some {}
  else do
    let group_idx ← args.group gid
    some ⟨[group_idx], [(gid, (charCode (ops.input gid) : α) * ops.scales group_idx)]⟩

/-- `dequantize_int4_to_fp16`. -/
def dequantizeInt4 (args : DequantizeArgs) (ops : DequantizeOperands α) (gid : ℕ) :
    Option (DequantizeRun α) :=
  let byte_idx := gid
  let out_idx := toUInt (gid * 2)
  if out_idx ≥ args.num_elements then some {}
  else do
    let packed := ops.input byte_idx
    let group_idx_lo ← args.group out_idx
    let lo := (out_idx, (lowCode packed : α) * ops.scales group_idx_lo)
    if toUInt (out_idx + 1) < args.num_elements then
      let group_idx_hi ← args.group (toUInt (out_idx + 1))
      let hi := (toUInt (out_idx + 1), (highCode packed : α) * ops.scales group_idx_hi)
      some ⟨[group_idx_lo, group_idx_hi], [lo, hi]⟩
    else some ⟨[group_idx_lo], [lo]⟩

/-- The second scale of a vector kernel is read only when its group is another one. -/
def secondScale (ops : DequantizeOperands α) (group_idx group_idx2 : ℕ) : List ℕ × α :=
  if group_idx2 ≠ group_idx then ([group_idx2], ops.scales group_idx2)
  else ([], ops.scales group_idx)

/-- `dequantize_int8_to_fp16_vec`: eight elements, one scale for each half of them. -/
def dequantizeInt8Vec (args : DequantizeArgs) (ops : DequantizeOperands α) (gid : ℕ) :
    Option (DequantizeRun α) :=
  let base := toUInt (gid * 8)
  if base ≥ args.num_elements then some {}
  else do
    let codes := fun i => charCode (ops.input (base + i))
    let group_idx ← args.group base
    let scale := ops.scales group_idx
    let out0 := storeHalf4 base codes scale
    if toUInt (base + 4) < args.num_elements then
      let group_idx2 ← args.group (toUInt (base + 4))
      let second := secondScale ops group_idx group_idx2
      let out1 := storeHalf4 (base + 4) (fun i => codes (4 + i)) second.2
      some ⟨group_idx :: second.1, out0 ++ out1⟩
    else some ⟨[group_idx], out0⟩

/-- `dequantize_int4_to_fp16_vec`: eight bytes, one scale for each half of them. -/
def dequantizeInt4Vec (args : DequantizeArgs) (ops : DequantizeOperands α) (gid : ℕ) :
    Option (DequantizeRun α) :=
  let byte_base := toUInt (gid * 8)
  let out_base := toUInt (byte_base * 2)
  if out_base ≥ args.num_elements then some {}
  else do
    let codes := fun i =>
      if i % 2 = 0 then lowCode (ops.input (byte_base + i / 2))
      else highCode (ops.input (byte_base + i / 2))
    let group_idx ← args.group out_base
    let scale := ops.scales group_idx
    let out0 := storeHalf4 out_base codes scale
    let out1 := storeHalf4 (out_base + 4) (fun i => codes (4 + i)) scale
    let group_idx2 ← args.group (toUInt (out_base + 8))
    let second := secondScale ops group_idx group_idx2
    let out2 := storeHalf4 (out_base + 8) (fun i => codes (8 + i)) second.2
    let out3 := storeHalf4 (out_base + 12) (fun i => codes (12 + i)) second.2
    some ⟨group_idx :: second.1,
      out0 ++ (if toUInt (out_base + 4) < args.num_elements then out1 else []) ++
        (if toUInt (out_base + 8) < args.num_elements then out2 else []) ++
        if toUInt (out_base + 12) < args.num_elements then out3 else []⟩

/-- The thread at position `gid` of the grid; `none` is a division by zero. -/
def DequantizeKernel.run : DequantizeKernel → DequantizeArgs → DequantizeOperands α → ℕ →
    Option (DequantizeRun α)
  | .int8 => dequantizeInt8
  | .int4 => dequantizeInt4
  | .int8Vec => dequantizeInt8Vec
  | .int4Vec => dequantizeInt4Vec

end Kernels

/-! ### The data -/

/-- A tensor handle, as the cache uses it. -/
structure WeightTensor where
  buffer : ObjId
  offset : ℕ
  dims : List ℕ
  numel_lt : dims.prod < 2 ^ 63
  deriving DecidableEq

/-- `shape()`. -/
def WeightTensor.shape (t : WeightTensor) : MNShape := t.dims.map Nat.cast

/-- `numel()`. -/
def WeightTensor.numel (t : WeightTensor) : ℤ := t.shape.numel

/-- The launch of a kernel. -/
structure DequantizeLaunch where
  kernel : DequantizeKernel
  grid_size_count : ℕ
  quantized : WeightTensor
  scales : WeightTensor
  args : DequantizeArgs
  deriving DecidableEq

/-- The tensor that `get_dequantized` returns, with the launch that fills it. -/
structure DequantizedTensor where
  shape : MNShape
  launch : DequantizeLaunch
  deriving DecidableEq

/-- `WeightEntry`. -/
structure WeightEntry where
  quantized : WeightTensor
  scales : WeightTensor
  dequantized : Option DequantizedTensor
  format : QuantFormat
  num_elements : ℕ
  group_size : ℕ
  deriving DecidableEq

/-- The arguments of `register_weight`, but for the name. -/
structure QuantWeight where
  quantized : WeightTensor
  scales : WeightTensor
  format : QuantFormat
  deriving DecidableEq

/-- `QuantWeightCache::Impl`. -/
structure QuantWeightCache where
  weights : List (String × WeightEntry) := []
  deriving DecidableEq

/-- What the surroundings answer to `get_dequantized`: the allocator, the kernel registry and the
    budget controller. -/
structure DequantizeAnswers where
  empty : Except MNException Unit
  pipeline : Except MNException Unit
  pressure : MemoryPressureLevel

namespace QuantWeight

/-- `num_elements`: an INT4 weight has two elements in a byte. -/
def numElements (w : QuantWeight) : ℕ :=
  match w.format with
  | .INT8 => toSizeT w.quantized.numel
  | .INT4 => toSizeT (toInt64 (w.quantized.numel * 2))

/-- `group_size`. -/
def groupSize (w : QuantWeight) : ℕ :=
  match w.format with
  | .INT8 => toSizeT (w.quantized.numel.tdiv w.scales.numel)
  | .INT4 => w.numElements / toSizeT w.scales.numel

/-- The entry made for a weight. -/
def entry (w : QuantWeight) : WeightEntry :=
  { quantized := w.quantized
    scales := w.scales
    dequantized := none
    format := w.format
    num_elements := w.numElements
    group_size := w.groupSize }

end QuantWeight

namespace WeightEntry

/-- `output_shape`; `none` is `dims.back()` of an empty vector. -/
def outputShape (entry : WeightEntry) : Option MNShape :=
  match entry.format with
  | .INT8 => some entry.quantized.shape
  | .INT4 => entry.quantized.shape.getLast?.map fun d =>
      entry.quantized.shape.dropLast ++ [toInt64 (d * 2)]

/-- The kernel and the grid, chosen by the number of elements or of bytes. -/
def selectKernel (entry : WeightEntry) : DequantizeKernel × ℕ :=
  match entry.format with
  | .INT8 =>
    if entry.num_elements ≥ 128 ∧ entry.num_elements % 8 = 0 then
      (.int8Vec, (entry.num_elements + 7) % sizeTRange / 8)
    else (.int8, entry.num_elements)
  | .INT4 =>
    let num_bytes := toSizeT entry.quantized.numel
    if num_bytes ≥ 8 ∧ num_bytes % 8 = 0 then (.int4Vec, (num_bytes + 7) % sizeTRange / 8)
    else (.int4, num_bytes)

/-- The launch that dequantises the entry. -/
def launch (entry : WeightEntry) : DequantizeLaunch :=
  { kernel := entry.selectKernel.1
    grid_size_count := entry.selectKernel.2
    quantized := entry.quantized
    scales := entry.scales
    args := ⟨toUInt entry.num_elements, toUInt entry.group_size⟩ }

end WeightEntry

namespace QuantWeightCache

/-- `register_weight`; `none` is a division by zero. -/
def registerWeight (c : QuantWeightCache) (name : String) (w : QuantWeight) :
    Option QuantWeightCache :=
  if w.scales.numel = 0 then none
  else some { c with weights := Keyed.insert Prod.fst c.weights (name, w.entry) }

/-- `get_dequantized`; `none` is undefined behaviour. -/
def getDequantized (c : QuantWeightCache) (name : String) (answers : DequantizeAnswers) :
    Option (Outcome QuantWeightCache DequantizedTensor) :=
  match Keyed.find Prod.fst c.weights name with
  | none =>
    some (.error ⟨.InvalidArgument, "quant_weight_cache: weight not registered"⟩, c)
  | some (_, entry) =>
    match entry.dequantized with
    | some t => some (.ok t, c)
    | none =>
      entry.outputShape.map fun shape =>
        match emptyTensorCheck shape .Float16 answers.empty with
        | .error e => (.error e, c)
        | .ok () =>
          match answers.pipeline with
          | .error e => (.error e, c)
          | .ok () =>
            let t : DequantizedTensor := ⟨shape, entry.launch⟩
            -- cache if budget allows
            if pressureMultiplier answers.pressure ≥ 1 / 2 then
              let kept := (name, { entry with dequantized := some t })
              (.ok t, { c with weights := Keyed.insert Prod.fst c.weights kept })
            else (.ok t, c)

/-- `evict_dequantized`. -/
def evictDequantized (c : QuantWeightCache) : QuantWeightCache :=
  { c with weights := c.weights.map fun p => (p.1, { p.2 with dequantized := none }) }

end QuantWeightCache

/-- A call of the cache's interface. -/
inductive QuantCall where
  | registerWeight (name : String) (w : QuantWeight)
  | getDequantized (name : String) (answers : DequantizeAnswers)
  | evictDequantized

/-- One call. -/
def quantStep (c : QuantWeightCache) : QuantCall → Option QuantWeightCache
  | .registerWeight name w => c.registerWeight name w
  | .getDequantized name answers => (c.getDequantized name answers).map Prod.snd
  | .evictDequantized => some c.evictDequantized

end MetalNative
