import MetalNative.Lib.SimdMatrix
import MetalNative.Core.Error

namespace MetalNative

open ThreadLoop SimdMatrix

/-!
# The kernels of `matmul_dequant_kernel.metal`

The two tiled kernels and the two vector-matrix kernels, for INT4 and for INT8.  A threadgroup of
128 threads loads a tile of activations and dequantises a tile of weights, multiplies them as 8×8
matrices, and takes the next tile along `K`.  The scalars are any commutative ring; a memory is a
function of the index.

* `aValue`, `bStores` — what the two loads of a tile store.
* `tileStep`, `tileLoop` — one tile, and the loop over `k_tile`.
* `tiledWrites`, `vecmatWrites` — what is stored to `C`.
* `DequantKernel.accesses` — every index that a threadgroup reads or writes, with its memory.
-/

/-- `QuantType`. -/
inductive QuantType where
  | INT4
  | INT8
  deriving DecidableEq, Repr

def TILE_M : ℕ := 64

def TILE_N : ℕ := 64

def TILE_K : ℕ := 32

/-- The kernels: their weights, and whether they are the vector-matrix ones. -/
structure DequantKernel where
  quant : QuantType
  vecmat : Bool
  deriving DecidableEq, Repr

namespace DequantKernel

/-- The name in the shader library. -/
def kernelName (kern : DequantKernel) : String :=
  match kern.quant, kern.vecmat with
  | .INT4, false => "dequant_matmul_int4_fp16"
  | .INT4, true => "dequant_matmul_int4_vecmat_fp16"
  | .INT8, false => "dequant_matmul_int8_fp16"
  | .INT8, true => "dequant_matmul_int8_vecmat_fp16"

end DequantKernel

/-- The `uint` arguments of a kernel; the vector-matrix kernels have no `M`, `lda` and `ldc`. -/
structure DequantArgs where
  M : ℕ
  N : ℕ
  K : ℕ
  group_size : ℕ
  lda : ℕ
  ldc : ℕ
  deriving DecidableEq, Repr

/-- The contents of the device buffers, from the offsets on that they are bound at. -/
structure DequantOperands (α : Type*) where
  A : ℕ → α
  B_packed : ℕ → UInt8
  scales : ℕ → α
  zeros : ℕ → α

/-! ### Indices -/

namespace DequantArgs

variable (args : DequantArgs)

/-- `num_groups_per_k`. -/
def numGroupsPerK : ℕ := toUInt (args.K + args.group_size - 1) / args.group_size

/-- The index of an activation. -/
def aIndex (global_r global_c : ℕ) : ℕ := toUInt (global_r * args.lda + global_c)

/-- The index of the byte with a weight: two weights of a row are packed into one byte in INT4. -/
def bIndex (quant : QuantType) (global_n global_k : ℕ) : ℕ :=
  match quant with
  | .INT4 => toUInt (global_n * (toUInt (args.K + 1) / 2) + global_k / 2)
  | .INT8 => toUInt (global_n * args.K + global_k)

/-- The index of a scale and of a zero point. -/
def groupIndex (global_n global_k : ℕ) : ℕ :=
  toUInt (global_n * args.numGroupsPerK + global_k / args.group_size)

/-- The index of an output. -/
def cIndex (gr gc : ℕ) : ℕ := toUInt (gr * args.ldc + gc)

end DequantArgs

variable {α : Type*} [CommRing α]

/-! ### Dequantisation -/

/-- `unpack_int4_pair`. -/
def unpackInt4Pair (packed : UInt8) (scale zero : α) : α × α :=
  let low : ℤ := (packed &&& 0x0F).toNat
  let high : ℤ := ((packed >>> 4) &&& 0x0F).toNat
  (((low - 8 : ℤ) : α) * scale - zero, ((high - 8 : ℤ) : α) * scale - zero)

/-- `dequant_int8`; a `char` is signed. -/
def dequantInt8 (val : UInt8) (scale zero : α) : α := ((val.toInt8.toInt : ℤ) : α) * scale - zero

/-! ### The loads of a tile -/

/-- The cell of `shared_A` that iteration `idx` of the first load stores to. -/
def aCell (kern : DequantKernel) (idx : ℕ) : ℕ :=
  if kern.vecmat then idx else idx / TILE_K * TILE_K + idx % TILE_K

/-- What it stores there. -/
def aValue (kern : DequantKernel) (args : DequantArgs) (ops : DequantOperands α)
    (row_base k_tile idx : ℕ) : α :=
  if kern.vecmat then
    let global_k := toUInt (k_tile + idx)
    if global_k < args.K then ops.A global_k else 0
  else
    let global_r := toUInt (row_base + idx / TILE_K)
    let global_c := toUInt (k_tile + idx % TILE_K)
    if global_r < args.M ∧ global_c < args.K then ops.A (args.aIndex global_r global_c) else 0

/-- The iterations of the first load. -/
def DequantKernel.aItems (kern : DequantKernel) : ℕ :=
  if kern.vecmat then TILE_K else TILE_M * TILE_K

/-- What iteration `p_idx` of an INT4 load stores to `shared_B`: both weights of a byte, the second
    one only where it is in the row. -/
def int4Stores (args : DequantArgs) (ops : DequantOperands α) (col_base k_tile p_idx : ℕ) :
    List (ℕ × α) :=
  let local_n := p_idx / (TILE_K / 2)
  let local_k := p_idx % (TILE_K / 2) * 2
  let global_n := toUInt (col_base + local_n)
  let global_k := toUInt (k_tile + local_k)
  if global_n < args.N ∧ global_k < args.K then
    let packed := ops.B_packed (args.bIndex .INT4 global_n global_k)
    let scale := ops.scales (args.groupIndex global_n global_k)
    let zero := ops.zeros (args.groupIndex global_n global_k)
    (local_k * TILE_N + local_n, (unpackInt4Pair packed scale zero).1) ::
      if local_k + 1 < TILE_K ∧ toUInt (global_k + 1) < args.K then
        [((local_k + 1) * TILE_N + local_n, (unpackInt4Pair packed scale zero).2)]
      else []
  else
    (if local_n < TILE_N ∧ local_k < TILE_K then [(local_k * TILE_N + local_n, 0)] else []) ++
      if local_n < TILE_N ∧ local_k + 1 < TILE_K then [((local_k + 1) * TILE_N + local_n, 0)]
      else []

/-- What iteration `idx` of an INT8 load stores to `shared_B`. -/
def int8Stores (args : DequantArgs) (ops : DequantOperands α) (col_base k_tile idx : ℕ) :
    List (ℕ × α) :=
  let local_k := idx / TILE_N
  let local_n := idx % TILE_N
  let global_k := toUInt (k_tile + local_k)
  let global_n := toUInt (col_base + local_n)
  if global_k < args.K ∧ global_n < args.N then
    let int8_val := ops.B_packed (args.bIndex .INT8 global_n global_k)
    let scale := ops.scales (args.groupIndex global_n global_k)
    let zero := ops.zeros (args.groupIndex global_n global_k)
    [(local_k * TILE_N + local_n, dequantInt8 int8_val scale zero)]
  else [(local_k * TILE_N + local_n, 0)]

/-- The second load. -/
def bStores (quant : QuantType) (args : DequantArgs) (ops : DequantOperands α)
    (col_base k_tile item : ℕ) : List (ℕ × α) :=
  match quant with
  | .INT4 => int4Stores args ops col_base k_tile item
  | .INT8 => int8Stores args ops col_base k_tile item

/-- The iterations of the second load. -/
def QuantType.bItems : QuantType → ℕ
  | .INT4 => TILE_N * (TILE_K / 2)
  | .INT8 => TILE_K * TILE_N

/-! ### The loop over the tiles -/

/-- What a launch leaves open: the orders of the loads of the tile at `k_tile`, and what the
    threadgroup memories hold before. -/
structure DequantSchedule (kern : DequantKernel) (α : Type*) where
  loadA : ℕ → LoopOrder 128 kern.aItems
  loadB : ℕ → LoopOrder 128 kern.quant.bItems
  shared_A : ℕ → α
  shared_B : ℕ → α
  shared_out : ℕ → ℕ → α

/-- One thread after the other, in memories that are zero. -/
def DequantSchedule.inOrder (kern : DequantKernel) (α : Type*) [Zero α] :
    DequantSchedule kern α where
  loadA := fun _ => .inOrder _
  loadB := fun _ => .inOrder _
  shared_A := fun _ => 0
  shared_B := fun _ => 0
  shared_out := fun _ _ => 0

/-- The threadgroup memories, and the accumulators of each SIMD group by block row and column. -/
structure TileState (α : Type*) where
  shared_A : ℕ → α
  shared_B : ℕ → α
  acc : ℕ → ℕ → ℕ → Mat8 α

namespace DequantKernel

variable (kern : DequantKernel)

/-- `sg_row` of SIMD group `g`. -/
def sgRow (g : ℕ) : ℕ := if kern.vecmat then 0 else g / 2 * 32

/-- `sg_col` of SIMD group `g`. -/
def sgCol (g : ℕ) : ℕ := if kern.vecmat then g % 4 * 16 else g % 2 * 32

/-- The rows of blocks of a SIMD group. -/
def blockRows : ℕ := if kern.vecmat then 1 else 4

/-- The columns of blocks of a SIMD group. -/
def blockCols : ℕ := if kern.vecmat then 2 else 4

/-- Where the matrix of activations of a block begins in `shared_A`. -/
def aBase (g i k : ℕ) : ℕ := (kern.sgRow g + i * 8) * TILE_K + k

/-- Where the matrix of weights of a block begins in `shared_B`. -/
def bBase (g j k : ℕ) : ℕ := k * TILE_N + (kern.sgCol g + j * 8)

/-- The accumulator of a block after the loop over `k` of a tile. -/
def accumulate (shared_A shared_B : ℕ → α) (g i j : ℕ) (acc : Mat8 α) : Mat8 α :=
  (stride 0 8 TILE_K).foldl
    (fun acc k => multiplyAccumulate (load shared_A (kern.aBase g i k) TILE_K)
      (load shared_B (kern.bBase g j k) TILE_N) acc)
    acc

/-- The body of the loop over `k_tile`. -/
def tileStep (args : DequantArgs) (ops : DequantOperands α) (σ : DequantSchedule kern α)
    (row_base col_base : ℕ) (s : TileState α) (k_tile : ℕ) : TileState α :=
  let shared_A := storeAll (σ.loadA k_tile).items (aCell kern)
    (aValue kern args ops row_base k_tile) s.shared_A
  let shared_B := storeAll
    ((σ.loadB k_tile).items.flatMap (bStores kern.quant args ops col_base k_tile)) Prod.fst Prod.snd
    s.shared_B
  { shared_A, shared_B
    acc := fun g i j => kern.accumulate shared_A shared_B g i j (s.acc g i j) }

/-- `k_tile += TILE_K` gets to `K` without wrapping around. -/
def loopEnds (args : DequantArgs) : Bool := args.K + TILE_K ≤ uintRange

/-- The loop over `k_tile`. -/
def tileLoop (args : DequantArgs) (ops : DequantOperands α) (σ : DequantSchedule kern α)
    (row_base col_base : ℕ) : TileState α :=
  (stride 0 TILE_K args.K).foldl (kern.tileStep args ops σ row_base col_base)
    ⟨σ.shared_A, σ.shared_B, fun _ _ _ => 0⟩

/-! ### The stores to `C` -/

/-- `shared_out` after a SIMD group of a tiled kernel has stored its blocks. -/
def tiledOut (acc : ℕ → ℕ → Mat8 α) (shared_out : ℕ → α) : ℕ → α :=
  storeBlocks (fun o => acc (o.1 / 8) (o.2 / 8)) 32 (blockGrid 4) shared_out

/-- The stores of the tiled kernels. -/
def tiledWrites (args : DequantArgs) (σ : DequantSchedule kern α) (row_base col_base : ℕ)
    (s : TileState α) : List (ℕ × α) :=
  (List.range 4).flatMap fun sg =>
    (allStrides 32 (32 * 32)).flatMap fun idx =>
      let gr := toUInt (row_base + kern.sgRow sg + idx / 32)
      let gc := toUInt (col_base + kern.sgCol sg + idx % 32)
      if gr < args.M ∧ gc < args.N then
        [(args.cIndex gr gc, tiledOut (s.acc sg) (σ.shared_out sg) (idx / 32 * 32 + idx % 32))]
      else []

/-- `my_out` after a SIMD group of a vector-matrix kernel has stored its two blocks. -/
def vecmatOut (acc : ℕ → ℕ → Mat8 α) (my_out : ℕ → α) : ℕ → α :=
  store (acc 0 1) (0 * 16 + 8) 16 (store (acc 0 0) (0 * 16 + 0) 16 my_out)

/-- The stores of the vector-matrix kernels; only row 0 of the blocks is read. -/
def vecmatWrites (args : DequantArgs) (σ : DequantSchedule kern α) (col_base : ℕ)
    (s : TileState α) : List (ℕ × α) :=
  (List.range 4).flatMap fun sg =>
    (allStrides 32 16).flatMap fun i =>
      let gc := toUInt (col_base + kern.sgCol sg + i)
      if gc < args.N then [(gc, vecmatOut (s.acc sg) (σ.shared_out sg) i)] else []

/-- What the threadgroup at `gid.x = x`, `gid.y = y` stores to `C`. -/
def writes (args : DequantArgs) (ops : DequantOperands α) (σ : DequantSchedule kern α) (x y : ℕ) :
    List (ℕ × α) :=
  let row_base := toUInt (y * TILE_M)
  let col_base := toUInt (x * TILE_N)
  if ¬ loopEnds args then []
  else
    let s := kern.tileLoop args ops σ row_base col_base
    if kern.vecmat then kern.vecmatWrites args σ col_base s
    else kern.tiledWrites args σ row_base col_base s

end DequantKernel

/-! ### Accesses -/

/-- The memories of a threadgroup. -/
inductive DequantMemory where
  | A
  | B_packed
  | C
  | scales
  | zeros
  | shared_A
  | shared_B
  | shared_out
  deriving DecidableEq, Repr

/-- The cells of `simdgroup_load` and `simdgroup_store`. -/
def blockCells (base stride : ℕ) : List ℕ :=
  (List.range 8).flatMap fun i => (List.range 8).map fun j => base + i * stride + j

/-- Operands that are zero; the places of the stores do not depend on the operands. -/
def zeroOperands : DequantOperands ℤ := ⟨fun _ => 0, fun _ => 0, fun _ => 0, fun _ => 0⟩

namespace DequantKernel

variable (kern : DequantKernel) (args : DequantArgs)

/-- The accesses of an iteration of the first load. -/
def aAccesses (row_base k_tile idx : ℕ) : List (DequantMemory × ℕ) :=
  (.shared_A, aCell kern idx) ::
    if kern.vecmat then
      let global_k := toUInt (k_tile + idx)
      if global_k < args.K then [(.A, global_k)] else []
    else
      let global_r := toUInt (row_base + idx / TILE_K)
      let global_c := toUInt (k_tile + idx % TILE_K)
      if global_r < args.M ∧ global_c < args.K then [(.A, args.aIndex global_r global_c)] else []

/-- The weight that an iteration of the second load begins with. -/
def bItem (col_base k_tile item : ℕ) : ℕ × ℕ :=
  match kern.quant with
  | .INT4 => (toUInt (col_base + item / (TILE_K / 2)),
      toUInt (k_tile + item % (TILE_K / 2) * 2))
  | .INT8 => (toUInt (col_base + item % TILE_N), toUInt (k_tile + item / TILE_N))

/-- The accesses of an iteration of the second load. -/
def bAccesses (col_base k_tile item : ℕ) : List (DequantMemory × ℕ) :=
  let w := kern.bItem col_base k_tile item
  (bStores kern.quant args zeroOperands col_base k_tile item).map
      (fun store => (.shared_B, store.1)) ++
    if w.1 < args.N ∧ w.2 < args.K then
      [(.B_packed, args.bIndex kern.quant w.1 w.2), (.scales, args.groupIndex w.1 w.2),
        (.zeros, args.groupIndex w.1 w.2)]
    else []

/-- The matrices that a SIMD group loads in a tile. -/
def loadAccesses (g : ℕ) : List (DequantMemory × ℕ) :=
  (stride 0 8 TILE_K).flatMap fun k =>
    ((List.range kern.blockRows).flatMap fun i =>
      (blockCells (kern.aBase g i k) TILE_K).map fun c => (.shared_A, c)) ++
    (List.range kern.blockCols).flatMap fun j =>
      (blockCells (kern.bBase g j k) TILE_N).map fun c => (.shared_B, c)

/-- The accesses of one tile. -/
def tileAccesses (row_base col_base k_tile : ℕ) : List (DequantMemory × ℕ) :=
  (allStrides 128 kern.aItems).flatMap (kern.aAccesses args row_base k_tile) ++
    (allStrides 128 kern.quant.bItems).flatMap (kern.bAccesses args col_base k_tile) ++
    (List.range 4).flatMap kern.loadAccesses

/-- The accesses to `shared_out`: the blocks that are stored and the cells that are read. -/
def outAccesses (sg : ℕ) : List (DequantMemory × ℕ) :=
  if kern.vecmat then
    (blockCells (sg * 128) 16 ++ blockCells (sg * 128 + 8) 16 ++
      (allStrides 32 16).map fun i => sg * 128 + i).map fun c => (.shared_out, c)
  else
    ((blockGrid 4).flatMap (fun o : ℕ × ℕ => blockCells (o.1 * 32 + o.2) 32) ++
      (allStrides 32 (32 * 32)).map fun idx => idx / 32 * 32 + idx % 32).map
        fun c => (.shared_out, c)

/-- Every access of the threadgroup at `gid.x = x`, `gid.y = y`. -/
def accesses (x y : ℕ) : List (DequantMemory × ℕ) :=
  let row_base := toUInt (y * TILE_M)
  let col_base := toUInt (x * TILE_N)
  (stride 0 TILE_K args.K).flatMap (kern.tileAccesses args row_base col_base) ++
    (List.range 4).flatMap kern.outAccesses ++
    (kern.writes args zeroOperands (.inOrder kern ℤ) x y).map fun w => (.C, w.1)

end DequantKernel

end MetalNative
