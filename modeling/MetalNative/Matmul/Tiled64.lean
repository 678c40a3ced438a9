import MetalNative.Lib.SimdGroups
import MetalNative.Matmul.Product
import MetalNative.Matmul.SimdTiles

namespace MetalNative

open ThreadLoop SimdMatrix SimdGroups

/-!
# The 64×64 kernels of `matmul`

A translation of `matmul_tiled64` and of its kernels.  Eight SIMD groups compute a tile of the
result, with two buffers for the tiles of `A` and `B` in turn.  They differ in how the accumulators
reach `C`: through the memory of the tiles (fp16), through `temp_out` (bf16), or directly (fp32).

* `tiled64Kernel` — the kernel that the host selects.
* `Tiled64Run.exec`, `Tiled64Run.program` — the instructions of the groups.
* `Tiled64Run.writtenBy` — the elements of `C` that a group writes.
* `Tiled64Covers` — what the kernels are meant to do.
-/

/-- The kernels of `matmul_tiled64_kernel.metal`. -/
inductive Tiled64Kernel where
  | fp16
  | fp32
  | bf16
  | batched_fp16
  deriving DecidableEq, Repr

/-- The kernel that `matmul_tiled64` selects. -/
def tiled64Kernel (dtype : MNDType) (batch_size : ℤ) : Tiled64Kernel :=
  if batch_size > 1 then
    if dtype = .Float16 then .batched_fp16 else .fp32
  else if dtype = .Float16 then .fp16
  else if dtype = .BFloat16 then .bf16
  else .fp32

/-- A `float` as two 16-bit words: it can be taken apart and put together again, and zero is made of
zeros. -/
structure FloatWords (α : Type*) [Zero α] where
  low : α → α
  high : α → α
  join : α → α → α
  join_split : ∀ x, join (low x) (high x) = x
  low_zero : low 0 = 0
  high_zero : high 0 = 0

/-- Two words of zeros are zero. -/
theorem FloatWords.join_zero {α : Type*} [Zero α] (words : FloatWords α) : words.join 0 0 = 0 := by
  have h := words.join_split 0
  rw [words.low_zero, words.high_zero] at h
  exact h

/-- The instructions of a SIMD group; a lane's access is one instruction. -/
inductive Tiled64Instr where
  | loadA (tile idx : ℕ)
  | loadB (tile idx : ℕ)
  | multiply (tile k : ℕ)
  | storeScratch (i j : Fin 4)
  | convert (t : ℕ)
  | storeBlock (i j : Fin 4)
  | storeTemp (i j : Fin 4)
  | writeTemp (i j : Fin 4) (t : ℕ)
  deriving DecidableEq, Repr

/-- The barriers of the kernels: behind the first tile, behind the next one, behind the scratch
memory, and in the two branches for whole blocks and for those at the edge. -/
inductive Tiled64Barrier where
  | firstTile
  | nextTile
  | scratch
  | block
  | edge
  deriving DecidableEq, Repr

/-- The memory of a threadgroup, with the accumulators of its groups, and the result.  The cells of
`shared_A_buf` and `shared_B_buf` are elements; each branch has its own `temp_out`. -/
structure Tiled64Memory (α : Type*) where
  shared_A_buf : ℕ → α
  shared_B_buf : ℕ → α
  acc : Fin 8 → Fin 4 → Fin 4 → Mat8 α
  temp_block : ℕ → α
  temp_edge : ℕ → α
  C : ℕ → α

/-- A launch: the kernel, whether it takes pairs of elements for one `float`, and its arguments. -/
structure Tiled64Run where
  kernel : Tiled64Kernel
  wide : Bool
  args : SimdArguments

namespace Tiled64Run

variable {α : Type*} (run : Tiled64Run)

/-- `sg_row`. -/
def sg_row (g : Fin 8) : ℕ := g / 2 * 16

/-- `sg_col`. -/
def sg_col (g : Fin 8) : ℕ := g % 2 * 32

/-- The offset of a batch, which only the batched kernel adds. -/
def batchOffset (batch_idx batch_stride : ℕ) : ℕ :=
  match run.kernel with
  | .batched_fp16 => toUInt (batch_idx * batch_stride)
  | _ => 0

/-- `num_k_tiles`. -/
def num_k_tiles : ℕ := toUInt (run.args.K + 31) / 32

/-- The element at `p` as the kernel reads it. -/
def readDevice [Zero α] (words : FloatWords α) (mem : ℕ → α) (p : ℕ) : α :=
  if run.wide then words.join (mem (2 * p)) (mem (2 * p + 1)) else mem p

/-- The elements that the kernel writes at `p`. -/
def devicePlaces (p : ℕ) : List ℕ := if run.wide then [2 * p, 2 * p + 1] else [p]

/-- `mem` with `v` at `p` as the kernel writes it. -/
def writeDevice [Zero α] (words : FloatWords α) (p : ℕ) (v : α) (mem : ℕ → α) : ℕ → α :=
  if run.wide then
    Function.update (Function.update mem (2 * p) (words.low v)) (2 * p + 1) (words.high v)
  else Function.update mem p v

/-- `gr` of a block. -/
def blockRow (gid : ThreadgroupId) (g : Fin 8) (i : Fin 4) : ℕ :=
  toUInt (gid.y * 64 + sg_row g + i * 8)

/-- `gc` of a block. -/
def blockCol (gid : ThreadgroupId) (g : Fin 8) (j : Fin 4) : ℕ :=
  toUInt (gid.x * 64 + sg_col g + j * 8)

/-- The test for a whole block. -/
def wholeBlock (gid : ThreadgroupId) (g : Fin 8) (i j : Fin 4) : Bool :=
  toUInt (blockRow gid g i + 7) < run.args.M ∧ toUInt (blockCol gid g j + 7) < run.args.N

/-- The element of a block that item `t` of a loop over the block writes, or `none` outside of `C`.
The branch of bf16 for whole blocks does not test. -/
def tempTarget (gid : ThreadgroupId) (g : Fin 8) (i j : Fin 4) (t : ℕ) : Option ℕ :=
  let global_r := toUInt (blockRow gid g i + t / 8)
  let global_c := toUInt (blockCol gid g j + t % 8)
  if run.wholeBlock gid g i j = true ∨ global_r < run.args.M ∧ global_c < run.args.N then
    some (toUInt (global_r * run.args.ldc + global_c))
  else none

/-- The element that item `t` of the conversion writes, or `none` outside of `C`. -/
def convertTarget (gid : ThreadgroupId) (g : Fin 8) (t : ℕ) : Option ℕ :=
  let global_r := toUInt (gid.y * 64 + sg_row g + t / 32)
  let global_c := toUInt (gid.x * 64 + sg_col g + t % 32)
  if global_r < run.args.M ∧ global_c < run.args.N then
    some (run.batchOffset gid.z run.args.batch_stride_c
      + toUInt (global_r * run.args.ldc + global_c))
  else none

/-- The elements of a block that a store to `C` reaches. -/
def blockTargets (gid : ThreadgroupId) (g : Fin 8) (i j : Fin 4) : List (Fin 8 × Fin 8 × ℕ) :=
  (List.finRange 8 ×ˢ List.finRange 8).map fun rc =>
    (rc.1, rc.2, toUInt (blockRow gid g i * run.args.ldc) + blockCol gid g j
      + rc.1 * run.args.ldc + rc.2)

section Exec

variable [Semiring α] (words : FloatWords α) (gid : ThreadgroupId) (A B : ℕ → α)

/-- Element `idx` of a tile of `A`. -/
def tileA (tile idx : ℕ) : α :=
  tileElement (run.readDevice words A) run.args.transpose_a run.args.M run.args.K run.args.lda
    (run.batchOffset gid.z run.args.batch_stride_a) (toUInt (gid.y * 64 + idx / 32))
    (toUInt (tile * 32 + idx % 32))

/-- Element `idx` of a tile of `B`. -/
def tileB (tile idx : ℕ) : α :=
  tileElement (run.readDevice words B) run.args.transpose_b run.args.K run.args.N run.args.ldb
    (run.batchOffset gid.z run.args.batch_stride_b) (toUInt (tile * 32 + idx / 64))
    (toUInt (gid.x * 64 + idx % 64))

/-- An 8×8 block stored as `float` into a memory of 16-bit words. -/
def storeFloats (m : Mat8 α) (base stride : ℕ) (mem : ℕ → α) : ℕ → α :=
  storeAll ((List.finRange 8 ×ˢ List.finRange 8) ×ˢ [false, true])
    (fun x => 2 * (base + x.1.1 * stride + x.1.2) + if x.2 then 1 else 0)
    (fun x => if x.2 then words.high (m x.1.1 x.1.2) else words.low (m x.1.1 x.1.2)) mem

/-- Where `sg_scratch` of a group starts in its buffer, in `float`s. -/
def sg_scratch (g : Fin 8) : ℕ := if g < 4 then g * (16 * 32) else (g - 4) * (16 * 32)

/-- What an instruction of group `g` does. -/
def exec (g : Fin 8) : Tiled64Instr → Tiled64Memory α → Tiled64Memory α
  | .loadA tile idx, s =>
    let cell := tile % 2 * (64 * 32) + (idx / 32 * 32 + idx % 32)
    let value := run.tileA words gid A tile idx
    { s with shared_A_buf := Function.update s.shared_A_buf cell value }
  | .loadB tile idx, s =>
    let cell := tile % 2 * (32 * 64) + (idx / 64 * 64 + idx % 64)
    let value := run.tileB words gid B tile idx
    { s with shared_B_buf := Function.update s.shared_B_buf cell value }
  | .multiply tile k, s =>
    let a (i : Fin 4) := load s.shared_A_buf (tile % 2 * (64 * 32) + (sg_row g + i * 8) * 32 + k) 32
    let b (j : Fin 4) := load s.shared_B_buf (tile % 2 * (32 * 64) + k * 64 + (sg_col g + j * 8)) 64
    { s with acc := Function.update s.acc g fun i j =>
      multiplyAccumulate (a i) (b j) (s.acc g i j) }
  | .storeScratch i j, s =>
    let base := sg_scratch g + i * 8 * 32 + j * 8
    if g < 4 then
      { s with shared_A_buf := storeFloats words (s.acc g i j) base 32 s.shared_A_buf }
    else
      { s with shared_B_buf := storeFloats words (s.acc g i j) base 32 s.shared_B_buf }
  | .convert t, s =>
    let q := sg_scratch g + (t / 32 * 32 + t % 32)
    let buf := if g < 4 then s.shared_A_buf else s.shared_B_buf
    (run.convertTarget gid g t).elim s fun p =>
      { s with C := Function.update s.C p (words.join (buf (2 * q)) (buf (2 * q + 1))) }
  | .storeBlock i j, s =>
    { s with C := (run.blockTargets gid g i j).foldl (fun mem x =>
      run.writeDevice words x.2.2 (s.acc g i j x.1 x.2.1) mem) s.C }
  | .storeTemp i j, s =>
    if run.wholeBlock gid g i j then
      { s with temp_block := store (s.acc g i j) 0 8 s.temp_block }
    else
      { s with temp_edge := store (s.acc g i j) 0 8 s.temp_edge }
  | .writeTemp i j t, s =>
    let temp := if run.wholeBlock gid g i j then s.temp_block else s.temp_edge
    (run.tempTarget gid g i j t).elim s fun p =>
      { s with C := run.writeDevice words p (temp (t / 8 * 8 + t % 8)) s.C }

end Exec

/-! ### The programs -/

/-- `load_tile_A` and `load_tile_B`. -/
def loads (tile : ℕ) (g : Fin 8) : List Tiled64Instr :=
  (laneLoop (g * 32) 256 (64 * 32)).map (.loadA tile)
    ++ (laneLoop (g * 32) 256 (32 * 64)).map (.loadB tile)

/-- The products of a group on one tile. -/
def multiplies (tile : ℕ) (_ : Fin 8) : List Tiled64Instr := (stride 0 8 32).map (.multiply tile)

/-- One turn of the loop over the tiles: the next tile is loaded while this one is multiplied. -/
def turnOf (n tile : ℕ) (g : Fin 8) : Program Tiled64Instr Tiled64Barrier :=
  if tile + 1 < n then
    code (loads (tile + 1) g ++ multiplies tile g) ++ [.inr .nextTile]
  else code (multiplies tile g)

/-- The blocks of a group, in the order of its loops. -/
def blocks : List (Fin 4 × Fin 4) := List.finRange 4 ×ˢ List.finRange 4

/-- The stores of a group to its scratch memory. -/
def scratchStores (_ : Fin 8) : List Tiled64Instr := blocks.map fun ij => .storeScratch ij.1 ij.2

/-- The conversions of a group. -/
def converts (_ : Fin 8) : List Tiled64Instr := (laneLoop 0 32 (16 * 32)).map .convert

/-- The writes of a group from `temp_out`. -/
def tempWrites (ij : Fin 4 × Fin 4) : List Tiled64Instr :=
  (laneLoop 0 32 64).map (.writeTemp ij.1 ij.2)

/-- A block that goes through `temp_out`, with the barrier of its branch. -/
def throughTemp (gid : ThreadgroupId) (g : Fin 8) (ij : Fin 4 × Fin 4) :
    Program Tiled64Instr Tiled64Barrier :=
  code [.storeTemp ij.1 ij.2]
    ++ .inr (if run.wholeBlock gid g ij.1 ij.2 then .block else .edge) :: code (tempWrites ij)

/-- How the accumulators reach `C`. -/
def epilogue (gid : ThreadgroupId) (g : Fin 8) : Program Tiled64Instr Tiled64Barrier :=
  match run.kernel with
  | .fp16 | .batched_fp16 => code (scratchStores g) ++ .inr .scratch :: code (converts g)
  | .bf16 => blocks.flatMap (run.throughTemp gid g)
  | .fp32 => blocks.flatMap fun ij =>
      if run.wholeBlock gid g ij.1 ij.2 then code [.storeBlock ij.1 ij.2]
      else run.throughTemp gid g ij

/-- The kernel. -/
def program (gid : ThreadgroupId) (g : Fin 8) : Program Tiled64Instr Tiled64Barrier :=
  code (loads 0 g) ++ .inr .firstTile
    :: ((List.range run.num_k_tiles).flatMap (fun tile => turnOf run.num_k_tiles tile g)
      ++ run.epilogue gid g)

/-! ### What is written -/

/-- The elements of `C` that an instruction writes. -/
def targets (gid : ThreadgroupId) (g : Fin 8) : Tiled64Instr → List ℕ
  | .convert t => (run.convertTarget gid g t).toList
  | .storeBlock i j => (run.blockTargets gid g i j).flatMap fun x => run.devicePlaces x.2.2
  | .writeTemp i j t => (run.tempTarget gid g i j t).toList.flatMap run.devicePlaces
  | _ => []

/-- The elements of `C` that a group writes. -/
def writtenBy (gid : ThreadgroupId) (g : Fin 8) : List ℕ :=
  (run.program gid g).flatMap fun x => x.elim (run.targets gid g) fun _ => []

end Tiled64Run

/-! ### The coverage -/

/-- Where element `(i, j)` of a batch stands in `C`. -/
def matmulPlace (d : MatmulDims) (batch i j : ℕ) : ℕ := batch * (d.M * d.N) + (i * d.N + j)

/-- **The coverage of `C`.** In whatever order the groups of a threadgroup run between the barriers,
none of them waits forever and what they write are entries of the product; no element is written by
two groups, and every element is written. -/
structure Tiled64Covers {α : Type*} [Semiring α] (words : FloatWords α) (run : Tiled64Run)
    (transpose_a transpose_b : Bool) (d : MatmulDims) (batch_size : ℕ) : Prop where
  writes : ∀ gid : ThreadgroupId, gid.InGrid 64 d batch_size →
    ∀ (A B : ℕ → α) (s : Tiled64Memory α),
      Always (run.exec words gid A B) ⟨run.program gid, { s with acc := 0 }⟩ fun t =>
        ∀ g, ∀ p ∈ run.writtenBy gid g, ∃ batch i j, batch < batch_size ∧ i < d.M ∧ j < d.N ∧
          p = matmulPlace d batch i j ∧
          t.C p = dotProduct transpose_a transpose_b d A B batch i j
  disjoint : ∀ gid gid' : ThreadgroupId, gid.InGrid 64 d batch_size →
    gid'.InGrid 64 d batch_size → ∀ g g', (gid, g) ≠ (gid', g') →
      ∀ p ∈ run.writtenBy gid g, p ∉ run.writtenBy gid' g'
  covers : ∀ batch i j, batch < batch_size → i < d.M → j < d.N →
    ∃ gid : ThreadgroupId, gid.InGrid 64 d batch_size ∧
      ∃ g, matmulPlace d batch i j ∈ run.writtenBy gid g

/-- What `matmul_tiled64` launches: its kernel takes two elements of 16 bits for one `float` when it
is the fp32 kernel on such elements. -/
def tiled64Run {α : Type*} (a b : MNTensor α) (transpose_a transpose_b : Bool) (d : MatmulDims) :
    Tiled64Run where
  kernel := tiled64Kernel a.dtype (batchSize a)
  wide := decide (tiled64Kernel a.dtype (batchSize a) = .fp32 ∧ a.dtype ≠ .Float32)
  args := hostArguments a b transpose_a transpose_b d

/-- What the path with 64×64 tiles is chosen for: `Float32` of these sizes goes to the CPU. -/
structure Tiled64Chosen {α : Type*} (a : MNTensor α) (d : MatmulDims) : Prop where
  M_le : d.M ≤ 512
  N_le : d.N ≤ 512
  K_le : d.K ≤ 512
  dtype : a.dtype = .Float16 ∨ a.dtype = .BFloat16

theorem matmulPath_tiled64 {α : Type*} {a b : MNTensor α} {d : MatmulDims}
    (h : matmulPath a b d = .Tiled64) : Tiled64Chosen a d := by
  unfold matmulPath at h
  by_cases hcpu : shouldUseCpuPath a b d = true
  · rw [if_pos hcpu] at h
    cases h
  · rw [if_neg hcpu] at h
    have hselect : selectKernel d a.dtype (a.isContiguous && b.isContiguous) = .Tiled64 := by
      cases hk : selectKernel d a.dtype (a.isContiguous && b.isContiguous) with
      | Tiled64 => rfl
      | VecMat =>
        simp only [hk] at h
        split_ifs at h
      | SIMD32 | MPSGraph | CPU =>
        simp only [hk] at h
        cases h
    unfold selectKernel kSIMDMatmulMaxDim at hselect
    split_ifs at hselect with hcont hdtype hvec hsmall hlarge
    obtain ⟨hM, hN, hK⟩ := hlarge
    refine ⟨hM, hN, hK, ?_⟩
    by_contra hother
    have hfloat : a.dtype = .Float32 := by tauto
    -- contiguous and small: this is what the CPU path takes
    unfold shouldUseCpuPath at hcpu
    simp only [Bool.and_eq_true] at hcont
    simp [hfloat, hcont.1, hcont.2, hM, hN, hK] at hcpu

end MetalNative
