import MetalNative.Lib.SimdMatrix

namespace MetalNative

open ThreadLoop SimdMatrix

/-!
# The score tile of the flash-attention kernels

The part of `attention_kernel.metal` that computes a tile of scores: the cooperative copies of the
query and key rows into threadgroup memory, the loop over `head_dim` in steps of 8, and the stores
of the 8×8 blocks.  The nine kernels differ in the side of their tile, in the number of threads and
in the SIMD group that computes each block; `ScoreKernel` has these as fields.  A threadgroup
memory is a function of the index, the scalars are any commutative ring.

* `loadTile_apply` — the tile that a cooperative copy leaves.
* `scoreTile_apply` — the score that a kernel leaves at row `r`, column `c` of its score tile.
* `ScoreKernel.textureScores_apply` — the score of `flash_attention_texture_fp32`.
-/

/-! ### The kernels -/

/-- What the flash-attention kernels differ in when they compute a score tile. -/
structure ScoreKernel where
  /-- The side of the tile in blocks of 8. -/
  blocksPerSide : ℕ
  /-- The threads of a threadgroup. -/
  threads : ℕ
  /-- The SIMD groups of a threadgroup. -/
  simdGroups : ℕ
  /-- The blocks that a SIMD group computes: first query row, first key row. -/
  blocks : ℕ → List (ℕ × ℕ)
  threads_pos : 0 < threads
  blocks_grid : ((List.range simdGroups).flatMap blocks).Perm (blockGrid blocksPerSide)

namespace ScoreKernel

/-- `TILE_SIZE`, `TILE_SIZE_24` and `ATTN_LARGE_TILE`. -/
def tileSize (κ : ScoreKernel) : ℕ := 8 * κ.blocksPerSide

/-- The 2×2 blocks of a 16×16 tile, `scores_00`, `scores_01`, `scores_10`, `scores_11`. -/
def blocks2x2 : List (ℕ × ℕ) := [(0, 0), (0, 8), (8, 0), (8, 8)]

/-- The 3×3 blocks of a 24×24 tile, `s_00` to `s_22`. -/
def blocks3x3 : List (ℕ × ℕ) :=
  [(0, 0), (0, 8), (0, 16), (8, 0), (8, 8), (8, 16), (16, 0), (16, 8), (16, 16)]

/-- `q_row_offset` and `k_row_offset` of SIMD group `g`. -/
def quadrant (g : ℕ) : ℕ × ℕ := (if g < 2 then 0 else 8, if g % 2 = 0 then 0 else 8)

/-- `flash_attention_simd_kernel`: one SIMD group. -/
def flashAttentionSimdKernel : ScoreKernel where
  blocksPerSide := 2
  threads := 32
  simdGroups := 1
  blocks := fun _ => blocks2x2
  threads_pos := by decide
  blocks_grid := by decide

/-- `flash_attention_simd_kernel_fp16`. -/
def flashAttentionSimdKernelFp16 : ScoreKernel := flashAttentionSimdKernel

/-- `flash_attention_simd_kernel_fp16_tile24`: a tile of 24 rows. -/
def flashAttentionSimdKernelFp16Tile24 : ScoreKernel where
  blocksPerSide := 3
  threads := 32
  simdGroups := 1
  blocks := fun _ => blocks3x3
  threads_pos := by decide
  blocks_grid := by decide

/-- `flash_attention_gqa_fp16`, the tile of one query head. -/
def flashAttentionGqaFp16 : ScoreKernel := flashAttentionSimdKernel

/-- `flash_attention_simd_kernel_fp16_multi`: two SIMD groups, group `g` computes the rows from
`row_start = g * 8` on. -/
def flashAttentionSimdKernelFp16Multi : ScoreKernel where
  blocksPerSide := 2
  threads := 64
  simdGroups := 2
  blocks := fun g => [(g * 8, 0), (g * 8, 8)]
  threads_pos := by decide
  blocks_grid := by decide

/-- `flash_attention_4simd_fp16`: each of four SIMD groups computes one quadrant. -/
def flashAttention4simdFp16 : ScoreKernel where
  blocksPerSide := 2
  threads := 128
  simdGroups := 4
  blocks := fun g => [quadrant g]
  threads_pos := by decide
  blocks_grid := by decide

/-- `flash_attention_4simd_fp32`. -/
def flashAttention4simdFp32 : ScoreKernel := flashAttention4simdFp16

/-- `flash_attention_large_fp32`: eight SIMD groups, of which the first four compute a quadrant
each. -/
def flashAttentionLargeFp32 : ScoreKernel where
  blocksPerSide := 2
  threads := 256
  simdGroups := 8
  blocks := fun g => if g < 4 then [quadrant g] else []
  threads_pos := by decide
  blocks_grid := by decide

/-- `flash_attention_large_fp16`. -/
def flashAttentionLargeFp16 : ScoreKernel := flashAttentionLargeFp32

end ScoreKernel

/-- The SIMD kernels of `attention_kernel.metal`. -/
inductive FlashKernel where
  | simdKernel
  | simdKernelFp16
  | simdKernelFp16Tile24
  | gqaFp16
  | simdKernelFp16Multi
  | fourSimdFp16
  | fourSimdFp32
  | largeFp32
  | largeFp16
  deriving DecidableEq, Repr

namespace FlashKernel

/-- How a kernel computes its score tile. -/
def scoreKernel : FlashKernel → ScoreKernel
  | simdKernel => .flashAttentionSimdKernel
  | simdKernelFp16 => .flashAttentionSimdKernelFp16
  | simdKernelFp16Tile24 => .flashAttentionSimdKernelFp16Tile24
  | gqaFp16 => .flashAttentionGqaFp16
  | simdKernelFp16Multi => .flashAttentionSimdKernelFp16Multi
  | fourSimdFp16 => .flashAttention4simdFp16
  | fourSimdFp32 => .flashAttention4simdFp32
  | largeFp32 => .flashAttentionLargeFp32
  | largeFp16 => .flashAttentionLargeFp16

end FlashKernel

/-! ### The operands of a threadgroup -/

/-- The rows of one head that a threadgroup reads: `Q + qkv_offset` and `K + k_offset`, both
row-major with `head_dim` columns. -/
structure AttentionHead (α : Type*) where
  headDim : ℕ
  seqLenQ : ℕ
  seqLenK : ℕ
  Q : ℕ → α
  K : ℕ → α

namespace AttentionHead

variable {α : Type*} (H : AttentionHead α)

/-- `Q[i, d]`. -/
def query (i d : ℕ) : α := H.Q (i * H.headDim + d)

/-- `K[j, d]`. -/
def key (j d : ℕ) : α := H.K (j * H.headDim + d)

/-- The dot product of a query with a key. -/
def dot [CommRing α] (i j : ℕ) : α := ∑ d ∈ Finset.range H.headDim, H.query i d * H.key j d

/-- Row `row` of the key tile that starts at `kStart`, filled up with zeros. -/
def keyTile [Zero α] (kStart row d : ℕ) : α :=
  if kStart + row < H.seqLenK then H.key (kStart + row) d else 0

/-- The contents `Q` in place of the head's queries. -/
def withQueries (Q : ℕ → α) : AttentionHead α := { H with Q }

@[simp] theorem withQueries_headDim (Q : ℕ → α) : (H.withQueries Q).headDim = H.headDim := rfl

@[simp] theorem withQueries_query (Q : ℕ → α) (i d : ℕ) :
    (H.withQueries Q).query i d = Q (i * H.headDim + d) := rfl

@[simp] theorem withQueries_key (Q : ℕ → α) (j d : ℕ) :
    (H.withQueries Q).key j d = H.key j d := rfl

@[simp] theorem withQueries_keyTile [Zero α] (Q : ℕ → α) (kStart : ℕ) :
    (H.withQueries Q).keyTile kStart = H.keyTile kStart := rfl

end AttentionHead

/-- The matrix in which each 8×8 block is transposed in its place. -/
def blockTransposed {α : Type*} (X : ℕ → ℕ → α) (r d : ℕ) : α :=
  X (8 * (r / 8) + d % 8) (8 * (d / 8) + r % 8)

/-! ### A score tile -/

namespace ScoreKernel

variable {α : Type*} [CommRing α] (κ : ScoreKernel) (H : AttentionHead α)

/-- An order of the stores of a threadgroup: those of the two copies and those of the blocks. -/
structure Schedule (headDim : ℕ) where
  queries : LoopOrder κ.threads (κ.tileSize * headDim)
  keys : LoopOrder κ.threads (κ.tileSize * headDim)
  stores : List (ℕ × ℕ)
  stores_perm : stores.Perm ((List.range κ.simdGroups).flatMap κ.blocks)

/-- Thread after thread, SIMD group after SIMD group. -/
def Schedule.inOrder (headDim : ℕ) : κ.Schedule headDim where
  queries := .inOrder _
  keys := .inOrder _
  stores := (List.range κ.simdGroups).flatMap κ.blocks
  stores_perm := .refl _

/-- `shared_Q` after the cooperative copy; `shared` is what the memory held before. -/
def sharedQ (qStart : ℕ) (o : LoopOrder κ.threads (κ.tileSize * H.headDim)) (shared : ℕ → α) :
    ℕ → α :=
  storeAll o.items (fun idx => idx / H.headDim * H.headDim + idx % H.headDim)
    (fun idx =>
      if qStart + idx / H.headDim < H.seqLenQ then
        H.query (qStart + idx / H.headDim) (idx % H.headDim)
      else 0)
    shared

/-- `shared_KV` (`shared_K`) after the cooperative copy of the keys. -/
def sharedK (kStart : ℕ) (o : LoopOrder κ.threads (κ.tileSize * H.headDim)) (shared : ℕ → α) :
    ℕ → α :=
  storeAll o.items (fun idx => idx / H.headDim * H.headDim + idx % H.headDim)
    (fun idx =>
      if kStart + idx / H.headDim < H.seqLenK
          ∧ idx / H.headDim < min (kStart + κ.tileSize) H.seqLenK - kStart then
        H.key (kStart + idx / H.headDim) (idx % H.headDim)
      else 0)
    shared

/-- The accumulator of the block with first query row `o.1` and first key row `o.2` after the loop
`for (d = 0; d < head_dim; d += 8)`. -/
def blockScore (headDim : ℕ) (sQ sK : ℕ → α) (o : ℕ × ℕ) : Mat8 α :=
  (stride 0 8 headDim).foldl
    (fun acc d =>
      multiplyAccumulate (load sQ (o.1 * headDim + d) headDim)
        (load sK (o.2 * headDim + d) headDim) acc)
    0

/-- What the threadgroup memories hold before a tile is computed. -/
structure TileMemory (α : Type*) where
  queries : ℕ → α
  keys : ℕ → α
  scores : ℕ → α

/-- The scores (`shared_scores`, `temp_scores_half` or `temp_scores_h`) of the tile that starts at
query `qStart` and key `kStart`, before they are scaled. -/
def scoreTile (qStart kStart : ℕ) (σ : κ.Schedule H.headDim) (mem : TileMemory α) : ℕ → α :=
  storeBlocks
    (blockScore H.headDim (κ.sharedQ H qStart σ.queries mem.queries)
      (κ.sharedK H kStart σ.keys mem.keys))
    κ.tileSize σ.stores mem.scores

/-! ### What the copies leave -/

theorem sharedQ_apply (qStart : ℕ) (o : LoopOrder κ.threads (κ.tileSize * H.headDim))
    (shared : ℕ → α) {r d : ℕ} (hr : r < κ.tileSize) (hd : d < H.headDim) :
    κ.sharedQ H qStart o shared (r * H.headDim + d)
      = if qStart + r < H.seqLenQ then H.query (qStart + r) d else 0 := by
  rw [sharedQ, copy_apply κ.threads_pos o _ _ _ (rowMajor_lt hr hd), rowMajor_div hd,
    rowMajor_mod hd]

theorem sharedK_apply (kStart : ℕ) (o : LoopOrder κ.threads (κ.tileSize * H.headDim))
    (shared : ℕ → α) {r d : ℕ} (hr : r < κ.tileSize) (hd : d < H.headDim) :
    κ.sharedK H kStart o shared (r * H.headDim + d) = H.keyTile kStart r d := by
  rw [sharedK, copy_apply κ.threads_pos o _ _ _ (rowMajor_lt hr hd), rowMajor_div hd,
    rowMajor_mod hd, AttentionHead.keyTile]
  -- `row < k_tile_size` says the same as `k_idx < seq_len_k` for a row of the tile
  by_cases hk : kStart + r < H.seqLenK
  · rw [if_pos hk, if_pos ⟨hk, by omega⟩]
  · rw [if_neg hk, if_neg (fun h => hk h.1)]

/-! ### The scores -/

theorem blockScore_apply {headDim n : ℕ} (hn : headDim = 8 * n) (sQ sK : ℕ → α) (q k : ℕ)
    (i j : Fin 8) :
    blockScore headDim sQ sK (q, k) i j
      = ∑ t ∈ Finset.range n, ∑ l : Fin 8,
          sQ ((q + i) * headDim + (8 * t + l)) * sK ((k + l) * headDim + (8 * t + j)) := by
  subst hn
  rw [blockScore, stride_zero_mul 8 n (by omega), List.foldl_map, accumulate_apply,
    sum_map_range, Matrix.zero_apply, zero_add]
  apply Finset.sum_congr rfl
  intro t _
  apply Finset.sum_congr rfl
  intro l _
  simp only [load_apply]
  congr 2 <;> ring

/-- The score that a kernel leaves at row `r`, column `c`: the dot product of the query row with
row `c` of the key tile *after each of its 8×8 blocks has been transposed in its place*, since the
key blocks are loaded as they lie in `shared_KV`. -/
theorem scoreTile_apply (h8 : 8 ∣ H.headDim) (qStart kStart : ℕ) (σ : κ.Schedule H.headDim)
    (mem : TileMemory α) {r c : ℕ} (hr : r < κ.tileSize) (hc : c < κ.tileSize) :
    κ.scoreTile H qStart kStart σ mem (r * κ.tileSize + c)
      = ∑ d ∈ Finset.range H.headDim,
          (if qStart + r < H.seqLenQ then H.query (qStart + r) d else 0)
            * blockTransposed (H.keyTile kStart) c d := by
  obtain ⟨n, hn⟩ := h8
  have hstores : ∀ o, o ∈ σ.stores ↔ o ∈ blockGrid κ.blocksPerSide := fun o =>
    (σ.stores_perm.trans κ.blocks_grid).mem_iff
  have hr8 : 8 * (r / 8) + r % 8 = r := Nat.div_add_mod r 8
  have hc8 : 8 * (c / 8) + c % 8 = c := Nat.div_add_mod c 8
  have hrow : r / 8 < κ.blocksPerSide := by unfold tileSize at hr; omega
  have hcol : c / 8 < κ.blocksPerSide := by unfold tileSize at hc; omega
  have hcell := storeBlocks_apply
    (blockScore H.headDim (κ.sharedQ H qStart σ.queries mem.queries)
      (κ.sharedK H kStart σ.keys mem.keys))
    (le_refl κ.tileSize) (fun o ho => (hstores o).mp ho) mem.scores (a := r / 8) (b := c / 8)
    ⟨r % 8, Nat.mod_lt _ (by omega)⟩ ⟨c % 8, Nat.mod_lt _ (by omega)⟩ hcol
  rw [if_pos ((hstores _).mpr (mem_blockGrid.mpr ⟨_, hrow, _, hcol, rfl⟩)),
    blockScore_apply hn] at hcell
  simp only [hr8, hc8] at hcell
  rw [scoreTile, hcell, sum_range_eight_mul hn]
  apply Finset.sum_congr rfl
  intro t ht
  apply Finset.sum_congr rfl
  intro l _
  have htn : t < n := Finset.mem_range.mp ht
  rw [sharedQ_apply κ H _ _ _ hr (by omega),
    sharedK_apply κ H _ _ _ (by unfold tileSize; omega) (by omega), blockTransposed]
  have hdiv : (8 * t + (l : ℕ)) / 8 = t := by omega
  have hmod : (8 * t + (l : ℕ)) % 8 = l := by omega
  rw [hdiv, hmod]

end ScoreKernel

end MetalNative
