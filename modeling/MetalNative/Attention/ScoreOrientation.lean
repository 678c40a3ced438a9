import MetalNative.Attention.ScoreTile

namespace MetalNative

open ThreadLoop SimdMatrix AttentionHead

/-!
# The orientation of the key blocks

`flash_attention_texture_fp32` computes its scores by an explicit dot product; the SIMD kernels
multiply query blocks with key blocks that `simdgroup_load` reads as they lie in threadgroup
memory, not transposed.

* `textureScore_eq_dot` — the scores of the texture kernel are the dot products.
* `flash_scores` — exactly when the scores of a SIMD kernel are.
* `scores_of_unit_vectors` — a query and a key for which they are not.
-/

variable {α : Type*} [CommRing α]

/-! ### The texture kernel -/

/-- `TEX_TILE_SIZE` of `attention_texture.metal`. -/
def TEX_TILE_SIZE : ℕ := 16

/-- What is not determined in a launch of `flash_attention_texture_fp32`: the order of the copies
of the tile that starts at a row, and what the threadgroup memories held before. -/
structure TextureLaunch (H : AttentionHead α) where
  queries : ∀ qStart, LoopOrder 32 (min TEX_TILE_SIZE (H.seqLenQ - qStart) * H.headDim)
  keys : ∀ kStart, LoopOrder 32 (min TEX_TILE_SIZE (H.seqLenK - kStart) * H.headDim)
  sharedQ : ℕ → α
  sharedK : ℕ → α

/-- The loop `for (d = 0; d < head_dim; d++)` of the texture kernel. -/
def textureDot (headDim : ℕ) (sQ sK : ℕ → α) (qr kr : ℕ) : α :=
  (List.range headDim).foldl
    (fun dot d => dot + sQ (qr * headDim + d) * sK (kr * headDim + d)) 0

/-- The score of query `i` and key `j` in `flash_attention_texture_fp32`, before it is scaled: entry
`(i % 16, j % 16)` of the tiles that hold them. -/
def textureScore (H : AttentionHead α) (L : TextureLaunch H) (i j : ℕ) : α :=
  textureDot H.headDim
    (storeAll (L.queries (i / TEX_TILE_SIZE * TEX_TILE_SIZE)).items
      (fun a => a / H.headDim * H.headDim + a % H.headDim)
      (fun a => H.query (i / TEX_TILE_SIZE * TEX_TILE_SIZE + a / H.headDim) (a % H.headDim))
      L.sharedQ)
    (storeAll (L.keys (j / TEX_TILE_SIZE * TEX_TILE_SIZE)).items
      (fun a => a / H.headDim * H.headDim + a % H.headDim)
      (fun a => H.key (j / TEX_TILE_SIZE * TEX_TILE_SIZE + a / H.headDim) (a % H.headDim))
      L.sharedK)
    (i % TEX_TILE_SIZE) (j % TEX_TILE_SIZE)

/-- The scores of the texture kernel are the dot products of the query with the key. -/
theorem textureScore_eq_dot (H : AttentionHead α) (L : TextureLaunch H) {i j : ℕ}
    (hi : i < H.seqLenQ) (hj : j < H.seqLenK) : textureScore H L i j = H.dot i j := by
  have hi16 : i / TEX_TILE_SIZE * TEX_TILE_SIZE + i % TEX_TILE_SIZE = i := Nat.div_add_mod' i _
  have hj16 : j / TEX_TILE_SIZE * TEX_TILE_SIZE + j % TEX_TILE_SIZE = j := Nat.div_add_mod' j _
  have hilt : i % TEX_TILE_SIZE < TEX_TILE_SIZE := Nat.mod_lt _ (by decide)
  have hjlt : j % TEX_TILE_SIZE < TEX_TILE_SIZE := Nat.mod_lt _ (by decide)
  rw [textureScore, textureDot, foldl_range_add, dot]
  apply Finset.sum_congr rfl
  intro d hd
  have hd : d < H.headDim := Finset.mem_range.mp hd
  rw [copy_apply (by decide) _ _ _ _ (rowMajor_lt (by omega) hd),
    copy_apply (by decide) _ _ _ _ (rowMajor_lt (by omega) hd),
    rowMajor_div hd, rowMajor_mod hd, rowMajor_div hd, rowMajor_mod hd, hi16, hj16]

/-! ### When the SIMD kernels agree -/

section Orientation

variable (κ : FlashKernel) (H : AttentionHead α) (qStart kStart : ℕ)
  (σ : κ.scoreKernel.Schedule H.headDim) (mem : ScoreKernel.TileMemory α)

/-- Row `r` and column `c` of the tile are a query and a key. -/
def InTile (r c : ℕ) : Prop :=
  r < κ.scoreKernel.tileSize ∧ c < κ.scoreKernel.tileSize
    ∧ qStart + r < H.seqLenQ ∧ kStart + c < H.seqLenK

/-- Every score of the tile is `Q @ K^T`. -/
def ScoresRight : Prop :=
  ∀ r c, InTile κ H qStart kStart r c →
    κ.scoreKernel.scoreTile H qStart kStart σ mem (r * κ.scoreKernel.tileSize + c)
      = H.dot (qStart + r) (kStart + c)

/-- Every score of the tile is that of the texture kernel. -/
def ScoresAgree (L : TextureLaunch H) : Prop :=
  ∀ r c, InTile κ H qStart kStart r c →
    κ.scoreKernel.scoreTile H qStart kStart σ mem (r * κ.scoreKernel.tileSize + c)
      = textureScore H L (qStart + r) (kStart + c)

/-- Each query is orthogonal to what the transposition of the 8×8 blocks of the key tile changes in
each key. -/
def BlocksOrthogonal : Prop :=
  ∀ r c, InTile κ H qStart kStart r c →
    ∑ d ∈ Finset.range H.headDim,
      H.query (qStart + r) d * (blockTransposed (H.keyTile kStart) c d - H.key (kStart + c) d) = 0

/-- Each 8×8 block of the key tile is symmetric, as far as its rows are keys. -/
def BlocksSymmetric : Prop :=
  ∀ c < κ.scoreKernel.tileSize, kStart + c < H.seqLenK → ∀ d < H.headDim,
    blockTransposed (H.keyTile kStart) c d = H.key (kStart + c) d

variable {κ H qStart kStart σ mem}

/-- One score is off by the product of the query with what the transposition changes. -/
theorem score_sub_dot (h8 : 8 ∣ H.headDim) {r c : ℕ} (hin : InTile κ H qStart kStart r c) :
    κ.scoreKernel.scoreTile H qStart kStart σ mem (r * κ.scoreKernel.tileSize + c)
        - H.dot (qStart + r) (kStart + c)
      = ∑ d ∈ Finset.range H.headDim,
          H.query (qStart + r) d
            * (blockTransposed (H.keyTile kStart) c d - H.key (kStart + c) d) := by
  obtain ⟨hr, hc, hq, -⟩ := hin
  rw [ScoreKernel.scoreTile_apply _ _ h8 _ _ _ _ hr hc, dot,
    ← Finset.sum_sub_distrib]
  apply Finset.sum_congr rfl
  intro d _
  rw [if_pos hq, mul_sub]

theorem scoresRight_iff (h8 : 8 ∣ H.headDim) :
    ScoresRight κ H qStart kStart σ mem ↔ BlocksOrthogonal κ H qStart kStart := by
  constructor
  · intro h r c hin
    rw [← score_sub_dot h8 hin, h r c hin, sub_self]
  · intro h r c hin
    apply sub_eq_zero.mp
    rw [score_sub_dot h8 hin, h r c hin]

theorem scoresAgree_iff (L : TextureLaunch H) :
    ScoresAgree κ H qStart kStart σ mem L ↔ ScoresRight κ H qStart kStart σ mem := by
  constructor
  · intro h r c hin
    rw [h r c hin, textureScore_eq_dot H L hin.2.2.1 hin.2.2.2]
  · intro h r c hin
    rw [h r c hin, textureScore_eq_dot H L hin.2.2.1 hin.2.2.2]

/-- Only symmetric blocks give the right scores for all queries: a unit vector as a query shows any
cell that the transposition changes. -/
theorem blocksOrthogonal_forall_iff (hq : qStart < H.seqLenQ) :
    (∀ Q, BlocksOrthogonal κ (H.withQueries Q) qStart kStart)
      ↔ BlocksSymmetric κ H kStart := by
  constructor
  · intro h c hc hk d hd
    let unit : ℕ → α := fun a => if a = qStart * H.headDim + d then 1 else 0
    have hin : InTile κ (H.withQueries unit) qStart kStart 0 c := ⟨by omega, hc, hq, hk⟩
    have hsum := h unit 0 c hin
    have hcell : ∀ d', (qStart * H.headDim + d' = qStart * H.headDim + d) ↔ d' = d := by
      intro d'
      omega
    simp only [withQueries_headDim, withQueries_query,
      withQueries_key, withQueries_keyTile, Nat.add_zero, unit, hcell,
      ite_mul, one_mul, zero_mul] at hsum
    rw [Finset.sum_ite_eq', if_pos (Finset.mem_range.mpr hd)] at hsum
    exact sub_eq_zero.mp hsum
  · intro h Q r c hin
    apply Finset.sum_eq_zero
    intro d hd
    have hsym := h c hin.2.1 hin.2.2.2 d (Finset.mem_range.mp hd)
    rw [withQueries_keyTile, withQueries_key, hsym, sub_self, mul_zero]

variable (κ H qStart kStart σ mem) in
/-- A tile of scores is `Q @ K^T`, and the texture kernel's, exactly when its queries are orthogonal
to what transposing the 8×8 blocks of the key tile changes.  Whatever the queries, that is: exactly
when the blocks are symmetric. -/
theorem flash_scores (h8 : 8 ∣ H.headDim) (L : TextureLaunch H) :
    (ScoresRight κ H qStart kStart σ mem ↔ BlocksOrthogonal κ H qStart kStart)
      ∧ (ScoresAgree κ H qStart kStart σ mem L ↔ BlocksOrthogonal κ H qStart kStart)
      ∧ (qStart < H.seqLenQ →
          ((∀ Q, ScoresRight κ (H.withQueries Q) qStart kStart σ mem)
            ↔ BlocksSymmetric κ H kStart)) := by
  refine ⟨scoresRight_iff h8, ?_, ?_⟩
  · rw [scoresAgree_iff, scoresRight_iff h8]
  · intro hq
    rw [← blocksOrthogonal_forall_iff hq]
    exact forall_congr' fun Q => scoresRight_iff (H := H.withQueries Q) h8

end Orientation

/-! ### A key that is not symmetric -/

/-- One query and one key of eight entries, both the unit vector of entry `1`; their product is `1`,
and the kernels multiply the query with entry `0` of a key that is not there. -/
def unitHead : AttentionHead ℤ where
  headDim := 8
  seqLenQ := 1
  seqLenK := 1
  Q := fun a => if a = 1 then 1 else 0
  K := fun a => if a = 1 then 1 else 0

theorem unitHead_not_orthogonal (κ : FlashKernel) : ¬ BlocksOrthogonal κ unitHead 0 0 := by
  intro h
  have hpos : 0 < κ.scoreKernel.tileSize := by cases κ <;> decide
  have hsum := h 0 0 ⟨hpos, hpos, by decide, by decide⟩
  exact absurd hsum (by decide)

/-- Not even the product of one query with one key is right, in any of the kernels. -/
theorem scores_of_unit_vectors :
    ¬ ∃ (κ : FlashKernel) (σ : κ.scoreKernel.Schedule unitHead.headDim)
      (mem : ScoreKernel.TileMemory ℤ), ScoresRight κ unitHead 0 0 σ mem := by
  rintro ⟨κ, σ, mem, hright⟩
  exact unitHead_not_orthogonal κ ((scoresRight_iff (by decide)).mp hright)

/-- The launch that copies thread after thread into cleared memories. -/
def TextureLaunch.inOrder (H : AttentionHead α) : TextureLaunch H where
  queries := fun _ => .inOrder _
  keys := fun _ => .inOrder _
  sharedQ := fun _ => 0
  sharedK := fun _ => 0

/-- The 24-row kernel and the texture kernel disagree on the unit vectors. -/
theorem flash_scores_unit :
    ¬ ScoresAgree .simdKernelFp16Tile24 unitHead 0 0 (.inOrder _ _) ⟨0, 0, 0⟩
      (.inOrder unitHead) := by
  intro hagree
  have hscores := flash_scores .simdKernelFp16Tile24 unitHead 0 0 (.inOrder _ _) ⟨0, 0, 0⟩
    (by decide) (.inOrder unitHead)
  exact unitHead_not_orthogonal _ (hscores.2.1.mp hagree)

end MetalNative
