import MetalNative.Attention.FlashAttention
import MetalNative.Attention.OnlineRecurrence
import MetalNative.Attention.ScoreOrientation
import MetalNative.Lib.Interference

namespace MetalNative

open ExtReal ThreadLoop

/-!
# What a launch of `flash_attention` stores

The kernels of `attention_kernel.metal` and `attention_texture.metal` from their arguments to the
output.  A kernel whose blocks leave the tile, or whose private arrays are too short, may store
anything; so may one whose threadgroup memories are more than the device has, which is not run.

* `FlashKernel.Stores` — the stores of a SIMD kernel.
* `TextureRow`, `textureStores` — those of `flash_attention_texture_fp32`, whose threadgroups share
  one texture for their scores.
* `FlashLaunch.Leaves` — what may be in a cell of the output after a launch.
* `inBounds_iff` — when the blocks of a SIMD kernel stay in their tiles.
-/

/-! ### Arguments -/

/-- The arguments of the kernels; the sizes are `uint` values. -/
structure FlashArgs where
  batch : ℕ
  num_heads : ℕ
  seq_len_q : ℕ
  seq_len_k : ℕ
  head_dim : ℕ
  num_kv_heads : ℕ
  group_ratio : ℕ
  scale : ℝ

/-- The arguments of a launch. -/
def FlashLaunch.args (launch : FlashLaunch) (scale : ℝ) : FlashArgs where
  batch := toUInt launch.dims.batch
  num_heads := toUInt launch.dims.num_heads
  seq_len_q := toUInt launch.dims.seq_len_q
  seq_len_k := toUInt launch.dims.seq_len_k
  head_dim := toUInt launch.dims.head_dim
  num_kv_heads := toUInt launch.dims.num_kv_heads
  group_ratio := launch.dims.groupRatio
  scale := scale

/-- The elements of the buffers from the offsets on that they are bound with. -/
structure FlashBuffers where
  Q : ℕ → ℝ
  K : ℕ → ℝ
  V : ℕ → ℝ
  mask : Option (ℕ → WithBot ℝ)

/-- A score, with the mask at `index` added where there is one. -/
def FlashBuffers.masked (buf : FlashBuffers) (index : ℕ) (score : ℝ) : WithBot ℝ :=
  match buf.mask with
  | none => score
  | some mask => score + mask (toUInt index)

/-! ### The SIMD kernels -/

/-- The query heads that the grouped-query kernel has accumulators for. -/
def MAX_GROUP_RATIO : ℕ := 8

/-- The elements that a thread of the grouped-query kernel has accumulators for. -/
def MAX_ELEMS_PER_THREAD : ℕ := 16 * 128 / 32

namespace FlashKernel

variable (κ : FlashKernel) (a : FlashArgs) (buf : FlashBuffers)

/-- The heads of the key and the value: `gid.y` is below it. -/
def kvHeads : ℕ := if κ = .gqaFp16 then a.num_kv_heads else a.num_heads

/-- The query heads of a threadgroup; in the grouped-query kernel `q_head` runs over a group. -/
def queryHeads (y : ℕ) : List ℕ :=
  if κ = .gqaFp16 then
    ((List.range (min a.group_ratio MAX_GROUP_RATIO)).map (y * a.group_ratio + ·)).filter
      (· < a.num_heads)
  else [y]

/-- `qkv_offset`, or `q_offset`. -/
def qkvOffset (b h : ℕ) : ℕ := toUInt ((b * a.num_heads + h) * a.seq_len_q * a.head_dim)

/-- `k_offset`, or `kv_offset`. -/
def kOffset (b y : ℕ) : ℕ := toUInt ((b * κ.kvHeads a + y) * a.seq_len_k * a.head_dim)

/-- A cell of the output as a kernel computes it: the threadgroup, the query head, and the row and
the column of the tile. -/
structure Cell where
  b : ℕ
  y : ℕ
  x : ℕ
  h : ℕ
  row : ℕ
  col : ℕ

/-- `q_start`. -/
def qStart (c : Cell) : ℕ := toUInt (c.x * κ.tileSize)

/-- `q_idx`. -/
def qIdx (c : Cell) : ℕ := toUInt (κ.qStart c + c.row)

/-- The queries of a head and the keys it is compared with. -/
def operands (c : Cell) : AttentionHead ℝ where
  headDim := a.head_dim
  seqLenQ := a.seq_len_q
  seqLenK := a.seq_len_k
  Q := fun n => buf.Q (toUInt (qkvOffset a c.b c.h + n))
  K := fun n => buf.K (toUInt (κ.kOffset a c.b c.y + n))

/-- What is not determined in a run: for each tile of keys, the order of the stores, and what the
threadgroup memories held before. -/
structure Run (κ : FlashKernel) (headDim : ℕ) where
  schedule : ℕ → κ.scoreKernel.Schedule headDim
  memory : ℕ → ScoreKernel.TileMemory ℝ

/-- The score of a row and a key, scaled and masked. -/
noncomputable def score (c : Cell) (run : κ.Run a.head_dim) (k : ℕ) : WithBot ℝ :=
  let tile := k / κ.tileSize
  buf.masked (c.b * a.seq_len_q * a.seq_len_k + κ.qIdx c * a.seq_len_k + k)
    (κ.scoreKernel.scoreTile (κ.operands a buf c) (κ.qStart c) (tile * κ.tileSize)
      (run.schedule tile) (run.memory tile) (c.row * κ.tileSize + k % κ.tileSize) * a.scale)

/-- The value that is stored for a cell. -/
noncomputable def output (c : Cell) (run : κ.Run a.head_dim) : ExtReal :=
  κ.rowOutput a.seq_len_k (fun k => ofBot (κ.score a buf c run k))
    (fun k d => buf.V (toUInt (κ.kOffset a c.b c.y + (k * a.head_dim + d)))) c.col

/-- Where it is stored. -/
def outputIndex (c : Cell) : ℕ :=
  toUInt (qkvOffset a c.b c.h + (κ.qIdx c * a.head_dim + c.col))

/-- The cells that the threadgroups of a launch compute. -/
structure Computed (launch : FlashLaunch) (c : Cell) : Prop where
  z_lt : c.b < launch.gridZ
  y_lt : c.y < launch.gridY
  x_lt : c.x < launch.gridX
  batch : c.b < a.batch
  heads : c.y < κ.kvHeads a
  head : c.h ∈ κ.queryHeads a c.y
  row : c.row < κ.tileSize
  col : c.col < a.head_dim
  query : κ.qIdx c < a.seq_len_q

/-- The stores of a SIMD kernel. -/
def Stores (launch : FlashLaunch) (p : ℕ) (v : ExtReal) : Prop :=
  ∃ c : Cell, κ.Computed a launch c ∧ p = κ.outputIndex a c ∧
    ∃ run : κ.Run a.head_dim, v = κ.output a buf c run

/-- The 8×8 blocks that are loaded for the scores, the two beside each other that are loaded and
stored for the output, and the accumulators of the grouped-query kernel stay in their arrays. -/
def InBounds (head_dim : ℕ) : Prop :=
  (∀ d ∈ stride 0 8 head_dim, ∀ row < κ.tileSize, ∀ c < 8,
      row * head_dim + (d + c) < κ.tileSize * head_dim)
    ∧ (∀ d_block ∈ stride 0 16 head_dim, ∀ row < κ.tileSize, ∀ c < 16,
      row * head_dim + (d_block + c) < κ.tileSize * head_dim)
    ∧ (κ = .gqaFp16 → ∀ idx < κ.tileSize * head_dim, idx / 32 < MAX_ELEMS_PER_THREAD)

end FlashKernel

/-! ### The texture kernel -/

/-- The loop state of a row in `flash_attention_texture_fp32`. -/
structure TextureRow where
  row_max : ExtReal
  row_sum : ExtReal
  out : ℕ → ExtReal

namespace TextureRow

/-- The row before the first tile. -/
noncomputable def init : TextureRow where
  row_max := negInf
  row_sum := real 0
  out := fun _ => real 0

/-- One key: `row_sum += w`, and its value times `w`. -/
noncomputable def add (row : TextureRow) (s : ExtReal) (V : ℕ → ℝ) : TextureRow :=
  let w := exp (s - row.row_max)
  { row with
    row_sum := row.row_sum + w
    out := fun d => row.out d + w * real (V d) }

/-- One tile; the texture is read twice, for the maximum and for the weights. -/
noncomputable def tile (k_tile_size : ℕ) (forMax forSum : ℕ → ExtReal) (V : ℕ → ℕ → ℝ)
    (row : TextureRow) : TextureRow :=
  let new_max := (List.range k_tile_size).foldl (fun m kr => max m (forMax kr)) row.row_max
  let rescale := exp (row.row_max - new_max)
  let rescaled : TextureRow :=
    { row_max := new_max
      row_sum := row.row_sum * rescale
      out := fun d => row.out d * rescale }
  (List.range k_tile_size).foldl (fun row kr => row.add (forSum kr) (V kr)) rescaled

open Classical in
/-- The element of the output. -/
noncomputable def normalized (row : TextureRow) (d : ℕ) : ExtReal :=
  let inv_sum := if real 0 < row.row_sum then real 1 / row.row_sum else real 0
  row.out d * inv_sum

end TextureRow

section Texture

variable (launch : FlashLaunch) (a : FlashArgs) (buf : FlashBuffers)

/-- `head_offset_q` and `head_offset_k`. -/
def textureOffset (seq_len b head : ℕ) : ℕ :=
  toUInt ((b * a.num_heads + head) * (seq_len * a.head_dim))

/-- The queries and the keys of a head. -/
def textureOperands (b head : ℕ) : AttentionHead ℝ where
  headDim := a.head_dim
  seqLenQ := a.seq_len_q
  seqLenK := a.seq_len_k
  Q := fun n => buf.Q (toUInt (textureOffset a a.seq_len_q b head + n))
  K := fun n => buf.K (toUInt (textureOffset a a.seq_len_k b head + n))

/-- What query `i` and key `j` of a head put into the texture. -/
noncomputable def textureWrite (b head i j : ℕ) (L : TextureLaunch (textureOperands a buf b head)) :
    WithBot ℝ :=
  buf.masked ((b * a.num_heads + head) * a.seq_len_q * a.seq_len_k + i * a.seq_len_k + j)
    (textureScore (textureOperands a buf b head) L i j * a.scale)

/-- What may be read at a place of the texture: all threadgroups write to the same one, and none
waits for another. -/
def TextureRead (kr qr : ℕ) (s : ExtReal) : Prop :=
  ∃ b < launch.gridZ, ∃ head < launch.gridY, ∃ i < a.seq_len_q, ∃ j < a.seq_len_k,
    i / TEX_TILE_SIZE < launch.gridX ∧ i % TEX_TILE_SIZE = qr ∧ j % TEX_TILE_SIZE = kr ∧
      ∃ L, s = ofBot (textureWrite a buf b head i j L)

/-- What a row reads from the texture, for each tile of keys and each key of it. -/
structure TextureReads (qr : ℕ) where
  forMax : ℕ → ℕ → ExtReal
  forSum : ℕ → ℕ → ExtReal
  forMax_read : ∀ k_start < a.seq_len_k, ∀ kr < min TEX_TILE_SIZE (a.seq_len_k - k_start),
    TextureRead launch a buf kr qr (forMax k_start kr)
  forSum_read : ∀ k_start < a.seq_len_k, ∀ kr < min TEX_TILE_SIZE (a.seq_len_k - k_start),
    TextureRead launch a buf kr qr (forSum k_start kr)

/-- The row after all tiles. -/
noncomputable def textureRow (b head qr : ℕ) (reads : TextureReads launch a buf qr) : TextureRow :=
  (stride 0 TEX_TILE_SIZE a.seq_len_k).foldl
    (fun row k_start =>
      row.tile (min TEX_TILE_SIZE (a.seq_len_k - k_start)) (reads.forMax k_start)
        (reads.forSum k_start) fun kr d =>
          buf.V (toUInt (textureOffset a a.seq_len_k b head + ((k_start + kr) * a.head_dim + d))))
    TextureRow.init

/-- The stores of `flash_attention_texture_fp32`. -/
def textureStores (p : ℕ) (v : ExtReal) : Prop :=
  ∃ b < launch.gridZ, ∃ head < launch.gridY, ∃ x < launch.gridX,
    let q_start := toUInt (x * TEX_TILE_SIZE)
    q_start < a.seq_len_q ∧ ∃ qr < min TEX_TILE_SIZE (a.seq_len_q - q_start), ∃ d < a.head_dim,
      p = toUInt (textureOffset a a.seq_len_q b head + ((q_start + qr) * a.head_dim + d)) ∧
        ∃ reads : TextureReads launch a buf qr,
          v = (textureRow launch a buf b head qr reads).normalized d

end Texture

/-! ### A launch -/

namespace FlashLaunch

variable (launch : FlashLaunch)

/-- The stores of a launch. -/
def Stores (scale : ℝ) (buf : FlashBuffers) (p : ℕ) (v : ExtReal) : Prop :=
  match launch.path with
  | .texture => textureStores launch (launch.args scale) buf p v
  | .simd κ => κ.Stores (launch.args scale) buf launch p v

/-- The threadgroup memories are not more than the device has. -/
def Fits (st : AttentionState) : Prop :=
  launch.threadgroupMemory.sum ≤ st.maxThreadgroupMemoryLength

/-- Every access stays inside its array. -/
def InBounds : Prop :=
  match launch.path with
  | .texture => True
  | .simd κ => κ.InBounds launch.dims.head_dim

/-- The loop over the keys ends: in the texture kernel `k_start` does not wrap around. -/
def Ends : Prop :=
  match launch.path with
  | .texture => toUInt launch.dims.seq_len_k + TEX_TILE_SIZE ≤ uintRange
  | .simd _ => True

/-- What may be in a cell of the output after the launch. -/
def Leaves (st : AttentionState) (scale : ℝ) (buf : FlashBuffers) (p : ℕ) (v : ExtReal) : Prop :=
  launch.Fits st ∧ launch.Ends ∧ launch.InBounds →
    Interference.Leaves (launch.Stores scale buf p) v

end FlashLaunch

end MetalNative
