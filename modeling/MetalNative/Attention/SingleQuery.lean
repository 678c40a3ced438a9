import MetalNative.Attention.FlashKernels
import MetalNative.Core.Words

namespace MetalNative

open ExtReal ThreadLoop OnlineSoftmax FlashKernel AttentionDims
open Strided (position)

/-!
# One query and one key

What a launch of `flash_attention` stores when the sequences have length one: every kernel that
computes a head at all copies the value, since the only weight is one.

* `FlashKernel.inBounds_iff` — the head dimensions for which the SIMD kernels stay in their arrays.
* `FlashKernel.output_single`, `normalized_single` — the values of the two kinds of kernels.
* `stores_single` — the stores of a launch.
-/

/-! ### Indices -/

/-- The positions of a matrix of rows are below its size. -/
theorem rows_lt {A B D i j l : ℕ} (hi : i < A) (hj : j < B) (hl : l < D) :
    (i * B + j) * D + l < A * B * D := by
  have hrow : i * B + j < A * B := by
    calc i * B + j < i * B + B := by omega
      _ = (i + 1) * B := (Nat.succ_mul i B).symm
      _ ≤ A * B := Nat.mul_le_mul_right B hi
  calc (i * B + j) * D + l < (i * B + j) * D + D := by omega
    _ = (i * B + j + 1) * D := (Nat.succ_mul _ D).symm
    _ ≤ A * B * D := Nat.mul_le_mul_right D hrow

/-! ### The arrays of the SIMD kernels -/

namespace FlashKernel

theorem tileSize_gqa : tileSize .gqaFp16 = 16 := by decide

/-- **The blocks stay in their arrays** when the head dimension is a multiple of 16; the
grouped-query kernel has accumulators for 128 columns. -/
theorem inBounds_iff (κ : FlashKernel) (head_dim : ℕ) :
    κ.InBounds head_dim ↔ 16 ∣ head_dim ∧ (κ = .gqaFp16 → head_dim ≤ 128) := by
  have hpos := κ.tileSize_pos
  constructor
  · rintro ⟨-, hblocks, hprivate⟩
    constructor
    · by_contra hdvd
      -- the last block of the last row
      have hmem : 16 * (head_dim / 16) ∈ stride 0 16 head_dim := by
        rw [mem_stride (by omega)]
        exact ⟨head_dim / 16, by omega, by omega⟩
      have hlast := hblocks _ hmem (κ.tileSize - 1) (by omega) 15 (by omega)
      obtain ⟨n, hn⟩ := Nat.exists_eq_add_of_lt hpos
      rw [hn, Nat.zero_add, Nat.add_sub_cancel, Nat.add_one_mul n head_dim] at hlast
      omega
    · intro hgqa
      have htile : κ.tileSize = 16 := hgqa ▸ tileSize_gqa
      by_contra hlarge
      have hlast := hprivate hgqa (16 * head_dim - 1) (by rw [htile]; omega)
      unfold MAX_ELEMS_PER_THREAD at hlast
      omega
  · rintro ⟨⟨n, rfl⟩, hprivate⟩
    have hinside : ∀ (step d row c : ℕ), (step = 8 ∨ step = 16) → d ∈ stride 0 step (16 * n) →
        row < κ.tileSize → c < step → row * (16 * n) + (d + c) < κ.tileSize * (16 * n) := by
      intro step d row c hstep hd hrow hc
      obtain ⟨t, rfl, hlt⟩ := (mem_stride (by omega)).mp hd
      have hmul : (row + 1) * (16 * n) ≤ κ.tileSize * (16 * n) := Nat.mul_le_mul_right _ hrow
      rw [Nat.succ_mul] at hmul
      rcases hstep with rfl | rfl <;> omega
    refine ⟨?_, ?_, ?_⟩
    · intro d hd row hrow c hc
      exact hinside 8 d row c (Or.inl rfl) hd hrow hc
    · intro d hd row hrow c hc
      exact hinside 16 d row c (Or.inr rfl) hd hrow hc
    · intro hgqa idx hidx
      have htile : κ.tileSize = 16 := hgqa ▸ tileSize_gqa
      have hle := hprivate hgqa
      unfold MAX_ELEMS_PER_THREAD
      rw [htile] at hidx
      omega

/-! ### The values of one key -/

variable {κ : FlashKernel} {a : FlashArgs} {buf : FlashBuffers}

/-- The only weight is one. -/
theorem output_single (hlen : a.seq_len_k = 1) (hmask : buf.mask = none) (c : Cell)
    (run : κ.Run a.head_dim) :
    κ.output a buf c run = real (buf.V (toUInt (κ.kOffset a c.b c.y + c.col))) := by
  have hscore : ∀ k, κ.score a buf c run k ≠ ⊥ := by
    intro k
    simp only [score, FlashBuffers.masked, hmask]
    exact WithBot.coe_ne_bot
  have hregular : κ.Regular 1 fun k => κ.score a buf c run k := by
    refine ⟨?_, ?_⟩
    · have hle := κ.tileSize_le
      unfold uintRange
      omega
    · split_ifs
      · intro t ht
        exact ⟨0, κ.tileSize_pos, by omega, hscore _⟩
      · exact hscore 0
  have hmax : rowMax (fun k => κ.score a buf c run k) (List.range 1) ≠ ⊥ :=
    ne_bot_of_le_ne_bot (hscore 0) (le_rowMax (fun k => κ.score a buf c run k) (by simp))
  obtain ⟨hiff, hall⟩ := κ.numKTiles_spec hregular.1
  -- the state after the tiles, of which there is one
  have hst := holds_rowRun hregular (κ.numKTiles 1) (fun i hi => (hiff i).mp hi)
    (V := fun k d => buf.V (toUInt (κ.kOffset a c.b c.y + (k * a.head_dim + d))))
  rw [hall] at hst
  have hsum := one_le_expSum hmax
  have hone : rowSoftmax (fun k => κ.score a buf c run k) [0] 0 = 1 :=
    rowSoftmax_singleton (hscore 0)
  unfold output
  rw [hlen, rowOutput, hst.acc, hst.softmax, OnlineSoftmaxState.of, real_div (by linarith),
    ← sum_rowSoftmax_mul]
  simp only [List.range_one, List.map_cons, List.map_nil, List.sum_cons, List.sum_nil, hone,
    Nat.zero_mul, Nat.zero_add, one_mul, add_zero]

end FlashKernel

/-! ### The texture kernel -/

/-- **One key**: whatever finite scores are read for the maximum and for the weight, the weight
cancels. -/
theorem TextureRow.normalized_tile_one {forMax forSum : ℕ → ExtReal} {m s : ℝ}
    (hmax : forMax 0 = real m) (hsum : forSum 0 = real s) (V : ℕ → ℕ → ℝ) (d : ℕ) :
    (TextureRow.init.tile 1 forMax forSum V).normalized d = real (V 0 d) := by
  have hfirst : max negInf (real m) = real m := rfl
  have hrescale : exp (negInf - real m) = real 0 := rfl
  have hpos := Real.exp_pos (s - m)
  have htile : TextureRow.init.tile 1 forMax forSum V
      = ⟨real m, real (Real.exp (s - m)), fun d => real (Real.exp (s - m) * V 0 d)⟩ := by
    simp only [tile, init, List.range_one, List.foldl_cons, List.foldl_nil, hmax, hsum, hfirst,
      hrescale, add, real_sub, exp_real, real_mul, real_add, mul_zero, zero_add]
  rw [htile]
  unfold normalized
  dsimp only
  rw [if_pos ((real_lt _ _).mpr hpos), real_div hpos.ne', real_mul]
  congr 1
  field_simp

section Texture

variable {launch : FlashLaunch} {a : FlashArgs} {buf : FlashBuffers}

/-- Without a mask every score is finite. -/
theorem TextureRead.finite (hmask : buf.mask = none) {kr qr : ℕ} {s : ExtReal}
    (h : TextureRead launch a buf kr qr s) : ∃ x : ℝ, s = real x := by
  obtain ⟨b, -, head, -, i, -, j, -, -, -, -, L, rfl⟩ := h
  refine ⟨textureScore (textureOperands a buf b head) L i j * a.scale, ?_⟩
  simp only [textureWrite, FlashBuffers.masked, hmask, ofBot_coe]

theorem normalized_single (hlen : a.seq_len_k = 1) (hmask : buf.mask = none) (b head qr d : ℕ)
    (reads : TextureReads launch a buf qr) :
    (textureRow launch a buf b head qr reads).normalized d
      = real (buf.V (toUInt (textureOffset a 1 b head + d))) := by
  have hstride : stride 0 TEX_TILE_SIZE 1 = [0] := by decide
  obtain ⟨m, hm⟩ := (reads.forMax_read 0 (by omega) 0 (by rw [hlen]; decide)).finite hmask
  obtain ⟨s, hs⟩ := (reads.forSum_read 0 (by omega) 0 (by rw [hlen]; decide)).finite hmask
  have hmin : min TEX_TILE_SIZE (1 - 0) = 1 := by decide
  unfold textureRow
  rw [hlen, hstride, List.foldl_cons, List.foldl_nil, hmin,
    TextureRow.normalized_tile_one hm hs]
  simp only [Nat.zero_add, Nat.zero_mul]

/-- There is something to read for every key. -/
theorem exists_textureReads (hb : 0 < launch.gridZ) (hhead : 0 < launch.gridY)
    (hx : 0 < launch.gridX) (hq : 0 < a.seq_len_q) (hlen : a.seq_len_k = 1) :
    Nonempty (TextureReads launch a buf 0) := by
  let write := textureWrite a buf 0 0 0 0 (.inOrder (textureOperands a buf 0 0))
  have hread : ∀ k_start < a.seq_len_k, ∀ kr < min TEX_TILE_SIZE (a.seq_len_k - k_start),
      TextureRead launch a buf kr 0 (ofBot write) := by
    intro k_start _ kr hkr
    have hkr0 : kr = 0 := by omega
    subst hkr0
    exact ⟨0, hb, 0, hhead, 0, hq, 0, by omega, hx, rfl, rfl, _, rfl⟩
  exact ⟨⟨fun _ _ => ofBot write, fun _ _ => ofBot write, hread, hread⟩⟩

end Texture

/-! ### The heads -/

namespace AttentionDims

variable {d : AttentionDims}

/-- Without grouped queries there are as many key heads as query heads. -/
theorem num_kv_heads_of_mha (hgqa : d.isGqa = false) (hle : d.num_kv_heads ≤ d.num_heads) :
    d.num_kv_heads = d.num_heads := by
  have hnot : ¬ d.num_kv_heads < d.num_heads := of_decide_eq_false hgqa
  omega

/-- Each of them has its own. -/
theorem ratio_of_mha (hgqa : d.isGqa = false) (hle : d.num_kv_heads ≤ d.num_heads)
    (hpos : 0 < d.num_heads) : d.ratio = 1 := by
  rw [ratio, num_kv_heads_of_mha hgqa hle, Nat.div_self hpos]

/-- The query heads are those of the key heads. -/
theorem num_heads_eq (hmod : d.num_heads % d.num_kv_heads = 0) :
    d.num_heads = d.num_kv_heads * d.ratio :=
  (Nat.mul_div_cancel' (Nat.dvd_of_mod_eq_zero hmod)).symm

theorem kvHead_lt (hmod : d.num_heads % d.num_kv_heads = 0) {h : ℕ} (hh : h < d.num_heads) :
    h / d.ratio < d.num_kv_heads := by
  apply Nat.div_lt_of_lt_mul
  rwa [Nat.mul_comm, ← num_heads_eq hmod]

theorem ratio_pos (hmod : d.num_heads % d.num_kv_heads = 0) (hpos : 0 < d.num_heads) :
    0 < d.ratio := by
  rw [num_heads_eq hmod] at hpos
  exact Nat.pos_of_mul_pos_left hpos

end AttentionDims

/-- The query heads that a launch computes: of a group, the first eight. -/
def AttentionDims.HeadComputed (d : AttentionDims) (h : ℕ) : Prop :=
  d.isGqa → h % d.ratio < MAX_GROUP_RATIO

variable {κ : FlashKernel}

/-- The heads of the threadgroups. -/
theorem mem_queryHeads {d : AttentionDims} (hlaunch : SimdLaunched d κ)
    (hle : d.num_kv_heads ≤ d.num_heads) (hmod : d.num_heads % d.num_kv_heads = 0) {a : FlashArgs}
    (hheads : a.num_heads = d.num_heads) (hkv : a.num_kv_heads = d.num_kv_heads)
    (hratio : a.group_ratio = d.ratio) {y h : ℕ} :
    (y < κ.kvHeads a ∧ h ∈ κ.queryHeads a y)
      ↔ h < d.num_heads ∧ d.HeadComputed h ∧ y = h / d.ratio := by
  unfold kvHeads queryHeads HeadComputed
  by_cases hgqa : κ = .gqaFp16
  · have hisGqa : d.isGqa = true := hlaunch.gqa.mp hgqa
    rw [if_pos hgqa, if_pos hgqa, hheads, hkv, hratio]
    simp only [List.mem_filter, List.mem_map, List.mem_range, decide_eq_true_eq, hisGqa,
      forall_const]
    constructor
    · rintro ⟨hy, ⟨g, hg, rfl⟩, hh⟩
      have hlt : g < d.ratio := by omega
      rw [Nat.mul_comm y, Nat.mul_add_mod, Nat.mod_eq_of_lt hlt,
        Nat.mul_add_div (by omega), Nat.div_eq_of_lt hlt]
      rw [Nat.mul_comm y] at hh
      exact ⟨hh, by omega, by omega⟩
    · rintro ⟨hh, hg, rfl⟩
      have hpos := ratio_pos hmod (by omega)
      have hlt := Nat.mod_lt h hpos
      refine ⟨kvHead_lt hmod hh, ⟨h % d.ratio, by omega, ?_⟩, hh⟩
      exact Nat.div_add_mod' h d.ratio
  · have hmha : d.isGqa = false := by
      have hnot := hlaunch.gqa.not.mp hgqa
      simpa using hnot
    rw [if_neg hgqa, if_neg hgqa, hheads]
    simp only [List.mem_singleton, hmha, Bool.false_eq_true, false_implies, true_and]
    constructor
    · rintro ⟨hy, rfl⟩
      rw [ratio_of_mha hmha hle (by omega), Nat.div_one]
      exact ⟨hy, rfl⟩
    · rintro ⟨hh, rfl⟩
      rw [ratio_of_mha hmha hle (by omega), Nat.div_one]
      exact ⟨hh, rfl⟩

/-! ### The stores of a launch -/

/-- The value copied: for each head that is computed, the row of its key head. -/
def SingleStored (d : AttentionDims) (buf : FlashBuffers) (p : ℕ) (v : ExtReal) : Prop :=
  ∃ b < d.batch, ∃ h < d.num_heads, ∃ col < d.head_dim, d.HeadComputed h ∧
    p = (b * d.num_heads + h) * d.head_dim + col ∧
      v = real (buf.V ((b * d.num_kv_heads + h / d.ratio) * d.head_dim + col))

section Single

variable {d : AttentionDims} {buf : FlashBuffers} {scale : ℝ} {p : ℕ} {v : ExtReal}

/-- What the sizes are when no index wraps around. -/
structure SingleSizes (d : AttentionDims) : Prop where
  seq_len_q : d.seq_len_q = 1
  seq_len_k : d.seq_len_k = 1
  heads_le : d.num_kv_heads ≤ d.num_heads
  heads_mod : d.num_heads % d.num_kv_heads = 0
  total : d.batch * d.num_heads * d.head_dim ≤ uintRange

theorem toUInt_of_le_one {n : ℕ} (h : n ≤ 1) : toUInt n = n :=
  toUInt_of_lt (lt_of_le_of_lt h (by decide))

/-- The cells of the output, without wrapping around. -/
theorem outputCell_eq (hs : SingleSizes d) {b h col : ℕ} (hb : b < d.batch) (hh : h < d.num_heads)
    (hcol : col < d.head_dim) :
    toUInt ((b * d.num_heads + h) * d.head_dim + col) = (b * d.num_heads + h) * d.head_dim + col :=
  toUInt_of_lt (lt_of_lt_of_le (rows_lt hb hh hcol) hs.total)

/-- The cells of the value, without wrapping around. -/
theorem valueCell_eq (hs : SingleSizes d) {b h col : ℕ} (hb : b < d.batch) (hh : h < d.num_heads)
    (hcol : col < d.head_dim) :
    toUInt ((b * d.num_kv_heads + h / d.ratio) * d.head_dim + col)
      = (b * d.num_kv_heads + h / d.ratio) * d.head_dim + col := by
  apply toUInt_of_lt
  have hkv := kvHead_lt hs.heads_mod hh
  have hlt := rows_lt hb hkv hcol
  have hmul : d.batch * d.num_kv_heads * d.head_dim ≤ d.batch * d.num_heads * d.head_dim :=
    Nat.mul_le_mul_right _ (Nat.mul_le_mul_left _ hs.heads_le)
  have htotal := hs.total
  omega

/-- The heads of the key as a SIMD kernel counts them. -/
theorem kvHeads_eq (hlaunch : SimdLaunched d κ)
    (hle : d.num_kv_heads ≤ d.num_heads) {a : FlashArgs} (hheads : a.num_heads = d.num_heads)
    (hkv : a.num_kv_heads = d.num_kv_heads) : κ.kvHeads a = d.num_kv_heads := by
  unfold kvHeads
  by_cases hgqa : κ = .gqaFp16
  · rw [if_pos hgqa, hkv]
  · have hmha : d.isGqa = false := by simpa using hlaunch.gqa.not.mp hgqa
    rw [if_neg hgqa, hheads, num_kv_heads_of_mha hmha hle]

/-- The grid of a SIMD kernel. -/
theorem simdLaunch_grid (hlaunch : SimdLaunched d κ) (hs : SingleSizes d)
    (dtype : MNDType) :
    (d.simdLaunch κ dtype).gridX = 1 ∧ (d.simdLaunch κ dtype).gridY = d.num_kv_heads := by
  constructor
  · show toUInt ((d.seq_len_q + κ.activeTileSize - 1) / κ.activeTileSize) = 1
    have hpos := κ.tileSize_pos
    rw [κ.activeTileSize_eq, hs.seq_len_q, Nat.add_sub_cancel_left, Nat.div_self hpos]
    exact toUInt_of_le_one le_rfl
  · show (if d.isGqa = true then toUInt d.num_kv_heads else toUInt d.num_heads) = d.num_kv_heads
    have hkvlt : d.num_kv_heads < uintRange := lt_of_le_of_lt hs.heads_le hlaunch.num_heads
    by_cases hgqa : d.isGqa = true
    · rw [if_pos hgqa, toUInt_of_lt hkvlt]
    · rw [if_neg hgqa, toUInt_of_lt hlaunch.num_heads]
      exact (num_kv_heads_of_mha (by simpa using hgqa) hs.heads_le).symm

/-- **A SIMD kernel copies the value.** -/
theorem simd_stores_single {dtype : MNDType} (hlaunch : SimdLaunched d κ)
    (hs : SingleSizes d) (hmask : buf.mask = none) :
    (d.simdLaunch κ dtype).Stores scale buf p v ↔ SingleStored d buf p v := by
  have hle := κ.tileSize_le
  have hratio : d.groupRatio = d.ratio :=
    toUInt_of_lt (lt_of_le_of_lt (Nat.div_le_self _ _) hlaunch.num_heads)
  obtain ⟨hx, hy⟩ := simdLaunch_grid hlaunch hs dtype
  set a := (d.simdLaunch κ dtype).args scale with ha
  have hbatch : a.batch = d.batch := toUInt_of_lt hlaunch.batch
  have hheads : a.num_heads = d.num_heads := toUInt_of_lt hlaunch.num_heads
  have hkv : a.num_kv_heads = d.num_kv_heads :=
    toUInt_of_lt (lt_of_le_of_lt hs.heads_le hlaunch.num_heads)
  have hdim : a.head_dim = d.head_dim := toUInt_of_lt hlaunch.head_dim
  have hq : a.seq_len_q = 1 := (toUInt_of_lt hlaunch.seq_len_q).trans hs.seq_len_q
  have hk : a.seq_len_k = 1 := (toUInt_of_lt hlaunch.seq_len_k).trans hs.seq_len_k
  have hkvHeads := kvHeads_eq hlaunch hs.heads_le hheads hkv
  have hgroup : ∀ y h, (y < κ.kvHeads a ∧ h ∈ κ.queryHeads a y)
      ↔ h < d.num_heads ∧ d.HeadComputed h ∧ y = h / d.ratio := fun _ _ =>
    mem_queryHeads hlaunch hs.heads_le hs.heads_mod hheads hkv hratio
  -- the only row of the only tile
  have hidx : ∀ c : Cell, c.x = 0 → c.row < κ.tileSize → κ.qIdx c = c.row := by
    intro c hx0 hrow
    have hstart : κ.qStart c = 0 := by
      unfold qStart
      rw [hx0, Nat.zero_mul]
      exact toUInt_of_le_one (Nat.zero_le 1)
    unfold qIdx
    rw [hstart, Nat.zero_add]
    exact toUInt_of_lt (by unfold uintRange; omega)
  have hcell : ∀ c : Cell, κ.qIdx c = 0 →
      κ.outputIndex a c = toUInt ((c.b * d.num_heads + c.h) * d.head_dim + c.col) := by
    intro c h0
    unfold outputIndex qkvOffset
    rw [h0, hheads, hq, hdim, toUInt_toUInt_add, Nat.mul_one, Nat.zero_mul, Nat.zero_add]
  have hoffset : ∀ c : Cell, toUInt (κ.kOffset a c.b c.y + c.col)
      = toUInt ((c.b * d.num_kv_heads + c.y) * d.head_dim + c.col) := by
    intro c
    unfold kOffset
    rw [hkvHeads, hk, hdim, toUInt_toUInt_add, Nat.mul_one]
  show κ.Stores a buf (d.simdLaunch κ dtype) p v ↔ _
  constructor
  · rintro ⟨c, hc, rfl, run, rfl⟩
    have hc0 : κ.qIdx c = 0 := by
      have hlt := hc.query
      omega
    obtain ⟨hh, hcomputed, hkvhead⟩ := (hgroup c.y c.h).mp ⟨hc.heads, hc.head⟩
    have hb := hbatch ▸ hc.batch
    have hcol := hdim ▸ hc.col
    refine ⟨c.b, hb, c.h, hh, c.col, hcol, hcomputed, ?_, ?_⟩
    · rw [hcell c hc0, outputCell_eq hs hb hh hcol]
    · rw [output_single hk hmask, hoffset, hkvhead, valueCell_eq hs hb hh hcol]
  · rintro ⟨b, hb, h, hh, col, hcol, hcomputed, rfl, rfl⟩
    let c : Cell := ⟨b, h / d.ratio, 0, h, 0, col⟩
    obtain ⟨hyk, hmem⟩ := (hgroup c.y c.h).mpr ⟨hh, hcomputed, rfl⟩
    have hc0 : κ.qIdx c = 0 := hidx c rfl κ.tileSize_pos
    have hrun : Nonempty (κ.Run a.head_dim) :=
      ⟨⟨fun _ => .inOrder _ _, fun _ => ⟨fun _ => 0, fun _ => 0, fun _ => 0⟩⟩⟩
    obtain ⟨run⟩ := hrun
    refine ⟨c, ⟨hb, ?_, ?_, by rwa [hbatch], hyk, hmem, κ.tileSize_pos, by rwa [hdim], ?_⟩, ?_,
      run, ?_⟩
    · rw [hy]
      exact kvHead_lt hs.heads_mod hh
    · rw [hx]
      exact Nat.one_pos
    · rw [hc0, hq]
      exact Nat.one_pos
    · rw [hcell c hc0, outputCell_eq hs hb hh hcol]
    · rw [output_single hk hmask, hoffset, valueCell_eq hs hb hh hcol]

/-- **The texture kernel copies the value.** -/
theorem texture_stores_single (hgqa : d.isGqa = false) (hdim : d.head_dim < uintRange)
    (hs : SingleSizes d) (hmask : buf.mask = none) :
    d.textureLaunch.Stores scale buf p v ↔ SingleStored d buf p v := by
  have hx : d.textureLaunch.gridX = 1 := by
    show toUInt ((d.seq_len_q + 16 - 1) / 16) = 1
    rw [hs.seq_len_q]
    exact toUInt_of_le_one le_rfl
  set a := d.textureLaunch.args scale with ha
  have hq : a.seq_len_q = 1 := by
    show toUInt d.seq_len_q = 1
    rw [hs.seq_len_q]
    exact toUInt_of_le_one le_rfl
  have hk : a.seq_len_k = 1 := by
    show toUInt d.seq_len_k = 1
    rw [hs.seq_len_k]
    exact toUInt_of_le_one le_rfl
  have hdim' : a.head_dim = d.head_dim := toUInt_of_lt hdim
  have hheads : a.num_heads = toUInt d.num_heads := rfl
  have hkv := num_kv_heads_of_mha hgqa hs.heads_le
  -- the number of heads is taken as a `uint`, like the result
  have hoffset : ∀ b h col, toUInt (textureOffset a 1 b h + col)
      = toUInt ((b * d.num_heads + h) * d.head_dim + col) := by
    intro b h col
    unfold textureOffset
    rw [hheads, hdim', toUInt_toUInt_add, Nat.one_mul]
    exact (((Nat.mod_modEq d.num_heads uintRange).mul_left b).add_right h).mul_right d.head_dim
      |>.add_right col
  have hhead : ∀ h < d.num_heads, d.HeadComputed h ∧ h / d.ratio = h := by
    intro h hh
    rw [ratio_of_mha hgqa hs.heads_le (by omega), Nat.div_one]
    exact ⟨fun h => by simp [hgqa] at h, rfl⟩
  have hcell : ∀ b h col, b < d.batch → h < d.num_heads → col < d.head_dim →
      toUInt (textureOffset a 1 b h + col) = (b * d.num_heads + h) * d.head_dim + col := by
    intro b h col hb hh hcol
    rw [hoffset, outputCell_eq hs hb hh hcol]
  show textureStores d.textureLaunch a buf p v ↔ _
  unfold textureStores
  rw [hx, hq]
  constructor
  · rintro ⟨b, hb, h, hh, x, hx0, -, qr, hqr, col, hcol, rfl, reads, rfl⟩
    have hx' : x = 0 := by omega
    subst hx'
    have hstart : toUInt (0 * TEX_TILE_SIZE) = 0 := by decide
    rw [hstart] at hqr ⊢
    have hqr0 : qr = 0 := by omega
    subst hqr0
    rw [hdim'] at hcol ⊢
    refine ⟨b, hb, h, hh, col, hcol, (hhead h hh).1, ?_, ?_⟩
    · rw [Nat.zero_mul, Nat.zero_add, hcell b h col hb hh hcol]
    · rw [normalized_single hk hmask, hcell b h col hb hh hcol, (hhead h hh).2, hkv]
  · rintro ⟨b, hb, h, hh, col, hcol, -, rfl, rfl⟩
    have hy : 0 < d.textureLaunch.gridY := lt_of_le_of_lt (Nat.zero_le h) hh
    have hz : 0 < d.textureLaunch.gridZ := lt_of_le_of_lt (Nat.zero_le b) hb
    have hreads : Nonempty (TextureReads d.textureLaunch a buf 0) :=
      exists_textureReads hz hy (by omega) (by omega) hk
    obtain ⟨reads⟩ := hreads
    refine ⟨b, hb, h, hh, 0, Nat.one_pos, by decide, 0, by decide, col, by rwa [hdim'], ?_, reads,
      ?_⟩
    · have hstart : toUInt (0 * TEX_TILE_SIZE) = 0 := by decide
      rw [hstart, Nat.zero_mul, Nat.zero_add, hcell b h col hb hh hcol]
    · rw [normalized_single hk hmask, hcell b h col hb hh hcol, (hhead h hh).2, hkv]

/-- **A launch copies the value.** -/
theorem stores_single {path : FlashPath} {dtype : MNDType} (hlaunch : FlashLaunched d path)
    (hdim : d.head_dim < uintRange) (hs : SingleSizes d) (hmask : buf.mask = none) :
    (d.launchOf path dtype).Stores scale buf p v ↔ SingleStored d buf p v := by
  cases hlaunch with
  | texture hgqa => exact texture_stores_single hgqa hdim hs hmask
  | simd κ h => exact simd_stores_single h hs hmask

end Single

end MetalNative
