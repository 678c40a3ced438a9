import MetalNative.Memory.KVCacheBounds
import Mathlib.Tactic.Positivity

namespace MetalNative

open List Option

/-!
# The layout of `KVCache`

`append` stores the keys of one position behind those of the position before, head after head;
`get_key` returns the same bytes as a tensor of shape `[1, num_heads, seq_len, head_dim]`.

* `Appended` — positions `0 … S - 1` appended in order, resizes in between.
* `PositionMajor` — what the cache and the returned tensor hold.
* `kv_layout` — the tensor is the head-major one exactly with one head, with at most one position,
  or when the data do not tell the two layouts apart.
* `transposed_heads` — two heads and two positions.
-/

/-- A byte of a tensor. -/
def TensorView.byte (t : TensorView) (i : ℕ) : UInt8 := t.buffer.bytes (t.offset + i)

namespace KVCache

variable {config : KVCacheConfig} {c c' : KVCache} {layer : ℕ} {ks vs : List TensorView}

/-- The tensor has the elements of one position; a buffer has fewer than `2 ^ 64` bytes. -/
def IsSlice (config : KVCacheConfig) (t : TensorView) : Prop :=
  t.offset + positions config 1 ≤ t.buffer.length ∧ t.buffer.length < sizeTRange

/-- The keys `ks` and the values `vs` have been appended in order to a layer of `c₀`, with resizes
    in between, whether they succeeded or not. -/
inductive Appended (layer : ℕ) (c₀ : KVCache) : List TensorView → List TensorView → KVCache → Prop
  | init : Appended layer c₀ [] [] c₀
  | append {ks vs : List TensorView} {c c' : KVCache} {k v : TensorView} :
      Appended layer c₀ ks vs c → IsSlice c.config k → IsSlice c.config v →
        c.append layer k v ks.length = some (.ok (), c') →
          Appended layer c₀ (ks ++ [k]) (vs ++ [v]) c'
  | resize {ks vs : List TensorView} {c c' : KVCache} {m : ℕ} {answers : ℕ → LayerAnswer}
      {r : Except MNException Unit} :
      Appended layer c₀ ks vs c → c.resize m answers = some (r, c') → Appended layer c₀ ks vs c'

/-- The first bytes of a buffer are the slices of `xs`, one after the other. -/
def PositionMajor (config : KVCacheConfig) (buffer : MTLBuffer) (xs : List TensorView) : Prop :=
  ∀ s x, xs[s]? = some x → ∀ i < positions config 1,
    buffer.bytes (positions config s + i) = x.byte i

/-- A buffer of the cache: it holds the slices, and fewer than `2 ^ 64` bytes. -/
structure Stores (config : KVCacheConfig) (buffer : MTLBuffer) (xs : List TensorView) : Prop where
  room : positions config xs.length ≤ buffer.length
  small : buffer.length < sizeTRange
  major : PositionMajor config buffer xs

theorem positions_eq_mul (config : KVCacheConfig) (n : ℕ) :
    positions config n = n * positions config 1 := by
  unfold positions
  ring

/-! ### Blits -/

section Blits

variable {buffer buffer' : MTLBuffer} {xs : List TensorView}

/-- Appending a slice. -/
theorem Stores.append {x : TensorView} {es : ℕ} (h : Stores config buffer xs)
    (hes : es = dtypeSize config.dtype) (hx : IsSlice config x)
    (hcopy : x.buffer.copyFromBuffer x.offset buffer
      (xs.length * sliceSize config es % sizeTRange) (sliceSize config es) = some buffer') :
    Stores config buffer' (xs ++ [x]) := by
  have hroom := h.room
  have hsmall := h.small
  have hslice : sliceSize config es = positions config 1 := by
    rw [hes, sliceSize_eq]
    exact Nat.mod_eq_of_lt (by unfold IsSlice at hx; omega)
  -- nothing wraps around: the slices before are inside the buffer
  have hoffset : xs.length * sliceSize config es % sizeTRange = positions config xs.length := by
    rw [hslice, ← positions_eq_mul]
    exact Nat.mod_eq_of_lt (by omega)
  rw [hoffset, hslice] at hcopy
  obtain ⟨-, hdst, hlength, hnew, hold⟩ := MTLBuffer.copyFromBuffer_eq_some hcopy
  refine ⟨?_, hlength.trans_lt hsmall, fun s y hy i hi => ?_⟩
  · rw [length_append, length_singleton, ← positions_succ, hlength]
    exact hdst
  · by_cases hs : s < xs.length
    · rw [getElem?_append_left hs] at hy
      have hend := positions_mono config (show s + 1 ≤ xs.length by omega)
      rw [← positions_succ] at hend
      rw [hold _ (.inl (by omega))]
      exact h.major s y hy i hi
    · obtain ⟨hlt, hget⟩ := List.getElem?_eq_some_iff.mp hy
      rw [length_append, length_singleton] at hlt
      obtain rfl : s = xs.length := by omega
      rw [getElem?_concat_length] at hy
      obtain rfl := some.inj hy
      exact hnew i hi

/-- Copying the slices to the start of another buffer. -/
theorem Stores.copy {new : MTLBuffer} (h : Stores config buffer xs)
    (hnew : new.length < sizeTRange)
    (hcopy : buffer.copyFromBuffer 0 new 0
      (prefixSize config (dtypeSize config.dtype) xs.length) = some buffer') :
    Stores config buffer' xs := by
  have hroom := h.room
  have hsmall := h.small
  rw [prefixSize_eq, Nat.mod_eq_of_lt (by omega)] at hcopy
  obtain ⟨-, hdst, hlength, hbytes, -⟩ := MTLBuffer.copyFromBuffer_eq_some hcopy
  refine ⟨by omega, by omega, fun s x hx i hi => ?_⟩
  have hs := (List.getElem?_eq_some_iff.mp hx).1
  have hend := positions_mono config (show s + 1 ≤ xs.length by omega)
  rw [← positions_succ] at hend
  have hbyte := hbytes (positions config s + i) (by omega)
  rw [Nat.zero_add] at hbyte
  rw [hbyte]
  exact h.major s x hx i hi

/-- With no bytes to copy any buffer will do. -/
theorem Stores.of_empty (h : Stores config buffer xs) (hnew : buffer'.length < sizeTRange)
    (hzero : prefixSize config (dtypeSize config.dtype) xs.length = 0) :
    Stores config buffer' xs := by
  have hroom := h.room
  have hsmall := h.small
  rw [prefixSize_eq, Nat.mod_eq_of_lt (by omega)] at hzero
  refine ⟨by omega, hnew, fun s x hx i hi => ?_⟩
  have hs := (List.getElem?_eq_some_iff.mp hx).1
  have hend := positions_mono config (show s + 1 ≤ xs.length by omega)
  rw [← positions_succ] at hend
  omega

end Blits

/-! ### Calls -/

/-- What a cache holds of a layer to which `ks` and `vs` have been appended. -/
structure LayoutInv (layer : ℕ) (ks vs : List TensorView) (c : KVCache) : Prop where
  dtype : elementSize c.config.dtype = .ok (dtypeSize c.config.dtype)
  current : c.currentSeqLen = ks.length
  lengths : vs.length = ks.length
  small : ∀ bufs ∈ c.layers, bufs.key.length < sizeTRange ∧ bufs.value.length < sizeTRange
  stores : ∀ bufs, c.layers[layer]? = some bufs →
    Stores c.config bufs.key ks ∧ Stores c.config bufs.value vs

variable {answers : ℕ → LayerAnswer} {grant : GrantedBudget}

theorem LayoutInv.construct
    (h : construct config grant answers = some (.ok c)) : LayoutInv layer [] [] c := by
  unfold KVCache.construct at h
  split_ifs at h with hdims
  · split at h
    · cases h
    · rename_i es hes
      obtain ⟨n, -, hn⟩ := map_eq_some_iff.mp h
      cases hlayers : allocateLayers (prefixSize config es n) answers config.numLayers 0 with
      | error e =>
        rw [hlayers] at hn
        cases hn
      | ok layers =>
        rw [hlayers] at hn
        obtain rfl := Except.ok.inj hn
        obtain rfl := elementSize_eq hes
        have hall := (allocateLayers_length hlayers).2
        have hsmall : ∀ bufs ∈ layers, bufs.key.length < sizeTRange ∧
            bufs.value.length < sizeTRange := by
          intro bufs hb
          rw [(hall bufs hb).1, (hall bufs hb).2]
          exact ⟨Nat.mod_lt _ (by decide), Nat.mod_lt _ (by decide)⟩
        refine ⟨hes, rfl, rfl, hsmall, fun bufs hb => ?_⟩
        have hlen := hsmall bufs (mem_of_getElem? hb)
        have hnone : ∀ buffer : MTLBuffer, PositionMajor config buffer [] :=
          fun buffer s x hx => by simp at hx
        have hzero : positions config 0 = 0 := by
          rw [positions_eq_mul, Nat.zero_mul]
        exact ⟨⟨hzero.trans_le (Nat.zero_le _), hlen.1, hnone _⟩,
          ⟨hzero.trans_le (Nat.zero_le _), hlen.2, hnone _⟩⟩
  · cases h

/-- **`append`** at the next position. -/
theorem LayoutInv.append (h : LayoutInv layer ks vs c) {k v : TensorView}
    (hk : IsSlice c.config k) (hv : IsSlice c.config v)
    (hr : c.append layer k v ks.length = some (.ok (), c')) :
    LayoutInv layer (ks ++ [k]) (vs ++ [v]) c' ∧ c'.config = c.config := by
  unfold KVCache.append at hr
  split_ifs at hr with hlayer hpos
  · rw [h.dtype] at hr
    dsimp only at hr
    obtain ⟨bufs, hbufs, hr⟩ := bind_eq_some_iff.mp hr
    obtain ⟨key, hkey, hr⟩ := bind_eq_some_iff.mp hr
    obtain ⟨value, hvalue, hr⟩ := bind_eq_some_iff.mp hr
    obtain ⟨-, rfl⟩ := some_mk_inj hr
    obtain ⟨hks, hvs⟩ := h.stores bufs hbufs
    have hkey' := hks.append rfl hk hkey
    have hvalue' := hvs.append rfl hv (h.lengths ▸ hvalue)
    refine ⟨⟨h.dtype, ?_, by simp [h.lengths], fun b hb => ?_, fun b hb => ?_⟩, rfl⟩
    · show max c.currentSeqLen (ks.length + 1) = _
      rw [h.current, length_append]
      exact max_eq_right (Nat.le_succ _)
    · rcases mem_or_eq_of_mem_set hb with hold | rfl
      · exact h.small b hold
      · exact ⟨hkey'.small, hvalue'.small⟩
    · have hlt := (List.getElem?_eq_some_iff.mp hbufs).1
      replace hb : (c.layers.set layer ⟨key, value⟩)[layer]? = some b := hb
      rw [getElem?_set_self hlt] at hb
      obtain rfl := some.inj hb
      exact ⟨hkey', hvalue'⟩
  · cases (some_mk_inj hr).1
  · cases (some_mk_inj hr).1

/-- A layer that `resize` leaves is as it was or has been replaced by a copy. -/
theorem resizeLayers_layer {size copySize : ℕ} {i j : ℕ}
    {olds news : List LayerBuffers} {e : Option MNException}
    (h : resizeLayers size copySize answers i olds = some (e, news)) {b : LayerBuffers}
    (hb : news[j]? = some b) :
    olds[j]? = some b ∨ ∃ old new, olds[j]? = some old ∧
      newLayer size (answers (i + j)) = some new ∧
      copyLayer copySize old new = some b := by
  induction olds generalizing i j news e with
  | nil =>
    obtain ⟨rfl, rfl⟩ := some_mk_inj h
    exact .inl hb
  | cons old rest ih =>
    unfold resizeLayers at h
    split at h
    · obtain ⟨rfl, rfl⟩ := some_mk_inj h
      exact .inl hb
    · rename_i new hnew
      obtain ⟨replaced, hcopy, h⟩ := bind_eq_some_iff.mp h
      obtain ⟨⟨e', rest'⟩, hrest, h⟩ := bind_eq_some_iff.mp h
      obtain ⟨rfl, rfl⟩ := some_mk_inj h
      cases j with
      | zero =>
        obtain rfl := some.inj hb
        exact .inr ⟨old, new, rfl, hnew, hcopy⟩
      | succ j =>
        rcases ih hrest hb with hold | ⟨old', new', hold', hnew', hcopy'⟩
        · exact .inl hold
        · refine .inr ⟨old', new', hold', ?_, hcopy'⟩
          rwa [show i + (j + 1) = i + 1 + j by omega]

/-- **`resize`**, also one that throws, keeps what has been appended. -/
theorem LayoutInv.resize (h : LayoutInv layer ks vs c) {m : ℕ}
    {r : Except MNException Unit} (hr : c.resize m answers = some (r, c')) :
    LayoutInv layer ks vs c' ∧ c'.config = c.config := by
  unfold KVCache.resize at hr
  split_ifs at hr with hgrow
  · obtain ⟨-, rfl⟩ := some_mk_inj hr
    exact ⟨h, rfl⟩
  · rw [h.dtype] at hr
    dsimp only at hr
    obtain ⟨⟨e, layers⟩, hlayers, hr⟩ := map_eq_some_iff.mp hr
    have hkept : ∀ (j : ℕ) (b : LayerBuffers), layers[j]? = some b →
        (b.key.length < sizeTRange ∧ b.value.length < sizeTRange) ∧
        (j = layer → Stores c.config b.key ks ∧ Stores c.config b.value vs) := by
      intro j b hb
      rcases resizeLayers_layer hlayers hb with hold | ⟨old, new, hold, hnew, hcopy⟩
      · refine ⟨h.small b (mem_of_getElem? hold), ?_⟩
        rintro rfl
        exact h.stores b hold
      · obtain ⟨hkey, hvalue⟩ := newLayer_length hnew
        obtain ⟨hbkey, hbvalue⟩ := copyLayer_length hcopy
        have hsize : prefixSize c.config (dtypeSize c.config.dtype) (max m c.currentSeqLen)
            < sizeTRange := Nat.mod_lt _ (by decide)
        refine ⟨by omega, ?_⟩
        rintro rfl
        obtain ⟨hks, hvs⟩ := h.stores old hold
        unfold copyLayer at hcopy
        rw [h.current] at hcopy
        split_ifs at hcopy with hsome
        · obtain ⟨key, hk, hcopy⟩ := bind_eq_some_iff.mp hcopy
          obtain ⟨value, hv, hcopy⟩ := bind_eq_some_iff.mp hcopy
          obtain rfl := some.inj hcopy
          rw [← h.lengths] at hv
          exact ⟨hks.copy (by omega) hk, hvs.copy (by omega) hv⟩
        · obtain rfl := some.inj hcopy
          have hzero := Nat.eq_zero_of_not_pos hsome
          exact ⟨hks.of_empty (by omega) hzero, hvs.of_empty (by omega) (h.lengths ▸ hzero)⟩
    have hinv : ∀ actual, LayoutInv layer ks vs { c with layers, actualMaxSeqLen := actual } := by
      intro actual
      refine ⟨h.dtype, h.current, h.lengths, fun b hb => ?_, fun b hb => (hkept _ _ hb).2 rfl⟩
      obtain ⟨j, hj⟩ := mem_iff_getElem?.mp hb
      exact (hkept j b hj).1
    cases e with
    | none | some =>
      obtain ⟨-, rfl⟩ := Prod.mk.inj hr
      exact ⟨hinv _, rfl⟩

theorem Appended.inv {c₀ : KVCache}
    (hnew : construct config grant answers = some (.ok c₀)) (h : Appended layer c₀ ks vs c) :
    LayoutInv layer ks vs c ∧ c.config = c₀.config := by
  induction h with
  | init => exact ⟨LayoutInv.construct hnew, rfl⟩
  | append _ hk hv hr ih =>
    obtain ⟨hinv, hconfig⟩ := ih.1.append hk hv hr
    exact ⟨hinv, hconfig.trans ih.2⟩
  | resize _ hr ih =>
    obtain ⟨hinv, hconfig⟩ := ih.1.resize hr
    exact ⟨hinv, hconfig.trans ih.2⟩

theorem emptyTensor_ok {shape : MNShape} {dtype : MNDType}
    {answer : Except MNException (ℕ → UInt8)} {t : CacheTensor}
    (h : emptyTensor shape dtype answer = .ok t) :
    t.shape = shape ∧ t.buffer.length < sizeTRange := by
  unfold emptyTensor at h
  dsimp only at h
  split_ifs at h
  cases answer with
  | error e => cases h
  | ok bytes =>
    obtain rfl := Except.ok.inj h
    have hmod : toSizeT shape.numel * dtypeSize dtype % sizeTRange < sizeTRange :=
      Nat.mod_lt _ (by decide)
    exact ⟨rfl, max_lt hmod (by decide)⟩

/-- What `get_key` and `get_value` return is what the buffer holds. -/
theorem getTensor_stores {name : String} {select : LayerBuffers → MTLBuffer}
    {answer : Except MNException (ℕ → UInt8)} {t : CacheTensor} {xs : List TensorView}
    (hdtype : elementSize c.config.dtype = .ok (dtypeSize c.config.dtype))
    (hcurrent : c.currentSeqLen = xs.length)
    (hstores : ∀ bufs, c.layers[layer]? = some bufs → Stores c.config (select bufs) xs)
    (h : getTensor name select c layer answer = some (.ok t)) :
    PositionMajor c.config t.buffer xs ∧ positions c.config xs.length < sizeTRange ∧
      t.shape = c.cacheShape := by
  unfold getTensor at h
  split_ifs at h with hlayer
  · rw [hdtype] at h
    split at h
    · cases h
    · rename_i result hempty
      dsimp only at h
      obtain ⟨bufs, hbufs, h⟩ := bind_eq_some_iff.mp h
      obtain ⟨buffer, hcopy, h⟩ := bind_eq_some_iff.mp h
      obtain rfl := Except.ok.inj (some.inj h)
      obtain ⟨hshape, hsmall⟩ := emptyTensor_ok hempty
      have hs := hstores bufs hbufs
      have hroom := hs.room
      have hlength := hs.small
      rw [hcurrent] at hcopy
      exact ⟨(hs.copy hsmall hcopy).major, by omega, hshape⟩
  · exact absurd (some.inj h) (fun h => nomatch h)

/-! ### Rows and heads -/

/-- The byte `j` of the element in column `d` of row `r`. -/
def rowMajor (config : KVCacheConfig) (r d j : ℕ) : ℕ :=
  (r * config.headDim + d) * dtypeSize config.dtype + j

/-- The tensor is `[1, num_heads, seq_len, head_dim]`: the element `[0, h, s, d]` is the element
    `(h, d)` of what was appended at position `s`. -/
def HeadMajor (config : KVCacheConfig) (t : CacheTensor) (xs : List TensorView) : Prop :=
  ∀ h < config.numHeads, ∀ s < xs.length, ∀ d < config.headDim, ∀ j < dtypeSize config.dtype,
    ∀ x, xs[s]? = some x →
      t.buffer.bytes (rowMajor config (h * xs.length + s) d j) = x.byte (rowMajor config h d j)

/-- Reading rows of heads where rows of positions were appended gives the same data. -/
def SwapInvariant (config : KVCacheConfig) (xs : List TensorView) : Prop :=
  ∀ h < config.numHeads, ∀ s < xs.length, ∀ d < config.headDim, ∀ j < dtypeSize config.dtype,
    ∀ x y, xs[s]? = some x → xs[(h * xs.length + s) / config.numHeads]? = some y →
      y.byte (rowMajor config ((h * xs.length + s) % config.numHeads) d j)
        = x.byte (rowMajor config h d j)

/-- Row `r` of the buffer is head `r % num_heads` of position `r / num_heads`. -/
theorem rowMajor_eq (config : KVCacheConfig) (r d j : ℕ) :
    rowMajor config r d j = positions config (r / config.numHeads)
      + rowMajor config (r % config.numHeads) d j := by
  have hr := Nat.div_add_mod r config.numHeads
  unfold rowMajor positions
  conv_lhs => rw [← hr]
  ring

theorem rowMajor_lt {r d j : ℕ} (hr : r < config.numHeads) (hd : d < config.headDim)
    (hj : j < dtypeSize config.dtype) : rowMajor config r d j < positions config 1 := by
  have hrow : r * config.headDim + d + 1 ≤ config.numHeads * config.headDim := by
    calc r * config.headDim + d + 1 ≤ (r + 1) * config.headDim := by
          rw [Nat.succ_mul]
          omega
      _ ≤ config.numHeads * config.headDim := Nat.mul_le_mul_right _ hr
  unfold rowMajor positions
  calc (r * config.headDim + d) * dtypeSize config.dtype + j
      < (r * config.headDim + d + 1) * dtypeSize config.dtype := by
        rw [Nat.succ_mul]
        omega
    _ ≤ config.numHeads * config.headDim * dtypeSize config.dtype := Nat.mul_le_mul_right _ hrow
    _ = 1 * config.numHeads * config.headDim * dtypeSize config.dtype := by ring

/-- The row of head `h` and position `s` is one of the rows that were appended. -/
theorem row_lt {H S h s : ℕ} (hh : h < H) (hs : s < S) : (h * S + s) / H < S := by
  rw [Nat.div_lt_iff_lt_mul (by omega)]
  calc h * S + s < (h + 1) * S := by
        rw [Nat.succ_mul]
        omega
    _ ≤ S * H := by
        rw [Nat.mul_comm S H]
        exact Nat.mul_le_mul_right _ hh

/-- **Layout of one tensor.** -/
theorem headMajor_iff {t : CacheTensor} {xs : List TensorView}
    (h : PositionMajor config t.buffer xs) :
    HeadMajor config t xs ↔ config.numHeads = 1 ∨ xs.length ≤ 1 ∨ SwapInvariant config xs := by
  -- the data of a row
  have hread : ∀ r d j, 0 < config.numHeads → d < config.headDim → j < dtypeSize config.dtype →
      ∀ y, xs[r / config.numHeads]? = some y →
        t.buffer.bytes (rowMajor config r d j) =
          y.byte (rowMajor config (r % config.numHeads) d j) := by
    intro r d j hpos hd hj y hy
    rw [rowMajor_eq]
    exact h _ y hy _ (rowMajor_lt (Nat.mod_lt _ hpos) hd hj)
  have hswap : HeadMajor config t xs ↔ SwapInvariant config xs := by
    constructor
    · intro hmajor i hi s hs d hd j hj x y hx hy
      rw [← hread _ d j (by omega) hd hj y hy]
      exact hmajor i hi s hs d hd j hj x hx
    · intro hsame i hi s hs d hd j hj x hx
      have hlt := row_lt hi hs
      obtain ⟨y, hy⟩ : ∃ y, xs[(i * xs.length + s) / config.numHeads]? = some y :=
        ⟨_, getElem?_eq_getElem hlt⟩
      rw [hread _ d j (by omega) hd hj y hy]
      exact hsame i hi s hs d hd j hj x y hx hy
  rw [hswap]
  refine ⟨fun hsame => .inr (.inr hsame), ?_⟩
  rintro (hone | hshort | hsame)
  · -- with one head both layouts are the same
    intro i hi s hs d hd j hj x y hx hy
    obtain rfl : i = 0 := by omega
    rw [hone, Nat.zero_mul, Nat.zero_add, Nat.div_one] at hy
    rw [hone, Nat.mod_one, some.inj (hx.symm.trans hy)]
  · -- and with one position
    intro i hi s hs d hd j hj x y hx hy
    have hlen : xs.length = 1 := by omega
    obtain rfl : s = 0 := by omega
    rw [hlen, Nat.mul_one, Nat.add_zero, Nat.div_eq_of_lt hi] at hy
    rw [hlen, Nat.mul_one, Nat.add_zero, Nat.mod_eq_of_lt hi, some.inj (hx.symm.trans hy)]
  · exact hsame

/-! ### The tensors of a run -/

theorem construct_dims
    (h : construct config grant answers = some (.ok c)) :
    c.config = config ∧ 0 < config.numHeads ∧ 0 < config.headDim := by
  unfold KVCache.construct at h
  split_ifs at h with hdims
  · split at h
    · cases h
    · rename_i es hes
      obtain ⟨n, -, hn⟩ := map_eq_some_iff.mp h
      cases hlayers : allocateLayers (prefixSize config es n) answers config.numLayers 0 with
      | error e =>
        rw [hlayers] at hn
        cases hn
      | ok layers =>
        rw [hlayers] at hn
        obtain rfl := Except.ok.inj hn
        exact ⟨rfl, hdims.2.1, hdims.2.2.1⟩
  · cases h

/-- The dimensions of a tensor that exists are small. -/
theorem dims_lt {config : KVCacheConfig} {n : ℕ} (hn : 0 < n) (hheads : 0 < config.numHeads)
    (hdim : 0 < config.headDim)
    (hdtype : elementSize config.dtype = .ok (dtypeSize config.dtype))
    (h : positions config n < sizeTRange) :
    config.numHeads < 2 ^ 63 ∧ n < 2 ^ 63 ∧ config.headDim < 2 ^ 63 := by
  have hes : 2 ≤ dtypeSize config.dtype := by
    revert hdtype
    cases config.dtype <;> simp [elementSize, dtypeSize]
  have hle : ∀ m, m ∣ n * config.numHeads * config.headDim → m < 2 ^ 63 := by
    intro m hm
    have hpos : 0 < n * config.numHeads * config.headDim := by positivity
    have hmul := Nat.mul_le_mul (Nat.le_of_dvd hpos hm) hes
    unfold positions sizeTRange at h
    omega
  refine ⟨hle _ ?_, hle _ ?_, hle _ ?_⟩
  · exact (Nat.dvd_mul_left _ _).mul_right _
  · exact (Nat.dvd_mul_right _ _).mul_right _
  · exact Nat.dvd_mul_left _ _

theorem cacheShape_eq (hheads : c.config.numHeads < 2 ^ 63) (hlen : c.currentSeqLen < 2 ^ 63)
    (hdim : c.config.headDim < 2 ^ 63) :
    c.cacheShape = [1, (c.config.numHeads : ℤ), (c.currentSeqLen : ℤ), (c.config.headDim : ℤ)] := by
  unfold cacheShape
  rw [toInt64_natCast hheads, toInt64_natCast hlen, toInt64_natCast hdim]

/-- **Layout.**  After `S` positions have been appended in order, the tensors of a layer are the
    head-major ones exactly with one head, with at most one position, or when the data read the
    same either way. -/
theorem kv_layout {grant : GrantedBudget} {answers : ℕ → LayerAnswer} {c₀ : KVCache}
    {ak av : Except MNException (ℕ → UInt8)} {tk tv : CacheTensor}
    (hnew : construct config grant answers = some (.ok c₀)) (hrun : Appended layer c₀ ks vs c)
    (hkey : c.getKey layer ak = some (.ok tk)) (hvalue : c.getValue layer av = some (.ok tv)) :
    (0 < ks.length → tk.shape = [1, (config.numHeads : ℤ), (ks.length : ℤ), (config.headDim : ℤ)] ∧
      tv.shape = [1, (config.numHeads : ℤ), (ks.length : ℤ), (config.headDim : ℤ)]) ∧
    (HeadMajor config tk ks ↔ config.numHeads = 1 ∨ ks.length ≤ 1 ∨ SwapInvariant config ks) ∧
    (HeadMajor config tv vs ↔ config.numHeads = 1 ∨ vs.length ≤ 1 ∨ SwapInvariant config vs) := by
  obtain ⟨hinv, hconfig⟩ := hrun.inv hnew
  obtain ⟨hconfig₀, hheads, hdim⟩ := construct_dims hnew
  rw [hconfig₀] at hconfig
  have hk := getTensor_stores hinv.dtype hinv.current (fun b hb => (hinv.stores b hb).1) hkey
  have hv := getTensor_stores hinv.dtype (hinv.current.trans hinv.lengths.symm)
    (fun b hb => (hinv.stores b hb).2) hvalue
  have hdtype := hinv.dtype
  rw [hconfig] at hk hv hdtype
  refine ⟨fun hpos => ?_, headMajor_iff hk.1, headMajor_iff hv.1⟩
  obtain ⟨hlheads, hllen, hldim⟩ := dims_lt hpos hheads hdim hdtype hk.2.1
  have hshape := cacheShape_eq (c := c) (hconfig ▸ hlheads) (hinv.current ▸ hllen)
    (hconfig ▸ hldim)
  rw [hconfig, hinv.current] at hshape
  exact ⟨hk.2.2.trans hshape, hv.2.2.trans hshape⟩

/-- A cache with one layer, `numHeads` heads and four positions of one `Float32` for each head. -/
def oneLayer (numHeads : ℕ) : KVCache :=
  { config := ⟨1, numHeads, 1, 4, .Float32⟩
    layers := [⟨⟨16 * numHeads, fun _ => 0⟩, ⟨16 * numHeads, fun _ => 0⟩⟩]
    actualMaxSeqLen := 4 }

/-- The element `h` of the token is the number `first + h`. -/
def numbered (first : ℕ) : TensorView := ⟨⟨8, fun i => UInt8.ofNat (first + i / 4)⟩, 0⟩

theorem oneLayer_construct_one : construct (oneLayer 1).config ⟨32, true⟩ (fun _ => granted)
    = some (.ok (oneLayer 1)) := rfl

theorem oneLayer_construct_two : construct (oneLayer 2).config ⟨64, true⟩ (fun _ => granted)
    = some (.ok (oneLayer 2)) := rfl

theorem kv_layout_one_head : ∃ c tk tv, Appended 0 (oneLayer 1) [numbered 0, numbered 2]
    [numbered 4, numbered 6] c ∧ c.getKey 0 (.ok fun _ => 0) = some (.ok tk) ∧
    c.getValue 0 (.ok fun _ => 0) = some (.ok tv) ∧
    HeadMajor (oneLayer 1).config tk [numbered 0, numbered 2] ∧
    HeadMajor (oneLayer 1).config tv [numbered 4, numbered 6] := by
  have hslice : ∀ n, IsSlice (oneLayer 1).config (numbered n) :=
    fun n => ⟨show 0 + 4 ≤ 8 by decide, show 8 < sizeTRange by decide⟩
  have hinit : Appended 0 (oneLayer 1) [] [] (oneLayer 1) := .init
  have hfirst := hinit.append (k := numbered 0) (v := numbered 4) (hslice 0) (hslice 4) rfl
  have hexists : ∃ c, Appended 0 (oneLayer 1) [numbered 0, numbered 2] [numbered 4, numbered 6] c ∧
      (∃ t, c.getKey 0 (.ok fun _ => 0) = some (.ok t)) ∧
      ∃ t, c.getValue 0 (.ok fun _ => 0) = some (.ok t) :=
    ⟨_, (Appended.resize (m := 3) hfirst (show resize _ 3 (fun _ => granted) = _ from rfl)).append
      (k := numbered 2) (v := numbered 6)
      (hslice 2) (hslice 6) rfl, ⟨_, rfl⟩, ⟨_, rfl⟩⟩
  obtain ⟨c, hrun, ⟨tk, hk⟩, tv, hv⟩ := hexists
  have hlayout := (kv_layout oneLayer_construct_one hrun hk hv).2
  exact ⟨c, tk, tv, hrun, hk, hv, hlayout.1.mpr (.inl rfl), hlayout.2.mpr (.inl rfl)⟩

/-- Two heads and two positions: the tensor has the second head of the first position where the
    first head of the second position belongs. -/
theorem transposed_heads :
    construct (oneLayer 2).config ⟨64, true⟩ (fun _ => granted) = some (.ok (oneLayer 2)) ∧
    ∃ c tk, Appended 0 (oneLayer 2) [numbered 0, numbered 2]
    [numbered 0, numbered 2] c ∧ c.getKey 0 (.ok fun _ => 0) = some (.ok tk) ∧
    ¬ HeadMajor (oneLayer 2).config tk [numbered 0, numbered 2] := by
  have hslice : ∀ n, IsSlice (oneLayer 2).config (numbered n) :=
    fun n => ⟨show 0 + 8 ≤ 8 by decide, show 8 < sizeTRange by decide⟩
  have hinit : Appended 0 (oneLayer 2) [] [] (oneLayer 2) := .init
  have hrun := (hinit.append (k := numbered 0) (v := numbered 0) (hslice 0) (hslice 0) rfl).append
    (k := numbered 2) (v := numbered 2) (hslice 2) (hslice 2) rfl
  refine ⟨oneLayer_construct_two, _, _, hrun, rfl, fun hmajor => ?_⟩
  have hbyte := hmajor 0 (by decide) 1 (by decide) 0 (by decide) 0 (by decide) (numbered 2) rfl
  revert hbyte
  decide

end KVCache

end MetalNative
