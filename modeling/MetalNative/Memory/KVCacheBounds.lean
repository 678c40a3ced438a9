import MetalNative.Memory.KVCache
import MetalNative.Lib.Run
import Mathlib.Tactic.Ring

namespace MetalNative

open Run Option List

/-!
# The buffers of `KVCache` hold what the cache admits

* `Bounded` — every buffer of the cache holds `actual_max_seq_len` positions, and the cache holds
  no more positions than that.
* `BoundsInv` — the invariant; `BoundsInv.append` and `BoundsInv.resize` are its steps.
* `cache_bounded` — in every run in which no `resize` is refused memory after it has replaced a
  layer, the cache is bounded, its copies stay inside its buffers, and a `resize` that throws
  leaves it as it was.
* `half_resized` — a `resize` that is refused memory at the second layer.
-/

namespace KVCache

variable {c c' : KVCache}

/-- The bytes of `n` positions. -/
def positions (config : KVCacheConfig) (n : ℕ) : ℕ :=
  n * config.numHeads * config.headDim * dtypeSize config.dtype

/-- Every layer's buffers hold `actual_max_seq_len` positions, which the current length does not
    exceed. -/
structure Bounded (c : KVCache) : Prop where
  holds : ∀ bufs ∈ c.layers, positions c.config c.actualMaxSeqLen ≤ bufs.key.length ∧
    positions c.config c.actualMaxSeqLen ≤ bufs.value.length
  current : c.currentSeqLen ≤ c.actualMaxSeqLen

/-- The invariant. -/
structure BoundsInv (c : KVCache) : Prop where
  dtype : elementSize c.config.dtype = .ok (dtypeSize c.config.dtype)
  layers : c.layers.length = c.config.numLayers
  positive : 0 < c.config.numLayers
  nowrap : positions c.config c.actualMaxSeqLen < sizeTRange
  bounded : Bounded c

/-! ### Sizes -/

theorem elementSize_eq {dtype : MNDType} {es : ℕ} (h : elementSize dtype = .ok es) :
    es = dtypeSize dtype := by
  cases dtype <;> simp [elementSize, dtypeSize] at h ⊢ <;> omega

theorem positions_mono (config : KVCacheConfig) {m n : ℕ} (h : m ≤ n) :
    positions config m ≤ positions config n := by
  unfold positions
  gcongr

/-- The position behind `position` starts where its slice ends. -/
theorem positions_succ (config : KVCacheConfig) (position : ℕ) :
    positions config position + positions config 1 = positions config (position + 1) := by
  unfold positions
  ring

theorem sliceSize_eq (config : KVCacheConfig) :
    sliceSize config (dtypeSize config.dtype) = positions config 1 % sizeTRange := by
  unfold sliceSize positions
  rw [Nat.one_mul]

theorem prefixSize_eq (config : KVCacheConfig) (n : ℕ) :
    prefixSize config (dtypeSize config.dtype) n = positions config n % sizeTRange := rfl

/-- An admitted position lies inside the buffers, with nothing wrapped around. -/
theorem BoundsInv.slice_fits (h : BoundsInv c) {position : ℕ} (hp : position < c.actualMaxSeqLen) :
    position * sliceSize c.config (dtypeSize c.config.dtype) % sizeTRange
        + sliceSize c.config (dtypeSize c.config.dtype)
      ≤ positions c.config c.actualMaxSeqLen := by
  have hsucc := positions_succ c.config position
  have hle := positions_mono c.config (show position + 1 ≤ c.actualMaxSeqLen by omega)
  have hwrap := h.nowrap
  have hpos : position * positions c.config 1 = positions c.config position := by
    unfold positions
    ring
  rw [sliceSize_eq, Nat.mod_eq_of_lt (show positions c.config 1 < sizeTRange by omega), hpos,
    Nat.mod_eq_of_lt (by omega)]
  omega

/-- What is copied out of a buffer lies inside it. -/
theorem BoundsInv.prefix_fits (h : BoundsInv c) {n : ℕ} (hn : n ≤ c.actualMaxSeqLen) :
    prefixSize c.config (dtypeSize c.config.dtype) n = positions c.config n ∧
      positions c.config n ≤ positions c.config c.actualMaxSeqLen := by
  have hle := positions_mono c.config hn
  have hwrap := h.nowrap
  rw [prefixSize_eq, Nat.mod_eq_of_lt (by omega)]
  exact ⟨rfl, hle⟩

/-! ### New buffers -/

theorem newBuffer_length {size : ℕ} {answer : Option (ℕ → UInt8)} {buffer : MTLBuffer}
    (h : newBufferWithLength size answer = some buffer) : buffer.length = size := by
  unfold newBufferWithLength at h
  split_ifs at h
  obtain ⟨bytes, -, rfl⟩ := map_eq_some_iff.mp h
  rfl

theorem newLayer_length {size : ℕ} {answer : LayerAnswer} {bufs : LayerBuffers}
    (h : newLayer size answer = some bufs) : bufs.key.length = size ∧ bufs.value.length = size := by
  unfold newLayer at h
  split at h
  · rename_i key value hkey hvalue
    obtain rfl := some.inj h
    exact ⟨newBuffer_length hkey, newBuffer_length hvalue⟩
  · cases h

variable {answers : ℕ → LayerAnswer}

theorem allocateLayers_length {size : ℕ} {n layer : ℕ}
    {layers : List LayerBuffers} (h : allocateLayers size answers n layer = .ok layers) :
    layers.length = n ∧ ∀ bufs ∈ layers, bufs.key.length = size ∧ bufs.value.length = size := by
  induction n generalizing layer layers with
  | zero =>
    obtain rfl := Except.ok.inj h
    exact ⟨rfl, fun bufs hb => absurd hb not_mem_nil⟩
  | succ n ih =>
    unfold allocateLayers at h
    split at h
    · cases h
    · rename_i bufs hnew
      cases hrest : allocateLayers size answers n (layer + 1) with
      | error e =>
        rw [hrest] at h
        cases h
      | ok rest =>
        rw [hrest] at h
        obtain rfl := Except.ok.inj h
        obtain ⟨hlen, hall⟩ := ih hrest
        refine ⟨by rw [length_cons, hlen], fun b hb => ?_⟩
        rcases mem_cons.mp hb with rfl | hb
        · exact newLayer_length hnew
        · exact hall b hb

/-- A constructed cache is bounded when the size of its buffers has not wrapped around. -/
theorem BoundsInv.construct {config : KVCacheConfig} {grant : GrantedBudget}
    (h : construct config grant answers = some (.ok c))
    (hwrap : positions c.config c.actualMaxSeqLen < sizeTRange) : BoundsInv c := by
  unfold KVCache.construct at h
  split_ifs at h with hdims
  · split at h
    · cases h
    · rename_i es hes
      obtain ⟨n, -, hn⟩ := map_eq_some_iff.mp h
      cases hlayers : allocateLayers (prefixSize config es n) answers config.numLayers 0 with
      | error e =>
        rw [hlayers] at hn
        cases hn
      | ok layers =>
        rw [hlayers] at hn
        obtain rfl := Except.ok.inj hn
        obtain rfl := elementSize_eq hes
        obtain ⟨hlen, hall⟩ := allocateLayers_length hlayers
        rw [prefixSize_eq, Nat.mod_eq_of_lt hwrap] at hall
        exact ⟨hes, hlen, hdims.1, hwrap,
          fun bufs hb => ⟨(hall bufs hb).1.ge, (hall bufs hb).2.ge⟩, Nat.zero_le _⟩
  · cases h

/-! ### `append` -/

/-- **`append`**: an admitted position is copied into its layer's buffers. -/
theorem BoundsInv.append (h : BoundsInv c) {layer position : ℕ} {newKey newValue : TensorView}
    {r : Except MNException Unit}
    (hr : c.append layer newKey newValue position = some (r, c')) : BoundsInv c' := by
  unfold KVCache.append at hr
  split_ifs at hr with hlayer hpos
  · rw [h.dtype] at hr
    dsimp only at hr
    obtain ⟨bufs, hbufs, hr⟩ := bind_eq_some_iff.mp hr
    obtain ⟨key, hkey, hr⟩ := bind_eq_some_iff.mp hr
    obtain ⟨value, hvalue, hr⟩ := bind_eq_some_iff.mp hr
    obtain ⟨-, rfl⟩ := some_mk_inj hr
    have hmem := h.bounded.holds bufs (mem_of_getElem? hbufs)
    refine ⟨h.dtype, (length_set ..).trans h.layers, h.positive, h.nowrap, fun b hb => ?_, ?_⟩
    · rcases mem_or_eq_of_mem_set hb with hold | rfl
      · exact h.bounded.holds b hold
      · -- a blit does not change the length of its destination
        rw [(MTLBuffer.copyFromBuffer_eq_some hkey).2.2.1,
          (MTLBuffer.copyFromBuffer_eq_some hvalue).2.2.1]
        exact hmem
    · exact max_le h.bounded.current (Nat.succ_le_of_lt hpos)
  · obtain ⟨-, rfl⟩ := some_mk_inj hr
    exact h
  · obtain ⟨-, rfl⟩ := some_mk_inj hr
    exact h

/-! ### `resize` -/

/-- The layers a `resize` leaves: the ones it has replaced have the new size. -/
theorem copyLayer_length {copySize : ℕ} {old new replaced : LayerBuffers}
    (h : copyLayer copySize old new = some replaced) :
    replaced.key.length = new.key.length ∧ replaced.value.length = new.value.length := by
  unfold copyLayer at h
  split_ifs at h
  · obtain ⟨key, hkey, h⟩ := bind_eq_some_iff.mp h
    obtain ⟨value, hvalue, h⟩ := bind_eq_some_iff.mp h
    obtain rfl := some.inj h
    exact ⟨(MTLBuffer.copyFromBuffer_eq_some hkey).2.2.1,
      (MTLBuffer.copyFromBuffer_eq_some hvalue).2.2.1⟩
  · obtain rfl := some.inj h
    exact ⟨rfl, rfl⟩

/-- With memory for every layer all layers are replaced. -/
theorem resizeLayers_all {size copySize : ℕ} {layer : ℕ}
    {olds news : List LayerBuffers} {e : Option MNException}
    (hall : ∀ i < olds.length, (newLayer size (answers (layer + i))).isSome = true)
    (h : resizeLayers size copySize answers layer olds = some (e, news)) :
    e = none ∧ news.length = olds.length ∧
      ∀ bufs ∈ news, bufs.key.length = size ∧ bufs.value.length = size := by
  induction olds generalizing layer news e with
  | nil =>
    obtain ⟨rfl, rfl⟩ := some_mk_inj h
    exact ⟨rfl, rfl, fun bufs hb => absurd hb not_mem_nil⟩
  | cons old rest ih =>
    unfold resizeLayers at h
    split at h
    · rename_i hnone
      have hzero := hall 0 (Nat.succ_pos _)
      rw [Nat.add_zero, hnone] at hzero
      cases hzero
    · rename_i new hnew
      obtain ⟨replaced, hcopy, h⟩ := bind_eq_some_iff.mp h
      obtain ⟨⟨e', rest'⟩, hrest, h⟩ := bind_eq_some_iff.mp h
      obtain ⟨rfl, rfl⟩ := some_mk_inj h
      have hall' : ∀ i < rest.length,
          (newLayer size (answers (layer + 1 + i))).isSome = true := by
        intro i hi
        have hsucc := hall (i + 1) (by rw [length_cons]; omega)
        rwa [show layer + (i + 1) = layer + 1 + i by omega] at hsucc
      obtain ⟨he, hlen, hsizes⟩ := ih hall' hrest
      refine ⟨he, by rw [length_cons, hlen, length_cons], fun bufs hb => ?_⟩
      rcases mem_cons.mp hb with rfl | hb
      · have hsame := copyLayer_length hcopy
        have hsize := newLayer_length hnew
        exact ⟨hsame.1.trans hsize.1, hsame.2.trans hsize.2⟩
      · exact hsizes bufs hb

/-- The size that `resize` gives the buffers. -/
def resizedBytes (c : KVCache) (newMaxSeqLen : ℕ) : ℕ :=
  prefixSize c.config (dtypeSize c.config.dtype) (max newMaxSeqLen c.currentSeqLen)

/-- Nothing is resized, or Metal refuses the buffers of the first layer or of no layer. -/
def RefusesFirstOrNone (c : KVCache) (newMaxSeqLen : ℕ) (answers : ℕ → LayerAnswer) : Prop :=
  c.actualMaxSeqLen ≤ newMaxSeqLen ∨
  (newLayer (c.resizedBytes newMaxSeqLen) (answers 0)).isNone = true ∨
    ∀ layer < c.config.numLayers,
      (newLayer (c.resizedBytes newMaxSeqLen) (answers layer)).isSome = true

/-- **`resize`** keeps the invariant, and a cache whose resize throws is as it was. -/
theorem BoundsInv.resize (h : BoundsInv c) {newMaxSeqLen : ℕ}
    {r : Except MNException Unit} (hcond : RefusesFirstOrNone c newMaxSeqLen answers)
    (hr : c.resize newMaxSeqLen answers = some (r, c')) :
    BoundsInv c' ∧ (r ≠ .ok () → c' = c) := by
  unfold KVCache.resize at hr
  split_ifs at hr with hgrow
  · obtain ⟨-, rfl⟩ := some_mk_inj hr
    exact ⟨h, fun _ => rfl⟩
  · rw [h.dtype] at hr
    dsimp only at hr
    obtain ⟨⟨e, layers⟩, hlayers, hr⟩ := map_eq_some_iff.mp hr
    have hmax : max newMaxSeqLen c.currentSeqLen ≤ c.actualMaxSeqLen :=
      max_le (le_of_lt (not_le.mp hgrow)) h.bounded.current
    change resizeLayers (c.resizedBytes newMaxSeqLen) _ answers 0 c.layers = some (e, layers)
      at hlayers
    rcases hcond with hnoop | hfirst | hall
    · exact absurd hnoop hgrow
    · -- refused at once: nothing has been replaced
      cases hold : c.layers with
      | nil =>
        have hlen := h.layers
        have hpos := h.positive
        rw [← hlen, hold] at hpos
        exact absurd hpos (lt_irrefl 0)
      | cons old rest =>
        rw [hold] at hlayers
        unfold resizeLayers at hlayers
        rw [isNone_iff_eq_none.mp hfirst] at hlayers
        obtain ⟨rfl, rfl⟩ := some_mk_inj hlayers
        obtain ⟨rfl, rfl⟩ := Prod.mk.inj hr
        rw [← hold]
        exact ⟨h, fun _ => rfl⟩
    · have hall' : ∀ i < c.layers.length,
          (newLayer (c.resizedBytes newMaxSeqLen) (answers (0 + i))).isSome = true := by
        intro i hi
        rw [Nat.zero_add]
        exact hall i (h.layers ▸ hi)
      obtain ⟨rfl, hlen, hsizes⟩ := resizeLayers_all hall' hlayers
      obtain ⟨rfl, rfl⟩ := Prod.mk.inj hr
      have hfits := h.prefix_fits hmax
      refine ⟨⟨h.dtype, hlen.trans h.layers, h.positive, hfits.2.trans_lt h.nowrap,
        fun bufs hb => ?_,
        le_max_right _ _⟩, fun hne => absurd rfl hne⟩
      have hsize := hsizes bufs hb
      unfold resizedBytes at hsize
      rw [hfits.1] at hsize
      exact ⟨hsize.1.ge, hsize.2.ge⟩

/-! ### Copies stay inside the buffers -/

/-- The destination of every `append` that is admitted, and what `get_key`, `get_value` and
    `resize` copy out, lies inside the buffers. -/
structure CopiesInside (c : KVCache) : Prop where
  append : ∀ (layer : ℕ) (bufs : LayerBuffers) (position : ℕ), c.layers[layer]? = some bufs →
    position < c.actualMaxSeqLen →
      let slice := sliceSize c.config (dtypeSize c.config.dtype)
      position * slice % sizeTRange + slice ≤ bufs.key.length ∧
        position * slice % sizeTRange + slice ≤ bufs.value.length
  get : ∀ (layer : ℕ) (bufs : LayerBuffers), c.layers[layer]? = some bufs →
    prefixSize c.config (dtypeSize c.config.dtype) c.currentSeqLen ≤ bufs.key.length ∧
      prefixSize c.config (dtypeSize c.config.dtype) c.currentSeqLen ≤ bufs.value.length

theorem BoundsInv.copiesInside (h : BoundsInv c) : CopiesInside c where
  append _ bufs _ hb hp :=
    have hmem := h.bounded.holds bufs (mem_of_getElem? hb)
    have hslice := h.slice_fits hp
    ⟨hslice.trans hmem.1, hslice.trans hmem.2⟩
  get _ bufs hb :=
    have hmem := h.bounded.holds bufs (mem_of_getElem? hb)
    have hcopied := h.prefix_fits h.bounded.current
    ⟨(hcopied.1.trans_le hcopied.2).trans hmem.1, (hcopied.1.trans_le hcopied.2).trans hmem.2⟩

/-! ### Runs -/

/-- The calls, with the answers of their environment. -/
inductive KVCall where
  | append (layer : ℕ) (newKey newValue : TensorView) (position : ℕ)
  | getKey (layer : ℕ) (answer : Except MNException (ℕ → UInt8))
  | getValue (layer : ℕ) (answer : Except MNException (ℕ → UInt8))
  | resize (newMaxSeqLen : ℕ) (answers : ℕ → LayerAnswer)
  | reset

/-- The cache after a call, calls that throw included. -/
def kvStep (c : KVCache) : KVCall → Option KVCache
  | .append layer newKey newValue position =>
    (c.append layer newKey newValue position).map Prod.snd
  | .getKey layer answer => (c.getKey layer answer).map fun _ => c
  | .getValue layer answer => (c.getValue layer answer).map fun _ => c
  | .resize newMaxSeqLen answers => (c.resize newMaxSeqLen answers).map Prod.snd
  | .reset => some c.reset

/-- The condition on a call: a `resize` is refused memory for the first layer or for none. -/
def ResizesWhole (c : KVCache) : KVCall → Prop
  | .resize newMaxSeqLen answers => RefusesFirstOrNone c newMaxSeqLen answers
  | _ => True

instance (c : KVCache) : ∀ call, Decidable (ResizesWhole c call)
  | .append .. => isTrue trivial
  | .getKey .. => isTrue trivial
  | .getValue .. => isTrue trivial
  | .resize _ _ => inferInstanceAs (Decidable (_ ∨ _ ∨ ∀ layer < _, _))
  | .reset => isTrue trivial

/-- **Step.**  A call that meets the condition keeps the invariant. -/
theorem BoundsInv.step {call : KVCall} (h : BoundsInv c) (hcond : ResizesWhole c call)
    (hs : kvStep c call = some c') : BoundsInv c' := by
  cases call with
  | append layer newKey newValue position =>
    obtain ⟨⟨r, d⟩, hr, rfl⟩ := map_eq_some_iff.mp hs
    exact h.append hr
  | getKey | getValue =>
    obtain ⟨-, -, rfl⟩ := map_eq_some_iff.mp hs
    exact h
  | resize newMaxSeqLen answers =>
    obtain ⟨⟨r, d⟩, hr, rfl⟩ := map_eq_some_iff.mp hs
    exact (h.resize hcond hr).1
  | reset =>
    obtain rfl := some.inj hs
    exact ⟨h.dtype, h.layers, h.positive, h.nowrap, h.bounded.holds, Nat.zero_le _⟩

/-- **Bounds.**  After a construction whose buffer size does not wrap around, and while no
    `resize` is refused memory after the first layer, every state is bounded, copies stay inside
    the buffers, and a `resize` that throws leaves the cache as it was. -/
theorem cache_bounded {config : KVCacheConfig} {grant : GrantedBudget} {answers : ℕ → LayerAnswer}
    {c₀ : KVCache} (hnew : construct config grant answers = some (.ok c₀))
    (hwrap : positions c₀.config c₀.actualMaxSeqLen < sizeTRange)
    (hrun : Runs kvStep ResizesWhole c₀ c) :
    Bounded c ∧ CopiesInside c ∧ ∀ newMaxSeqLen answers e c',
      RefusesFirstOrNone c newMaxSeqLen answers →
        c.resize newMaxSeqLen answers = some (.error e, c') → c' = c := by
  have hinv : BoundsInv c := hrun.invariant (BoundsInv.construct hnew hwrap)
    fun _ _ _ hu hg hs => hu.step hg hs
  refine ⟨hinv.bounded, hinv.copiesInside, fun newMaxSeqLen answers e c' hcond hr => ?_⟩
  exact (hinv.resize hcond hr).2 (fun h => nomatch h)

/-- A cache with two layers and four positions of four bytes. -/
def twoLayers : KVCache :=
  { config := ⟨2, 1, 1, 4, .Float32⟩
    layers := List.replicate 2 ⟨⟨16, fun _ => 0⟩, ⟨16, fun _ => 0⟩⟩
    actualMaxSeqLen := 4 }

/-- Both buffers are granted. -/
def granted : LayerAnswer := ⟨some fun _ => 0, some fun _ => 0⟩

/-- Four bytes to append. -/
def token : TensorView := ⟨⟨4, fun _ => 7⟩, 0⟩

theorem twoLayers_construct :
    construct twoLayers.config ⟨64, true⟩ (fun _ => granted) = some (.ok twoLayers) := rfl

theorem cache_bounded_run :
    ∃ c, exec kvStep twoLayers [.append 1 token token 0, .resize 2 fun _ => granted,
        .append 0 token token 1, .resize 1 fun _ => ⟨none, none⟩, .getKey 1 (.ok fun _ => 0),
        .reset] = some c ∧
      Bounded c ∧ CopiesInside c ∧ ∀ newMaxSeqLen answers e c',
        RefusesFirstOrNone c newMaxSeqLen answers →
          c.resize newMaxSeqLen answers = some (.error e, c') → c' = c := by
  have hsome : (exec kvStep twoLayers [.append 1 token token 0, .resize 2 fun _ => granted,
      .append 0 token token 1, .resize 1 fun _ => ⟨none, none⟩, .getKey 1 (.ok fun _ => 0),
      .reset]).isSome = true := by decide
  obtain ⟨c, hc⟩ := isSome_iff_exists.mp hsome
  have hguard : GuardedAlong kvStep ResizesWhole twoLayers [.append 1 token token 0,
      .resize 2 fun _ => granted, .append 0 token token 1, .resize 1 fun _ => ⟨none, none⟩,
      .getKey 1 (.ok fun _ => 0), .reset] := by decide
  exact ⟨c, hc, cache_bounded twoLayers_construct (by decide) (runs_exec hc hguard)⟩

/-- Metal refuses the buffers of the second layer: the first layer has two positions while the
    cache still admits four, and the next `append` leaves the buffer. -/
theorem half_resized :
    construct twoLayers.config ⟨64, true⟩ (fun _ => granted) = some (.ok twoLayers) ∧
    ∃ c e, twoLayers.resize 2 (fun layer => if layer = 0 then granted else ⟨none, none⟩)
        = some (.error e, c) ∧
      ¬ Bounded c ∧ c ≠ twoLayers ∧ (c.append 0 token token 3).isNone = true := by
  refine ⟨twoLayers_construct, _, _, rfl, fun h => ?_, fun h => ?_, by decide⟩
  · have hfirst := (h.holds _ (mem_cons_self ..)).1
    revert hfirst
    decide
  · have hlength := congrArg (fun c => c.layers.map fun bufs => bufs.key.length) h
    revert hlength
    decide

end KVCache

end MetalNative
