import MetalNative.Attention.SingleQuery

namespace MetalNative

open Broadcast (Within)
open ExtReal OnlineSoftmax Interference AttentionDims AttentionCall
open Strided (position)

/-!
# Causal attention

`fast.scaled_dot_product_attention` has a flag `causal`.  With it a query position may depend only
on the keys and values up to it; without it the result is attention over all keys.  The binding
drops the flag, so that both are asked of the same launch.

* `attention` — attention over all keys.
* `CausalAttention` — what the two values of the flag promise.
* `attention_sees_later` — attention over two keys or more depends on a later value.
* `scaled_dot_product_attention_causal` — when both promises are kept: for one query and one key,
  where the launch stores every element.
-/

/-! ### Attention over all keys -/

/-- The elements of the three buffers from the offsets on that they are bound with. -/
structure AttentionContents where
  Q : ℕ → ℝ
  K : ℕ → ℝ
  V : ℕ → ℝ

/-- The buffers of a kernel that is given no mask. -/
def AttentionContents.buffers (C : AttentionContents) : FlashBuffers where
  Q := C.Q
  K := C.K
  V := C.V
  mask := none

/-- An element of the output: batch, head, query position and column. -/
structure OutputElement where
  b : ℕ
  h : ℕ
  i : ℕ
  e : ℕ

namespace AttentionCall

variable (call : AttentionCall)

/-- The elements of the output. -/
def elements : Set OutputElement :=
  {p | p.b < call.dims.batch ∧ p.h < call.dims.num_heads ∧ p.i < call.dims.seq_len_q
    ∧ p.e < call.dims.head_dim}

/-- The scaled product of a query and a key; a query head has the key head of its group. -/
noncomputable def attentionScore (C : AttentionContents) (p : OutputElement) (k : ℕ) : WithBot ℝ :=
  ((∑ e ∈ Finset.range call.dims.head_dim,
    C.Q (call.query.place [p.b, p.h, p.i, e])
      * C.K (call.key.place [p.b, p.h / call.dims.ratio, k, e])) * call.scale : ℝ)

/-- **Attention over all keys**: the values weighted by the softmax of the scores. -/
noncomputable def attention (C : AttentionContents) (p : OutputElement) : ExtReal :=
  real (((List.range call.dims.seq_len_k).map fun k =>
    rowSoftmax (call.attentionScore C p) (List.range call.dims.seq_len_k) k
      * C.V (call.value.place [p.b, p.h / call.dims.ratio, k, p.e])).sum)

/-- The keys and the values agree at all positions up to `i`. -/
def AgreeUpTo (i : ℕ) (C C' : AttentionContents) : Prop :=
  C.Q = C'.Q ∧ ∀ b < call.dims.batch, ∀ h < call.dims.num_kv_heads, ∀ k < call.dims.seq_len_k,
    ∀ e < call.dims.head_dim, k ≤ i →
      C.K (call.key.place [b, h, k, e]) = C'.K (call.key.place [b, h, k, e])
        ∧ C.V (call.value.place [b, h, k, e]) = C'.V (call.value.place [b, h, k, e])

/-- Who sees the positions up to `i` is not to tell apart what agrees up to `i`. -/
def causalObserver : Observer AttentionContents OutputElement ℕ where
  alike := call.AgreeUpTo
  seen := fun i p => p.i ≤ i

/-- What a launch may leave in the elements of the output. -/
def results (st : AttentionState) (launch : FlashLaunch) :
    Program AttentionContents OutputElement ExtReal := fun C p v =>
  launch.Leaves st call.scale C.buffers
    (position call.dims.outputShape [p.b, p.h, p.i, p.e]) v

end AttentionCall

/-- The call that the binding makes. -/
def bindingCall (query key value : DeviceTensor ℝ) (scale : ℝ) : AttentionCall :=
  { query, key, value, mask := none, scale }

/-- What `causal` promises: with it no position depends on a later one, without it the result is
attention over all keys. -/
structure CausalAttention (st : AttentionState) (query key value : DeviceTensor ℝ) (scale : ℝ) :
    Prop where
  causal : ∀ launch, scaledDotProductAttention st query key value scale true = .ok launch →
    NonInterfering ((bindingCall query key value scale).results st launch)
      (bindingCall query key value scale).elements
        (bindingCall query key value scale).causalObserver
  unmasked : ∀ launch, scaledDotProductAttention st query key value scale false = .ok launch →
    Interference.Computes ((bindingCall query key value scale).results st launch)
      (bindingCall query key value scale).elements (bindingCall query key value scale).attention

/-- One query and one key, and a launch that stores every element: its memories fit, no index wraps
around, the value is row-major, the SIMD kernels have a head dimension that is a multiple of 16, and
the grouped-query kernel also one of at most 128 and groups of at most eight. -/
structure SingleQuery (st : AttentionState) (call : AttentionCall) : Prop where
  seq_len : call.dims.seq_len_q = 1
  total : call.dims.batch * call.dims.num_heads * call.dims.head_dim ≤ uintRange
  rowMajor : call.value.RowMajor
  fits : ∀ path, call.path st = .ok path →
    (call.dims.launchOf path call.kernelType).threadgroupMemory.sum ≤ st.maxThreadgroupMemoryLength
  simd : ∀ κ, call.path st = .ok (.simd κ) → 16 ∣ call.dims.head_dim
  gqa : call.dims.isGqa → call.dims.head_dim ≤ 128 ∧ call.dims.ratio ≤ MAX_GROUP_RATIO

/-! ### Attention depends on later values -/

namespace AttentionCall

variable {call : AttentionCall} {st : AttentionState} {launch : FlashLaunch}

theorem attentionScore_ne_bot (C : AttentionContents) (p : OutputElement) (k : ℕ) :
    call.attentionScore C p k ≠ ⊥ := WithBot.coe_ne_bot

/-- **Attention over two keys or more depends on a later value**: zeros, and zeros but for one value
at position 1, agree at position 0. -/
theorem attention_sees_later (hchecked : AttentionChecked call) (hne : call.elements.Nonempty)
    (hlen : 1 < call.dims.seq_len_k) :
    ¬ Respects call.attention call.elements call.causalObserver := by
  obtain ⟨p, hb, hh, hi, he⟩ := hne
  have hkv : 0 < call.dims.num_kv_heads :=
    Nat.zero_lt_of_lt (kvHead_lt hchecked.heads_mod hh)
  have hwithin : ∀ b < call.dims.batch, ∀ h < call.dims.num_kv_heads, ∀ k < call.dims.seq_len_k,
      ∀ e < call.dims.head_dim, Within call.value.dims [b, h, k, e] := by
    intro b hb h hh k hk e he
    rw [hchecked.value]
    exact ⟨hb, hh, hk, he, trivial⟩
  have hlater := hwithin 0 (by omega) 0 hkv 1 hlen 0 (by omega)
  let zeros : AttentionContents := ⟨fun _ => 0, fun _ => 0, fun _ => 0⟩
  let one : AttentionContents :=
    ⟨fun _ => 0, fun _ => 0, fun n => if n = call.value.place [0, 0, 1, 0] then 1 else 0⟩
  have hagree : call.AgreeUpTo 0 zeros one := by
    refine ⟨rfl, ?_⟩
    intro b hb h hh k hk e he hk0
    refine ⟨rfl, ?_⟩
    show (0 : ℝ) = if call.value.place [b, h, k, e] = call.value.place [0, 0, 1, 0] then 1 else 0
    rw [if_neg]
    intro hplace
    have heq := call.value.inj _ _ (hwithin b hb h hh k hk e he) hlater hplace
    simp only [List.cons.injEq] at heq
    omega
  have hnonneg : ∀ n, 0 ≤ one.V n := by
    intro n
    show (0 : ℝ) ≤ if n = call.value.place [0, 0, 1, 0] then 1 else 0
    split_ifs <;> norm_num
  have hone : 0 < one.V (call.value.place [0, 0, 1, 0]) := by
    show (0 : ℝ) < if call.value.place [0, 0, 1, 0] = call.value.place [0, 0, 1, 0] then 1 else 0
    rw [if_pos rfl]
    norm_num
  intro hrespects
  let first : OutputElement := ⟨0, 0, 0, 0⟩
  have hfirst : first ∈ call.elements :=
    ⟨Nat.zero_lt_of_lt hb, Nat.zero_lt_of_lt hh, Nat.zero_lt_of_lt hi, Nat.zero_lt_of_lt he⟩
  have heq := hrespects 0 zeros one hagree first hfirst le_rfl
  -- the later value has a positive weight
  have hzero : call.attention zeros first = real 0 := by
    simp [attention, zeros]
  have hpos := sum_rowSoftmax_mul_pos (s := call.attentionScore one first)
    (v := fun k => one.V (call.value.place [0, 0 / call.dims.ratio, k, 0]))
    (fun k _ => attentionScore_ne_bot one first k) (fun k _ => hnonneg _)
    (List.mem_range.mpr hlen) (by rw [Nat.zero_div]; exact hone)
  rw [hzero] at heq
  exact hpos.ne (ExtReal.real.inj heq)

/-! ### One query and one key -/

/-- The attention of one query to one key is the value. -/
theorem attention_single (hlen : call.dims.seq_len_k = 1) (C : AttentionContents)
    (p : OutputElement) :
    call.attention C p = real (C.V (call.value.place [p.b, p.h / call.dims.ratio, 0, p.e])) := by
  unfold attention
  rw [hlen]
  simp only [List.range_one, List.map_cons, List.map_nil, List.sum_cons, List.sum_nil,
    rowSoftmax_singleton (attentionScore_ne_bot C p 0), one_mul, add_zero]

/-- There is no later value then. -/
theorem attention_respects_single (hchecked : AttentionChecked call)
    (hlen : call.dims.seq_len_k = 1) :
    Respects call.attention call.elements call.causalObserver := by
  intro i C C' hagree p hp _
  obtain ⟨hb, hh, -, he⟩ := hp
  have hkv := kvHead_lt hchecked.heads_mod hh
  rw [attention_single hlen, attention_single hlen,
    (hagree.2 p.b hb _ hkv 0 (by omega) p.e he (Nat.zero_le i)).2]

/-- A launch leaves something in every cell. -/
theorem results_total (st : AttentionState) (launch : FlashLaunch) :
    Total (call.results st launch) call.elements := by
  intro C p _
  obtain ⟨v, hv⟩ := exists_leaves (launch.Stores call.scale C.buffers
    (position call.dims.outputShape [p.b, p.h, p.i, p.e]))
  exact ⟨v, fun _ => hv⟩

/-! ### When a single query and key are attended -/

section Single

variable {path : FlashPath} {dtype : MNDType}

/-- Where a launch runs, its head dimension is a `uint` value. -/
theorem head_dim_lt (hlaunch : FlashLaunched call.dims path)
    (hfits : (call.dims.launchOf path dtype).Fits st) : call.dims.head_dim < uintRange := by
  cases hlaunch with
  | texture hgqa =>
    have hlt := st.memory_lt
    have hle : (16 * call.dims.head_dim * 4)
        + ((16 * call.dims.head_dim * 4) + ((16 * call.dims.head_dim * 4) + 0))
        ≤ st.maxThreadgroupMemoryLength := hfits
    omega
  | simd κ h => exact h.head_dim

/-- The cells that are stored have `uint` indices. -/
theorem stores_lt {scale : ℝ} {buf : FlashBuffers} {p : ℕ} {v : ExtReal}
    (h : (call.dims.launchOf path dtype).Stores scale buf p v) : p < uintRange := by
  cases path with
  | texture =>
    obtain ⟨b, -, head, -, x, -, -, qr, -, d, -, rfl, -⟩ := h
    exact toUInt_lt _
  | simd κ =>
    obtain ⟨c, -, rfl, -⟩ := h
    exact toUInt_lt _

/-- The position of an element of a single query. -/
theorem position_single (hlen : call.dims.seq_len_q = 1) {p : OutputElement}
    (hp : p ∈ call.elements) :
    position call.dims.outputShape [p.b, p.h, p.i, p.e]
      = (p.b * call.dims.num_heads + p.h) * call.dims.head_dim + p.e := by
  have hi := hp.2.2.1
  have hi0 : p.i = 0 := by omega
  rw [outputShape, position_quad, hlen, hi0, Nat.mul_one, Nat.add_zero]

/-- The values that a launch stores in an element of a single query: at most one. -/
theorem stores_element_iff (hlaunch : FlashLaunched call.dims path)
    (hfits : (call.dims.launchOf path dtype).Fits st) (hs : SingleSizes call.dims)
    {C : AttentionContents} {p : OutputElement} (hp : p ∈ call.elements) {v : ExtReal} :
    (call.dims.launchOf path dtype).Stores call.scale C.buffers
        (position call.dims.outputShape [p.b, p.h, p.i, p.e]) v
      ↔ call.dims.HeadComputed p.h ∧ v = real (C.V ((p.b * call.dims.num_kv_heads
          + p.h / call.dims.ratio) * call.dims.head_dim + p.e)) := by
  have hdim := head_dim_lt hlaunch hfits
  obtain ⟨hb, hh, -, he⟩ := id hp
  rw [stores_single hlaunch hdim hs rfl, position_single hs.seq_len_q hp]
  constructor
  · rintro ⟨b, hb', h, hh', e, he', hcomputed, hpos, rfl⟩
    -- no two elements have the same cell
    have hwithin : ∀ b h e, b < call.dims.batch → h < call.dims.num_heads →
        e < call.dims.head_dim → Within call.dims.outputShape [b, h, 0, e] := by
      intro b h e hb hh he
      exact ⟨hb, hh, by rw [hs.seq_len_q]; exact Nat.one_pos, he, trivial⟩
    have hcell : ∀ b h e, position call.dims.outputShape [b, h, 0, e]
        = (b * call.dims.num_heads + h) * call.dims.head_dim + e := by
      intro b h e
      rw [outputShape, position_quad, hs.seq_len_q, Nat.mul_one, Nat.add_zero]
    have heq := Strided.position_inj (hwithin p.b p.h p.e hb hh he) (hwithin b h e hb' hh' he')
      (by rw [hcell, hcell, hpos])
    simp only [List.cons.injEq, and_true, true_and] at heq
    obtain ⟨rfl, rfl, rfl⟩ := heq
    exact ⟨hcomputed, rfl⟩
  · rintro ⟨hcomputed, rfl⟩
    exact ⟨p.b, hb, p.h, hh, p.e, he, hcomputed, rfl, rfl⟩

/-- A value of length one is row-major when its heads follow each other. -/
theorem rowMajor_single_iff (hchecked : AttentionChecked call) (hlen : call.dims.seq_len_k = 1) :
    call.value.RowMajor ↔ ∀ b < call.dims.batch, ∀ h < call.dims.num_kv_heads,
      ∀ e < call.dims.head_dim,
        call.value.place [b, h, 0, e]
          = (b * call.dims.num_kv_heads + h) * call.dims.head_dim + e := by
  have hcell : ∀ b h e, position call.dims.kvShape [b, h, 0, e]
      = (b * call.dims.num_kv_heads + h) * call.dims.head_dim + e := by
    intro b h e
    rw [kvShape, position_quad, hlen, Nat.mul_one, Nat.add_zero]
  unfold DeviceTensor.RowMajor
  rw [hchecked.value]
  constructor
  · intro hmajor b hb h hh e he
    rw [hmajor [b, h, 0, e] ⟨hb, hh, by rw [hlen]; exact Nat.one_pos, he, trivial⟩, hcell]
  · intro hplace idx hidx
    obtain ⟨b, h, k, e, rfl⟩ : ∃ b h k e, idx = [b, h, k, e] := by
      have hfour := Strided.Within.length_eq hidx
      rcases idx with _ | ⟨b, _ | ⟨h, _ | ⟨k, _ | ⟨e, _ | ⟨g, idx⟩⟩⟩⟩⟩
      all_goals simp [kvShape] at hfour
      exact ⟨b, h, k, e, rfl⟩
    obtain ⟨hb, hh, hk, he, -⟩ := hidx
    have hk0 : k = 0 := by omega
    subst hk0
    rw [hplace b hb h hh e he, hcell]

/-- The conditions are enough for the launch to compute attention. -/
theorem computes_of_singleQuery (hchecked : AttentionChecked call) (hpath : call.path st = .ok path)
    (hlaunch : FlashLaunched call.dims path)
    (hk : call.dims.seq_len_q = call.dims.seq_len_k) (h : SingleQuery st call) :
    Interference.Computes (call.results st (call.dims.launchOf path call.kernelType)) call.elements
      call.attention := by
  have hlen : call.dims.seq_len_k = 1 := hk ▸ h.seq_len
  have hs : SingleSizes call.dims :=
    ⟨h.seq_len, hlen, hchecked.heads_le, hchecked.heads_mod, h.total⟩
  have hfits : (call.dims.launchOf path call.kernelType).Fits st := h.fits path hpath
  have hends : (call.dims.launchOf path call.kernelType).Ends := by
    cases path with
    | texture =>
      show toUInt call.dims.seq_len_k + TEX_TILE_SIZE ≤ uintRange
      rw [hlen]
      decide
    | simd κ => exact trivial
  have hbounds : (call.dims.launchOf path call.kernelType).InBounds := by
    cases hlaunch with
    | texture => exact trivial
    | simd κ hκ =>
      apply (κ.inBounds_iff _).mpr
      exact ⟨h.simd κ hpath, fun hgqa => (h.gqa (hκ.gqa.mp hgqa)).1⟩
  have hmajor := (rowMajor_single_iff hchecked hlen).mp h.rowMajor
  intro C p hp v hv
  refine forall_leaves_iff.mpr ?_ v (hv ⟨hfits, hends, hbounds⟩)
  obtain ⟨hb, hh, -, he⟩ := id hp
  have hkv := kvHead_lt hchecked.heads_mod hh
  have hvalue : call.attention C p = real (C.V ((p.b * call.dims.num_kv_heads
      + p.h / call.dims.ratio) * call.dims.head_dim + p.e)) := by
    rw [attention_single hlen, hmajor p.b hb _ hkv p.e he]
  have hcomputed : call.dims.HeadComputed p.h := by
    intro hgqa
    have hpos := ratio_pos hchecked.heads_mod (by omega)
    exact lt_of_lt_of_le (Nat.mod_lt _ hpos) (h.gqa hgqa).2
  constructor
  · exact (stores_element_iff hlaunch hfits hs hp).mpr ⟨hcomputed, hvalue⟩
  · intro w hw
    rw [hvalue]
    exact ((stores_element_iff hlaunch hfits hs hp).mp hw).2

/-- A launch that computes attention runs, and none of its accesses leaves an array. -/
theorem runs_of_computes (hne : call.elements.Nonempty)
    (h : Interference.Computes (call.results st launch) call.elements call.attention) :
    launch.Fits st ∧ launch.Ends ∧ launch.InBounds := by
  by_contra hruns
  obtain ⟨p, hp⟩ := hne
  -- otherwise anything may be left
  have hnan := h ⟨fun _ => 0, fun _ => 0, fun _ => 0⟩ p hp nan fun hr => absurd hr hruns
  cases hnan

/-- Where attention is computed, the last element has a `uint` index. -/
theorem total_of_computes (hne : call.elements.Nonempty) (hq : call.dims.seq_len_q = 1)
    (h : Interference.Computes (call.results st (call.dims.launchOf path dtype)) call.elements
      call.attention) :
    call.dims.batch * call.dims.num_heads * call.dims.head_dim ≤ uintRange := by
  obtain ⟨p, hb, hh, hi, he⟩ := hne
  by_contra hlarge
  let last : OutputElement :=
    ⟨call.dims.batch - 1, call.dims.num_heads - 1, 0, call.dims.head_dim - 1⟩
  have hlast : last ∈ call.elements := by
    refine ⟨Nat.sub_lt (Nat.zero_lt_of_lt hb) Nat.one_pos,
      Nat.sub_lt (Nat.zero_lt_of_lt hh) Nat.one_pos, Nat.zero_lt_of_lt hi,
      Nat.sub_lt (Nat.zero_lt_of_lt he) Nat.one_pos⟩
  have hposition : uintRange ≤ position call.dims.outputShape [last.b, last.h, last.i, last.e] := by
    rw [position_single hq hlast]
    obtain ⟨B, hB⟩ := Nat.exists_eq_add_of_lt (Nat.zero_lt_of_lt hb)
    obtain ⟨H, hH⟩ := Nat.exists_eq_add_of_lt (Nat.zero_lt_of_lt hh)
    obtain ⟨D, hD⟩ := Nat.exists_eq_add_of_lt (Nat.zero_lt_of_lt he)
    show uintRange ≤ ((call.dims.batch - 1) * call.dims.num_heads + (call.dims.num_heads - 1))
      * call.dims.head_dim + (call.dims.head_dim - 1)
    have hsplit : ((call.dims.batch - 1) * call.dims.num_heads + (call.dims.num_heads - 1))
        * call.dims.head_dim + (call.dims.head_dim - 1) + 1
        = call.dims.batch * call.dims.num_heads * call.dims.head_dim := by
      rw [hB, hH, hD]
      simp only [Nat.zero_add, Nat.add_sub_cancel]
      ring
    omega
  have hnone : ∀ w, ¬ (call.dims.launchOf path dtype).Stores call.scale
      (AttentionContents.buffers ⟨fun _ => 0, fun _ => 0, fun _ => 0⟩)
      (position call.dims.outputShape [last.b, last.h, last.i, last.e]) w := by
    intro w hw
    have hlt := stores_lt hw
    omega
  have hnan := h ⟨fun _ => 0, fun _ => 0, fun _ => 0⟩ last hlast nan fun _ => Or.inr hnone
  cases hnan

/-- Where attention is computed, the conditions hold. -/
theorem singleQuery_of_computes (hchecked : AttentionChecked call)
    (hpath : call.path st = .ok path) (hlaunch : FlashLaunched call.dims path)
    (hne : call.elements.Nonempty) (hq : call.dims.seq_len_q = 1) (hk : call.dims.seq_len_k = 1)
    (h : Interference.Computes (call.results st (call.dims.launchOf path call.kernelType))
      call.elements
      call.attention) : SingleQuery st call := by
  obtain ⟨hfits, hends, hbounds⟩ := runs_of_computes hne h
  have htotal := total_of_computes hne hq h
  have hs : SingleSizes call.dims := ⟨hq, hk, hchecked.heads_le, hchecked.heads_mod, htotal⟩
  have hstored : ∀ C, ∀ p ∈ call.elements, call.dims.HeadComputed p.h ∧
      call.attention C p = real (C.V ((p.b * call.dims.num_kv_heads
        + p.h / call.dims.ratio) * call.dims.head_dim + p.e)) := by
    intro C p hp
    have hleaves := forall_leaves_iff.mp fun v hv => h C p hp v fun _ => hv
    exact (stores_element_iff hlaunch hfits hs hp).mp hleaves.1
  obtain ⟨p, hb, hh, hi, he⟩ := hne
  have hratio := ratio_pos hchecked.heads_mod (Nat.zero_lt_of_lt hh)
  have hheads := num_heads_eq hchecked.heads_mod
  refine ⟨hq, htotal, ?_, ?_, ?_, ?_⟩
  · -- the contents that tell where each element of the value is read
    rw [rowMajor_single_iff hchecked hk]
    intro b hb h hh e he
    have hhead : h * call.dims.ratio < call.dims.num_heads := by
      rw [hheads]
      exact Nat.mul_lt_mul_of_pos_right hh hratio
    have hread := (hstored ⟨fun _ => 0, fun _ => 0, fun n => n⟩ ⟨b, h * call.dims.ratio, 0, e⟩
      ⟨hb, hhead, by show 0 < _; omega, he⟩).2
    rw [attention_single hk] at hread
    have hcast := ExtReal.real.inj hread
    dsimp only at hcast
    rw [Nat.mul_div_cancel h hratio] at hcast
    exact_mod_cast hcast
  · intro path' hpath'
    obtain rfl := Except.ok.inj (hpath.symm.trans hpath')
    exact hfits
  · intro κ hκ
    obtain rfl := Except.ok.inj (hpath.symm.trans hκ)
    exact ((κ.inBounds_iff _).mp hbounds).1
  · intro hgqa
    cases hlaunch with
    | texture hmha => simp [hmha] at hgqa
    | simd κ hκ =>
      refine ⟨((κ.inBounds_iff _).mp hbounds).2 (hκ.gqa.mpr hgqa), ?_⟩
      -- the ninth head of the first group
      by_contra hlarge
      have hlt : MAX_GROUP_RATIO < call.dims.num_heads := by
        have hkv := kvHead_lt hchecked.heads_mod hh
        have hmul := Nat.le_mul_of_pos_left call.dims.ratio (Nat.zero_lt_of_lt hkv)
        omega
      have hcomputed := (hstored ⟨fun _ => 0, fun _ => 0, fun _ => 0⟩ ⟨0, MAX_GROUP_RATIO, 0, 0⟩
        ⟨Nat.zero_lt_of_lt hb, hlt, Nat.zero_lt_of_lt hi, Nat.zero_lt_of_lt he⟩).1 hgqa
      have hmod : MAX_GROUP_RATIO % call.dims.ratio = MAX_GROUP_RATIO :=
        Nat.mod_eq_of_lt (by omega)
      have hless : MAX_GROUP_RATIO % call.dims.ratio < MAX_GROUP_RATIO := hcomputed
      omega

end Single

end AttentionCall

/-! ### The binding -/

/-- When the two promises are kept: the result has no elements, or there is one query and one key
and the launch stores every element. -/
def CausalWhen (st : AttentionState) (call : AttentionCall) : Prop :=
  call.dims.outputShape.prod = 0 ∨ SingleQuery st call

theorem AttentionCall.elements_nonempty_iff (call : AttentionCall) :
    call.elements.Nonempty ↔ call.dims.outputShape.prod ≠ 0 := by
  simp only [outputShape, List.prod_cons, List.prod_nil, mul_one, ne_eq,
    Nat.mul_eq_zero, not_or]
  constructor
  · rintro ⟨p, hb, hh, hi, he⟩
    omega
  · rintro ⟨hb, hh, hi, he⟩
    exact ⟨⟨0, 0, 0, 0⟩, Nat.pos_of_ne_zero hb, Nat.pos_of_ne_zero hh, Nat.pos_of_ne_zero hi,
      Nat.pos_of_ne_zero he⟩

theorem within_head {L : ℕ} {idx : List ℕ} (h : Within [1, 1, L, 16] idx) :
    ∃ k e, idx = [0, 0, k, e] ∧ k < L ∧ e < 16 := by
  have hfour := Strided.Within.length_eq h
  rcases idx with _ | ⟨b, _ | ⟨c, _ | ⟨k, _ | ⟨e, _ | ⟨g, idx⟩⟩⟩⟩⟩
  all_goals simp at hfour
  obtain ⟨hb, hc, hk, he, -⟩ := h
  obtain rfl : b = 0 := by omega
  obtain rfl : c = 0 := by omega
  exact ⟨k, e, rfl, hk, he⟩

theorem linear_head (s s' : ℤ) (k e : ℕ) :
    Strided.linear ([s, s', 16, 1].map toSizeT) [0, 0, k, e] = k * 16 + e := by
  have h16 : toSizeT 16 = 16 := by decide
  have h1 : toSizeT 1 = 1 := by decide
  simp [Strided.linear, h16, h1]

theorem headTensor_dims_lt {L : ℕ} (hL : L < uintRange) : ∀ d ∈ [1, 1, L, 16], d < 2 ^ 63 := by
  unfold uintRange at hL
  simp only [List.mem_cons, List.not_mem_nil, or_false]
  omega

theorem headTensor_numel_lt {L : ℕ} (hL : L < uintRange) : [1, 1, L, 16].prod < 2 ^ 63 := by
  unfold uintRange at hL
  simp only [List.prod_cons, List.prod_nil]
  omega

theorem headTensor_inside (L : ℕ) (s s' : ℤ) : ∀ idx, Within [1, 1, L, 16] idx →
    Strided.linear ([s, s', 16, 1].map toSizeT) idx < 16 * L := by
  intro idx hidx
  obtain ⟨k, e, rfl, hk, he⟩ := within_head hidx
  rw [linear_head]
  omega

theorem headTensor_inj (L : ℕ) (s s' : ℤ) : ∀ idx idx', Within [1, 1, L, 16] idx →
    Within [1, 1, L, 16] idx' → Strided.linear ([s, s', 16, 1].map toSizeT) idx =
      Strided.linear ([s, s', 16, 1].map toSizeT) idx' → idx = idx' := by
  intro idx idx' hidx hidx' h
  obtain ⟨k, e, rfl, hk, he⟩ := within_head hidx
  obtain ⟨k', e', rfl, hk', he'⟩ := within_head hidx'
  rw [linear_head, linear_head] at h
  obtain rfl : k = k' := by omega
  obtain rfl : e = e' := by omega
  rfl

/-- A row-major `Float32` tensor of one head with 16 columns. -/
def headTensor (L : ℕ) (hL : L < uintRange) : DeviceTensor ℝ where
  buffer := fun _ => 0
  dims := [1, 1, L, 16]
  strides := [16 * L, 16 * L, 16, 1]
  dtype := .Float32
  dims_lt := headTensor_dims_lt hL
  numel_lt := headTensor_numel_lt hL
  length := 16 * L
  inside := headTensor_inside L _ _
  inj := headTensor_inj L _ _

theorem headTensor_rowMajor (L : ℕ) (hL : L < uintRange) : (headTensor L hL).RowMajor := by
  intro idx hidx
  obtain ⟨k, e, rfl, hk, he⟩ := within_head hidx
  have hposition : position [1, 1, L, 16] [0, 0, k, e] = k * 16 + e := by
    rw [position_quad]
    omega
  exact (linear_head _ _ k e).trans hposition.symm

/-- A device with 32 KB of threadgroup memory, without pressure, that allocates what it is asked
for. -/
def idleState : AttentionState where
  use_texture_attention := false
  score_texture := false
  pressure := .Normal
  allocate := fun _ _ => .ok ()
  maxThreadgroupMemoryLength := 32768
  memory_lt := by decide

/-- One position. -/
def onePosition : DeviceTensor ℝ := headTensor 1 (by decide)

/-- Two positions. -/
def twoPositions : DeviceTensor ℝ := headTensor 2 (by decide)

end MetalNative
