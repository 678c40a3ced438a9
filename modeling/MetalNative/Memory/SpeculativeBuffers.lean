import MetalNative.Lib.Rounding
import MetalNative.Lib.Run
import MetalNative.Memory.KVCache

namespace MetalNative

open Run

/-!
# `SpeculativeDecodingBufferManager`: buffers for speculative decoding

A translation of `speculative_buffers.mm`.  The constructor asks the budget controller for the bytes
of three tensors and reduces the number of draft tokens to its grant, in double precision; `resize`
reduces it further.

* `SpeculativeDecodingBufferManager.construct`, `resize`, `memoryFootprint` — the calls.
* `reducedDraft_le`, `reducedDraft_fits` — the reduced number is at most the number asked for, and
  its tensors fit.
* `buffers_fit_grant` — in runs whose resizes are given memory the tensors are what the footprint
  says, and within the grant.
* `bfloat16_footprint` — a data type of two bytes that is counted as four.
-/

/-- `SpeculativeConfig`; nothing reads the hidden dimension. -/
structure SpeculativeConfig where
  maxDraftTokens : ℕ
  vocabSize : ℕ
  dtype : MNDType := .Float16
  deriving DecidableEq, Repr

/-- What the pooled allocator answers to the three tensors. -/
structure BufferAnswers where
  draft : Except MNException (ℕ → UInt8)
  verify : Except MNException (ℕ → UInt8)
  tokens : Except MNException (ℕ → UInt8)

/-- All three tensors are given memory. -/
def BufferAnswers.Granted (answers : BufferAnswers) : Prop :=
  answers.draft.isOk = true ∧ answers.verify.isOk = true ∧ answers.tokens.isOk = true

instance (answers : BufferAnswers) : Decidable answers.Granted :=
  inferInstanceAs (Decidable (_ ∧ _))

/-- `SpeculativeDecodingBufferManager::Impl`. -/
structure SpeculativeDecodingBufferManager where
  config : SpeculativeConfig
  currentMaxDraft : ℕ
  draftLogits : Option CacheTensor := none
  verifyLogits : Option CacheTensor := none
  draftTokens : Option CacheTensor := none

namespace SpeculativeDecodingBufferManager

/-! ### Calls -/

/-- The element size that the constructor and `memory_footprint` count with. -/
def logitSize (dtype : MNDType) : ℕ := if dtype = .Float16 then 2 else 4

/-- An assignment of a tensor that may throw instead. -/
def assign (m : SpeculativeDecodingBufferManager) (tensor : Except MNException CacheTensor)
    (next : CacheTensor → Outcome SpeculativeDecodingBufferManager Unit) :
    Outcome SpeculativeDecodingBufferManager Unit :=
  match tensor with
  | .error e => (.error e, m)
  | .ok t => next t

/-- `allocate_buffers`: the tensors are replaced one after the other. -/
def allocateBuffers (m : SpeculativeDecodingBufferManager) (answers : BufferAnswers) :
    Outcome SpeculativeDecodingBufferManager Unit :=
  let d := m.currentMaxDraft
  let vocab := toInt64 m.config.vocabSize
  m.assign (KVCache.emptyTensor [toInt64 d, vocab] m.config.dtype answers.draft) fun draft =>
    let m := { m with draftLogits := some draft }
    m.assign (KVCache.emptyTensor [toInt64 ((d + 1) % sizeTRange : ℕ), vocab] m.config.dtype
        answers.verify) fun verify =>
      let m := { m with verifyLogits := some verify }
      m.assign (KVCache.emptyTensor [toInt64 d] .Int64 answers.tokens) fun tokens =>
        (.ok (), { m with draftTokens := some tokens })

/-- `total_bytes`. -/
def totalBytes (config : SpeculativeConfig) : ℕ :=
  (config.maxDraftTokens * config.vocabSize * logitSize config.dtype * 2
    + (config.maxDraftTokens + 1) * config.vocabSize * logitSize config.dtype
    + config.maxDraftTokens * 8) % sizeTRange

/-- The value as a `double`. -/
def toDouble (x : ℚ) : ℚ := Rounding.round 53 x

/-- The proportional reduction: `max_draft_tokens * (bytes / total_bytes)` in `double`. -/
def reducedDraft (maxDraftTokens bytes total : ℕ) : ℕ :=
  let ratio := toDouble (toDouble bytes / toDouble total)
  max 1 ⌊toDouble (toDouble maxDraftTokens * ratio)⌋₊

/-- The number of draft tokens that the grant leaves. -/
def grantedDraft (config : SpeculativeConfig) (grant : GrantedBudget) : ℕ :=
  if grant.approved ∧ grant.bytes ≥ totalBytes config then config.maxDraftTokens
  else if grant.approved then reducedDraft config.maxDraftTokens grant.bytes (totalBytes config)
  else 1

/-- A constructor that throws leaves no object. -/
def constructed : Outcome SpeculativeDecodingBufferManager Unit →
    Except MNException SpeculativeDecodingBufferManager
  | (.error e, _) => .error e
  | (.ok _, m) => .ok m

/-- The constructor. -/
def construct (config : SpeculativeConfig) (grant : GrantedBudget) (answers : BufferAnswers) :
    Except MNException SpeculativeDecodingBufferManager :=
  constructed
    (allocateBuffers { config, currentMaxDraft := grantedDraft config grant } answers)

/-- `resize`. -/
def resize (m : SpeculativeDecodingBufferManager) (newMaxDraftTokens : ℕ)
    (answers : BufferAnswers) : Outcome SpeculativeDecodingBufferManager Unit :=
  if newMaxDraftTokens ≥ m.currentMaxDraft then (.ok (), m)
  else { m with currentMaxDraft := max 1 newMaxDraftTokens }.allocateBuffers answers

/-- `memory_footprint`. -/
def memoryFootprint (m : SpeculativeDecodingBufferManager) : ℕ :=
  (m.currentMaxDraft * m.config.vocabSize * logitSize m.config.dtype
    + (m.currentMaxDraft + 1) * m.config.vocabSize * logitSize m.config.dtype
    + m.currentMaxDraft * 8) % sizeTRange

/-! ### Bytes -/

/-- The bytes of the three tensors for `d` draft tokens, with an element size for the logits. -/
def tensorBytes (vocab size d : ℕ) : ℕ := d * vocab * size + (d + 1) * vocab * size + d * 8

/-- The bytes that the constructor means to ask for. -/
def requestBytes (config : SpeculativeConfig) : ℕ :=
  config.maxDraftTokens * config.vocabSize * logitSize config.dtype * 2
    + (config.maxDraftTokens + 1) * config.vocabSize * logitSize config.dtype
    + config.maxDraftTokens * 8

/-- The bytes of the tensors that exist. -/
def allocatedBytes (m : SpeculativeDecodingBufferManager) : ℕ :=
  ([m.draftLogits, m.verifyLogits, m.draftTokens].map fun t =>
    (t.map fun t => t.buffer.length).getD 0).sum

theorem tensorBytes_mono (vocab size : ℕ) {d d' : ℕ} (h : d ≤ d') :
    tensorBytes vocab size d ≤ tensorBytes vocab size d' := by
  unfold tensorBytes
  gcongr

theorem tensorBytes_le_request (config : SpeculativeConfig) :
    tensorBytes config.vocabSize (logitSize config.dtype) config.maxDraftTokens
      ≤ requestBytes config := by
  unfold tensorBytes requestBytes
  have hle := Nat.le_mul_of_pos_right
    (config.maxDraftTokens * config.vocabSize * logitSize config.dtype) (show 0 < 2 by decide)
  omega

/-! ### The reduction -/

variable {maxDraft bytes total : ℕ}

theorem toDouble_pos {x : ℚ} (hx : 0 < x) : 0 < toDouble x := Rounding.round_pos (by decide) hx

/-- A number with few enough binary digits is a `double`. -/
theorem toDouble_normal (n : ℕ) (e : ℤ) (hlow : 2 ^ 52 ≤ n) (hhigh : n < 2 ^ 53) :
    toDouble ((n : ℚ) * 2 ^ e) = n * 2 ^ e := by
  have hrep := Rounding.round_normal (p := 53) (n := n) (by decide) e
    (by exact_mod_cast hlow) (by exact_mod_cast hhigh)
  exact_mod_cast hrep

/-- The ratio of two different `double`s is a bit below one. -/
theorem toDouble_ratio_le {b t : ℚ} (hb : 0 < b) (ht : 0 < t) (hless : toDouble b < toDouble t) :
    toDouble (toDouble b / toDouble t) ≤ 1 - 1 / 2 ^ 53 := by
  have hbelow : toDouble (1 - 1 / 2 ^ 53) = 1 - 1 / 2 ^ 53 := by
    have hrep := toDouble_normal (2 ^ 53 - 1) (-53) (by norm_num) (by norm_num)
    norm_num at hrep ⊢
    exact hrep
  rw [← hbelow]
  exact Rounding.round_mono (by decide) (div_pos (toDouble_pos hb) (toDouble_pos ht))
    (Rounding.div_le_of_round_lt (by decide) hb ht hless)

/-- Such a ratio makes a `double` smaller. -/
theorem toDouble_mul_le {x r : ℚ} (hx : 0 < x) (hr : 0 < r) (hratio : r ≤ 1 - 1 / 2 ^ 53) :
    toDouble (toDouble x * r) ≤ x := by
  have hx' := toDouble_pos hx
  have hprod : (0 : ℚ) < toDouble x * r := mul_pos hx' hr
  have hbelow : toDouble (toDouble x * r) < toDouble x := by
    calc toDouble (toDouble x * r)
        ≤ toDouble x * r * (1 + 1 / 2 ^ 53) := Rounding.round_le_add (by decide) hprod
      _ ≤ toDouble x * (1 - 1 / 2 ^ 53) * (1 + 1 / 2 ^ 53) := by gcongr
      _ < toDouble x := by
          have hsmall : ((1 : ℚ) - 1 / 2 ^ 53) * (1 + 1 / 2 ^ 53) < 1 := by norm_num
          calc toDouble x * (1 - 1 / 2 ^ 53) * (1 + 1 / 2 ^ 53)
              = toDouble x * ((1 - 1 / 2 ^ 53) * (1 + 1 / 2 ^ 53)) := by ring
            _ < toDouble x * 1 := mul_lt_mul_of_pos_left hsmall hx'
            _ = toDouble x := mul_one _
  -- were the product above `x`, rounding would put it at `toDouble x` or above
  by_contra hnot
  have hle := Rounding.round_mono (p := 53) (by decide) hx (not_le.mp hnot).le
  have hidem : Rounding.round 53 (toDouble (toDouble x * r)) = toDouble (toDouble x * r) :=
    Rounding.round_idem (by decide) hprod
  rw [hidem] at hle
  exact absurd hbelow (not_lt.mpr hle)

/-- A grant below the request leaves at most the draft tokens asked for, unless it is the request as
    a `double` and the number of tokens is rounded up. -/
theorem reducedDraft_le (hmax : 0 < maxDraft) (hbytes : 0 < bytes) (hlt : bytes < total)
    (hround : toDouble bytes = toDouble total → toDouble maxDraft ≤ maxDraft) :
    reducedDraft maxDraft bytes total ≤ maxDraft := by
  have hD : (0 : ℚ) < maxDraft := by exact_mod_cast hmax
  have hB : (0 : ℚ) < bytes := by exact_mod_cast hbytes
  have hT : (0 : ℚ) < total := by exact_mod_cast hbytes.trans hlt
  have hT' := toDouble_pos hT
  have hB' := toDouble_pos hB
  refine max_le hmax (Nat.floor_le_of_le ?_)
  have hmono : toDouble bytes ≤ toDouble total :=
    Rounding.round_mono (by decide) hB (by exact_mod_cast hlt.le)
  rcases hmono.lt_or_eq with hless | heq
  · -- a smaller `double`: the ratio is below one
    exact toDouble_mul_le hD (toDouble_pos (div_pos hB' hT')) (toDouble_ratio_le hB hT hless)
  · -- the same `double`: the ratio is one, and the product is the number itself, rounded
    have hone : toDouble (toDouble bytes / toDouble total) = 1 := by
      have hrep := toDouble_normal (2 ^ 52) (-52) (by norm_num) (by norm_num)
      rw [heq, div_self hT'.ne']
      norm_num at hrep ⊢
      exact hrep
    have hidem : toDouble (toDouble maxDraft) = toDouble maxDraft :=
      Rounding.round_idem (by decide) hD
    rw [hone, mul_one, hidem]
    exact hround heq

/-- The reduced number is the proportional one but for the roundings. -/
theorem reducedDraft_mul_le (hmax : 0 < maxDraft) (hbytes : 0 < bytes) (hlt : bytes < total) :
    (⌊toDouble (toDouble maxDraft * toDouble (toDouble bytes / toDouble total))⌋₊ : ℚ) * total
      ≤ 33 / 32 * (maxDraft * bytes) := by
  have hD : (0 : ℚ) < maxDraft := by exact_mod_cast hmax
  have hB : (0 : ℚ) < bytes := by exact_mod_cast hbytes
  have hT : (0 : ℚ) < total := by exact_mod_cast hbytes.trans hlt
  have hD' := toDouble_pos hD
  have hT' := toDouble_pos hT
  have hB' := toDouble_pos hB
  have hquot := div_pos hB' hT'
  have hr := toDouble_pos hquot
  have hprod := mul_pos hD' hr
  -- each rounding adds at most one part in `2 ^ 53`
  have hDle : toDouble maxDraft ≤ maxDraft * (1 + 1 / 2 ^ 53) :=
    Rounding.round_le_add (by decide) hD
  have hBle : toDouble bytes ≤ bytes * (1 + 1 / 2 ^ 53) := Rounding.round_le_add (by decide) hB
  have hTge : total * (1 - 1 / 2 ^ 53) ≤ toDouble total := Rounding.sub_le_round (by decide) hT
  have hrle : toDouble (toDouble bytes / toDouble total)
      ≤ toDouble bytes / toDouble total * (1 + 1 / 2 ^ 53) :=
    Rounding.round_le_add (by decide) hquot
  have hple := Rounding.round_le_add (p := 53) (by decide) hprod
  have hfloor := Nat.floor_le (toDouble_pos hprod).le
  have hscale : toDouble bytes / toDouble total * (total * (1 - 1 / 2 ^ 53))
      ≤ bytes * (1 + 1 / 2 ^ 53) := by
    calc toDouble bytes / toDouble total * (total * (1 - 1 / 2 ^ 53))
        ≤ toDouble bytes / toDouble total * toDouble total :=
          mul_le_mul_of_nonneg_left hTge hquot.le
      _ = toDouble bytes := div_mul_cancel₀ _ hT'.ne'
      _ ≤ bytes * (1 + 1 / 2 ^ 53) := hBle
  -- there are four of them, and the total may have been rounded down
  have hsmall : ((1 : ℚ) + 1 / 2 ^ 53) ^ 4 ≤ 33 / 32 * (1 - 1 / 2 ^ 53) := by norm_num
  have hmain : (⌊toDouble (toDouble maxDraft * toDouble (toDouble bytes / toDouble total))⌋₊ : ℚ)
      * total * (1 - 1 / 2 ^ 53) ≤ 33 / 32 * (maxDraft * bytes) * (1 - 1 / 2 ^ 53) := by
    calc (⌊toDouble (toDouble maxDraft * toDouble (toDouble bytes / toDouble total))⌋₊ : ℚ)
          * total * (1 - 1 / 2 ^ 53)
        ≤ maxDraft * (1 + 1 / 2 ^ 53)
            * (toDouble bytes / toDouble total * (1 + 1 / 2 ^ 53)) * (1 + 1 / 2 ^ 53)
            * total * (1 - 1 / 2 ^ 53) := by
          have hone : (0 : ℚ) ≤ 1 - 1 / 2 ^ 53 := by norm_num
          refine mul_le_mul_of_nonneg_right (mul_le_mul_of_nonneg_right ?_ hT.le) hone
          refine hfloor.trans (hple.trans ?_)
          gcongr
      _ = maxDraft * (1 + 1 / 2 ^ 53) ^ 3
            * (toDouble bytes / toDouble total * (total * (1 - 1 / 2 ^ 53))) := by ring
      _ ≤ maxDraft * (1 + 1 / 2 ^ 53) ^ 3 * (bytes * (1 + 1 / 2 ^ 53)) := by gcongr
      _ = maxDraft * bytes * (1 + 1 / 2 ^ 53) ^ 4 := by ring
      _ ≤ maxDraft * bytes * (33 / 32 * (1 - 1 / 2 ^ 53)) := by gcongr
      _ = 33 / 32 * (maxDraft * bytes) * (1 - 1 / 2 ^ 53) := by ring
  exact le_of_mul_le_mul_right hmain (by norm_num)

/-- Of the three parts of the request the tensors leave one out, which is room enough for the row
    that does not shrink and for the roundings. -/
theorem reducedDraft_fits {config : SpeculativeConfig} (hmax : 0 < config.maxDraftTokens)
    (hvocab : 0 < config.vocabSize)
    (hone : tensorBytes config.vocabSize (logitSize config.dtype) 1 ≤ bytes)
    (hlt : bytes < requestBytes config) :
    tensorBytes config.vocabSize (logitSize config.dtype)
      (reducedDraft config.maxDraftTokens bytes (requestBytes config)) ≤ bytes := by
  have hbytes : 0 < bytes := lt_of_lt_of_le (by unfold tensorBytes; omega) hone
  have hbound := reducedDraft_mul_le hmax hbytes hlt
  unfold reducedDraft
  dsimp only
  generalize ⌊toDouble (toDouble config.maxDraftTokens
    * toDouble (toDouble bytes / toDouble (requestBytes config)))⌋₊ = q at hbound ⊢
  rcases Nat.lt_or_ge q 2 with hq | hq
  · rw [max_eq_left (by omega)]
    exact hone
  · rw [max_eq_right (by omega)]
    have hs : 0 < logitSize config.dtype := by
      unfold logitSize
      split_ifs <;> decide
    have hrow : 0 < config.vocabSize * logitSize config.dtype := Nat.mul_pos hvocab hs
    -- with `row` bytes for a row of logits
    have hrequest : requestBytes config = config.maxDraftTokens
        * (3 * (config.vocabSize * logitSize config.dtype) + 8)
          + config.vocabSize * logitSize config.dtype := by
      unfold requestBytes
      ring
    have htensors : tensorBytes config.vocabSize (logitSize config.dtype) q
        = q * (2 * (config.vocabSize * logitSize config.dtype) + 8)
          + config.vocabSize * logitSize config.dtype := by
      unfold tensorBytes
      ring
    rw [htensors]
    rw [hrequest] at hbound
    generalize config.vocabSize * logitSize config.dtype = row at hbound hrow ⊢
    generalize config.maxDraftTokens = D at hbound hmax
    have hnat : 32 * (q * (D * (3 * row + 8) + row)) ≤ 33 * (D * bytes) := by
      have hcast : (32 : ℚ) * (q * ((D * (3 * row + 8) + row : ℕ) : ℚ)) ≤ 33 * (D * bytes) := by
        linarith
      exact_mod_cast hcast
    -- the number of tokens asked for cancels
    have hcancel : 32 * (q * (3 * row + 8)) ≤ 33 * bytes := by
      refine Nat.le_of_mul_le_mul_left ?_ hmax
      calc D * (32 * (q * (3 * row + 8))) = 32 * (q * (D * (3 * row + 8))) := by ring
        _ ≤ 32 * (q * (D * (3 * row + 8) + row)) := by gcongr; omega
        _ ≤ 33 * (D * bytes) := hnat
        _ = D * (33 * bytes) := by ring
    have hwide : 33 * (q * (2 * row + 8) + row) ≤ 32 * (q * (3 * row + 8)) := by
      have htwo : 2 * row ≤ q * row := Nat.mul_le_mul_right _ hq
      have hq' : q ≤ q * row := Nat.le_mul_of_pos_right _ hrow
      calc 33 * (q * (2 * row + 8) + row) = 66 * (q * row) + 264 * q + 33 * row := by ring
        _ ≤ 96 * (q * row) + 256 * q := by omega
        _ = 32 * (q * (3 * row + 8)) := by ring
    omega

/-! ### The tensors -/

/-- The tensor of some rows. -/
def rows (dims : List ℕ) (dtype : MNDType) (bytes : ℕ → UInt8) : CacheTensor :=
  ⟨dims.map Nat.cast, dtype, ⟨dims.prod * dtypeSize dtype, bytes⟩⟩

/-- `MNTensor::empty` of a shape with few enough elements. -/
theorem emptyTensor_rows (dims : List ℕ) (dtype : MNDType)
    (answer : Except MNException (ℕ → UInt8)) (hpos : 0 < dims.prod) (hdims : dims.prod < 2 ^ 63)
    (hbytes : dims.prod * dtypeSize dtype < sizeTRange) :
    KVCache.emptyTensor (dims.map Nat.cast) dtype answer = answer.map (rows dims dtype) := by
  have hsize : 0 < dtypeSize dtype := by cases dtype <;> decide
  have hnumel : MNShape.numel (dims.map Nat.cast) = (dims.prod : ℕ) := by
    rw [MNShape.numel_map_natCast, toInt64_natCast hdims]
  have hvalue : toSizeT ((dims.prod : ℕ) : ℤ) = dims.prod :=
    toSizeT_natCast (hdims.trans (by decide))
  have hroom : ¬ SIZE_MAX / dtypeSize dtype < dims.prod := by
    rw [not_lt, Nat.le_div_iff_mul_le hsize]
    exact Nat.le_sub_one_of_lt hbytes
  have hone : 1 ≤ dims.prod * dtypeSize dtype := Nat.mul_pos hpos hsize
  unfold KVCache.emptyTensor rows
  dsimp only
  rw [hnumel, hvalue, if_neg fun h => hroom h.2, Nat.mod_eq_of_lt hbytes, max_eq_left hone]

/-- The tensors have `d`, `d + 1` and `d` rows. -/
structure Sized (m : SpeculativeDecodingBufferManager) : Prop where
  draft : ∃ bytes, m.draftLogits
    = some (rows [m.currentMaxDraft, m.config.vocabSize] m.config.dtype bytes)
  verify : ∃ bytes, m.verifyLogits
    = some (rows [m.currentMaxDraft + 1, m.config.vocabSize] m.config.dtype bytes)
  tokens : ∃ bytes, m.draftTokens = some (rows [m.currentMaxDraft] .Int64 bytes)

variable {m m' : SpeculativeDecodingBufferManager} {answers : BufferAnswers}

/-- `allocate_buffers` for tensors that can be counted. -/
theorem allocateBuffers_spec (answers : BufferAnswers) (hdraft : 0 < m.currentMaxDraft)
    (hvocab : 0 < m.config.vocabSize)
    (hsize : 2 ≤ dtypeSize m.config.dtype)
    (hroom : tensorBytes m.config.vocabSize (dtypeSize m.config.dtype) m.currentMaxDraft
      < sizeTRange) :
    (∃ m', m.allocateBuffers answers = (.ok (), m') ∧ m'.config = m.config ∧
      m'.currentMaxDraft = m.currentMaxDraft ∧ Sized m') ∨
    ∃ e m', m.allocateBuffers answers = (.error e, m') ∧ ¬ answers.Granted := by
  unfold tensorBytes at hroom
  unfold sizeTRange at hroom
  have hlogits : 0 < m.currentMaxDraft * m.config.vocabSize := Nat.mul_pos hdraft hvocab
  have hverify : (m.currentMaxDraft + 1) * m.config.vocabSize
      = m.currentMaxDraft * m.config.vocabSize + m.config.vocabSize := Nat.succ_mul _ _
  have hlogits_le := Nat.mul_le_mul_left (m.currentMaxDraft * m.config.vocabSize) hsize
  have hverify_le := Nat.mul_le_mul_left ((m.currentMaxDraft + 1) * m.config.vocabSize) hsize
  have hvocab_le : m.config.vocabSize ≤ m.currentMaxDraft * m.config.vocabSize :=
    Nat.le_mul_of_pos_left _ hdraft
  -- no dimension is cut off by the conversion to `int64_t`
  have hcast : toInt64 m.config.vocabSize = (m.config.vocabSize : ℤ) ∧
      toInt64 m.currentMaxDraft = (m.currentMaxDraft : ℤ) ∧
      toInt64 ((m.currentMaxDraft + 1) % sizeTRange : ℕ)
        = ((m.currentMaxDraft + 1 : ℕ) : ℤ) := by
    rw [Nat.mod_eq_of_lt (show m.currentMaxDraft + 1 < sizeTRange by unfold sizeTRange; omega)]
    exact ⟨toInt64_natCast (by omega), toInt64_natCast (by omega), toInt64_natCast (by omega)⟩
  have hd : KVCache.emptyTensor [(m.currentMaxDraft : ℤ), (m.config.vocabSize : ℤ)]
      m.config.dtype answers.draft = answers.draft.map
        (rows [m.currentMaxDraft, m.config.vocabSize] m.config.dtype) := by
    refine emptyTensor_rows [m.currentMaxDraft, m.config.vocabSize] _ _ ?_ ?_ ?_
    · simpa using ⟨hdraft, hvocab⟩
    · simp only [List.prod_cons, List.prod_nil, Nat.mul_one]
      omega
    · simp only [List.prod_cons, List.prod_nil, Nat.mul_one]
      unfold sizeTRange
      omega
  have hv : KVCache.emptyTensor [((m.currentMaxDraft + 1 : ℕ) : ℤ), (m.config.vocabSize : ℤ)]
      m.config.dtype answers.verify = answers.verify.map
        (rows [m.currentMaxDraft + 1, m.config.vocabSize] m.config.dtype) := by
    refine emptyTensor_rows [m.currentMaxDraft + 1, m.config.vocabSize] _ _ ?_ ?_ ?_
    · simpa using hvocab
    · simp only [List.prod_cons, List.prod_nil, Nat.mul_one]
      omega
    · simp only [List.prod_cons, List.prod_nil, Nat.mul_one]
      unfold sizeTRange
      omega
  have ht : KVCache.emptyTensor [(m.currentMaxDraft : ℤ)] .Int64 answers.tokens
      = answers.tokens.map (rows [m.currentMaxDraft] .Int64) := by
    refine emptyTensor_rows [m.currentMaxDraft] _ _ ?_ ?_ ?_
    · simpa using hdraft
    · simp only [List.prod_cons, List.prod_nil, Nat.mul_one]
      omega
    · simp only [List.prod_cons, List.prod_nil, Nat.mul_one]
      show m.currentMaxDraft * 8 < 2 ^ 64
      omega
  obtain ⟨hvocab_cast, hdraft_cast, hverify_cast⟩ := hcast
  unfold allocateBuffers BufferAnswers.Granted
  dsimp only
  rw [hvocab_cast, hdraft_cast, hverify_cast, hd, hv, ht]
  -- the first tensor that is refused throws
  cases answers.draft with
  | error e => exact .inr ⟨e, _, rfl, fun h => nomatch h.1⟩
  | ok draft =>
    cases answers.verify with
    | error e => exact .inr ⟨e, _, rfl, fun h => nomatch h.2.1⟩
    | ok verify =>
      cases answers.tokens with
      | error e => exact .inr ⟨e, _, rfl, fun h => nomatch h.2.2⟩
      | ok tokens => exact .inl ⟨_, rfl, rfl, rfl, ⟨draft, rfl⟩, ⟨verify, rfl⟩, ⟨tokens, rfl⟩⟩

/-! ### Runs -/

/-- The manager respects its grant. -/
structure FitsGrant (bytes : ℕ) (m : SpeculativeDecodingBufferManager) : Prop where
  footprint : m.allocatedBytes = m.memoryFootprint
  granted : m.allocatedBytes ≤ bytes
  draft : 1 ≤ m.currentMaxDraft ∧ m.currentMaxDraft ≤ m.config.maxDraftTokens
  sized : Sized m

/-- The condition on a config and its grant: the element size is the one that is counted with, the
    request fits a `size_t`, and where a smaller grant is the request as a `double`, the number of
    draft tokens is not rounded up. -/
structure Counted (config : SpeculativeConfig) (grant : GrantedBudget) : Prop where
  dtype : dtypeSize config.dtype = logitSize config.dtype
  request : requestBytes config < sizeTRange
  rounding : grant.bytes < requestBytes config →
    toDouble grant.bytes = toDouble (requestBytes config) →
      toDouble config.maxDraftTokens ≤ config.maxDraftTokens

/-- A resize. -/
structure ResizeCall where
  newMaxDraftTokens : ℕ
  answers : BufferAnswers

/-- The manager after a resize, failed ones included. -/
def step (m : SpeculativeDecodingBufferManager) (call : ResizeCall) :
    Option SpeculativeDecodingBufferManager :=
  some (m.resize call.newMaxDraftTokens call.answers).2

/-- The condition on a resize: it keeps the tensors, or all of the new ones are given memory. -/
def GivenMemory (m : SpeculativeDecodingBufferManager) (call : ResizeCall) : Prop :=
  call.newMaxDraftTokens ≥ m.currentMaxDraft ∨ call.answers.Granted

/-- What holds in a run. -/
structure GrantInv (config : SpeculativeConfig) (bytes : ℕ)
    (m : SpeculativeDecodingBufferManager) : Prop where
  config_eq : m.config = config
  draft : 1 ≤ m.currentMaxDraft ∧ m.currentMaxDraft ≤ config.maxDraftTokens
  fits : tensorBytes config.vocabSize (logitSize config.dtype) m.currentMaxDraft ≤ bytes
  sized : Sized m

variable {config : SpeculativeConfig} {grant : GrantedBudget}

theorem Sized.allocated (h : Sized m) : m.allocatedBytes
    = tensorBytes m.config.vocabSize (dtypeSize m.config.dtype) m.currentMaxDraft := by
  obtain ⟨draft, hdraft⟩ := h.draft
  obtain ⟨verify, hverify⟩ := h.verify
  obtain ⟨tokens, htokens⟩ := h.tokens
  unfold allocatedBytes tensorBytes
  rw [hdraft, hverify, htokens]
  simp [rows, dtypeSize]
  ring

/-- The tensors of at most the draft tokens asked for fit a `size_t`. -/
theorem Counted.tensors_lt (hc : Counted config grant) {d : ℕ} (hd : d ≤ config.maxDraftTokens) :
    tensorBytes config.vocabSize (dtypeSize config.dtype) d < sizeTRange := by
  rw [hc.dtype]
  exact (tensorBytes_mono _ _ hd).trans_lt ((tensorBytes_le_request config).trans_lt hc.request)

theorem two_le_logitSize (dtype : MNDType) : 2 ≤ logitSize dtype := by
  unfold logitSize
  split_ifs <;> decide

theorem GrantInv.fitsGrant (hi : GrantInv config grant.bytes m) (hc : Counted config grant) :
    FitsGrant grant.bytes m := by
  have hallocated := hi.sized.allocated
  have hroom := hc.tensors_lt hi.draft.2
  obtain ⟨rfl, hdraft, hfits, hsized⟩ := hi
  have hfootprint : m.memoryFootprint
      = tensorBytes m.config.vocabSize (logitSize m.config.dtype) m.currentMaxDraft :=
    Nat.mod_eq_of_lt (hc.dtype ▸ hroom)
  rw [hc.dtype] at hallocated
  exact ⟨hallocated.trans hfootprint.symm, hallocated.trans_le hfits, hdraft, hsized⟩

/-- The number of draft tokens that an approved grant leaves. -/
theorem Counted.grantedDraft_fits (hc : Counted config grant) (hmax : 0 < config.maxDraftTokens)
    (hvocab : 0 < config.vocabSize) (happroved : grant.approved = true)
    (hone : tensorBytes config.vocabSize (logitSize config.dtype) 1 ≤ grant.bytes) :
    (1 ≤ grantedDraft config grant ∧ grantedDraft config grant ≤ config.maxDraftTokens) ∧
      tensorBytes config.vocabSize (logitSize config.dtype) (grantedDraft config grant)
        ≤ grant.bytes := by
  have htotal : totalBytes config = requestBytes config := Nat.mod_eq_of_lt hc.request
  have hbytes : 0 < grant.bytes := lt_of_lt_of_le (by unfold tensorBytes; omega) hone
  unfold grantedDraft
  rw [htotal]
  by_cases hcovers : grant.bytes ≥ requestBytes config
  · rw [if_pos ⟨happroved, hcovers⟩]
    exact ⟨⟨hmax, le_rfl⟩, (tensorBytes_le_request config).trans hcovers⟩
  · rw [if_neg fun h => hcovers h.2, if_pos happroved]
    have hlt : grant.bytes < requestBytes config := not_le.mp hcovers
    exact ⟨⟨le_max_left _ _, reducedDraft_le hmax hbytes hlt (hc.rounding hlt)⟩,
      reducedDraft_fits hmax hvocab hone hlt⟩

/-- A constructed manager. -/
theorem GrantInv.construct (hc : Counted config grant) (hmax : 0 < config.maxDraftTokens)
    (hvocab : 0 < config.vocabSize) (happroved : grant.approved = true)
    (hone : tensorBytes config.vocabSize (logitSize config.dtype) 1 ≤ grant.bytes)
    (h : construct config grant answers = .ok m) : GrantInv config grant.bytes m := by
  obtain ⟨hdraft, hfits⟩ := hc.grantedDraft_fits hmax hvocab happroved hone
  have hsize : 2 ≤ dtypeSize config.dtype := hc.dtype ▸ two_le_logitSize _
  unfold SpeculativeDecodingBufferManager.construct at h
  rcases allocateBuffers_spec (m := { config, currentMaxDraft := grantedDraft config grant })
    answers hdraft.1 hvocab hsize (hc.tensors_lt hdraft.2) with
    ⟨m', hok, hconfig, hcurrent, hsized⟩ | ⟨e, m', hfail, -⟩
  · rw [hok] at h
    obtain rfl := Except.ok.inj h
    refine ⟨hconfig, ?_, ?_, hsized⟩
    · rw [hcurrent]
      exact hdraft
    · rw [hcurrent]
      exact hfits
  · rw [hfail] at h
    cases h

/-- A resize that keeps the tensors, or is given memory. -/
theorem GrantInv.step {call : ResizeCall} (hi : GrantInv config grant.bytes m)
    (hc : Counted config grant) (hvocab : 0 < config.vocabSize) (hop : m.GivenMemory call)
    (hs : m.step call = some m') : GrantInv config grant.bytes m' := by
  obtain rfl := Option.some.inj hs
  have hsize : 2 ≤ dtypeSize config.dtype := hc.dtype ▸ two_le_logitSize _
  unfold resize
  split_ifs with hkeep
  · exact hi
  · have hless : max 1 call.newMaxDraftTokens ≤ m.currentMaxDraft :=
      max_le hi.draft.1 (not_le.mp hkeep).le
    have hmax := hless.trans hi.draft.2
    obtain ⟨rfl, -, hfits, -⟩ := hi
    rcases allocateBuffers_spec (m := { m with currentMaxDraft := max 1 call.newMaxDraftTokens })
      call.answers (Nat.lt_of_lt_of_le Nat.one_pos (le_max_left _ _)) hvocab hsize
        (hc.tensors_lt hmax) with
      ⟨m', hok, hconfig, hcurrent, hsized⟩ | ⟨e, m', -, hrefused⟩
    · rw [hok]
      refine ⟨hconfig, ?_, ?_, hsized⟩
      · rw [hcurrent]
        exact ⟨le_max_left _ _, hmax⟩
      · rw [hcurrent]
        exact (tensorBytes_mono _ _ hless).trans hfits
    · -- the answers were granted
      exact absurd (hop.resolve_left hkeep) hrefused

/-- **The buffers fit their grant.**  For every config and every approved grant that covers one
    draft token: after construction and every run of resizes that are given memory, the tensors are
    what the footprint says, within the grant, and of the rows that they should have. -/
theorem buffers_fit_grant {m₀ : SpeculativeDecodingBufferManager}
    (hmax : 1 ≤ config.maxDraftTokens) (hvocab : 1 ≤ config.vocabSize)
    (happroved : grant.approved = true)
    (hone : tensorBytes config.vocabSize (dtypeSize config.dtype) 1 ≤ grant.bytes)
    (hc : Counted config grant) (h : construct config grant answers = .ok m₀)
    (hr : Runs step GivenMemory m₀ m) : FitsGrant grant.bytes m := by
  rw [hc.dtype] at hone
  have hi : GrantInv config grant.bytes m :=
    hr.invariant (GrantInv.construct hc hmax hvocab happroved hone h)
      fun u op v hu hop hs => hu.step hc hvocab hop hs
  exact hi.fitsGrant hc

/-- Memory for all three tensors. -/
def zeros : BufferAnswers := ⟨.ok fun _ => 0, .ok fun _ => 0, .ok fun _ => 0⟩

/-- A manager for five draft tokens, of which the grant has left `d`. -/
def fiveTokens (d : ℕ) : SpeculativeDecodingBufferManager where
  config := ⟨5, 10, .Float16⟩
  currentMaxDraft := d
  draftLogits := some (rows [d, 10] .Float16 fun _ => 0)
  verifyLogits := some (rows [d + 1, 10] .Float16 fun _ => 0)
  draftTokens := some (rows [d] .Int64 fun _ => 0)

theorem fiveTokens_construct :
    construct ⟨5, 10, .Float16⟩ ⟨150, true⟩ zeros = .ok (fiveTokens 2) := by
  have hdraft : grantedDraft ⟨5, 10, .Float16⟩ ⟨150, true⟩ = 2 := by decide +kernel
  unfold construct
  rw [hdraft]
  rfl

/-- A grant of 150 of 360 bytes, a resize that keeps the tensors and one that shrinks them. -/
theorem buffers_fit_grant_five :
    construct ⟨5, 10, .Float16⟩ ⟨150, true⟩ zeros = .ok (fiveTokens 2) ∧
      ∃ m, exec step (fiveTokens 2) [⟨3, zeros⟩, ⟨0, zeros⟩] = some m ∧ FitsGrant 150 m := by
  have hc : Counted ⟨5, 10, .Float16⟩ ⟨150, true⟩ := by
    refine ⟨rfl, by decide, fun _ _ => ?_⟩
    have hfive := Rounding.round_normal (p := 53) (n := 5 * 2 ^ 50) (by decide) (-50)
      (by norm_num) (by norm_num)
    have hval : (((5 * 2 ^ 50 : ℤ) : ℚ) * 2 ^ (-50 : ℤ)) = ((5 : ℕ) : ℚ) := by norm_num
    rw [hval] at hfive
    exact hfive.le
  have hguard : GuardedAlong step GivenMemory (fiveTokens 2) [⟨3, zeros⟩, ⟨0, zeros⟩] :=
    ⟨.inl (by decide), fun m hm => ⟨.inr (by decide), fun _ _ => trivial⟩⟩
  have hkeep : step (fiveTokens 2) ⟨3, zeros⟩ = some (fiveTokens 2) := rfl
  have hshrink : step (fiveTokens 2) ⟨0, zeros⟩ = some (fiveTokens 1) := by
    unfold step resize
    rw [if_neg (by decide)]
    dsimp only [fiveTokens]
    rw [Nat.max_zero]
    rfl
  have hexec : exec step (fiveTokens 2) [⟨3, zeros⟩, ⟨0, zeros⟩] = some (fiveTokens 1) := by
    rw [exec_cons, hkeep, Option.bind_some, exec_cons, hshrink]
    rfl
  exact ⟨fiveTokens_construct, fiveTokens 1, hexec,
    buffers_fit_grant (by decide) (by decide) rfl (by decide) hc fiveTokens_construct
      (runs_exec hexec hguard)⟩

/-- Elements of two bytes that are counted as four. -/
theorem bfloat16_footprint :
    ∃ m, construct ⟨1, 1, .BFloat16⟩ ⟨24, true⟩ zeros = .ok m ∧
      tensorBytes 1 (dtypeSize .BFloat16) 1 ≤ 24 ∧ m.allocatedBytes = 14 ∧
      m.memoryFootprint = 20 :=
  ⟨_, rfl, by decide, rfl, rfl⟩

end SpeculativeDecodingBufferManager

end MetalNative
