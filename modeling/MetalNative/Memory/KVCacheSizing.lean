import MetalNative.Memory.KVCacheBounds

namespace MetalNative

/-!
# The sizes that the constructor of `KVCache` computes

The constructor multiplies four and five dimensions, asks for the product, and divides by a quotient
of it.

* `bufferProducts`, `totalProducts` — every product on the way.
* `FitsGrant` — no product wraps around, nothing is divided by zero, and a cache that was granted
  room for a token stays within its grant.
* `construct_fits_grant` — it holds exactly when the bytes asked for fit a `size_t`.
* `wrapped_request` — a request that has wrapped around to less than a byte per token.
-/

namespace KVCache

variable {config : KVCacheConfig} {grant : GrantedBudget} {answers : ℕ → LayerAnswer} {c : KVCache}

/-! ### Products -/

/-- The products of `buffer_size_per_layer` for `n` positions. -/
def bufferProducts (config : KVCacheConfig) (es n : ℕ) : List ℕ :=
  [n * config.numHeads, n * config.numHeads * config.headDim,
    n * config.numHeads * config.headDim * es]

/-- The products of `total_memory` for `n` positions. -/
def totalProducts (config : KVCacheConfig) (es n : ℕ) : List ℕ :=
  bufferProducts config es n ++
    [2 * config.numLayers, 2 * config.numLayers * (n * config.numHeads * config.headDim * es)]

/-- The bytes that the constructor asks for. -/
def desiredBytes (config : KVCacheConfig) (es : ℕ) : ℕ :=
  2 * config.numLayers * prefixSize config es config.maxSeqLen % sizeTRange

/-- The bytes of one token in all layers. -/
def tokenBytes (config : KVCacheConfig) : ℕ := 2 * config.numLayers * positions config 1

/-- The bytes of the buffers that exist. -/
def allocatedBytes (c : KVCache) : ℕ :=
  (c.layers.map fun bufs => bufs.key.length + bufs.value.length).sum

/-- No product wraps around: neither those for the request nor those for the length that the grant
    leaves. -/
def NoWrap (config : KVCacheConfig) (es : ℕ) (grant : GrantedBudget) : Prop :=
  (∀ x ∈ totalProducts config es config.maxSeqLen, x < sizeTRange) ∧
    ∀ n ∈ grantedSeqLen config (desiredBytes config es) grant,
      ∀ x ∈ bufferProducts config es n, x < sizeTRange

/-- The constructor respects its grant. -/
structure FitsGrant (config : KVCacheConfig) (grant : GrantedBudget) : Prop where
  /-- Nothing is divided by zero. -/
  divides : ∀ answers, construct config grant answers ≠ none
  noWrap : ∀ es, elementSize config.dtype = .ok es → NoWrap config es grant
  length : ∀ answers c, construct config grant answers = some (.ok c) →
    1 ≤ c.actualMaxSeqLen ∧ c.actualMaxSeqLen ≤ config.maxSeqLen
  bytes : ∀ answers c, construct config grant answers = some (.ok c) → grant.approved = true →
    tokenBytes config ≤ grant.bytes →
      c.allocatedBytes = 2 * config.numLayers * positions config c.actualMaxSeqLen ∧
        c.allocatedBytes ≤ grant.bytes

/-! ### The length that the grant leaves -/

/-- The bytes of all layers are those of a token, as often as there are positions. -/
theorem totalBytes_eq (config : KVCacheConfig) (n : ℕ) :
    2 * config.numLayers * positions config n = n * tokenBytes config := by
  unfold tokenBytes positions
  ring

theorem desiredBytes_eq (h : config.maxSeqLen * tokenBytes config < sizeTRange)
    (hlayers : 0 < config.numLayers) :
    desiredBytes config (dtypeSize config.dtype) = config.maxSeqLen * tokenBytes config := by
  rw [← totalBytes_eq] at h ⊢
  have hsize : positions config config.maxSeqLen < sizeTRange :=
    (Nat.le_mul_of_pos_left _ (by omega)).trans_lt h
  unfold desiredBytes
  rw [prefixSize_eq, Nat.mod_eq_of_lt hsize, Nat.mod_eq_of_lt h]

/-- With a request that has not wrapped around, the length lies between one token and what was
    asked for, and an approved grant that covers a token covers all of them. -/
theorem grantedSeqLen_fits (htoken : 0 < tokenBytes config) (hlen : 0 < config.maxSeqLen)
    (hgrant : grant.bytes ≤ config.maxSeqLen * tokenBytes config) :
    ∃ n, grantedSeqLen config (config.maxSeqLen * tokenBytes config) grant = some n ∧
      1 ≤ n ∧ n ≤ config.maxSeqLen ∧
      (grant.approved = true → tokenBytes config ≤ grant.bytes →
        n * tokenBytes config ≤ grant.bytes) := by
  have hper : config.maxSeqLen * tokenBytes config / config.maxSeqLen = tokenBytes config :=
    Nat.mul_div_cancel_left _ hlen
  unfold grantedSeqLen
  split_ifs with hreduced hbytes
  · -- the grant divided by the bytes of a token, which divide the request exactly
    rw [hper]
    dsimp only
    rw [if_neg htoken.ne']
    have hquot : grant.bytes / tokenBytes config ≤ config.maxSeqLen :=
      Nat.div_le_of_le_mul ((Nat.mul_comm _ _).symm ▸ hgrant)
    refine ⟨_, rfl, le_max_right _ _, max_le hquot hlen, fun _ hcovers => ?_⟩
    have hone : 1 ≤ grant.bytes / tokenBytes config := Nat.div_pos hcovers htoken
    rw [max_eq_left hone]
    exact Nat.div_mul_le_self _ _
  · refine ⟨_, rfl, ?_, min_le_left _ _, fun _ hcovers => ?_⟩
    · omega
    · omega
  · rw [not_or, not_lt] at hreduced
    exact ⟨_, rfl, hlen, le_rfl, fun _ _ => hreduced.2⟩

/-! ### The buffers -/

theorem allocatedBytes_eq {size : ℕ} (h : ∀ bufs ∈ c.layers,
    bufs.key.length = size ∧ bufs.value.length = size) :
    c.allocatedBytes = 2 * c.layers.length * size := by
  have hall : ∀ x ∈ c.layers.map fun bufs => bufs.key.length + bufs.value.length, x = 2 * size := by
    intro x hx
    obtain ⟨bufs, hbufs, rfl⟩ := List.mem_map.mp hx
    obtain ⟨hkey, hvalue⟩ := h bufs hbufs
    omega
  unfold allocatedBytes
  rw [List.eq_replicate_of_mem hall, List.sum_replicate_nat, List.length_map]
  ring

/-- What a constructed cache holds. -/
theorem construct_layers (h : construct config grant answers = some (.ok c)) :
    elementSize config.dtype = .ok (dtypeSize config.dtype) ∧
      grantedSeqLen config (desiredBytes config (dtypeSize config.dtype)) grant
        = some c.actualMaxSeqLen ∧
      c.layers.length = config.numLayers ∧
      ∀ bufs ∈ c.layers,
        bufs.key.length = prefixSize config (dtypeSize config.dtype) c.actualMaxSeqLen ∧
        bufs.value.length = prefixSize config (dtypeSize config.dtype) c.actualMaxSeqLen := by
  unfold KVCache.construct at h
  split_ifs at h
  · split at h
    · cases h
    · rename_i es hes
      obtain rfl := elementSize_eq hes
      obtain ⟨n, hn, hlayers⟩ := Option.map_eq_some_iff.mp h
      cases hall : allocateLayers (prefixSize config (dtypeSize config.dtype) n) answers
          config.numLayers 0 with
      | error e =>
        rw [hall] at hlayers
        cases hlayers
      | ok layers =>
        rw [hall] at hlayers
        obtain rfl := Except.ok.inj hlayers
        exact ⟨hes, hn, allocateLayers_length hall⟩
  · cases h

/-- The only way to no result is a division by zero. -/
theorem construct_none (h : construct config grant answers = none) :
    elementSize config.dtype = .ok (dtypeSize config.dtype) ∧
      grantedSeqLen config (desiredBytes config (dtypeSize config.dtype)) grant = none := by
  unfold KVCache.construct at h
  split_ifs at h
  split at h
  · cases h
  · rename_i es hes
    obtain rfl := elementSize_eq hes
    exact ⟨hes, Option.map_eq_none_iff.mp h⟩

/-! ### The grant -/

theorem tokenBytes_pos (hlayers : 0 < config.numLayers) (hheads : 0 < config.numHeads)
    (hdim : 0 < config.headDim) : 0 < tokenBytes config := by
  have hes : 0 < dtypeSize config.dtype := by cases config.dtype <;> decide
  unfold tokenBytes positions
  positivity

/-- The largest product is the request, or what is left of it. -/
theorem products_lt (hlayers : 0 < config.numLayers) (hdim : 0 < config.headDim) {n : ℕ}
    (h : n * tokenBytes config < sizeTRange) (hn : 0 < n) (hheads : 0 < config.numHeads) :
    ∀ x ∈ totalProducts config (dtypeSize config.dtype) n, x < sizeTRange := by
  have hes : 0 < dtypeSize config.dtype := by cases config.dtype <;> decide
  rw [← totalBytes_eq] at h
  unfold positions at h
  have hpositive : 0 < n * config.numHeads * config.headDim * dtypeSize config.dtype := by
    positivity
  have hsize : n * config.numHeads * config.headDim * dtypeSize config.dtype < sizeTRange :=
    (Nat.le_mul_of_pos_left _ (by omega)).trans_lt h
  have hrows : n * config.numHeads * config.headDim < sizeTRange :=
    (Nat.le_mul_of_pos_right _ hes).trans_lt hsize
  have hlayers' : 2 * config.numLayers < sizeTRange :=
    (Nat.le_mul_of_pos_right _ hpositive).trans_lt h
  intro x hx
  simp only [totalProducts, bufferProducts, List.mem_append, List.mem_cons, List.not_mem_nil,
    or_false] at hx
  rcases hx with (rfl | rfl | rfl) | rfl | rfl
  · exact (Nat.le_mul_of_pos_right _ hdim).trans_lt hrows
  · exact hrows
  · exact hsize
  · exact hlayers'
  · exact h

/-- **The constructor respects its grant** exactly when the bytes that it asks for fit a `size_t`
    (or the element type has no size, and it throws): for every config with positive dimensions and
    every grant of at most the bytes requested. -/
theorem construct_fits_grant (hlayers : 0 < config.numLayers) (hheads : 0 < config.numHeads)
    (hdim : 0 < config.headDim) (hlen : 0 < config.maxSeqLen)
    (hgrant : ∀ es, elementSize config.dtype = .ok es → grant.bytes ≤ desiredBytes config es) :
    FitsGrant config grant ↔ (∃ e, elementSize config.dtype = .error e) ∨
      2 * config.numLayers * config.maxSeqLen * config.numHeads * config.headDim
        * dtypeSize config.dtype < sizeTRange := by
  have htoken := tokenBytes_pos hlayers hheads hdim
  have hproduct : 2 * config.numLayers * config.maxSeqLen * config.numHeads * config.headDim
      * dtypeSize config.dtype = config.maxSeqLen * tokenBytes config := by
    rw [← totalBytes_eq]
    unfold positions
    ring
  rw [hproduct]
  cases hes : elementSize config.dtype with
  | error e =>
    refine iff_of_true ⟨fun answers hnone => ?_, fun es h => ?_, fun answers c h => ?_,
      fun answers c h => ?_⟩ (.inl ⟨e, rfl⟩)
    · exact nomatch hes.symm.trans (construct_none hnone).1
    · exact nomatch hes.symm.trans h
    · exact nomatch hes.symm.trans (construct_layers h).1
    · exact nomatch hes.symm.trans (construct_layers h).1
  | ok es =>
    obtain rfl := elementSize_eq hes
    constructor
    · intro hfits
      -- the last product of the request is the one that has to fit
      have hall := (hfits.noWrap _ hes).1 (config.maxSeqLen * tokenBytes config) ?_
      · exact .inr hall
      · rw [← totalBytes_eq]
        simp [totalProducts, positions]
    · rintro (⟨e, h⟩ | hroom)
      · cases h
      have hdesired := desiredBytes_eq hroom hlayers
      have hle := hgrant _ hes
      rw [hdesired] at hle
      obtain ⟨n, hn, hone, hmax, hcovered⟩ := grantedSeqLen_fits htoken hlen hle
      rw [← hdesired] at hn
      have hn_room : n * tokenBytes config < sizeTRange :=
        (Nat.mul_le_mul_right _ hmax).trans_lt hroom
      refine ⟨fun answers hnone => ?_, fun es' hes' => ?_, fun answers c h => ?_,
        fun answers c h happroved hcovers => ?_⟩
      · exact nomatch hn.symm.trans (construct_none hnone).2
      · obtain rfl := elementSize_eq hes'
        refine ⟨products_lt hlayers hdim hroom hlen hheads, fun m hm x hx => ?_⟩
        obtain rfl := Option.some.inj (hn.symm.trans hm)
        exact products_lt hlayers hdim hn_room hone hheads x (List.mem_append_left _ hx)
      · obtain rfl := Option.some.inj (hn.symm.trans (construct_layers h).2.1)
        exact ⟨hone, hmax⟩
      · obtain ⟨-, hactual, hcount, hbufs⟩ := construct_layers h
        obtain rfl := Option.some.inj (hn.symm.trans hactual)
        have hsize : positions config c.actualMaxSeqLen < sizeTRange := by
          rw [← totalBytes_eq] at hn_room
          exact (Nat.le_mul_of_pos_left _ (by omega)).trans_lt hn_room
        rw [prefixSize_eq, Nat.mod_eq_of_lt hsize] at hbufs
        have htotal := allocatedBytes_eq hbufs
        rw [hcount] at htotal
        refine ⟨htotal, ?_⟩
        rw [htotal, totalBytes_eq]
        exact hcovered happroved hcovers

/-- A reduced grant: three of eight tokens. -/
theorem construct_fits_three_tokens :
    FitsGrant ⟨2, 3, 4, 8, .Float16⟩ ⟨300, true⟩ :=
  (construct_fits_grant (by decide) (by decide) (by decide) (by decide)
    (by rintro es hes; obtain rfl := elementSize_eq hes; decide)).mpr (.inr (by decide))

/-- A request of `2 ^ 64 + 4` bytes wraps around to four, which is no byte per token, and the
    constructor divides by it. -/
theorem wrapped_request :
    desiredBytes ⟨1, 1, 1, 2 ^ 62 + 1, .Float16⟩ 2 = 4 ∧
      (∀ answers, construct ⟨1, 1, 1, 2 ^ 62 + 1, .Float16⟩ ⟨2, true⟩ answers = none) ∧
      ¬ FitsGrant ⟨1, 1, 1, 2 ^ 62 + 1, .Float16⟩ ⟨2, true⟩ := by
  have hnone : ∀ answers,
      construct ⟨1, 1, 1, 2 ^ 62 + 1, .Float16⟩ ⟨2, true⟩ answers = none := fun _ => rfl
  exact ⟨by decide, hnone, fun h => h.divides (fun _ => ⟨none, none⟩) (hnone _)⟩

end KVCache

end MetalNative
