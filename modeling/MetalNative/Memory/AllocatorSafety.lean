import MetalNative.Memory.Allocator
import MetalNative.Memory.HeapRuns

namespace MetalNative

open Run Span List HeapEntry Option

/-!
# Sub-allocation safety of `MetalSmartAllocator`

The blocks that the heap manager has handed out are the live blocks and the blocks cached in the
free lists.  `RegionsSafe` says that none of them shares a byte with another or with a free
block, and that each still designates its heap.

* `AllocInv` — the invariant: the heap manager's own, for the live and the cached blocks.
* `EmptiesTail` — when `emptyCache` is harmless: no heap it empties stands before a heap that
  keeps a live block.
* `regions_safe` — safety along every run that calls `emptyCache` only then.
* `empty_cache_shifts_live_block` — the run that does not: the live block's index dangles.
-/

namespace MetalSmartAllocator

/-- The blocks behind the live handles. -/
def live (a : MetalSmartAllocator) : List HeapBlock := a.liveBlocks.map Prod.snd

/-- The blocks cached in free lists. -/
def cachedBlocks (lists : List (ℕ × List CachedBlock)) : List HeapBlock :=
  lists.flatMap fun entry => entry.2.map CachedBlock.heapBlock

/-- Every block that the heap manager has handed out. -/
def blocks (a : MetalSmartAllocator) : List HeapBlock := a.live ++ cachedBlocks a.freeLists

/-- Live and cached blocks are byte-disjoint from each other and from the free blocks, and
    designate their heaps. -/
structure RegionsSafe (a : MetalSmartAllocator) : Prop where
  disjoint : a.blocks.Pairwise fun b c => b.heap = c.heap → b.span.Disjoint c.span
  free : ∀ b ∈ a.blocks, ∀ entry ∈ a.heapMgr.heaps, b.heap = some entry.heap →
    ∀ fb ∈ entry.freeBlocks, b.span.Disjoint fb
  designates : ∀ b ∈ a.blocks, Designates a.heapMgr.heaps b

/-- The invariant of the two layers. -/
structure AllocInv (a : MetalSmartAllocator) : Prop where
  heap : HeapInv a.heapMgr a.blocks
  ids : Keyed.Distinct Prod.fst a.liveBlocks
  fresh : ∀ entry ∈ a.liveBlocks, entry.1 < a.nextId
  lists : Keyed.Distinct Prod.fst a.freeLists

end MetalSmartAllocator

/-! ### What the heap invariant says about bytes -/

variable {blocks : List HeapBlock} {m : HeapManager}

/-- Blocks of one heap are listed in its tiling, so they share no byte. -/
theorem HeapInv.pairwise_disjoint
    (h : HeapInv m blocks) :
    blocks.Pairwise fun b c => b.heap = c.heap → b.span.Disjoint c.span := by
  refine pairwise_iff_forall_sublist.mpr fun {b c} hsub hheap => ?_
  have hmem : b ∈ blocks := hsub.subset (mem_cons_self ..)
  obtain ⟨entry, he, hb⟩ := h.heap_of_mem hmem
  have hc : c.heap = some entry.heap := hheap.symm.trans hb
  -- the two places in the list are two places among the regions of the heap
  have howned : [b, c].Sublist (owned blocks entry.heap) := by
    have := hsub.filter fun x => decide (x.heap = some entry.heap)
    simpa [owned, hb, hc] using this
  have hregions : [b.span, c.span].Sublist (entry.regions blocks) :=
    (howned.map HeapBlock.span).trans (sublist_append_right _ _)
  exact pairwise_iff_forall_sublist.mp (h.entries entry he).tiled.disjoint hregions

/-- A block shares no byte with a free block of its heap. -/
theorem HeapInv.free_disjoint (h : HeapInv m blocks)
    {b : HeapBlock} (hb : b ∈ blocks) {entry : HeapEntry} (he : entry ∈ m.heaps)
    (hheap : b.heap = some entry.heap) {fb : FreeBlock} (hfb : fb ∈ entry.freeBlocks) :
    b.span.Disjoint fb := by
  have hpair := (h.entries entry he).tiled.disjoint
  unfold regions at hpair
  have hspan : b.span ∈ (owned blocks entry.heap).map HeapBlock.span :=
    mem_map_of_mem (mem_owned.mpr ⟨hb, hheap⟩)
  exact ((pairwise_append.mp hpair).2.2 fb hfb _ hspan).symm

/-! ### Releasing empty heaps -/

/-- Filtering out entries that all stand at the end moves no entry. -/
theorem getElem?_filter_of_prefix {α : Type*} {p : α → Bool} {l : List α}
    (hp : l.Pairwise fun x y => p x = false → p y = false) {i : ℕ} {x : α}
    (hi : l[i]? = some x) (hx : p x = true) : (l.filter p)[i]? = some x := by
  induction l generalizing i with
  | nil => simp at hi
  | cons y l ih =>
    obtain ⟨hy, hl⟩ := pairwise_cons.mp hp
    by_cases hpy : p y = true
    · rw [filter_cons_of_pos hpy]
      cases i with
      | zero => exact hi
      | succ i => exact ih hl hi
    · -- nothing after a dropped entry is kept, so `x` cannot be there
      have hpy' : p y = false := by simpa using hpy
      have hdrop : ∀ z ∈ y :: l, p z = false := by
        intro z hz
        rcases mem_cons.mp hz with rfl | hz
        · exact hpy'
        · exact hy z hz hpy'
      rw [hdrop x (mem_of_getElem? hi)] at hx
      cases hx

/-- The capacities kept and the capacities released make up all of them. -/
theorem sum_filter_not {α : Type*} (p : α → Prop) [DecidablePred p] (f : α → ℕ) (l : List α) :
    ((l.filter fun x => decide (¬ p x)).map f).sum + ((l.filter fun x => decide (p x)).map f).sum
      = (l.map f).sum := by
  induction l with
  | nil => rfl
  | cons x l ih =>
    by_cases hx : p x
    · rw [filter_cons_of_neg (by simp [hx]), filter_cons_of_pos (by simp [hx]),
        map_cons, sum_cons, map_cons, sum_cons, ← ih]
      omega
    · rw [filter_cons_of_pos (by simp [hx]), filter_cons_of_neg (by simp [hx]),
        map_cons, sum_cons, map_cons, sum_cons, ← ih]
      omega

/-- No heap without a block of `blocks` stands before a heap with one. -/
def EmptiesTail (heaps : List HeapEntry) (blocks : List HeapBlock) : Prop :=
  heaps.Pairwise fun e f => owned blocks e.heap = [] → owned blocks f.heap = []

instance (heaps : List HeapEntry) (blocks : List HeapBlock) :
    Decidable (EmptiesTail heaps blocks) :=
  inferInstanceAs (Decidable (List.Pairwise _ _))

/-- Only the identities of the heaps matter. -/
theorem EmptiesTail.congr {heaps heaps' : List HeapEntry}
    (h : EmptiesTail heaps blocks)
    (hm : heaps'.map heap = heaps.map heap) : EmptiesTail heaps' blocks := by
  have hpair : ∀ l : List HeapEntry, EmptiesTail l blocks ↔ (l.map heap).Pairwise
      fun e f => owned blocks e = [] → owned blocks f = [] := by
    intro l
    unfold EmptiesTail
    rw [pairwise_map]
  rw [hpair] at h ⊢
  rwa [hm]

/-- Releasing the empty heaps is safe when they stand behind all others. -/
theorem HeapInv.releaseEmptyHeaps
    (h : HeapInv m blocks) (ht : EmptiesTail m.heaps blocks) :
    HeapInv m.releaseEmptyHeaps blocks := by
  have hkept : ∀ entry ∈ m.releaseEmptyHeaps.heaps, entry ∈ m.heaps := fun entry he =>
    mem_of_mem_filter he
  refine
    { entries := fun entry he => h.entries entry (hkept entry he)
      distinct := h.distinct.sublist (filter_sublist.map _)
      fresh := fun entry he => h.fresh entry (hkept entry he)
      designates := fun b hb => ?_
      buffers := h.buffers
      buffer_fresh := h.buffer_fresh
      total := ?_
      allocated := h.allocated }
  · obtain ⟨entry, hi, hheap⟩ := h.designates b hb
    have hmem := mem_of_getElem? hi
    have hcount : decide (entry.allocCount ≠ 0) = true := by
      rw [decide_eq_true_eq, Ne, (h.entries entry hmem).count_eq_zero]
      exact ne_nil_of_mem (mem_owned.mpr ⟨hb, hheap⟩)
    refine ⟨entry, getElem?_filter_of_prefix ?_ hi hcount, hheap⟩
    refine ht.imp_of_mem fun {e f} he hf hef => ?_
    simp only [decide_eq_false_iff_not, not_not]
    rw [(h.entries e he).count_eq_zero, (h.entries f hf).count_eq_zero]
    exact hef
  · show m.totalHeapBytes - _ = _
    rw [h.total, sum_map_ofNat, ← sum_filter_not (fun e : HeapEntry => e.allocCount = 0),
      UInt64.ofNat_add]
    exact UInt64.add_sub_cancel _ _

namespace MetalSmartAllocator

section Lists

variable {lists : List (ℕ × List CachedBlock)} {key : ℕ} {bucket : List CachedBlock}

/-- The cached blocks, one bucket taken out. -/
theorem cachedBlocks_perm (hl : Keyed.Distinct Prod.fst lists)
    (hf : Keyed.find Prod.fst lists key = some (key, bucket)) :
    (cachedBlocks lists).Perm
      (bucket.map CachedBlock.heapBlock ++ cachedBlocks (Keyed.erase Prod.fst lists key)) :=
  (hl.perm_cons_erase hf).flatMap_right _

theorem find_fst {β : Type*} {l : List (ℕ × β)} {p : ℕ × β}
    (h : Keyed.find Prod.fst l key = some p) :
    p = (key, p.2) :=
  Prod.ext (Keyed.find_key h) rfl

end Lists

variable {dev : MTLDevice} {a : MetalSmartAllocator} {a' : MetalSmartAllocator}

/-- A cache hit hands out one of the cached blocks. -/
theorem takeCached_spec (hl : Keyed.Distinct Prod.fst a.freeLists) {sc key : ℕ} {hb : HeapBlock}
    (h : a.takeCached sc key = some (hb, a')) :
    (cachedBlocks a.freeLists).Perm (hb :: cachedBlocks a'.freeLists) ∧
      Keyed.Distinct Prod.fst a'.freeLists ∧ a'.heapMgr = a.heapMgr ∧
      a'.liveBlocks = a.liveBlocks ∧ a'.nextId = a.nextId := by
  unfold takeCached at h
  split at h
  · cases h
  · rename_i k bucket hf
    split at h
    · cases h
    · rename_i cached hlast
      simp only [some.injEq, Prod.mk.injEq] at h
      obtain ⟨rfl, rfl⟩ := h
      obtain rfl : k = key := Keyed.find_key hf
      refine ⟨?_, hl.insert _, rfl, rfl, rfl⟩
      -- the bucket is its last block and the rest
      have hbucket : bucket = bucket.dropLast ++ [cached] :=
        (dropLast_append_getLast? cached hlast).symm
      refine (cachedBlocks_perm hl hf).trans ?_
      rw [hbucket, map_append]
      show Perm _ (_ :: (((bucket.dropLast ++ [cached]).dropLast).map _ ++ _))
      rw [dropLast_concat, append_assoc]
      exact perm_middle

/-- Registering a block under the next id. -/
theorem AllocInv.handOver {hb : HeapBlock} (nbytes sc : ℕ) (mode : StorageMode)
    (hids : Keyed.Distinct Prod.fst a.liveBlocks)
      (hfresh : ∀ entry ∈ a.liveBlocks, entry.1 < a.nextId)
    (hlists : Keyed.Distinct Prod.fst a.freeLists) (hheap : HeapInv a.heapMgr (hb :: a.blocks)) :
    AllocInv (a.handOver nbytes sc mode hb).2 := by
  have hnone : Keyed.find Prod.fst a.liveBlocks a.nextId = none :=
    Keyed.find_eq_none.mpr fun entry he => Nat.ne_of_lt (hfresh entry he)
  have hlive : (a.handOver nbytes sc mode hb).2.liveBlocks = (a.nextId, hb) :: a.liveBlocks := by
    show Keyed.insert Prod.fst a.liveBlocks (a.nextId, hb) = _
    rw [Keyed.insert, Keyed.erase_eq_self hnone]
  refine ⟨?_, hids.insert _, fun entry he => ?_, hlists⟩
  · unfold blocks live
    rw [hlive]
    exact hheap
  · rw [hlive] at he
    show entry.1 < a.nextId + 1
    rcases mem_cons.mp he with rfl | he
    · exact Nat.lt_succ_self _
    · exact Nat.lt_succ_of_lt (hfresh entry he)

/-- The doubling loop ends on a power of two that a `size_t` holds: once the bit is shifted out
    it goes on forever. -/
theorem growPow2_spec {size rounds pow2 r : ℕ} (hsize : 0 < size)
    (hpow : pow2 = 0 ∨ ∃ k ≤ 63, pow2 = 2 ^ k) (h : growPow2 size rounds pow2 = some r) :
    size ≤ r ∧ ∃ k ≤ 63, r = 2 ^ k := by
  induction rounds generalizing pow2 with
  | zero => cases h
  | succ rounds ih =>
    unfold growPow2 at h
    split_ifs at h with hlt
    · refine ih ?_ h
      rcases hpow with rfl | ⟨k, hk, rfl⟩
      · exact .inl rfl
      · rw [Nat.shiftLeft_eq, ← Nat.pow_succ]
        unfold sizeTRange
        by_cases hk63 : k = 63
        · exact .inl (by rw [hk63, Nat.mod_self])
        · have hlt64 : 2 ^ (k + 1) < 2 ^ 64 := Nat.pow_lt_pow_right (by omega) (by omega)
          exact .inr ⟨k + 1, by omega, Nat.mod_eq_of_lt hlt64⟩
    · obtain rfl := some.inj h
      refine ⟨by omega, hpow.resolve_left (by omega)⟩

/-- A size class covers the request and is at most `2 ^ 63`. -/
theorem nextSizeClass_spec {size sc : ℕ} (h : nextSizeClass size = some sc) :
    size ≤ sc ∧ 0 < sc ∧ sc ≤ 2 ^ 63 := by
  unfold nextSizeClass at h
  split_ifs at h with hmin
  · obtain rfl := some.inj h
    unfold kMinAllocSize at *
    omega
  · obtain ⟨pow2, hgrow, hsc⟩ := map_eq_some_iff.mp h
    have hmin' : 64 < size := not_le.mp hmin
    obtain ⟨hle, k, hk, hpow⟩ := growPow2_spec (by omega) (.inr ⟨6, by omega, rfl⟩) hgrow
    have hbound : pow2 ≤ 2 ^ 63 := by
      rw [hpow]
      exact Nat.pow_le_pow_right (by omega) hk
    dsimp only at hsc
    split_ifs at hsc with hmid
    · rw [← hsc]
      omega
    · rw [← hsc]
      omega

/-- `allocate` keeps the invariant when its failures do. -/
theorem AllocInv.allocate_of (h : AllocInv a) {nbytes : ℕ} {mode : StorageMode}
    {r : Except MNException AllocatedBlock}
    (hr : a.allocate dev nbytes mode = some (r, a'))
    (hfail : ∀ sc e mgr, nbytes ≠ 0 → nextSizeClass nbytes = some sc → r = .error e →
      a.heapMgr.allocate dev sc mode = (.error e, mgr) → HeapInv mgr a.blocks) : AllocInv a' := by
  unfold MetalSmartAllocator.allocate at hr
  split_ifs at hr with hzero
  · obtain ⟨-, rfl⟩ := some_mk_inj hr
    exact h
  · obtain ⟨sc, hsc, hr⟩ := map_eq_some_iff.mp hr
    obtain ⟨-, hpos, hle⟩ := nextSizeClass_spec hsc
    dsimp only at hr
    split at hr
    · -- served from the cache: the block moves from the free list to the live map
      rename_i hb a₁ htake
      obtain ⟨hperm, hlists, hmgr, hlive, hnext⟩ := takeCached_spec h.lists htake
      obtain ⟨-, rfl⟩ := Prod.mk.inj hr
      refine AllocInv.handOver nbytes sc mode ?_ ?_ hlists ?_
      · rw [hlive]
        exact h.ids
      · rw [hlive, hnext]
        exact h.fresh
      · rw [hmgr]
        refine h.heap.perm ?_
        unfold blocks live
        rw [hlive]
        exact (hperm.append_left _).trans perm_middle
    · split at hr
      · rename_i e mgr herr
        obtain ⟨hthrown, rfl⟩ := Prod.mk.inj hr
        exact ⟨hfail sc e mgr hzero hsc hthrown.symm herr, h.ids, h.fresh, h.lists⟩
      · rename_i hb mgr hok
        obtain ⟨-, rfl⟩ := Prod.mk.inj hr
        exact AllocInv.handOver nbytes sc mode h.ids h.fresh h.lists
          (h.heap.allocate hpos hle hok).1

/-- **`allocate`** keeps the invariant. -/
theorem AllocInv.allocate (h : AllocInv a) (hdev : ∀ m, dev.Grants m) {nbytes : ℕ}
    {mode : StorageMode} {r : Except MNException AllocatedBlock}
    (hr : a.allocate dev nbytes mode = some (r, a')) : AllocInv a' := by
  refine h.allocate_of hr fun sc e mgr _ hsc _ herr => ?_
  obtain ⟨-, hpos, hle⟩ := nextSizeClass_spec hsc
  rw [h.heap.allocate_error hpos hle (hdev _) herr]
  exact h.heap.mint (Nat.le_succ _)

/-- A block enters the bucket of its class. -/
theorem cachedBlocks_push (hl : Keyed.Distinct Prod.fst a.freeLists) (key : ℕ)
    (cached : CachedBlock) :
    (cachedBlocks (Keyed.insert Prod.fst a.freeLists (key, a.bucket key ++ [cached]))).Perm
      (cached.heapBlock :: cachedBlocks a.freeLists) := by
  have hbucket : (cachedBlocks a.freeLists).Perm ((a.bucket key).map CachedBlock.heapBlock
      ++ cachedBlocks (Keyed.erase Prod.fst a.freeLists key)) := by
    unfold bucket
    cases hk : Keyed.find Prod.fst a.freeLists key with
    | none =>
      rw [Keyed.erase_eq_self hk]
      exact .refl _
    | some p =>
      rw [find_fst hk] at hk
      exact cachedBlocks_perm hl hk
  refine Perm.trans ?_ (hbucket.cons cached.heapBlock).symm
  show Perm ((a.bucket key ++ [cached]).map CachedBlock.heapBlock ++ _) _
  rw [map_append, append_assoc]
  exact perm_middle

/-- **`deallocate`** keeps the invariant, whatever handle it is given. -/
theorem AllocInv.deallocate (h : AllocInv a) (block : AllocatedBlock) :
    AllocInv (a.deallocate block).2 := by
  unfold MetalSmartAllocator.deallocate
  cases hf : Keyed.find Prod.fst a.liveBlocks block.internalId with
  | none => exact h
  | some entry =>
    obtain ⟨id, hb⟩ := entry
    dsimp only
    -- the block leaves the live map
    have hlive : a.live.Perm
        (hb :: (Keyed.erase Prod.fst a.liveBlocks block.internalId).map Prod.snd) :=
      (h.ids.perm_cons_erase hf).map Prod.snd
    have hids := h.ids.erase block.internalId
    have hfresh : ∀ entry ∈ Keyed.erase Prod.fst a.liveBlocks block.internalId,
        entry.1 < a.nextId := fun entry he => h.fresh entry (Keyed.mem_erase.mp he).1
    split_ifs with halias
    · have hheap := h.heap.perm (hlive.append_right (cachedBlocks a.freeLists))
      obtain ⟨cleared, m', entry', hd, hinv, -⟩ := hheap.deallocate
      rw [hd]
      exact ⟨hinv, hids, hfresh, h.lists⟩
    · refine ⟨h.heap.perm ?_, hids, hfresh, h.lists.insert _⟩
      -- and enters the bucket of its class
      have hpush := cachedBlocks_push h.lists (bucketKey block.sizeClass block.mode)
        ⟨hb, block.sizeClass, block.mode⟩
      refine (hlive.append_right _).trans ?_
      refine (perm_middle.symm).trans ?_
      exact hpush.symm.append_left _

/-! ### Emptying the cache -/

/-- Giving back the blocks of one bucket. -/
theorem drainBucket_spec {bucket : List CachedBlock} {others : List HeapBlock}
    (h : HeapInv m (bucket.map CachedBlock.heapBlock ++ others)) :
    ∃ m' bucket', drainBucket m bucket = (none, m', bucket') ∧ HeapInv m' others ∧
      m'.heaps.map heap = m.heaps.map heap := by
  induction bucket generalizing m with
  | nil => exact ⟨m, [], rfl, h, rfl⟩
  | cons cached rest ih =>
    obtain ⟨cleared, m₁, entry', hd, hinv, -, -, -, hmap, -⟩ := HeapInv.deallocate h
    obtain ⟨m₂, rest', hrest, hinv₂, hmap₂⟩ := ih hinv
    refine ⟨m₂, { cached with heapBlock := cleared } :: rest', ?_, hinv₂, hmap₂.trans hmap⟩
    unfold drainBucket
    rw [hd]
    dsimp only
    rw [hrest]

/-- Giving back every cached block. -/
theorem drain_spec {lists : List (ℕ × List CachedBlock)}
    {others : List HeapBlock} (h : HeapInv m (cachedBlocks lists ++ others)) :
    ∃ m' lists', drain m lists = (none, m', lists') ∧ HeapInv m' others ∧
      m'.heaps.map heap = m.heaps.map heap := by
  induction lists generalizing m with
  | nil => exact ⟨m, [], rfl, h, rfl⟩
  | cons entry lists ih =>
    obtain ⟨key, bucket⟩ := entry
    have h' : HeapInv m (bucket.map CachedBlock.heapBlock ++ (cachedBlocks lists ++ others)) := by
      rw [← append_assoc]
      exact h
    obtain ⟨m₁, bucket', hb, hinv, hmap⟩ := drainBucket_spec h'
    obtain ⟨m₂, lists', hl, hinv₂, hmap₂⟩ := ih hinv
    refine ⟨m₂, (key, bucket') :: lists', ?_, hinv₂, hmap₂.trans hmap⟩
    unfold drain
    rw [hb]
    dsimp only
    rw [hl]

/-- **`empty_cache`** keeps the invariant when the heaps it empties stand behind all others. -/
theorem AllocInv.emptyCache (h : AllocInv a) (ht : EmptiesTail a.heapMgr.heaps a.live) :
    AllocInv a.emptyCache.2 ∧ a.emptyCache.1 = .ok () := by
  have hheap := h.heap.perm (perm_append_comm : (a.live ++ cachedBlocks a.freeLists).Perm _)
  obtain ⟨m', lists', hd, hinv, hmap⟩ := drain_spec hheap
  unfold MetalSmartAllocator.emptyCache
  rw [hd]
  refine ⟨⟨?_, h.ids, h.fresh, nodup_nil⟩, rfl⟩
  show HeapInv m'.releaseEmptyHeaps (a.live ++ [])
  rw [append_nil]
  exact hinv.releaseEmptyHeaps (ht.congr hmap)

/-- The invariant gives the safety of the regions. -/
theorem AllocInv.regionsSafe (h : AllocInv a) : RegionsSafe a where
  disjoint := h.heap.pairwise_disjoint
  free _ hb _ he hheap _ hfb := h.heap.free_disjoint hb he hheap hfb
  designates := h.heap.designates

end MetalSmartAllocator

/-! ### The allocator and its client -/

/-- The allocator and the handles its client holds; copies of a handle are listed too. -/
structure AllocState where
  alloc : MetalSmartAllocator := {}
  handles : List AllocatedBlock := []
  deriving DecidableEq, Repr

/-- A call of the client, or the hash map of the free lists changing its iteration order. -/
inductive AllocCall where
  | allocate (nbytes : ℕ) (mode : StorageMode)
  | deallocate (handle : AllocatedBlock)
  | makeAliasable (handle : AllocatedBlock)
  | emptyCache
  | rehash (lists : List (ℕ × List CachedBlock))
  deriving DecidableEq, Repr

/-- One call.  A deallocated handle is cleared with all its copies; a call that throws returns
    no handle. -/
def allocStep (dev : MTLDevice) (s : AllocState) : AllocCall → Option AllocState
  | .allocate nbytes mode =>
    (s.alloc.allocate dev nbytes mode).map fun
      | (.ok h, a) => ⟨a, h :: s.handles⟩
      | (.error _, a) => ⟨a, s.handles⟩
  | .deallocate h =>
    if h ∈ s.handles then
      some ⟨(s.alloc.deallocate h).2,
        s.handles.filter fun x => decide (x.internalId ≠ h.internalId)⟩
    else none
  | .makeAliasable h =>
    if h ∈ s.handles then
      match s.alloc.makeAliasable h with
      | (.ok h', a) => some ⟨a, h' :: s.handles⟩
      | (.error _, a) => some ⟨a, s.handles⟩
    else none
  | .emptyCache => some ⟨s.alloc.emptyCache.2, s.handles⟩
  | .rehash lists =>
    if lists.Perm s.alloc.freeLists then
      some ⟨{ s.alloc with freeLists := lists }, s.handles⟩
    else none

/-- The condition on a step: `emptyCache` is called while no heap without a live block stands
    before a heap with one. -/
def EmptiesOnlyTail (s : AllocState) : AllocCall → Prop
  | .emptyCache => EmptiesTail s.alloc.heapMgr.heaps s.alloc.live
  | _ => True

instance (s : AllocState) (c : AllocCall) : Decidable (EmptiesOnlyTail s c) := by
  cases c <;> unfold EmptiesOnlyTail <;> infer_instance

/-- Metal creates every heap and every buffer inside a heap. -/
def MTLDevice.Succeeds (dev : MTLDevice) : Prop :=
  (∀ serial capacity mode, dev.newHeap serial capacity mode = true) ∧
    ∀ serial capacity length offset, offset + length ≤ capacity →
      dev.newBuffer serial capacity length offset = true

theorem grantingDevice_succeeds : grantingDevice.Succeeds :=
  ⟨fun _ _ _ => rfl, fun _ _ _ _ _ => rfl⟩

/-- Every call that meets the condition keeps the invariant when `allocate` does. -/
theorem allocStep_inv_of {dev : MTLDevice} {s t : AllocState} {c : AllocCall}
    (h : s.alloc.AllocInv)
    (halloc : ∀ nbytes mode r a, c = .allocate nbytes mode →
      s.alloc.allocate dev nbytes mode = some (r, a) → a.AllocInv)
    (hg : EmptiesOnlyTail s c) (hs : allocStep dev s c = some t) : t.alloc.AllocInv := by
  cases c with
  | allocate nbytes mode =>
    obtain ⟨⟨r, a⟩, hr, ht⟩ := map_eq_some_iff.mp hs
    have hinv := halloc nbytes mode r a rfl hr
    cases r with
    | ok handle =>
      rw [← ht]
      exact hinv
    | error e =>
      rw [← ht]
      exact hinv
  | deallocate handle =>
    simp only [allocStep] at hs
    split_ifs at hs
    obtain rfl := some.inj hs
    exact h.deallocate handle
  | makeAliasable handle =>
    simp only [allocStep, MetalSmartAllocator.makeAliasable] at hs
    split_ifs at hs
    · obtain rfl := some.inj hs
      exact h
    · obtain rfl := some.inj hs
      exact h
  | emptyCache =>
    obtain rfl := some.inj hs
    exact (h.emptyCache hg).1
  | rehash lists =>
    simp only [allocStep] at hs
    split_ifs at hs with hperm
    obtain rfl := some.inj hs
    refine ⟨h.heap.perm ?_, h.ids, h.fresh, h.lists.perm hperm.symm⟩
    exact (hperm.symm.flatMap_right _).append_left _

/-- **Step.**  Every call that meets the condition keeps the invariant. -/
theorem allocStep_inv {dev : MTLDevice} (hdev : dev.Succeeds) {s t : AllocState} {c : AllocCall}
    (h : s.alloc.AllocInv) (hg : EmptiesOnlyTail s c) (hs : allocStep dev s c = some t) :
    t.alloc.AllocInv :=
  allocStep_inv_of h
    (fun _ _ _ _ _ hr => h.allocate (fun _ _ _ _ _ _ _ hle => hdev.2 _ _ _ _ hle) hr) hg hs

/-- The invariant before the first call. -/
theorem allocInv_init : ({} : AllocState).alloc.AllocInv :=
  ⟨HeapInv.init 0, nodup_nil, fun _ he => absurd he not_mem_nil, nodup_nil⟩

/-- **Sub-allocation safety.**  In every run that calls `emptyCache` only while the heaps without
    live blocks stand behind the others, live and cached regions never overlap, stay clear of the
    free blocks, and designate their heaps. -/
theorem regions_safe (dev : MTLDevice) (hdev : dev.Succeeds) {s : AllocState}
    (hrun : Runs (allocStep dev) EmptiesOnlyTail {} s) : s.alloc.RegionsSafe := by
  have hinv : s.alloc.AllocInv :=
    hrun.invariant (P := fun u => u.alloc.AllocInv) allocInv_init
      fun _ _ _ hu hg hs => allocStep_inv hdev hu hg hs
  exact hinv.regionsSafe

/-- `emptyCache` with the live block in the first heap: the second one is released. -/
def tailCalls : List AllocCall :=
  [.allocate 64 .Shared, .allocate 64 .Private,
    .deallocate ⟨64, 64, 64, .Private, false, some 3, 2⟩, .emptyCache]

theorem regions_safe_run :
    ∃ s, exec (allocStep grantingDevice) {} tailCalls = some s ∧ s.alloc.RegionsSafe := by
  have hsome : (exec (allocStep grantingDevice) {} tailCalls).isSome = true := by decide
  obtain ⟨s, hs⟩ := isSome_iff_exists.mp hsome
  have hguard : GuardedAlong (allocStep grantingDevice) EmptiesOnlyTail {} tailCalls := by decide
  exact ⟨s, hs, regions_safe grantingDevice grantingDevice_succeeds (runs_exec hs hguard)⟩

/-- `emptyCache` with the live block in the second heap. -/
def shiftingCalls : List AllocCall :=
  [.allocate 64 .Shared, .allocate 64 .Private,
    .deallocate ⟨64, 64, 64, .Shared, false, some 1, 1⟩, .emptyCache]

/-- Releasing the first heap moves the second one down, while the live block still says `1`. -/
theorem empty_cache_shifts_live_block :
    ∃ s, Reaches (allocStep grantingDevice) {} s ∧
      s.alloc.live = [⟨0, 16384, 1, some 3, some 2⟩] ∧
      s.alloc.heapMgr.heaps.map HeapEntry.heap = [2] ∧ ¬ s.alloc.RegionsSafe := by
  have hsome : (exec (allocStep grantingDevice) {} shiftingCalls).isSome = true := by decide
  obtain ⟨s, hs⟩ := isSome_iff_exists.mp hsome
  have hlive : (exec (allocStep grantingDevice) {} shiftingCalls).map
      (fun s => (s.alloc.live, s.alloc.heapMgr.heaps.map heap))
        = some ([⟨0, 16384, 1, some 3, some 2⟩], [2]) := by decide
  rw [hs, map_some, some.injEq, Prod.mk.injEq] at hlive
  refine ⟨s, reaches_exec hs, hlive.1, hlive.2, fun hsafe => ?_⟩
  -- index 1 is past the end of the one-element vector
  have hmem : (⟨0, 16384, 1, some 3, some 2⟩ : HeapBlock) ∈ s.alloc.blocks := by
    refine mem_append_left _ ?_
    rw [hlive.1]
    exact mem_singleton.mpr rfl
  have hdesignates := (designates_iff.mp (hsafe.designates _ hmem)).1
  rw [hlive.2] at hdesignates
  cases hdesignates

end MetalNative
