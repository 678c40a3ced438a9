import MetalNative.Memory.AllocatorSafety

namespace MetalNative

/-!
# Which Metal buffer a block of `MetalSmartAllocator` has

Every block that the allocator has handed out or keeps in a free list has a Metal buffer of its own,
whatever Metal refuses.  Nothing is said about bytes here: that is `AllocInv`.

* `Minted` — the buffers of the blocks are distinct and have been created.
* `Minted.allocate` — a block that is handed out comes from a free list or has a new buffer.
* `Minted.deallocate` — a block that is given back is in a free list, and nothing else has changed.
* `exists_allocate_deallocate` — it is handed out again at once.
-/

namespace HeapManager

variable {dev : MTLDevice}

theorem createHeap_nextObject (m : HeapManager) (capacity : ℕ) (mode : StorageMode) :
    m.nextObject ≤ (createHeap dev m capacity mode).2.nextObject := by
  unfold createHeap
  dsimp only
  split_ifs <;> exact Nat.le_succ _

theorem chooseBlock_nextObject (m : HeapManager) (alignedSize : ℕ) (mode : StorageMode) :
    m.nextObject ≤ (chooseBlock dev m alignedSize mode).2.nextObject := by
  unfold chooseBlock
  dsimp only
  split_ifs
  · have hle := @createHeap_nextObject dev m (heapSizeForAlloc alignedSize) mode
    split <;> rename_i heq <;> rw [heq] at hle <;> exact hle
  · exact Nat.le_refl _

/-- A block that the heap manager creates has a new buffer. -/
theorem allocate_buffer (m : HeapManager) (size : ℕ) (mode : StorageMode) :
    m.nextObject ≤ (m.allocate dev size mode).2.nextObject ∧
      ∀ hb, (m.allocate dev size mode).1 = .ok hb → ∃ buffer, hb.buffer = some buffer ∧
        m.nextObject ≤ buffer ∧ buffer < (m.allocate dev size mode).2.nextObject := by
  unfold HeapManager.allocate
  split_ifs with hzero
  · exact ⟨Nat.le_refl _, fun hb h => by cases h⟩
  dsimp only
  have hle := @chooseBlock_nextObject dev m (alignToPage size) mode
  cases hchoose : chooseBlock dev m (alignToPage size) mode with
  | mk r m₁ =>
    rw [hchoose] at hle
    cases r with
    | error e => exact ⟨hle, fun hb h => by cases h⟩
    | ok place =>
      dsimp only
      cases m₁.heaps[place.1]? with
      | none => exact ⟨hle, fun hb h => by cases h⟩
      | some entry =>
        dsimp only
        cases entry.freeBlocks[place.2]? with
        | none => exact ⟨hle, fun hb h => by cases h⟩
        | some fb =>
          unfold subAllocate
          dsimp only
          split_ifs
          · refine ⟨hle.trans (Nat.le_succ _), fun hb h => ?_⟩
            obtain rfl := Except.ok.inj h
            exact ⟨_, rfl, hle, Nat.lt_succ_self _⟩
          · exact ⟨hle.trans (Nat.le_succ _), fun hb h => by cases h⟩

end HeapManager

namespace MetalSmartAllocator

variable {dev : MTLDevice} {a a' : MetalSmartAllocator} {hb : HeapBlock} {block : AllocatedBlock}

/-- The live and the cached blocks have Metal buffers of their own, all of them created. -/
structure Minted (a : MetalSmartAllocator) : Prop where
  buffers : (a.blocks.map HeapBlock.buffer).Nodup
  created : ∀ b ∈ a.blocks, ∃ buffer < a.heapMgr.nextObject, b.buffer = some buffer
  ids : Keyed.Distinct Prod.fst a.liveBlocks
  fresh : ∀ entry ∈ a.liveBlocks, entry.1 < a.nextId
  lists : Keyed.Distinct Prod.fst a.freeLists

theorem minted_new : Minted {} where
  buffers := List.nodup_nil
  created := fun _ hb => absurd hb List.not_mem_nil
  ids := List.nodup_nil
  fresh := fun _ he => absurd he List.not_mem_nil
  lists := List.nodup_nil

/-- Blocks in another order, and buffers that have been created since. -/
theorem Minted.of_perm (h : Minted a) (hperm : a'.blocks.Perm a.blocks)
    (hnext : a.heapMgr.nextObject ≤ a'.heapMgr.nextObject)
    (hids : Keyed.Distinct Prod.fst a'.liveBlocks)
    (hfresh : ∀ entry ∈ a'.liveBlocks, entry.1 < a'.nextId)
    (hlists : Keyed.Distinct Prod.fst a'.freeLists) : Minted a' where
  buffers := (hperm.map HeapBlock.buffer).nodup_iff.mpr h.buffers
  created := fun b hb => by
    obtain ⟨buffer, hlt, heq⟩ := h.created b (hperm.subset hb)
    exact ⟨buffer, hlt.trans_le hnext, heq⟩
  ids := hids
  fresh := hfresh
  lists := hlists

/-- A live block and a cached one have different buffers. -/
theorem Minted.buffer_ne (h : Minted a) {b c : HeapBlock} (hb : b ∈ a.live)
    (hc : c ∈ cachedBlocks a.freeLists) : b.buffer ≠ c.buffer := by
  have hnodup := h.buffers
  rw [blocks, List.map_append, List.nodup_append] at hnodup
  exact hnodup.2.2 _ (List.mem_map_of_mem hb) _ (List.mem_map_of_mem hc)

/-- What is left to say once the block for the client has been found. -/
structure HandsOut (a a' : MetalSmartAllocator) (nbytes : ℕ) (block : AllocatedBlock)
    (hb : HeapBlock) : Prop where
  minted : Minted a'
  nextObject : a.heapMgr.nextObject ≤ a'.heapMgr.nextObject
  cached : ∀ b ∈ cachedBlocks a'.freeLists, b ∈ cachedBlocks a.freeLists
  live : a'.liveBlocks = (block.internalId, hb) :: a.liveBlocks
  newId : block.internalId = a.nextId
  buffer : block.buffer = hb.buffer
  aliasable : block.aliasable = false
  requested : block.requested = nbytes
  sizeClass : nextSizeClass nbytes = some block.sizeClass
  origin : hb ∈ cachedBlocks a.freeLists ∨
    ∃ buffer, hb.buffer = some buffer ∧ a.heapMgr.nextObject ≤ buffer

/-- Registering a block under the next id. -/
theorem liveBlocks_handOver (hfresh : ∀ entry ∈ a.liveBlocks, entry.1 < a.nextId) (nbytes sc : ℕ)
    (mode : StorageMode) (hb : HeapBlock) :
    (a.handOver nbytes sc mode hb).2.liveBlocks = (a.nextId, hb) :: a.liveBlocks := by
  have hnone : Keyed.find Prod.fst a.liveBlocks a.nextId = none :=
    Keyed.find_eq_none.mpr fun entry he => Nat.ne_of_lt (hfresh entry he)
  show Keyed.insert Prod.fst a.liveBlocks (a.nextId, hb) = _
  rw [Keyed.insert, Keyed.erase_eq_self hnone]

theorem fresh_handOver (hfresh : ∀ entry ∈ a.liveBlocks, entry.1 < a.nextId) (nbytes sc : ℕ)
    (mode : StorageMode) (hb : HeapBlock) :
    ∀ entry ∈ (a.handOver nbytes sc mode hb).2.liveBlocks, entry.1 < a.nextId + 1 := by
  rw [liveBlocks_handOver hfresh]
  intro entry he
  rcases List.mem_cons.mp he with rfl | he
  · exact Nat.lt_succ_self _
  · exact Nat.lt_succ_of_lt (hfresh entry he)

/-- **`allocate`.** -/
theorem Minted.allocate (h : Minted a) {nbytes : ℕ} {mode : StorageMode}
    (hr : a.allocate dev nbytes mode = some (.ok block, a')) :
    ∃ hb, HandsOut a a' nbytes block hb := by
  unfold MetalSmartAllocator.allocate at hr
  split_ifs at hr with hzero
  · cases hr
  obtain ⟨sc, hsc, hr⟩ := Option.map_eq_some_iff.mp hr
  dsimp only at hr
  split at hr
  · rename_i hb a₁ htake
    obtain ⟨hperm, hlists, hmgr, hlive, hnext⟩ := takeCached_spec h.lists htake
    obtain ⟨hblock, rfl⟩ := Prod.mk.inj hr
    obtain rfl := Except.ok.inj hblock
    have hfresh₁ : ∀ entry ∈ a₁.liveBlocks, entry.1 < a₁.nextId := by
      rw [hlive, hnext]
      exact h.fresh
    have hlive' := liveBlocks_handOver hfresh₁ nbytes sc mode hb
    refine ⟨hb, ?_, hmgr ▸ Nat.le_refl _, fun b hb' => ?_, ?_, hnext, rfl, rfl, rfl, hsc, .inl ?_⟩
    · refine h.of_perm ?_ (hmgr ▸ Nat.le_refl _) ?_
        (fresh_handOver hfresh₁ nbytes sc mode hb) hlists
      · -- the block moves from its free list to the live map
        unfold blocks live
        rw [hlive', List.map_cons, hlive]
        exact List.perm_middle.symm.trans (hperm.symm.append_left _)
      · exact Keyed.Distinct.insert (hlive ▸ h.ids) _
    · exact hperm.symm.subset (List.mem_cons_of_mem _ hb')
    · rw [hlive', hlive]
      rfl
    · exact hperm.symm.subset (List.mem_cons_self ..)
  · obtain ⟨hnext, hbuffer⟩ := @HeapManager.allocate_buffer dev a.heapMgr sc mode
    split at hr
    · cases hr
    · rename_i hb mgr hok
      rw [hok] at hnext hbuffer
      obtain ⟨buffer, heq, hle, hlt⟩ := hbuffer hb rfl
      obtain ⟨hblock, rfl⟩ := Prod.mk.inj hr
      obtain rfl := Except.ok.inj hblock
      set a₁ : MetalSmartAllocator :=
        { a with
          heapMgr := mgr
          stats := { a.stats with cacheMissCount := a.stats.cacheMissCount + 1 } } with ha₁
      have hlive' := liveBlocks_handOver (a := a₁) h.fresh nbytes sc mode hb
      refine ⟨hb, ?_, hnext, fun b hb' => hb', hlive', rfl, rfl, rfl, rfl, hsc,
        .inr ⟨buffer, heq, hle⟩⟩
      have hblocks : (a₁.handOver nbytes sc mode hb).2.blocks = hb :: a.blocks := by
        unfold blocks live
        rw [hlive']
        rfl
      refine ⟨?_, ?_, h.ids.insert _, fresh_handOver (a := a₁) h.fresh nbytes sc mode hb, h.lists⟩
      · rw [hblocks, List.map_cons, List.nodup_cons]
        refine ⟨fun hmem => ?_, h.buffers⟩
        -- the other blocks have older buffers
        obtain ⟨other, hother, hsame⟩ := List.mem_map.mp hmem
        obtain ⟨old, hold, hoeq⟩ := h.created other hother
        rw [hoeq, heq] at hsame
        have hsame : old = buffer := Option.some.inj hsame
        exact absurd (hsame ▸ hold) (Nat.not_lt.mpr hle)
      · rw [hblocks]
        intro b hb'
        rcases List.mem_cons.mp hb' with rfl | hb'
        · exact ⟨buffer, hlt, heq⟩
        · obtain ⟨old, hold, hoeq⟩ := h.created b hb'
          exact ⟨old, hold.trans_le hnext, hoeq⟩

/-- A call that throws creates buffers for nobody. -/
theorem Minted.allocate_error (h : Minted a) {nbytes : ℕ} {mode : StorageMode} {e : MNException}
    (hr : a.allocate dev nbytes mode = some (.error e, a')) :
    Minted a' ∧ a.heapMgr.nextObject ≤ a'.heapMgr.nextObject ∧ a'.freeLists = a.freeLists ∧
      a'.liveBlocks = a.liveBlocks := by
  unfold MetalSmartAllocator.allocate at hr
  split_ifs at hr with hzero
  · obtain ⟨-, rfl⟩ := some_mk_inj hr
    exact ⟨h, Nat.le_refl _, rfl, rfl⟩
  obtain ⟨sc, hsc, hr⟩ := Option.map_eq_some_iff.mp hr
  dsimp only at hr
  split at hr
  · cases hr
  · have hnext := (@HeapManager.allocate_buffer dev a.heapMgr sc mode).1
    split at hr
    · rename_i e mgr hfail
      rw [hfail] at hnext
      obtain ⟨-, rfl⟩ := Prod.mk.inj hr
      exact ⟨h.of_perm (.refl _) hnext h.ids h.fresh h.lists, hnext, rfl, rfl⟩
    · cases hr

/-- **`deallocate`.** -/
theorem Minted.deallocate (h : Minted a) (halias : block.aliasable = false)
    (hlive : (block.internalId, hb) ∈ a.liveBlocks) :
    Minted (a.deallocate block).2 ∧
      (a.deallocate block).2.heapMgr = a.heapMgr ∧
      (a.deallocate block).2.liveBlocks = Keyed.erase Prod.fst a.liveBlocks block.internalId ∧
      ∀ b ∈ cachedBlocks (a.deallocate block).2.freeLists,
        b = hb ∨ b ∈ cachedBlocks a.freeLists := by
  have hfind : Keyed.find Prod.fst a.liveBlocks block.internalId = some (block.internalId, hb) :=
    h.ids.find_eq_some.mpr ⟨hlive, rfl⟩
  have hids := h.ids.erase block.internalId
  have hfresh : ∀ entry ∈ Keyed.erase Prod.fst a.liveBlocks block.internalId,
      entry.1 < a.nextId := fun entry he => h.fresh entry (Keyed.mem_erase.mp he).1
  unfold MetalSmartAllocator.deallocate
  rw [hfind]
  dsimp only
  rw [if_neg (by simp [halias])]
  have hpush := cachedBlocks_push h.lists (bucketKey block.sizeClass block.mode)
    ⟨hb, block.sizeClass, block.mode⟩
  refine ⟨h.of_perm ?_ (Nat.le_refl _) hids hfresh (h.lists.insert _), rfl, rfl, fun b hb' => ?_⟩
  · have hperm : a.live.Perm
        (hb :: (Keyed.erase Prod.fst a.liveBlocks block.internalId).map Prod.snd) :=
      (h.ids.perm_cons_erase hfind).map Prod.snd
    exact ((hpush.append_left _).trans List.perm_middle).trans (hperm.symm.append_right _)
  · exact List.mem_cons.mp (hpush.subset hb')

/-- A block that has been given back is the next one of its class. -/
theorem exists_allocate_deallocate (h : Minted a) (halias : block.aliasable = false)
    (hlive : (block.internalId, hb) ∈ a.liveBlocks) (hpos : 0 < block.requested)
    (hsc : nextSizeClass block.requested = some block.sizeClass) :
    ∃ next a', (a.deallocate block).2.allocate dev block.requested block.mode
      = some (.ok next, a') ∧ next.buffer = hb.buffer := by
  have hfind : Keyed.find Prod.fst a.liveBlocks block.internalId = some (block.internalId, hb) :=
    h.ids.find_eq_some.mpr ⟨hlive, rfl⟩
  have hlists : (a.deallocate block).2.freeLists =
      Keyed.insert Prod.fst a.freeLists (bucketKey block.sizeClass block.mode,
        a.bucket (bucketKey block.sizeClass block.mode) ++
          [⟨hb, block.sizeClass, block.mode⟩]) := by
    unfold MetalSmartAllocator.deallocate
    rw [hfind]
    dsimp only
    rw [if_neg (by simp [halias])]
    rfl
  unfold MetalSmartAllocator.allocate
  rw [if_neg (Nat.ne_of_gt hpos), hsc, Option.map_some]
  dsimp only
  unfold takeCached
  rw [hlists, Keyed.find_insert_self]
  dsimp only
  rw [List.getLast?_concat]
  exact ⟨_, _, rfl, rfl⟩

end MetalSmartAllocator

end MetalNative
