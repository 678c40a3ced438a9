import MetalNative.Memory.AllocatorSafety

namespace MetalNative

open Run Span HeapManager

/-!
# What a failed allocation leaves behind

`allocate` asks Metal twice: for a heap, when no free block has the room, and for the buffer.
`create_heap` checks its answer before it touches the vector, but the free block is split before
the buffer is asked for, and nothing puts it back.

* `Intact` — after the failure everything is as before, but for one completely free heap.
* `HeapManager.allocate_failure` — the three ways to fail and what each leaves.
* `failed_allocation_intact` — the allocator is intact exactly when the request refused was the
  one for a heap, and runs in which only heaps are refused lose no byte.
-/

/-! ### Intact -/

/-- The heaps and counters are as they were, except that one completely free heap may have been
    added. -/
structure HeapManager.Intact (m m' : HeapManager) : Prop where
  heaps : (m'.heaps = m.heaps ∧ m'.totalHeapBytes = m.totalHeapBytes) ∨
    ∃ entry : HeapEntry, m'.heaps = m.heaps ++ [entry] ∧
      entry.freeBlocks = [⟨0, entry.capacity⟩] ∧ entry.allocCount = 0 ∧
      m'.totalHeapBytes = m.totalHeapBytes + UInt64.ofNat entry.capacity
  allocatedBytes : m'.allocatedBytes = m.allocatedBytes
  allocationCount : m'.allocationCount = m.allocationCount

/-- The same of the allocator: the cached and the live blocks, the ids and the statistics. -/
structure MetalSmartAllocator.Intact (a a' : MetalSmartAllocator) : Prop where
  heapMgr : a.heapMgr.Intact a'.heapMgr
  freeLists : a'.freeLists = a.freeLists
  liveBlocks : a'.liveBlocks = a.liveBlocks
  nextId : a'.nextId = a.nextId
  stats : a'.stats = a.stats

/-- No free block has the room for `size` bytes, and Metal refuses the heap for them. -/
def MTLDevice.RefusesHeap (dev : MTLDevice) (m : HeapManager) (size : ℕ) (mode : StorageMode) :
    Prop :=
  (m.findBestFit (alignToPage size) mode).1 = SIZE_MAX ∧
    dev.newHeap m.nextObject (heapSizeForAlloc (alignToPage size)) mode = false

instance (dev : MTLDevice) (m : HeapManager) (size : ℕ) (mode : StorageMode) :
    Decidable (dev.RefusesHeap m size mode) :=
  inferInstanceAs (Decidable (_ ∧ _))

/-- The rounding of a size within a page of `SIZE_MAX` wraps to zero, and zero bytes are cut off
    a free block without changing it, unless the block is itself empty. -/
def HeapManager.CutsNothing (m : HeapManager) (size : ℕ) (mode : StorageMode) : Prop :=
  alignToPage size = 0 ∧ ((m.findBestFit 0 mode).1 ≠ SIZE_MAX → ∀ entry fb,
    Fits m 0 mode (m.findBestFit 0 mode).1 (m.findBestFit 0 mode).2 entry fb → 0 < fb.size)

/-! ### How `HeapManager::allocate` fails -/

variable {entry : HeapEntry}

/-- The free list is the one before only when nothing was cut off a nonempty block. -/
theorem takeBlock_freeBlocks_eq_iff {bi : ℕ} {fb : FreeBlock}
    (hb : entry.freeBlocks[bi]? = some fb) (size : ℕ) :
    (takeBlock entry bi fb size).freeBlocks = entry.freeBlocks ↔ size = 0 ∧ 0 < fb.size := by
  obtain ⟨hlt, hat⟩ := List.getElem?_eq_some_iff.mp hb
  unfold takeBlock
  split_ifs with hmore
  · constructor
    · intro hsame
      -- the block at `bi` has moved by `size`
      have hcut : (entry.freeBlocks.set bi ⟨fb.offset + size, fb.size - size⟩)[bi]?
          = some fb := by
        rw [← hb]
        exact congrArg (·[bi]?) hsame
      rw [List.getElem?_set_self hlt, Option.some.injEq] at hcut
      have hoffset := congrArg Span.offset hcut
      simp only at hoffset
      omega
    · rintro ⟨rfl, -⟩
      show entry.freeBlocks.set bi ⟨fb.offset + 0, fb.size - 0⟩ = entry.freeBlocks
      rw [Nat.add_zero, Nat.sub_zero]
      show entry.freeBlocks.set bi fb = entry.freeBlocks
      rw [← hat]
      exact List.set_getElem_self hlt
  · constructor
    · intro hsame
      -- one block fewer
      have hlength := congrArg List.length hsame
      rw [List.length_eraseIdx_of_lt hlt] at hlength
      omega
    · rintro ⟨rfl, hpos⟩
      exact absurd hpos hmore

/-- What a refused buffer leaves: the block is cut all the same. -/
def HeapManager.cutBlock (m : HeapManager) (hi bi : ℕ) (entry : HeapEntry) (fb : FreeBlock)
    (size : ℕ) : HeapManager :=
  { m with
    heaps := m.heaps.set hi (takeBlock entry bi fb size)
    nextObject := m.nextObject + 1 }

variable {dev : MTLDevice} {e : MNException} {m m' : HeapManager}

theorem subAllocate_failure {hi bi size : ℕ}
    {fb : FreeBlock}
    (h : m.subAllocate dev hi bi size entry fb = (.error e, m')) :
    m' = m.cutBlock hi bi entry fb size := by
  unfold subAllocate at h
  dsimp only at h
  split at h
  · simp at h
  · exact (Prod.mk.inj h).2.symm

variable {mode : StorageMode}

/-- **The three failures.**  The heap was refused and nothing happened, or the buffer was refused
    and the chosen block, of an old heap or of the new one, is cut. -/
theorem HeapManager.allocate_failure {size : ℕ}
    (hpos : 0 < size)
    (h : m.allocate dev size mode = (.error e, m')) :
    (dev.RefusesHeap m size mode ∧ m' = { m with nextObject := m.nextObject + 1 }) ∨
    ((m.findBestFit (alignToPage size) mode).1 ≠ SIZE_MAX ∧ ∃ entry fb,
      Fits m (alignToPage size) mode (m.findBestFit (alignToPage size) mode).1
        (m.findBestFit (alignToPage size) mode).2 entry fb ∧
      m' = m.cutBlock (m.findBestFit (alignToPage size) mode).1
        (m.findBestFit (alignToPage size) mode).2 entry fb (alignToPage size)) ∨
    ((m.findBestFit (alignToPage size) mode).1 = SIZE_MAX ∧
      dev.newHeap m.nextObject (heapSizeForAlloc (alignToPage size)) mode = true ∧
      m' = (m.addHeap (heapSizeForAlloc (alignToPage size)) mode).cutBlock m.heaps.length 0
        (newEntry m.nextObject (heapSizeForAlloc (alignToPage size)) mode)
        ⟨0, heapSizeForAlloc (alignToPage size)⟩ (alignToPage size)) := by
  have hfit := findBestFit_spec m (alignToPage size) mode
  unfold allocate chooseBlock at h
  rw [if_neg (Nat.pos_iff_ne_zero.mp hpos)] at h
  dsimp only at h
  by_cases hnone : (m.findBestFit (alignToPage size) mode).1 = SIZE_MAX
  · -- no room anywhere: a new heap, whose only block is cut
    rw [if_pos hnone] at h
    unfold createHeap at h
    dsimp only at h
    by_cases hdev : dev.newHeap m.nextObject (heapSizeForAlloc (alignToPage size)) mode = true
    · rw [if_pos hdev] at h
      dsimp only at h
      rw [List.getElem?_append_right le_rfl, Nat.sub_self, List.getElem?_cons_zero] at h
      exact .inr (.inr ⟨hnone, hdev, subAllocate_failure h⟩)
    · rw [if_neg hdev] at h
      exact .inl ⟨⟨hnone, by simpa using hdev⟩, (Prod.mk.inj h).2.symm⟩
  · -- the best fit is cut before Metal is asked
    obtain ⟨entry, fb, hf⟩ := hfit.resolve_left hnone
    rw [if_neg hnone] at h
    dsimp only at h
    rw [hf.entry_at] at h
    dsimp only at h
    rw [hf.block_at] at h
    exact .inr (.inl ⟨hnone, entry, fb, hf, subAllocate_failure h⟩)

/-- A failure while Metal refuses the heap changes nothing. -/
theorem HeapManager.allocate_refused {size : ℕ}
    (hpos : 0 < size)
    (h : m.allocate dev size mode = (.error e, m')) (hrefused : dev.RefusesHeap m size mode) :
    m' = { m with nextObject := m.nextObject + 1 } := by
  rcases allocate_failure hpos h with ⟨-, hm⟩ | ⟨hfound, -⟩ | ⟨-, hmade, -⟩
  · exact hm
  · exact absurd hrefused.1 hfound
  · rw [hrefused.2] at hmade
    cases hmade

/-! ### When the heaps are intact -/

namespace HeapManager

variable {m : HeapManager}

/-- Minting an identity is no change. -/
theorem Intact.mint (m : HeapManager) (next : ObjId) :
    m.Intact { m with nextObject := next } where
  heaps := .inl ⟨rfl, rfl⟩
  allocatedBytes := rfl
  allocationCount := rfl

/-- A cut of a block of an old heap shows, unless it cut nothing. -/
theorem intact_cutBlock_iff {hi bi size : ℕ}
    {fb : FreeBlock} (hf : Fits m size mode hi bi entry fb) :
    m.Intact (m.cutBlock hi bi entry fb size) ↔ size = 0 ∧ 0 < fb.size := by
  rw [← takeBlock_freeBlocks_eq_iff hf.block_at]
  obtain ⟨hlt, hat⟩ := List.getElem?_eq_some_iff.mp hf.entry_at
  constructor
  · intro h
    rcases h.heaps with ⟨hsame, -⟩ | ⟨entry', happ, -⟩
    · have hcut : (m.heaps.set hi (takeBlock entry bi fb size))[hi]? = some entry := by
        rw [← hf.entry_at]
        exact congrArg (·[hi]?) hsame
      rw [List.getElem?_set_self hlt, Option.some.injEq] at hcut
      rw [hcut]
    · -- no heap was added
      have hlength := congrArg List.length happ
      simp [cutBlock] at hlength
  · intro hsame
    have htake : takeBlock entry bi fb size = entry := by
      obtain ⟨hheap, hcap, hmode, hcount⟩ := takeBlock_fixed entry bi fb size
      cases htake : takeBlock entry bi fb size
      cases entry
      simp_all
    refine ⟨.inl ⟨?_, rfl⟩, rfl, rfl⟩
    show m.heaps.set hi (takeBlock entry bi fb size) = m.heaps
    rw [htake, ← hat]
    exact List.set_getElem_self hlt

/-- A cut of the only block of a new heap shows, unless it cut nothing. -/
theorem intact_addHeap_iff {capacity size : ℕ}
    (hcap : size = 0 → 0 < capacity) :
    m.Intact ((m.addHeap capacity mode).cutBlock m.heaps.length 0
      (newEntry m.nextObject capacity mode) ⟨0, capacity⟩ size) ↔ size = 0 := by
  have hfirst : (newEntry m.nextObject capacity mode).freeBlocks[0]? = some ⟨0, capacity⟩ := rfl
  have hcut := takeBlock_freeBlocks_eq_iff hfirst size
  have hheaps : (m.heaps ++ [newEntry m.nextObject capacity mode]).set m.heaps.length
      (takeBlock (newEntry m.nextObject capacity mode) 0 ⟨0, capacity⟩ size)
      = m.heaps ++ [takeBlock (newEntry m.nextObject capacity mode) 0 ⟨0, capacity⟩ size] := by
    simp
  obtain ⟨-, hcapacity, -, hcount⟩ :=
    takeBlock_fixed (newEntry m.nextObject capacity mode) 0 ⟨0, capacity⟩ size
  constructor
  · intro h
    rcases h.heaps with ⟨hsame, -⟩ | ⟨entry, happ, hwhole, -⟩
    · have hlength := congrArg List.length hsame
      simp [cutBlock, addHeap] at hlength
    · -- the heap that was added would have to be whole
      have hentry := hheaps.symm.trans happ
      simp only [List.append_cancel_left_eq, List.cons.injEq, and_true] at hentry
      rw [← hentry, hcapacity] at hwhole
      exact (hcut.mp hwhole).1
  · intro hzero
    refine ⟨.inr ⟨_, hheaps, ?_, hcount, ?_⟩, rfl, rfl⟩
    · rw [hcapacity]
      exact hcut.mpr ⟨hzero, hcap hzero⟩
    · rw [hcapacity]
      rfl

/-- **Step, the heap manager.**  A failed `allocate` leaves the heaps intact exactly when Metal
    refused the heap, or the request had wrapped to nothing. -/
theorem failed_intact_iff {m' : HeapManager} {size : ℕ}
    (hpos : 0 < size) (h : m.allocate dev size mode = (.error e, m')) :
    m.Intact m' ↔ dev.RefusesHeap m size mode ∨ m.CutsNothing size mode := by
  rcases allocate_failure hpos h with ⟨hrefused, rfl⟩ | ⟨hfound, entry, fb, hf, rfl⟩ |
    ⟨hnone, hmade, rfl⟩
  · exact ⟨fun _ => .inl hrefused, fun _ => Intact.mint m _⟩
  · rw [intact_cutBlock_iff hf]
    constructor
    · rintro ⟨hzero, hfull⟩
      refine .inr ⟨hzero, fun _ entry' fb' hf' => ?_⟩
      rw [hzero] at hf
      obtain rfl := Option.some.inj (hf.entry_at.symm.trans hf'.entry_at)
      obtain rfl := Option.some.inj (hf.block_at.symm.trans hf'.block_at)
      exact hfull
    · -- a block was found, so no heap was asked for
      rintro (⟨hnone, -⟩ | ⟨hzero, hfull⟩)
      · exact absurd hnone hfound
      · rw [hzero] at hf hfound
        exact ⟨hzero, hfull hfound entry fb hf⟩
  · rw [intact_addHeap_iff fun hzero => by rw [hzero]; decide]
    constructor
    · intro hzero
      refine .inr ⟨hzero, fun hfound => ?_⟩
      rw [hzero] at hnone
      exact absurd hnone hfound
    · rintro (⟨-, hrefused⟩ | ⟨hzero, -⟩)
      · rw [hmade] at hrefused
        cases hrefused
      · exact hzero

end HeapManager

/-! ### When the allocator is intact -/

namespace MetalSmartAllocator

variable {dev : MTLDevice} {a a' : MetalSmartAllocator} {nbytes : ℕ} {mode : StorageMode}
  {e : MNException}

/-- A failure of the allocator is one of its heap manager, and changes nothing else. -/
theorem allocate_failure (hpos : 0 < nbytes)
    (h : a.allocate dev nbytes mode = some (.error e, a')) :
    ∃ sc mgr, nextSizeClass nbytes = some sc ∧
      a.heapMgr.allocate dev sc mode = (.error e, mgr) ∧ a' = { a with heapMgr := mgr } := by
  unfold allocate at h
  rw [if_neg (Nat.pos_iff_ne_zero.mp hpos)] at h
  obtain ⟨sc, hsc, h⟩ := Option.map_eq_some_iff.mp h
  dsimp only at h
  split at h
  · simp at h
  · split at h
    · rename_i e' mgr hfail
      simp only [Prod.mk.injEq, Except.error.injEq] at h
      obtain ⟨rfl, rfl⟩ := h
      exact ⟨sc, mgr, hsc, hfail, rfl⟩
    · simp at h

/-- The allocator is as intact as its heaps. -/
theorem intact_heapMgr_iff {mgr : HeapManager} :
    a.Intact { a with heapMgr := mgr } ↔ a.heapMgr.Intact mgr :=
  ⟨Intact.heapMgr, fun h => ⟨h, rfl, rfl, rfl, rfl⟩⟩

/-- **Step, the allocator.**  A failed `allocate` leaves the allocator intact exactly when Metal
    refused the heap: a size class never wraps. -/
theorem failed_intact_iff (hpos : 0 < nbytes)
    (h : a.allocate dev nbytes mode = some (.error e, a')) :
    a.Intact a' ↔ ∃ sc ∈ nextSizeClass nbytes, dev.RefusesHeap a.heapMgr sc mode := by
  obtain ⟨sc, mgr, hsc, hfail, rfl⟩ := allocate_failure hpos h
  obtain ⟨-, hscpos, hle⟩ := nextSizeClass_spec hsc
  have hround := (alignToPage_spec hle).1
  rw [intact_heapMgr_iff, failed_intact_iff hscpos hfail]
  constructor
  · rintro (hrefused | ⟨hzero, -⟩)
    · exact ⟨sc, hsc, hrefused⟩
    · omega
  · rintro ⟨sc', hsc', hrefused⟩
    obtain rfl : sc = sc' := Option.some.inj (hsc.symm.trans hsc')
    exact .inl hrefused

end MetalSmartAllocator

/-! ### Runs that lose no byte -/

/-- The condition on a step: when `allocate` fails, it is a heap that Metal has refused. -/
def SparesBlocks (dev : MTLDevice) (s : AllocState) : AllocCall → Prop
  | .allocate nbytes mode =>
    (s.alloc.allocate dev nbytes mode).all (fun r => r.1.isOk) = true ∨ nbytes = 0 ∨
      ∃ sc ∈ nextSizeClass nbytes, dev.RefusesHeap s.alloc.heapMgr sc mode
  | _ => True

instance (dev : MTLDevice) (s : AllocState) : ∀ c, Decidable (SparesBlocks dev s c)
  | .allocate _ _ => inferInstanceAs (Decidable (_ ∨ _ ∨ _))
  | .deallocate _ => inferInstanceAs (Decidable True)
  | .makeAliasable _ => inferInstanceAs (Decidable True)
  | .emptyCache => inferInstanceAs (Decidable True)
  | .rehash _ => inferInstanceAs (Decidable True)

/-- Both conditions on a step; the one on `empty_cache` keeps the heap indices valid. -/
def Careful (dev : MTLDevice) (s : AllocState) (c : AllocCall) : Prop :=
  SparesBlocks dev s c ∧ EmptiesOnlyTail s c

instance (dev : MTLDevice) (s : AllocState) (c : AllocCall) : Decidable (Careful dev s c) :=
  inferInstanceAs (Decidable (_ ∧ _))

/-- **Step.**  A careful call keeps the invariant, whatever Metal refuses. -/
theorem allocStep_inv_of_careful {s t : AllocState} {c : AllocCall}
    (h : s.alloc.AllocInv) (hg : Careful dev s c) (hs : allocStep dev s c = some t) :
    t.alloc.AllocInv := by
  refine allocStep_inv_of h (fun nbytes mode r a hc hr => ?_) hg.2 hs
  refine h.allocate_of hr fun sc e mgr hzero hsc hthrown hfail => ?_
  obtain ⟨-, hpos, -⟩ := MetalSmartAllocator.nextSizeClass_spec hsc
  have hspares := hg.1
  rw [hc] at hspares
  rcases hspares with hok | hnone | ⟨sc', hsc', hrefused⟩
  · rw [hr, hthrown] at hok
    cases hok
  · exact absurd hnone hzero
  · obtain rfl : sc = sc' := Option.some.inj (hsc.symm.trans hsc')
    rw [allocate_refused hpos hfail hrefused]
    exact h.heap.mint (Nat.le_succ _)

/-- **Failed allocations.**  From any state, reachable or not, a call that throws because Metal
    refused its request leaves the heap manager and the allocator intact exactly when it was a
    heap that Metal refused (a request to the heap manager may also have wrapped to nothing); and
    in every run whose failures are of that kind, and whose `empty_cache` keeps the heap indices
    valid, the free, cached and live blocks tile every heap. -/
theorem failed_allocation_intact (dev : MTLDevice) :
    (∀ (m m' : HeapManager) (size : ℕ) (mode : StorageMode) (e : MNException), 0 < size →
      m.allocate dev size mode = (.error e, m') →
      (m.Intact m' ↔ dev.RefusesHeap m size mode ∨ m.CutsNothing size mode)) ∧
    (∀ (a a' : MetalSmartAllocator) (nbytes : ℕ) (mode : StorageMode) (e : MNException),
      0 < nbytes → a.allocate dev nbytes mode = some (.error e, a') →
      (a.Intact a' ↔ ∃ sc ∈ nextSizeClass nbytes, dev.RefusesHeap a.heapMgr sc mode)) ∧
    ∀ s : AllocState, Runs (allocStep dev) (Careful dev) {} s →
      ∀ entry ∈ s.alloc.heapMgr.heaps, Tiles (entry.regions s.alloc.blocks) entry.capacity := by
  refine ⟨fun m m' size mode e hpos h => failed_intact_iff hpos h,
    fun a a' nbytes mode e hpos h => MetalSmartAllocator.failed_intact_iff hpos h,
    fun s hrun entry he => ?_⟩
  have hinv : s.alloc.AllocInv :=
    hrun.invariant (P := fun u => u.alloc.AllocInv) allocInv_init
      fun _ _ _ hu hg hs => allocStep_inv_of_careful hu hg hs
  exact (hinv.heap.entries entry he).tiled.toTiles

/-- Metal with no room for a private heap. -/
def sharedOnlyDevice : MTLDevice := ⟨fun _ _ mode => decide (mode = .Shared), fun _ _ _ _ => true⟩

/-- A block, a refused heap, and another block. -/
def refusedHeapCalls : List AllocCall :=
  [.allocate 64 .Shared, .allocate 64 .Private, .allocate 64 .Shared]

theorem failed_allocation_intact_refused_heap :
    (∃ e m', ({} : HeapManager).allocate sharedOnlyDevice 100 .Private = (.error e, m') ∧
      ({} : HeapManager).Intact m') ∧
    (∃ e a', ({} : MetalSmartAllocator).allocate sharedOnlyDevice 64 .Private
        = some (.error e, a') ∧ ({} : MetalSmartAllocator).Intact a') ∧
    ∃ s, exec (allocStep sharedOnlyDevice) {} refusedHeapCalls = some s ∧
      ∀ entry ∈ s.alloc.heapMgr.heaps, Tiles (entry.regions s.alloc.blocks) entry.capacity := by
  obtain ⟨hheap, halloc, hruns⟩ := failed_allocation_intact sharedOnlyDevice
  refine ⟨⟨_, _, rfl, ?_⟩, ⟨_, _, rfl, ?_⟩, ?_⟩
  · exact (hheap _ _ 100 .Private _ (by decide) rfl).mpr (.inl (by decide))
  · exact (halloc _ _ 64 .Private _ (by decide) rfl).mpr ⟨64, rfl, by decide⟩
  · have hsome : (exec (allocStep sharedOnlyDevice) {} refusedHeapCalls).isSome = true := by decide
    obtain ⟨s, hs⟩ := Option.isSome_iff_exists.mp hsome
    have hguard : GuardedAlong (allocStep sharedOnlyDevice) (Careful sharedOnlyDevice) {}
      refusedHeapCalls := by decide
    exact ⟨s, hs, hruns s (runs_exec hs hguard)⟩

/-! ### What a refused buffer costs -/

/-- Metal refusing the buffer of the second allocation. -/
def lossyDevice : MTLDevice := ⟨fun _ _ _ => true, fun serial _ _ _ => decide (serial ≠ 2)⟩

/-- The allocator with one live block, in the first page of a heap. -/
def onePageLive : AllocState :=
  { alloc :=
      { heapMgr :=
          { heaps := [⟨0, 4194304, .Shared, [⟨16384, 4177920⟩], 1⟩]
            totalHeapBytes := 4194304
            allocatedBytes := 16384
            allocationCount := 1
            nextObject := 2 }
        liveBlocks := [(1, ⟨0, 16384, 0, some 1, some 0⟩)]
        nextId := 2
        stats := ⟨64, 0, 64, 1, 0, 1⟩ }
    handles := [⟨64, 64, 64, .Shared, false, some 1, 1⟩] }

/-- What the refused second allocation leaves of it. -/
def secondPageGone : MetalSmartAllocator :=
  { onePageLive.alloc with
    heapMgr :=
      { onePageLive.alloc.heapMgr with
        heaps := [⟨0, 4194304, .Shared, [⟨32768, 4161536⟩], 1⟩]
        nextObject := 3 } }

/-- The second allocation throws, and the second page of the heap is gone. -/
theorem second_page_lost :
    Reaches (allocStep lossyDevice) {} onePageLive ∧
    ∃ e a', onePageLive.alloc.allocate lossyDevice 64 .Shared = some (.error e, a') ∧
      ¬ onePageLive.alloc.Intact a' ∧
      ∃ entry ∈ a'.heapMgr.heaps, cover (entry.regions a'.blocks) 16384 = 0 := by
  have hexec : exec (allocStep lossyDevice) {} [.allocate 64 .Shared] = some onePageLive := by
    decide
  refine ⟨reaches_exec hexec, _, secondPageGone, rfl, fun h => ?_, _,
    List.mem_singleton.mpr rfl, by decide⟩
  rcases h.heapMgr.heaps with ⟨hsame, -⟩ | ⟨entry, happ, -⟩
  · revert hsame
    decide
  · have hlength := congrArg List.length happ
    rw [List.length_append, List.length_singleton] at hlength
    revert hlength
    decide

end MetalNative
