import MetalNative.Memory.HeapManager

namespace MetalNative

open Span

/-!
# What the parts of `HeapManager` compute

* `alignToPage_spec`, `heapSizeForAlloc_spec` — rounding and the capacity of a new heap.
* `findBestFit_spec`, `chooseBlock_cases` — the block chosen has the mode and the room.
* `takeBlock_regions` — splitting a block keeps the tiling of its heap.
* `coalesceBlocks_regions`, `coalesceBlocks_coalesced` — the sort-and-merge pass loses no byte
  and leaves no two touching blocks.
-/

/-! ### Sizes -/

theorem alignToPage_spec {size : ℕ} (h : size ≤ 2 ^ 63) :
    size ≤ alignToPage size ∧ alignToPage size ≤ 2 ^ 63 ∧ kGPUPageSize ∣ alignToPage size := by
  unfold alignToPage kGPUPageSize sizeTRange
  dsimp only
  refine ⟨?_, ?_, ?_⟩ <;> omega

theorem alignToPage_of_dvd {size : ℕ} (h : size ≤ 2 ^ 63) (hd : kGPUPageSize ∣ size) :
    alignToPage size = size := by
  unfold alignToPage kGPUPageSize sizeTRange at *
  dsimp only
  omega

/-- A new heap has room for the request and consists of whole pages. -/
theorem heapSizeForAlloc_spec {a : ℕ} (h : a ≤ 2 ^ 63) (hd : kGPUPageSize ∣ a) :
    a ≤ heapSizeForAlloc a ∧ 0 < heapSizeForAlloc a ∧ heapSizeForAlloc a < sizeTRange ∧
      kGPUPageSize ∣ heapSizeForAlloc a := by
  unfold heapSizeForAlloc
  split_ifs with hsmall hmedium
  · unfold kSmallThreshold kSmallHeapSize kGPUPageSize sizeTRange at *
    omega
  · unfold kMediumThreshold kMediumHeapSize kGPUPageSize sizeTRange at *
    omega
  · -- the larger of two page multiples is rounded up to itself
    have hmax : kGPUPageSize ∣ max kLargeHeapSize a := by
      rcases max_choice kLargeHeapSize a with hm | hm <;> rw [hm]
      · unfold kLargeHeapSize kGPUPageSize
        omega
      · exact hd
    have hle : max kLargeHeapSize a ≤ 2 ^ 63 := by
      unfold kLargeHeapSize
      omega
    rw [alignToPage_of_dvd hle hmax]
    unfold kLargeHeapSize sizeTRange at *
    omega

/-! ### Best fit -/

/-- Free block `bi` of heap `hi` has the mode and the room for an allocation. -/
structure Fits (m : HeapManager) (alignedSize : ℕ) (mode : StorageMode) (hi bi : ℕ)
    (entry : HeapEntry) (fb : FreeBlock) : Prop where
  entry_at : m.heaps[hi]? = some entry
  mode_eq : entry.mode = mode
  block_at : entry.freeBlocks[bi]? = some fb
  room : alignedSize ≤ fb.size

/-- The inner loop keeps the running best or moves it to a block with room. -/
theorem scanBlocks_spec (alignedSize hi bi : ℕ) (blocks : List FreeBlock) (best : BestFit) :
    (scanBlocks alignedSize hi bi blocks best).1 = best ∨
      (scanBlocks alignedSize hi bi blocks best).1.heap = hi ∧
      ∃ j fb, blocks[j]? = some fb ∧ alignedSize ≤ fb.size ∧
        (scanBlocks alignedSize hi bi blocks best).1.block = bi + j := by
  induction blocks generalizing bi best with
  | nil => exact .inl rfl
  | cons fb rest ih =>
    -- the later blocks, from any running best
    have later : ∀ best', (scanBlocks alignedSize hi (bi + 1) rest best').1 = best' ∨
        (scanBlocks alignedSize hi (bi + 1) rest best').1.heap = hi ∧
        ∃ j fb', (fb :: rest)[j]? = some fb' ∧ alignedSize ≤ fb'.size ∧
          (scanBlocks alignedSize hi (bi + 1) rest best').1.block = bi + j := by
      intro best'
      rcases ih (bi + 1) best' with h | ⟨hh, j, fb', hj, hroom, hb⟩
      · exact .inl h
      · exact .inr ⟨hh, j + 1, fb', by simpa using hj, hroom, by rw [hb]; omega⟩
    unfold scanBlocks
    simp only
    split_ifs with hroom hless hzero
    · exact .inr ⟨rfl, 0, fb, rfl, hroom, rfl⟩
    · rcases later ⟨hi, bi, fb.size - alignedSize⟩ with h | h
      · exact .inr ⟨by rw [h], 0, fb, rfl, hroom, by rw [h]; rfl⟩
      · exact .inr h
    · exact later best
    · exact later best

/-- The outer loop keeps the running best or moves it to a fitting block. -/
theorem scanHeaps_spec (alignedSize : ℕ) (mode : StorageMode) (hi : ℕ) (heaps : List HeapEntry)
    (best : BestFit) :
    scanHeaps alignedSize mode hi heaps best = best ∨
      ∃ i entry fb, heaps[i]? = some entry ∧ entry.mode = mode ∧
        (scanHeaps alignedSize mode hi heaps best).heap = hi + i ∧
        entry.freeBlocks[(scanHeaps alignedSize mode hi heaps best).block]? = some fb ∧
        alignedSize ≤ fb.size := by
  induction heaps generalizing hi best with
  | nil => exact .inl rfl
  | cons entry rest ih =>
    have later : ∀ best', scanHeaps alignedSize mode (hi + 1) rest best' = best' ∨
        ∃ i e fb, (entry :: rest)[i]? = some e ∧ e.mode = mode ∧
          (scanHeaps alignedSize mode (hi + 1) rest best').heap = hi + i ∧
          e.freeBlocks[(scanHeaps alignedSize mode (hi + 1) rest best').block]? = some fb ∧
          alignedSize ≤ fb.size := by
      intro best'
      rcases ih (hi + 1) best' with h | ⟨i, e, fb, hi', hm, hh, hb, hroom⟩
      · exact .inl h
      · exact .inr ⟨i + 1, e, fb, by simpa using hi', hm, by rw [hh]; omega, hb, hroom⟩
    unfold scanHeaps
    split_ifs with hmode
    · exact later best
    · have hmode' : entry.mode = mode := not_not.mp hmode
      have hscan := scanBlocks_spec alignedSize hi 0 entry.freeBlocks best
      -- a block of this heap is kept unless a later heap improves on it
      rcases hr : scanBlocks alignedSize hi 0 entry.freeBlocks best with ⟨best', done⟩
      rw [hr] at hscan
      have here : best' ≠ best → ∃ i e fb, (entry :: rest)[i]? = some e ∧ e.mode = mode ∧
          best'.heap = hi + i ∧ e.freeBlocks[best'.block]? = some fb ∧ alignedSize ≤ fb.size := by
        intro hne
        obtain ⟨hh, j, fb, hj, hroom, hb⟩ := hscan.resolve_left hne
        exact ⟨0, entry, fb, rfl, hmode', hh, by rw [hb, Nat.zero_add]; exact hj, hroom⟩
      cases done with
      | true =>
        simp only
        by_cases hne : best' = best
        · exact .inl hne
        · exact .inr (here hne)
      | false =>
        simp only
        rcases later best' with h | h
        · rw [h]
          by_cases hne : best' = best
          · exact .inl hne
          · exact .inr (here hne)
        · exact .inr h

/-- `find_best_fit` answers `SIZE_MAX` or the place of a fitting block. -/
theorem findBestFit_spec (m : HeapManager) (alignedSize : ℕ) (mode : StorageMode) :
    (m.findBestFit alignedSize mode).1 = SIZE_MAX ∨
      ∃ entry fb, Fits m alignedSize mode (m.findBestFit alignedSize mode).1
        (m.findBestFit alignedSize mode).2 entry fb := by
  rcases scanHeaps_spec alignedSize mode 0 m.heaps {} with h | ⟨i, entry, fb, hi, hm, hh, hb, hr⟩
  · left
    show (scanHeaps alignedSize mode 0 m.heaps {}).heap = SIZE_MAX
    rw [h]
  · rw [Nat.zero_add] at hh
    exact .inr ⟨entry, fb, by rw [← hi, ← hh]; rfl, hm, hb, hr⟩

/-! ### Regions of a heap -/

/-- A tiling of a heap in whole pages. -/
structure Regions (L : List Span) (capacity : ℕ) : Prop extends Tiles L capacity where
  pages : ∀ x ∈ L, kGPUPageSize ∣ x.offset ∧ kGPUPageSize ∣ x.size

namespace Regions

variable {L M : List Span} {n k : ℕ}

theorem perm (h : Regions L n) (hp : L.Perm M) : Regions M n :=
  { h.toTiles.perm hp with pages := fun x hx => h.pages x (hp.mem_iff.mpr hx) }

theorem whole (hn : 0 < n) (hd : kGPUPageSize ∣ n) : Regions [⟨0, n⟩] n :=
  { tiles_whole hn with pages := by simpa using hd }

/-- Cutting `k` bytes off the front of a free block. -/
theorem split {x : Span} (h : Regions (x :: L) n) (hk : 0 < k) (hkx : k < x.size)
    (hd : kGPUPageSize ∣ k) :
    Regions (⟨x.offset + k, x.size - k⟩ :: ⟨x.offset, k⟩ :: L) n where
  toTiles := h.toTiles.split hk hkx
  pages y hy := by
    obtain ⟨ho, hs⟩ := h.pages x (by simp)
    simp only [List.mem_cons] at hy
    rcases hy with rfl | rfl | hy
    · exact ⟨Nat.dvd_add ho hd, Nat.dvd_sub hs hd⟩
    · exact ⟨ho, hd⟩
    · exact h.pages y (by simp [hy])

theorem merge {x y : Span} (h : Regions (x :: y :: L) n) (hxy : x.Touches y) :
    Regions (⟨x.offset, x.size + y.size⟩ :: L) n where
  toTiles := h.toTiles.merge hxy
  pages z hz := by
    obtain ⟨hxo, hxs⟩ := h.pages x (by simp)
    obtain ⟨-, hys⟩ := h.pages y (by simp)
    rcases List.mem_cons.mp hz with rfl | hz
    · exact ⟨hxo, Nat.dvd_add hxs hys⟩
    · exact h.pages z (by simp [hz])

end Regions

variable {entry : HeapEntry} {fb : FreeBlock}

/-- Taking `size` bytes of a free block turns them into a region of their own. -/
theorem takeBlock_regions {bi : ℕ} {size n : ℕ}
    {spans : List Span} (h : Regions (entry.freeBlocks ++ spans) n)
    (hb : entry.freeBlocks[bi]? = some fb) (hpos : 0 < size) (hroom : size ≤ fb.size)
    (hd : kGPUPageSize ∣ size) :
    Regions ((takeBlock entry bi fb size).freeBlocks ++ ⟨fb.offset, size⟩ :: spans) n := by
  obtain ⟨hlt, rfl⟩ := List.getElem?_eq_some_iff.mp hb
  set fb := entry.freeBlocks[bi] with hfb
  set others := entry.freeBlocks.eraseIdx bi with hothers
  have hold : (entry.freeBlocks ++ spans).Perm (fb :: (others ++ spans)) :=
    (List.getElem_cons_eraseIdx_perm hlt).symm.append_right spans
  have hcut := h.perm hold
  unfold takeBlock
  split_ifs with hmore
  · refine (hcut.split hpos hmore hd).perm ?_
    have hset := (List.set_perm_cons_eraseIdx hlt
      (⟨fb.offset + size, fb.size - size⟩ : FreeBlock)).symm.append_right
        (⟨fb.offset, size⟩ :: spans)
    refine List.Perm.trans ?_ hset
    exact (List.perm_middle.symm).cons _
  · -- an exact fit: the block itself becomes the region
    have hsize : fb = ⟨fb.offset, size⟩ := by
      have : fb.size = size := by omega
      rw [← this]
    rw [hsize] at hcut
    exact hcut.perm List.perm_middle.symm

/-! ### Coalescing -/

variable {L M : List FreeBlock}

/-- The merge pass neither loses nor invents a byte. -/
theorem mergePass_regions {prev : FreeBlock} {n : ℕ}
    (h : Regions (prev :: L ++ M) n) : Regions (mergePass prev L ++ M) n := by
  induction L generalizing prev M with
  | nil => exact h
  | cons curr rest ih =>
    unfold mergePass
    split_ifs with htouch
    · exact ih (Regions.merge h htouch)
    · -- `prev` is emitted: carry it among the regions that stay put
      have hmove : (prev :: (curr :: rest) ++ M).Perm (curr :: rest ++ prev :: M) :=
        List.perm_middle.symm
      exact (ih (h.perm hmove)).perm List.perm_middle

/-- The first block of the pass starts where `prev` does. -/
theorem mergePass_head (prev : FreeBlock) (L : List FreeBlock) :
    ∃ size rest, mergePass prev L = ⟨prev.offset, size⟩ :: rest := by
  induction L generalizing prev with
  | nil => exact ⟨prev.size, [], rfl⟩
  | cons curr rest ih =>
    unfold mergePass
    split_ifs with htouch
    · exact ih ⟨prev.offset, prev.size + curr.size⟩
    · exact ⟨prev.size, _, rfl⟩

/-- On sorted disjoint blocks the pass leaves no two neighbours that touch. -/
theorem mergePass_coalesced {prev : FreeBlock} {n : ℕ}
    (h : Tiles (prev :: L ++ M) n) (hs : (prev :: L).Pairwise (fun a b => a.offset ≤ b.offset)) :
    Coalesced (mergePass prev L) := by
  induction L generalizing prev M with
  | nil => exact List.isChain_singleton _
  | cons curr rest ih =>
    obtain ⟨hprev, hrest⟩ := List.pairwise_cons.mp hs
    unfold mergePass
    split_ifs with htouch
    · refine ih (h.merge htouch) (List.pairwise_cons.mpr ⟨fun b hb => ?_, hrest.of_cons⟩)
      exact hprev b (by simp [hb])
    · have htail : Coalesced (mergePass curr rest) :=
        ih (h.perm (List.perm_middle.symm : (prev :: (curr :: rest) ++ M).Perm _)) hrest
      obtain ⟨size, tail, hhead⟩ := mergePass_head curr rest
      rw [hhead] at htail ⊢
      refine List.IsChain.cons_cons ?_ htail
      -- sorted and sharing no point, `prev` ends strictly before `curr`
      have hle := hprev curr (by simp)
      have hpos := h.pos prev (by simp)
      have hcpos := h.pos curr (by simp)
      have hdisj : prev.Disjoint curr := (List.pairwise_cons.mp h.disjoint).1 curr (by simp)
      have hapart := hdisj curr.offset
      simp only [Span.Has] at hapart
      show prev.offset + prev.size < curr.offset
      omega

theorem coalesceBlocks_regions {n : ℕ} (h : Regions (L ++ M) n) :
    Regions (coalesceBlocks L ++ M) n := by
  unfold coalesceBlocks
  split_ifs with hshort
  · exact h
  · have hsort := h.perm ((List.perm_insertionSort (fun a b : FreeBlock => a.offset ≤ b.offset)
      L).symm.append_right M)
    split
    · rename_i hnil
      rwa [hnil] at hsort
    · rename_i first rest hcons
      rw [hcons] at hsort
      exact mergePass_regions hsort

/-- After coalescing, the free list is sorted and no two neighbours touch. -/
theorem coalesceBlocks_coalesced {n : ℕ} (h : Tiles (L ++ M) n) :
    Coalesced (coalesceBlocks L) := by
  unfold coalesceBlocks
  split_ifs with hshort
  · match L, hshort with
    | [], _ => exact List.isChain_nil
    | [x], _ => exact List.isChain_singleton x
  · have hsort := h.perm ((List.perm_insertionSort (fun a b : FreeBlock => a.offset ≤ b.offset)
      L).symm.append_right M)
    have : IsTrans FreeBlock (fun a b => a.offset ≤ b.offset) := ⟨fun _ _ _ => le_trans⟩
    have : Std.Total (fun a b : FreeBlock => a.offset ≤ b.offset) := ⟨fun _ _ => le_total _ _⟩
    have hpair := List.pairwise_insertionSort (fun a b : FreeBlock => a.offset ≤ b.offset) L
    split
    · exact List.isChain_nil
    · rename_i first rest hcons
      rw [hcons] at hsort hpair
      exact mergePass_coalesced hsort hpair

/-! ### What `allocate` does -/

/-- The entry of a heap just created. -/
def newEntry (heap : ObjId) (capacity : ℕ) (mode : StorageMode) : HeapEntry :=
  { heap, capacity, mode, freeBlocks := [⟨0, capacity⟩], allocCount := 0 }

/-- The manager once Metal has created a heap. -/
def HeapManager.addHeap (m : HeapManager) (capacity : ℕ) (mode : StorageMode) : HeapManager :=
  { m with
    heaps := m.heaps ++ [newEntry m.nextObject capacity mode]
    totalHeapBytes := m.totalHeapBytes + UInt64.ofNat capacity
    nextObject := m.nextObject + 1 }

/-- The only block of a new heap fits what the heap was made for. -/
theorem Fits.addHeap (m : HeapManager) {size capacity : ℕ} (mode : StorageMode)
    (hroom : size ≤ capacity) : Fits (m.addHeap capacity mode) size mode m.heaps.length 0
      (newEntry m.nextObject capacity mode) ⟨0, capacity⟩ where
  entry_at := by
    show (m.heaps ++ [newEntry m.nextObject capacity mode])[m.heaps.length]? = _
    rw [List.getElem?_append_right le_rfl, Nat.sub_self]
    rfl
  mode_eq := rfl
  block_at := rfl
  room := hroom

/-- The block chosen fits, in the manager itself or after adding a heap; when Metal refuses the
    heap the call throws and nothing changes. -/
theorem chooseBlock_cases (dev : MTLDevice) (m : HeapManager) {size : ℕ} (mode : StorageMode)
    (hle : size ≤ 2 ^ 63) (hd : kGPUPageSize ∣ size) :
    (∃ hi bi entry fb, Fits m size mode hi bi entry fb ∧
      m.chooseBlock dev size mode = (.ok (hi, bi), m)) ∨
    (∃ e, m.chooseBlock dev size mode = (.error e, { m with nextObject := m.nextObject + 1 })) ∨
    ∃ entry fb, Fits (m.addHeap (heapSizeForAlloc size) mode) size mode m.heaps.length 0 entry fb ∧
      m.chooseBlock dev size mode
        = (.ok (m.heaps.length, 0), m.addHeap (heapSizeForAlloc size) mode) := by
  have hfit := findBestFit_spec m size mode
  unfold HeapManager.chooseBlock
  dsimp only
  split_ifs with hnone
  · -- no block fits: a heap is created
    unfold HeapManager.createHeap
    dsimp only
    by_cases hdev : dev.newHeap m.nextObject (heapSizeForAlloc size) mode = true
    · rw [if_pos hdev]
      exact .inr (.inr ⟨_, _, Fits.addHeap m mode (heapSizeForAlloc_spec hle hd).1, rfl⟩)
    · rw [if_neg hdev]
      exact .inr (.inl ⟨_, rfl⟩)
  · obtain ⟨entry, fb, hf⟩ := hfit.resolve_left hnone
    exact .inl ⟨_, _, entry, fb, hf, rfl⟩

/-- Once the chosen block fits, `allocate` carves from it. -/
theorem allocate_of_choose {dev : MTLDevice} {m m₁ : HeapManager} {size hi bi : ℕ}
    {mode : StorageMode} (hpos : 0 < size)
    (hc : m.chooseBlock dev (alignToPage size) mode = (.ok (hi, bi), m₁))
    (hf : Fits m₁ (alignToPage size) mode hi bi entry fb) :
    m.allocate dev size mode = m₁.subAllocate dev hi bi (alignToPage size) entry fb := by
  unfold HeapManager.allocate
  rw [if_neg (Nat.pos_iff_ne_zero.mp hpos)]
  dsimp only
  rw [hc]
  dsimp only
  rw [hf.entry_at]
  dsimp only
  rw [hf.block_at]

/-- The entry after a block has been carved from it. -/
def handOut (entry : HeapEntry) (bi : ℕ) (fb : FreeBlock) (size : ℕ) : HeapEntry :=
  { takeBlock entry bi fb size with allocCount := (takeBlock entry bi fb size).allocCount + 1 }

/-- Only the free list and the count of the entry change. -/
theorem takeBlock_fixed (entry : HeapEntry) (bi : ℕ) (fb : FreeBlock) (size : ℕ) :
    (takeBlock entry bi fb size).heap = entry.heap ∧
    (takeBlock entry bi fb size).capacity = entry.capacity ∧
    (takeBlock entry bi fb size).mode = entry.mode ∧
    (takeBlock entry bi fb size).allocCount = entry.allocCount := by
  unfold takeBlock
  split_ifs
  · exact ⟨rfl, rfl, rfl, rfl⟩
  · exact ⟨rfl, rfl, rfl, rfl⟩

/-- A sub-allocation that Metal grants. -/
theorem subAllocate_ok {dev : MTLDevice} {m m' : HeapManager} {hi bi size : ℕ}
    {b : HeapBlock}
    (h : m.subAllocate dev hi bi size entry fb = (.ok b, m')) :
    b = ⟨fb.offset, size, hi, some m.nextObject, some entry.heap⟩ ∧
    m' = { m with
      heaps := m.heaps.set hi (handOut entry bi fb size)
      allocatedBytes := m.allocatedBytes + UInt64.ofNat size
      allocationCount := m.allocationCount + 1
      nextObject := m.nextObject + 1 } := by
  unfold HeapManager.subAllocate at h
  dsimp only at h
  split at h
  · simp only [Prod.mk.injEq, Except.ok.injEq] at h
    exact ⟨by rw [← h.1, (takeBlock_fixed entry bi fb size).1], h.2.symm⟩
  · simp at h

/-- Metal refuses a sub-allocation only when the device does. -/
theorem subAllocate_error {dev : MTLDevice} {m m' : HeapManager} {hi bi size : ℕ}
    {e : MNException}
    (h : m.subAllocate dev hi bi size entry fb = (.error e, m')) :
    dev.newBuffer m.nextObject entry.capacity size fb.offset = false := by
  unfold HeapManager.subAllocate at h
  dsimp only at h
  rw [(takeBlock_fixed entry bi fb size).2.1] at h
  split at h
  · simp at h
  · rename_i hdev
    simpa using hdev

end MetalNative
