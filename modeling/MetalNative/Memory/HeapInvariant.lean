import MetalNative.Memory.HeapLayout
import MetalNative.Lib.Keyed

namespace MetalNative

open Span HeapEntry List

/-!
# The invariant of `HeapManager`

`HeapInv m blocks` says that the blocks handed out and not yet returned are accounted for: in
every heap the free blocks and the blocks carved from it tile `[0, capacity)` in whole pages,
`alloc_count` counts them, and a block's `heapIndex` designates the heap it was carved from.

* `HeapInv.allocate`, `HeapInv.allocate_error` — what a call that returns or throws leaves.
* `HeapInv.deallocate` — the block goes back and the free list is coalesced.
* `HeapInv.stats_balance` — allocated and available bytes make up the heaps.
-/

/-! ### The invariant -/

/-- The blocks carved from heap `heap`. -/
def owned (blocks : List HeapBlock) (heap : ObjId) : List HeapBlock :=
  blocks.filter (fun b => decide (b.heap = some heap))

/-- The regions of an entry: its free blocks and the blocks carved from it. -/
def HeapEntry.regions (entry : HeapEntry) (blocks : List HeapBlock) : List Span :=
  entry.freeBlocks ++ (owned blocks entry.heap).map HeapBlock.span

/-- The block's `heapIndex` is the position of the heap the block was carved from. -/
def Designates (heaps : List HeapEntry) (b : HeapBlock) : Prop :=
  ∃ entry, heaps[b.heapIndex]? = some entry ∧ b.heap = some entry.heap

/-- What holds of one heap when `blocks` are handed out. -/
structure EntryInv (blocks : List HeapBlock) (entry : HeapEntry) : Prop where
  tiled : Regions (entry.regions blocks) entry.capacity
  count : entry.allocCount = UInt64.ofNat (owned blocks entry.heap).length
  whole : owned blocks entry.heap = [] → entry.freeBlocks = [⟨0, entry.capacity⟩]
  capacity_lt : entry.capacity < sizeTRange

/-- What holds of the manager when `blocks` are handed out. -/
structure HeapInv (m : HeapManager) (blocks : List HeapBlock) : Prop where
  entries : ∀ entry ∈ m.heaps, EntryInv blocks entry
  distinct : Keyed.Distinct HeapEntry.heap m.heaps
  fresh : ∀ entry ∈ m.heaps, entry.heap < m.nextObject
  designates : ∀ b ∈ blocks, Designates m.heaps b
  buffers : (blocks.map HeapBlock.buffer).Nodup
  buffer_fresh : ∀ b ∈ blocks, ∃ buffer < m.nextObject, b.buffer = some buffer
  total : m.totalHeapBytes = UInt64.ofNat (m.heaps.map HeapEntry.capacity).sum
  allocated : m.allocatedBytes = UInt64.ofNat (blocks.map HeapBlock.size).sum

section Owned

variable {blocks blocks' : List HeapBlock} {b : HeapBlock} {heap : ObjId} {entry : HeapEntry}

theorem mem_owned : b ∈ owned blocks heap ↔ b ∈ blocks ∧ b.heap = some heap := by
  simp [owned]

theorem owned_cons_self (h : b.heap = some heap) :
    owned (b :: blocks) heap = b :: owned blocks heap := by
  simp [owned, h]

theorem owned_cons_ne (h : b.heap ≠ some heap) : owned (b :: blocks) heap = owned blocks heap := by
  simp [owned, h]

theorem owned_eq_nil_of_fresh (h : ∀ b ∈ blocks, b.heap ≠ some heap) :
    owned blocks heap = [] := by
  rw [eq_nil_iff_forall_not_mem]
  intro b hb
  exact h b (mem_owned.mp hb).1 (mem_owned.mp hb).2

theorem EntryInv.perm (h : EntryInv blocks entry) (hp : blocks.Perm blocks') :
    EntryInv blocks' entry := by
  have howned : (owned blocks entry.heap).Perm (owned blocks' entry.heap) := hp.filter _
  refine ⟨h.tiled.perm ((howned.map _).append_left _), ?_, fun hnil => h.whole ?_, h.capacity_lt⟩
  · rw [h.count, howned.length_eq]
  · exact perm_nil.mp (hnil ▸ howned)

/-- Only the blocks carved from a heap matter for it. -/
theorem EntryInv.congr (h : EntryInv blocks entry)
    (ho : owned blocks' entry.heap = owned blocks entry.heap) : EntryInv blocks' entry := by
  refine ⟨?_, ?_, ?_, h.capacity_lt⟩
  · unfold regions
    rw [ho]
    exact h.tiled
  · rw [ho, h.count]
  · rw [ho]
    exact h.whole

/-- No heap holds so many blocks that `alloc_count` wraps: every block has a byte of its own. -/
theorem EntryInv.owned_lt (h : EntryInv blocks entry) :
    (owned blocks entry.heap).length < sizeTRange := by
  have hsum := h.tiled.sum_size
  have hlen : ∀ L : List Span, (∀ x ∈ L, 0 < x.size) → L.length ≤ (L.map Span.size).sum := by
    intro L hL
    induction L with
    | nil => simp
    | cons x L ih =>
      have hx := hL x (by simp)
      have := ih fun y hy => hL y (by simp [hy])
      simp only [length_cons, map_cons, sum_cons]
      omega
  have hle := hlen _ h.tiled.pos
  rw [hsum] at hle
  simp only [regions, length_append, length_map] at hle
  have := h.capacity_lt
  omega

theorem EntryInv.count_toNat (h : EntryInv blocks entry) :
    entry.allocCount.toNat = (owned blocks entry.heap).length := by
  rw [h.count]
  exact UInt64.toNat_ofNat_of_lt' h.owned_lt

/-- A heap counts no blocks exactly when none was carved from it. -/
theorem EntryInv.count_eq_zero (h : EntryInv blocks entry) :
    entry.allocCount = 0 ↔ owned blocks entry.heap = [] := by
  rw [← UInt64.toNat_inj, h.count_toNat]
  exact length_eq_zero_iff

end Owned

section Designates

variable {heaps : List HeapEntry} {b : HeapBlock} {i : ℕ} {entry entry' : HeapEntry}

theorem designates_iff : Designates heaps b ↔
    (heaps.map HeapEntry.heap)[b.heapIndex]? = b.heap ∧ b.heap ≠ none := by
  unfold Designates
  rw [getElem?_map]
  constructor
  · rintro ⟨entry, hi, hb⟩
    rw [hi, hb]
    exact ⟨rfl, Option.some_ne_none _⟩
  · rintro ⟨hi, hb⟩
    cases he : heaps[b.heapIndex]? with
    | none => rw [he] at hi; exact absurd hi.symm hb
    | some entry => rw [he] at hi; exact ⟨entry, rfl, hi.symm⟩

/-- Only the identities of the heaps matter for where a block points. -/
theorem Designates.congr {heaps' : List HeapEntry} (h : Designates heaps b)
    (hm : heaps'.map HeapEntry.heap = heaps.map HeapEntry.heap) : Designates heaps' b := by
  rw [designates_iff] at h ⊢
  rwa [hm]

theorem Designates.append (h : Designates heaps b) (more : List HeapEntry) :
    Designates (heaps ++ more) b := by
  obtain ⟨entry, hi, hb⟩ := h
  exact ⟨entry, by rw [List.getElem?_append_left (List.getElem?_eq_some_iff.mp hi).1, hi], hb⟩

theorem map_heap_set (hi : heaps[i]? = some entry) (hkey : entry'.heap = entry.heap) :
    (heaps.set i entry').map HeapEntry.heap = heaps.map HeapEntry.heap := by
  obtain ⟨hlt, rfl⟩ := List.getElem?_eq_some_iff.mp hi
  rw [map_set, hkey, ← getElem_map heap (h := by simpa using hlt)]
  exact set_getElem_self _

theorem map_capacity_set (hi : heaps[i]? = some entry) (hcap : entry'.capacity = entry.capacity) :
    (heaps.set i entry').map capacity = heaps.map capacity := by
  obtain ⟨hlt, rfl⟩ := List.getElem?_eq_some_iff.mp hi
  rw [map_set, hcap, ← getElem_map capacity (h := by simpa using hlt)]
  exact set_getElem_self _

end Designates

/-! ### The operations keep the invariant -/

namespace HeapInv

variable {dev : MTLDevice} {m m' : HeapManager} {blocks blocks' : List HeapBlock} {b : HeapBlock}

/-- The order in which the blocks are listed does not matter. -/
theorem perm (h : HeapInv m blocks) (hp : blocks.Perm blocks') : HeapInv m blocks' where
  entries entry he := (h.entries entry he).perm hp
  distinct := h.distinct
  fresh := h.fresh
  designates b hb := h.designates b (hp.mem_iff.mpr hb)
  buffers := (hp.map _).nodup_iff.mp h.buffers
  buffer_fresh b hb := h.buffer_fresh b (hp.mem_iff.mpr hb)
  total := h.total
  allocated := by rw [h.allocated, (hp.map HeapBlock.size).sum_eq]

/-- The manager before the first call. -/
theorem init (nextObject : ObjId) : HeapInv { nextObject } [] where
  entries entry he := by simp at he
  distinct := nodup_nil
  fresh entry he := by simp at he
  designates b hb := by simp at hb
  buffers := nodup_nil
  buffer_fresh b hb := by simp at hb
  total := rfl
  allocated := rfl

/-- Minting further Metal objects is harmless. -/
theorem mint (h : HeapInv m blocks) {next : ObjId} (hn : m.nextObject ≤ next) :
    HeapInv { m with nextObject := next } blocks where
  entries := h.entries
  distinct := h.distinct
  fresh entry he := lt_of_lt_of_le (h.fresh entry he) hn
  designates := h.designates
  buffers := h.buffers
  buffer_fresh b hb := by
    obtain ⟨buffer, hlt, hb⟩ := h.buffer_fresh b hb
    exact ⟨buffer, lt_of_lt_of_le hlt hn, hb⟩
  total := h.total
  allocated := h.allocated

/-- A block names a heap of the manager. -/
theorem heap_of_mem (h : HeapInv m blocks) (hb : b ∈ blocks) :
    ∃ entry ∈ m.heaps, b.heap = some entry.heap := by
  obtain ⟨entry, hi, hheap⟩ := h.designates b hb
  exact ⟨entry, mem_of_getElem? hi, hheap⟩

/-- Storing an entry for heap `i` that accounts for a change of its own blocks only. -/
theorem entries_set (h : HeapInv m blocks) {i : ℕ} {entry entry' : HeapEntry}
    (hi : m.heaps[i]? = some entry) (hinv : EntryInv blocks' entry')
    (hother : ∀ heap, heap ≠ entry.heap → owned blocks' heap = owned blocks heap) :
    ∀ x ∈ m.heaps.set i entry', EntryInv blocks' x := by
  intro x hx
  rcases h.distinct.mem_set hi hx with rfl | ⟨hmem, hne⟩
  · exact hinv
  · exact (h.entries x hmem).congr (hother _ hne)

/-- A new heap starts as one free block. -/
theorem addHeap (h : HeapInv m blocks) {capacity : ℕ} (mode : StorageMode) (hpos : 0 < capacity)
    (hlt : capacity < sizeTRange) (hd : kGPUPageSize ∣ capacity) :
    HeapInv (m.addHeap capacity mode) blocks where
  entries entry he := by
    rcases List.mem_append.mp he with he | he
    · exact h.entries entry he
    · obtain rfl := List.mem_singleton.mp he
      have hnil : owned blocks m.nextObject = [] := by
        refine owned_eq_nil_of_fresh fun b hb hheap => ?_
        obtain ⟨entry, hmem, hentry⟩ := h.heap_of_mem hb
        have hfresh := h.fresh entry hmem
        rw [hheap, Option.some.injEq] at hentry
        exact Nat.lt_irrefl _ (hentry ▸ hfresh)
      refine ⟨?_, ?_, fun _ => rfl, hlt⟩
      · show Regions ([⟨0, capacity⟩] ++ (owned blocks m.nextObject).map HeapBlock.span) capacity
        rw [hnil]
        exact Regions.whole hpos hd
      · show (0 : UInt64) = UInt64.ofNat (owned blocks m.nextObject).length
        rw [hnil]
        rfl
  distinct := by
    unfold Keyed.Distinct
    show ((m.heaps ++ [newEntry m.nextObject capacity mode]).map HeapEntry.heap).Nodup
    rw [List.map_append, List.nodup_append]
    refine ⟨h.distinct, List.nodup_singleton _, fun x hx y hy => ?_⟩
    obtain ⟨entry, he, rfl⟩ := List.mem_map.mp hx
    obtain rfl := List.mem_singleton.mp hy
    exact Nat.ne_of_lt (h.fresh entry he)
  fresh entry he := by
    rcases List.mem_append.mp he with he | he
    · exact Nat.lt_succ_of_lt (h.fresh entry he)
    · obtain rfl := List.mem_singleton.mp he
      exact Nat.lt_succ_self _
  designates b hb := (h.designates b hb).append _
  buffers := h.buffers
  buffer_fresh := (h.mint (Nat.le_succ m.nextObject)).buffer_fresh
  total := by
    show m.totalHeapBytes + UInt64.ofNat capacity
      = UInt64.ofNat ((m.heaps ++ [newEntry m.nextObject capacity mode]).map
          HeapEntry.capacity).sum
    rw [h.total, List.map_append, List.sum_append, ← UInt64.ofNat_add]
    rfl
  allocated := h.allocated

/-- A granted sub-allocation of whole pages adds its block. -/
theorem subAllocate (h : HeapInv m blocks) {size hi bi : ℕ} {mode : StorageMode}
    {entry : HeapEntry} {fb : FreeBlock} (hf : Fits m size mode hi bi entry fb) (hpos : 0 < size)
    (hd : kGPUPageSize ∣ size) (hok : m.subAllocate dev hi bi size entry fb = (.ok b, m')) :
    HeapInv m' (b :: blocks) := by
  obtain ⟨rfl, rfl⟩ := subAllocate_ok hok
  set b : HeapBlock := ⟨fb.offset, size, hi, some m.nextObject, some entry.heap⟩ with hb
  have hmem : entry ∈ m.heaps := mem_of_getElem? hf.entry_at
  have hold := h.entries entry hmem
  have howned : owned (b :: blocks) entry.heap = b :: owned blocks entry.heap :=
    owned_cons_self rfl
  obtain ⟨hkey, hcap, -, hcount⟩ := takeBlock_fixed entry bi fb size
  set entry' := handOut entry bi fb size with hentry'
  replace hkey : entry'.heap = entry.heap := hkey
  replace hcap : entry'.capacity = entry.capacity := hcap
  have hnew : EntryInv (b :: blocks) entry' := by
    refine ⟨?_, ?_, fun hnil => ?_, by rw [hcap]; exact hold.capacity_lt⟩
    · unfold regions
      rw [hkey, howned, hcap]
      exact takeBlock_regions hold.tiled hf.block_at hpos hf.room hd
    · rw [hkey, howned, length_cons, UInt64.ofNat_add, ← hold.count, ← hcount]
      rfl
    · rw [hkey, howned] at hnil
      cases hnil
  refine
    { entries := h.entries_set hf.entry_at hnew fun heap hne => owned_cons_ne ?_
      distinct := h.distinct.set hf.entry_at hkey
      fresh := fun x hx => ?_
      designates := fun x hx => ?_
      buffers := ?_
      buffer_fresh := fun x hx => ?_
      total := ?_
      allocated := ?_ }
  · intro heq
    exact hne (Option.some.inj heq).symm
  · have hlt : x.heap < m.nextObject := by
      rcases h.distinct.mem_set hf.entry_at hx with rfl | ⟨hx, -⟩
      · rw [hkey]
        exact h.fresh entry hmem
      · exact h.fresh x hx
    exact Nat.lt_succ_of_lt hlt
  · have hmap := map_heap_set hf.entry_at hkey
    rcases mem_cons.mp hx with rfl | hx
    · exact Designates.congr ⟨entry, hf.entry_at, rfl⟩ hmap
    · exact (h.designates x hx).congr hmap
  · -- the new buffer was minted after all the others
    refine nodup_cons.mpr ⟨fun hbuf => ?_, h.buffers⟩
    obtain ⟨x, hx, hxb⟩ := mem_map.mp hbuf
    obtain ⟨buffer, hlt, hbuffer⟩ := h.buffer_fresh x hx
    rw [hbuffer, Option.some.injEq] at hxb
    exact Nat.lt_irrefl _ (hxb ▸ hlt)
  · rcases mem_cons.mp hx with rfl | hx
    · exact ⟨m.nextObject, Nat.lt_succ_self _, rfl⟩
    · obtain ⟨buffer, hlt, hbuffer⟩ := h.buffer_fresh x hx
      exact ⟨buffer, Nat.lt_succ_of_lt hlt, hbuffer⟩
  · show m.totalHeapBytes = UInt64.ofNat ((m.heaps.set hi entry').map HeapEntry.capacity).sum
    rw [map_capacity_set hf.entry_at hcap, h.total]
  · show m.allocatedBytes + UInt64.ofNat size
      = UInt64.ofNat (size + (blocks.map HeapBlock.size).sum)
    rw [h.allocated, UInt64.ofNat_add, UInt64.add_comm]

/-- **`allocate`** adds the block it returns: as large as the request, in a heap of its mode. -/
theorem allocate (h : HeapInv m blocks) {size : ℕ} {mode : StorageMode} (hpos : 0 < size)
    (hle : size ≤ 2 ^ 63) (hok : m.allocate dev size mode = (.ok b, m')) :
    HeapInv m' (b :: blocks) ∧ b.size = alignToPage size ∧
      ∃ entry ∈ m'.heaps, b.heap = some entry.heap ∧ entry.mode = mode := by
  obtain ⟨hge, hle', hd⟩ := alignToPage_spec hle
  have hpos' : 0 < alignToPage size := lt_of_lt_of_le hpos hge
  -- whichever manager the block is carved from, carving it gives the result
  have carve : ∀ {m₁ : HeapManager} {hi bi entry fb}, HeapInv m₁ blocks →
      m.chooseBlock dev (alignToPage size) mode = (.ok (hi, bi), m₁) →
      Fits m₁ (alignToPage size) mode hi bi entry fb →
      HeapInv m' (b :: blocks) ∧ b.size = alignToPage size ∧
        ∃ entry ∈ m'.heaps, b.heap = some entry.heap ∧ entry.mode = mode := by
    intro m₁ hi bi entry fb h₁ hc hf
    rw [allocate_of_choose hpos hc hf] at hok
    refine ⟨h₁.subAllocate hf hpos' hd hok, ?_⟩
    obtain ⟨rfl, rfl⟩ := subAllocate_ok hok
    obtain ⟨hkey, -, hmode, -⟩ := takeBlock_fixed entry bi fb (alignToPage size)
    refine ⟨rfl, handOut entry bi fb (alignToPage size), ?_, ?_, ?_⟩
    · exact List.mem_set (List.getElem?_eq_some_iff.mp hf.entry_at).1 _
    · exact congrArg some hkey.symm
    · exact hmode.trans hf.mode_eq
  rcases chooseBlock_cases dev m mode hle' hd with
    ⟨hi, bi, entry, fb, hf, hc⟩ | ⟨e, hc⟩ | ⟨entry, fb, hf, hc⟩
  · exact carve h hc hf
  · unfold HeapManager.allocate at hok
    rw [if_neg (Nat.pos_iff_ne_zero.mp hpos)] at hok
    simp [hc] at hok
  · obtain ⟨-, hcpos, hclt, hcd⟩ := heapSizeForAlloc_spec hle' hd
    exact carve (h.addHeap mode hcpos hclt hcd) hc hf

end HeapInv

/-- Metal creates every buffer inside its heap that the next `allocate` can ask for. -/
def MTLDevice.Grants (dev : MTLDevice) (m : HeapManager) : Prop :=
  ∀ serial capacity length offset, m.nextObject ≤ serial → serial ≤ m.nextObject + 1 →
    offset + length ≤ capacity → dev.newBuffer serial capacity length offset = true

namespace HeapInv

variable {dev : MTLDevice} {m m' : HeapManager} {blocks blocks' : List HeapBlock} {b : HeapBlock}

/-- While Metal grants buffers, a failing `allocate` has only been refused a heap. -/
theorem allocate_error (h : HeapInv m blocks) {size : ℕ} {mode : StorageMode} {e : MNException}
    (hpos : 0 < size) (hle : size ≤ 2 ^ 63) (hg : dev.Grants m)
    (herr : m.allocate dev size mode = (.error e, m')) :
    m' = { m with nextObject := m.nextObject + 1 } := by
  obtain ⟨hge, hle', hd⟩ := alignToPage_spec hle
  -- a carving that fails was refused an in-bounds buffer
  have carve : ∀ {m₁ : HeapManager} {hi bi entry fb}, HeapInv m₁ blocks →
      m.nextObject ≤ m₁.nextObject → m₁.nextObject ≤ m.nextObject + 1 →
      m.chooseBlock dev (alignToPage size) mode = (.ok (hi, bi), m₁) →
      ¬ Fits m₁ (alignToPage size) mode hi bi entry fb := by
    intro m₁ hi bi entry fb h₁ hlo hhi hc hf
    rw [allocate_of_choose hpos hc hf] at herr
    have hrefused := subAllocate_error herr
    have htiled := (h₁.entries entry (mem_of_getElem? hf.entry_at)).tiled
    have hend := htiled.end_le (mem_append_left _ (mem_of_getElem? hf.block_at))
    have hroom := hf.room
    rw [hg _ _ _ _ hlo hhi (by omega)] at hrefused
    cases hrefused
  rcases chooseBlock_cases dev m mode hle' hd with
    ⟨hi, bi, entry, fb, hf, hc⟩ | ⟨e, hc⟩ | ⟨entry, fb, hf, hc⟩
  · exact absurd hf (carve h le_rfl (Nat.le_succ _) hc)
  · unfold HeapManager.allocate at herr
    rw [if_neg (Nat.pos_iff_ne_zero.mp hpos)] at herr
    simp only [hc, Prod.mk.injEq] at herr
    exact herr.2.symm
  · obtain ⟨-, hcpos, hclt, hcd⟩ := heapSizeForAlloc_spec hle' hd
    exact absurd hf (carve (h.addHeap mode hcpos hclt hcd) (Nat.le_succ _) le_rfl hc)

/-- **`deallocate`** takes its block back and leaves the heap's free list coalesced. -/
theorem deallocate (h : HeapInv m (b :: blocks)) :
    ∃ cleared m' entry', m.deallocate b = (.ok cleared, m') ∧ HeapInv m' blocks ∧
      m'.heaps[b.heapIndex]? = some entry' ∧ b.heap = some entry'.heap ∧
      Coalesced entry'.freeBlocks ∧
      m'.heaps.map HeapEntry.heap = m.heaps.map HeapEntry.heap ∧
      m'.nextObject = m.nextObject := by
  obtain ⟨entry, hi, hheap⟩ := h.designates b (by simp)
  have hmem : entry ∈ m.heaps := mem_of_getElem? hi
  have hold := h.entries entry hmem
  have howned : owned (b :: blocks) entry.heap = b :: owned blocks entry.heap :=
    owned_cons_self hheap
  set free := entry.freeBlocks ++ [⟨b.offset, b.size⟩] with hfree
  set entry' : HeapEntry :=
    { entry with freeBlocks := coalesceBlocks free, allocCount := entry.allocCount - 1 }
    with hentry'
  -- the same regions, with the block on the free side
  have hregions : Regions (free ++ (owned blocks entry.heap).map HeapBlock.span)
      entry.capacity := by
    have := hold.tiled
    unfold regions at this
    rw [howned, map_cons] at this
    rw [hfree, append_assoc]
    exact this
  have hcoal : Coalesced (coalesceBlocks free) := coalesceBlocks_coalesced hregions.toTiles
  have hmerged := coalesceBlocks_regions hregions
  have hcpos : 0 < entry.capacity := by
    have hb : (⟨b.offset, b.size⟩ : Span) ∈ free ++ (owned blocks entry.heap).map HeapBlock.span :=
      mem_append_left _ (mem_append_right _ (mem_singleton.mpr rfl))
    have h1 := hregions.pos _ hb
    have h2 := hregions.end_le hb
    simp only at h1 h2
    omega
  have hnew : EntryInv blocks entry' := by
    refine ⟨hmerged, ?_, fun hnil => ?_, hold.capacity_lt⟩
    · show entry.allocCount - 1 = UInt64.ofNat (owned blocks entry.heap).length
      rw [hold.count, howned, length_cons, UInt64.ofNat_add]
      exact UInt64.add_sub_cancel _ _
    · replace hnil : owned blocks entry.heap = [] := hnil
      rw [hnil, map_nil, append_nil] at hmerged
      exact hmerged.toTiles.eq_whole hcpos hcoal
  have hmap : (m.heaps.set b.heapIndex entry').map HeapEntry.heap = m.heaps.map HeapEntry.heap :=
    map_heap_set hi rfl
  refine ⟨{ b with buffer := none, heap := none, offset := 0, size := 0 },
    { m with
      heaps := m.heaps.set b.heapIndex entry'
      allocatedBytes := m.allocatedBytes - UInt64.ofNat b.size
      allocationCount := m.allocationCount - 1 }, entry', ?_, ?_, ?_, hheap, hcoal, hmap, rfl⟩
  · unfold HeapManager.deallocate
    rw [hi]
    rfl
  · refine
      { entries := h.entries_set hi hnew fun heap hne => (owned_cons_ne ?_).symm
        distinct := h.distinct.set hi rfl
        fresh := fun x hx => ?_
        designates := fun x hx => (h.designates x (by simp [hx])).congr hmap
        buffers := (nodup_cons.mp h.buffers).2
        buffer_fresh := fun x hx => h.buffer_fresh x (by simp [hx])
        total := ?_
        allocated := ?_ }
    · rw [hheap]
      exact fun heq => hne (Option.some.inj heq).symm
    · rcases h.distinct.mem_set hi hx with rfl | ⟨hx, -⟩
      · exact h.fresh entry hmem
      · exact h.fresh x hx
    · have hcapacity : (m.heaps.set b.heapIndex entry').map capacity
          = m.heaps.map capacity := map_capacity_set hi rfl
      show m.totalHeapBytes = UInt64.ofNat ((m.heaps.set b.heapIndex entry').map _).sum
      rw [hcapacity, h.total]
    · show m.allocatedBytes - UInt64.ofNat b.size = _
      rw [h.allocated, map_cons, sum_cons, UInt64.ofNat_add, UInt64.add_comm]
      exact UInt64.add_sub_cancel _ _
  · exact List.getElem?_set_self (List.getElem?_eq_some_iff.mp hi).1

end HeapInv

/-! ### The byte counters -/

theorem sum_map_ofNat {α : Type*} (f : α → ℕ) (l : List α) :
    (l.map fun x => UInt64.ofNat (f x)).sum = UInt64.ofNat (l.map f).sum := by
  induction l with
  | nil => rfl
  | cons x l ih => rw [map_cons, sum_cons, ih, map_cons, sum_cons,
      UInt64.ofNat_add]

/-- Free and carved bytes add up over all heaps. -/
theorem HeapInv.sum_capacity {m : HeapManager} {blocks : List HeapBlock} (h : HeapInv m blocks) :
    ((m.heaps.flatMap HeapEntry.freeBlocks).map Span.size).sum + (blocks.map HeapBlock.size).sum
      = (m.heaps.map capacity).sum := by
  have hcap : m.heaps.map capacity = m.heaps.map fun entry =>
      (entry.freeBlocks.map Span.size).sum
        + ((owned blocks entry.heap).map HeapBlock.size).sum := by
    refine map_congr_left fun entry he => ?_
    have hsum := (h.entries entry he).tiled.sum_size
    rw [regions, map_append, sum_append, map_map] at hsum
    exact hsum.symm
  have hfibers := h.distinct.sum_fibers HeapBlock.heap HeapBlock.size
    fun b (hb : b ∈ blocks) => h.heap_of_mem hb
  have hfree : ((m.heaps.flatMap freeBlocks).map Span.size).sum
      = (m.heaps.map fun entry => (entry.freeBlocks.map Span.size).sum).sum := by
    rw [map_flatMap, flatMap, sum_flatten, map_map]
    rfl
  rw [hcap, sum_map_add, hfree, ← hfibers]
  rfl

/-- `stats` balances: allocated and available bytes make up the heaps, in `size_t` arithmetic. -/
theorem HeapInv.stats_balance {m : HeapManager} {blocks : List HeapBlock} (h : HeapInv m blocks) :
    m.stats.allocatedBytes + m.stats.availableBytes = m.stats.totalHeapBytes := by
  show m.allocatedBytes
      + ((m.heaps.flatMap HeapEntry.freeBlocks).map fun fb => UInt64.ofNat fb.size).sum
    = m.totalHeapBytes
  rw [h.allocated, h.total, sum_map_ofNat, ← UInt64.ofNat_add, Nat.add_comm]
  exact congrArg UInt64.ofNat h.sum_capacity

end MetalNative
