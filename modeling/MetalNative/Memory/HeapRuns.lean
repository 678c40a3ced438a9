import MetalNative.Memory.HeapInvariant
import MetalNative.Lib.Run

namespace MetalNative

open Run Span

/-!
# Runs of `HeapManager`

A client allocates and gives every block back at most once; `live` are the blocks it holds.
`FreeSpace` is what the manager owes the client in every state of a run.

* `heap_free_space` — the bookkeeping is exact along every run in which Metal creates the
  buffers it is asked for inside a heap.
* `refused_buffer_loses_region` — `allocate` splits the free block before it asks for the
  buffer, so when Metal refuses, the region belongs to nobody.
-/

/-- The manager and the blocks its client holds. -/
structure HeapState where
  mgr : HeapManager := {}
  live : List HeapBlock := []
  deriving DecidableEq, Repr

/-- A call of the client. -/
inductive HeapCall where
  | allocate (size : ℕ) (mode : StorageMode)
  | deallocate (block : HeapBlock)
  deriving DecidableEq, Repr

/-- One call.  Requests are positive and at most `2 ^ 62` bytes, and only blocks held are given
    back; a call that throws leaves the client with what it had. -/
def heapStep (dev : MTLDevice) (s : HeapState) : HeapCall → Option HeapState
  | .allocate size mode =>
    if 0 < size ∧ size ≤ 2 ^ 62 then
      match s.mgr.allocate dev size mode with
      | (.ok b, m) => some ⟨m, b :: s.live⟩
      | (.error _, m) => some ⟨m, s.live⟩
    else none
  | .deallocate b =>
    if b ∈ s.live then
      match s.mgr.deallocate b with
      | (.ok _, m) => some ⟨m, s.live.erase b⟩
      | (.error _, m) => some ⟨m, s.live⟩
    else none

/-- The free list of the heap a block was given back to, after the call. -/
def CoalescedAfter (s : HeapState) (b : HeapBlock) : Prop :=
  ∃ entry, s.mgr.heaps[b.heapIndex]? = some entry ∧ b.heap = some entry.heap ∧
    Coalesced entry.freeBlocks

/-- The manager's account of its heaps. -/
structure FreeSpace (dev : MTLDevice) (s : HeapState) : Prop where
  tiles : ∀ entry ∈ s.mgr.heaps, Tiles (entry.regions s.live) entry.capacity
  pages : ∀ entry ∈ s.mgr.heaps, ∀ r ∈ entry.regions s.live,
    kGPUPageSize ∣ r.offset ∧ kGPUPageSize ∣ r.size
  counted : ∀ entry ∈ s.mgr.heaps, entry.allocCount.toNat = (owned s.live entry.heap).length
  emptied : ∀ entry ∈ s.mgr.heaps, entry.allocCount = 0 →
    entry.freeBlocks = [⟨0, entry.capacity⟩]
  balanced : s.mgr.stats.allocatedBytes + s.mgr.stats.availableBytes = s.mgr.stats.totalHeapBytes
  placed : ∀ b ∈ s.live, Designates s.mgr.heaps b
  coalesced : ∀ b t, heapStep dev s (.deallocate b) = some t → CoalescedAfter t b
  served : ∀ size mode b m, 0 < size → size ≤ 2 ^ 62 →
    s.mgr.allocate dev size mode = (.ok b, m) →
    size ≤ b.size ∧ ∃ entry ∈ m.heaps, b.heap = some entry.heap ∧ entry.mode = mode

/-- The condition on a step: an allocation is not refused a buffer inside its heap. -/
def BufferGranted (dev : MTLDevice) (s : HeapState) : HeapCall → Prop
  | .allocate _ _ => dev.Grants s.mgr
  | .deallocate _ => True

section Step

variable {dev : MTLDevice} {s t : HeapState}

/-- Giving back a block held. -/
theorem heapStep_deallocate (h : HeapInv s.mgr s.live) {b : HeapBlock}
    (hs : heapStep dev s (.deallocate b) = some t) :
    HeapInv t.mgr t.live ∧ CoalescedAfter t b := by
  simp only [heapStep] at hs
  split_ifs at hs with hb
  obtain ⟨cleared, m', entry', hd, hinv, hi, hheap, hcoal, -, -⟩ :=
    (h.perm (List.perm_cons_erase hb)).deallocate
  rw [hd] at hs
  obtain rfl := Option.some.inj hs
  exact ⟨hinv, entry', hi, hheap, hcoal⟩

/-- **Step.**  Every call keeps the invariant when its buffer is granted. -/
theorem heapStep_inv (h : HeapInv s.mgr s.live) {c : HeapCall} (hg : BufferGranted dev s c)
    (hs : heapStep dev s c = some t) : HeapInv t.mgr t.live := by
  cases c with
  | allocate size mode =>
    simp only [heapStep] at hs
    split_ifs at hs with hsize
    have hle : size ≤ 2 ^ 63 := by omega
    rcases hr : s.mgr.allocate dev size mode with ⟨_ | b, m⟩
    · rw [hr] at hs
      obtain rfl := Option.some.inj hs
      rw [h.allocate_error hsize.1 hle hg hr]
      exact h.mint (Nat.le_succ _)
    · rw [hr] at hs
      obtain rfl := Option.some.inj hs
      exact (h.allocate hsize.1 hle hr).1
  | deallocate b => exact (heapStep_deallocate h hs).1

/-- The invariant gives the account. -/
theorem HeapInv.freeSpace (h : HeapInv s.mgr s.live) : FreeSpace dev s where
  tiles entry he := (h.entries entry he).tiled.toTiles
  pages entry he := (h.entries entry he).tiled.pages
  counted entry he := (h.entries entry he).count_toNat
  emptied entry he hzero :=
    (h.entries entry he).whole ((h.entries entry he).count_eq_zero.mp hzero)
  balanced := h.stats_balance
  placed := h.designates
  coalesced _ _ hs := (heapStep_deallocate h hs).2
  served size mode b m hpos hle hok := by
    have hle' : size ≤ 2 ^ 63 := by omega
    obtain ⟨-, hsize, hheap⟩ := h.allocate hpos hle' hok
    rw [hsize]
    exact ⟨(alignToPage_spec hle').1, hheap⟩

end Step

/-- **Free-space account.**  In every state of a run whose allocations are granted their
    buffers, the free and the live blocks tile every heap and the counters agree with them. -/
theorem heap_free_space (dev : MTLDevice) {s : HeapState}
    (hrun : Runs (heapStep dev) (BufferGranted dev) {} s) : FreeSpace dev s := by
  have hinv : HeapInv s.mgr s.live :=
    hrun.invariant (P := fun u => HeapInv u.mgr u.live) (HeapInv.init 0)
      fun _ _ _ hu hg hs => heapStep_inv hu hg hs
  exact hinv.freeSpace

/-- Metal creating whatever it is asked for. -/
def grantingDevice : MTLDevice := ⟨fun _ _ _ => true, fun _ _ _ _ => true⟩

/-- Two pages next to each other, the first given back. -/
def heapCalls : List HeapCall :=
  [.allocate 100 .Shared, .allocate 20000 .Shared, .deallocate ⟨0, 16384, 0, some 1, some 0⟩]

theorem heap_free_space_run :
    ∃ s, exec (heapStep grantingDevice) {} heapCalls = some s ∧ FreeSpace grantingDevice s := by
  have hgrants : ∀ s c, BufferGranted grantingDevice s c := by
    intro s c
    cases c with
    | allocate size mode => exact fun _ _ _ _ _ _ _ => rfl
    | deallocate b => trivial
  have hsome : (exec (heapStep grantingDevice) {} heapCalls).isSome = true := by decide
  obtain ⟨s, hs⟩ := Option.isSome_iff_exists.mp hsome
  exact ⟨s, hs, heap_free_space grantingDevice ((reaches_exec hs).mono fun u c _ => hgrants u c)⟩

/-- Metal refusing the first buffer of the heap it has just created. -/
def refusingDevice : MTLDevice := ⟨fun _ _ _ => true, fun serial _ _ _ => decide (serial ≠ 1)⟩

/-- What one refused allocation leaves: the first page is gone from the free list. -/
def refusedState : HeapState :=
  { mgr :=
      { heaps := [⟨0, 4194304, .Shared, [⟨16384, 4177920⟩], 0⟩]
        totalHeapBytes := 4194304
        nextObject := 2 }
    live := [] }

/-- After a refused buffer the first page of the heap is neither free nor live. -/
theorem refused_buffer_loses_region :
    exec (heapStep refusingDevice) {} [.allocate 16384 .Shared] = some refusedState ∧
      Reaches (heapStep refusingDevice) {} refusedState ∧
      ¬ FreeSpace refusingDevice refusedState := by
  have hexec : exec (heapStep refusingDevice) {} [.allocate 16384 .Shared] = some refusedState := by
    decide
  refine ⟨hexec, reaches_exec hexec, fun h => ?_⟩
  have hpoint := (h.tiles _ (List.mem_singleton.mpr rfl)).once 0
  revert hpoint
  decide

end MetalNative
