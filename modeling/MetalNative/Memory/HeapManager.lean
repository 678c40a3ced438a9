import MetalNative.Core.Error
import MetalNative.Lib.Cover

namespace MetalNative

/-!
# `HeapManager`: sub-allocation from Metal heaps

A translation of `heap_manager.mm`.  Each heap keeps a list of free blocks; `allocate` takes the
best fitting one (splitting it, or erasing an exact fit) or creates a heap, and `deallocate`
returns the block and coalesces.  Blocks name their heap by its position in the vector `heaps`,
which `releaseEmptyHeaps` shifts.

Metal itself is the parameter `dev : MTLDevice`: it decides whether a heap or a buffer is
created, and every object it creates has a fresh identity.
-/

/-! ### Constants and size tiers -/

/-- GPU page size on Apple Silicon (16 KB). -/
def kGPUPageSize : ℕ := 16384

def kSmallThreshold : ℕ := 1 * 1024 * 1024
def kMediumThreshold : ℕ := 16 * 1024 * 1024

def kSmallHeapSize : ℕ := 4 * 1024 * 1024
def kMediumHeapSize : ℕ := 64 * 1024 * 1024
def kLargeHeapSize : ℕ := 256 * 1024 * 1024

/-- Round `size` up to the next multiple of the page size, in `size_t` arithmetic
    (`& ~(kGPUPageSize - 1)` drops the remainder modulo the power of two). -/
def alignToPage (size : ℕ) : ℕ :=
  let s := (size + kGPUPageSize - 1) % sizeTRange
  s - s % kGPUPageSize

/-- The heap capacity chosen for an allocation of `alignedSize` bytes. -/
def heapSizeForAlloc (alignedSize : ℕ) : ℕ :=
  if alignedSize < kSmallThreshold then kSmallHeapSize
  else if alignedSize ≤ kMediumThreshold then kMediumHeapSize
  else alignToPage (max kLargeHeapSize alignedSize)

/-! ### The data -/

/-- A contiguous free region within a heap. -/
abbrev FreeBlock := Span

/-- A single `MTLHeap` and its free-block list. -/
structure HeapEntry where
  heap : ObjId
  capacity : ℕ
  mode : StorageMode
  freeBlocks : List FreeBlock
  allocCount : UInt64
  deriving DecidableEq, Repr

/-- The handle of a sub-allocation; `none` is `nil`. -/
structure HeapBlock where
  offset : ℕ
  size : ℕ
  heapIndex : ℕ
  buffer : Option ObjId
  heap : Option ObjId
  deriving DecidableEq, Repr

/-- The byte region of a block within its heap. -/
def HeapBlock.span (b : HeapBlock) : Span := ⟨b.offset, b.size⟩

/-- What Metal answers: whether the `serial`-th request for a heap or a buffer succeeds. -/
structure MTLDevice where
  newHeap : (serial capacity : ℕ) → StorageMode → Bool
  newBuffer : (serial capacity length offset : ℕ) → Bool

/-- `HeapManager::Impl`; `nextObject` mints the identities of Metal objects. -/
structure HeapManager where
  heaps : List HeapEntry := []
  totalHeapBytes : UInt64 := 0
  allocatedBytes : UInt64 := 0
  allocationCount : UInt64 := 0
  nextObject : ObjId := 0
  deriving DecidableEq, Repr

/-- `HeapStats`; the ratio is the exact quotient, before rounding to a `double`. -/
structure HeapStats where
  totalHeapBytes : UInt64
  allocatedBytes : UInt64
  availableBytes : UInt64
  heapCount : ℕ
  allocationCount : UInt64
  fragmentationRatio : ℚ
  deriving DecidableEq, Repr

/-! ### Best fit -/

/-- The running best of `find_best_fit`; `SIZE_MAX` is the source's "none yet". -/
structure BestFit where
  heap : ℕ := SIZE_MAX
  block : ℕ := SIZE_MAX
  waste : ℕ := SIZE_MAX
  deriving DecidableEq, Repr

/-- The inner loop over the free blocks of heap `hi`, from block `bi` on.  The flag is the
    `goto done` of an exact fit. -/
def scanBlocks (alignedSize hi : ℕ) : ℕ → List FreeBlock → BestFit → BestFit × Bool
  | _, [], best => (best, false)
  | bi, fb :: rest, best =>
    if fb.size ≥ alignedSize then
      let waste := fb.size - alignedSize
      if waste < best.waste then
        if waste = 0 then (⟨hi, bi, waste⟩, true)
        else scanBlocks alignedSize hi (bi + 1) rest ⟨hi, bi, waste⟩
      else scanBlocks alignedSize hi (bi + 1) rest best
    else scanBlocks alignedSize hi (bi + 1) rest best

/-- The outer loop over the heaps, from heap `hi` on. -/
def scanHeaps (alignedSize : ℕ) (mode : StorageMode) : ℕ → List HeapEntry → BestFit → BestFit
  | _, [], best => best
  | hi, entry :: rest, best =>
    if entry.mode ≠ mode then scanHeaps alignedSize mode (hi + 1) rest best
    else
      match scanBlocks alignedSize hi 0 entry.freeBlocks best with
      | (best', true) => best'
      | (best', false) => scanHeaps alignedSize mode (hi + 1) rest best'

namespace HeapManager

/-- The heap index and free-block index of the best fit, or `SIZE_MAX` twice. -/
def findBestFit (m : HeapManager) (alignedSize : ℕ) (mode : StorageMode) : ℕ × ℕ :=
  let best := scanHeaps alignedSize mode 0 m.heaps {}
  (best.heap, best.block)

/-- Create a heap whose single free block is all of it; returns its index. -/
def createHeap (dev : MTLDevice) (m : HeapManager) (capacity : ℕ) (mode : StorageMode) :
    Outcome HeapManager ℕ :=
  let heap := m.nextObject
  let m := { m with nextObject := m.nextObject + 1 }
  if dev.newHeap heap capacity mode then
    let entry : HeapEntry :=
      { heap, capacity, mode, freeBlocks := [⟨0, capacity⟩], allocCount := 0 }
    (.ok m.heaps.length,
      { m with
        heaps := m.heaps ++ [entry]
        totalHeapBytes := m.totalHeapBytes + UInt64.ofNat capacity })
  else
    (.error ⟨.OutOfMemory, "HeapManager: failed to create MTLHeap of "
      ++ toString capacity ++ " bytes"⟩, m)

end HeapManager

/-- The merge pass of `coalesce`: `prev` is `merged.back()`. -/
def mergePass (prev : FreeBlock) : List FreeBlock → List FreeBlock
  | [] => [prev]
  | curr :: rest =>
    if prev.offset + prev.size = curr.offset then
      mergePass ⟨prev.offset, prev.size + curr.size⟩ rest
    else prev :: mergePass curr rest

/-- Sort the free blocks by offset and merge the touching ones. -/
def coalesceBlocks (blocks : List FreeBlock) : List FreeBlock :=
  if blocks.length < 2 then blocks
  else
    match blocks.insertionSort (fun a b => a.offset ≤ b.offset) with
    | [] => []
    | first :: rest => mergePass first rest

/-- `coalesce` of one heap. -/
def coalesce (entry : HeapEntry) : HeapEntry :=
  { entry with freeBlocks := coalesceBlocks entry.freeBlocks }

/-- Split the chosen free block, or erase it when it fits exactly. -/
def takeBlock (entry : HeapEntry) (bi : ℕ) (fb : FreeBlock) (alignedSize : ℕ) : HeapEntry :=
  if fb.size > alignedSize then
    { entry with
      freeBlocks := entry.freeBlocks.set bi ⟨fb.offset + alignedSize, fb.size - alignedSize⟩ }
  else { entry with freeBlocks := entry.freeBlocks.eraseIdx bi }

namespace HeapManager

/-- The part of `allocate` after a free block has been chosen.  The block is split before the
    buffer is requested. -/
def subAllocate (dev : MTLDevice) (m : HeapManager) (hi bi alignedSize : ℕ) (entry : HeapEntry)
    (fb : FreeBlock) : Outcome HeapManager HeapBlock :=
  let entry := takeBlock entry bi fb alignedSize
  let buffer := m.nextObject
  let m := { m with nextObject := m.nextObject + 1 }
  if dev.newBuffer buffer entry.capacity alignedSize fb.offset then
    (.ok { offset := fb.offset, size := alignedSize, heapIndex := hi,
           buffer := some buffer, heap := some entry.heap },
      { m with
        heaps := m.heaps.set hi { entry with allocCount := entry.allocCount + 1 }
        allocatedBytes := m.allocatedBytes + UInt64.ofNat alignedSize
        allocationCount := m.allocationCount + 1 })
  else
    (.error ⟨.OutOfMemory, "HeapManager: MTLHeap newBufferWithLength returned nil (requested "
      ++ toString alignedSize ++ " bytes)"⟩, { m with heaps := m.heaps.set hi entry })

/-- Steps 1 and 2 of `allocate`: the best fit, or block 0 of a heap created for the request. -/
def chooseBlock (dev : MTLDevice) (m : HeapManager) (alignedSize : ℕ) (mode : StorageMode) :
    Outcome HeapManager (ℕ × ℕ) :=
  let best := m.findBestFit alignedSize mode
  if best.1 = SIZE_MAX then
    match createHeap dev m (heapSizeForAlloc alignedSize) mode with
    | (.ok hi, m) => (.ok (hi, 0), m)
    | (.error e, m) => (.error e, m)
  else (.ok best, m)

/-- `HeapManager::allocate`. -/
def allocate (dev : MTLDevice) (m : HeapManager) (size : ℕ) (mode : StorageMode) :
    Outcome HeapManager HeapBlock :=
  if size = 0 then
    (.error ⟨.InvalidArgument, "HeapManager::allocate: size must be > 0"⟩, m)
  else
    let alignedSize := alignToPage size
    match chooseBlock dev m alignedSize mode with
    | (.error e, m) => (.error e, m)
    | (.ok (hi, bi), m) =>
      match m.heaps[hi]? with
      | none => (.error ⟨.InternalError, ""⟩, m) -- out of bounds: never reached
      | some entry =>
        match entry.freeBlocks[bi]? with
        | none => (.error ⟨.InternalError, ""⟩, m) -- out of bounds: never reached
        | some fb => subAllocate dev m hi bi alignedSize entry fb

/-- `HeapManager::deallocate`; a successful call returns the cleared handle. -/
def deallocate (m : HeapManager) (block : HeapBlock) : Outcome HeapManager HeapBlock :=
  match m.heaps[block.heapIndex]? with
  | none => (.error ⟨.InvalidArgument, "HeapManager::deallocate: invalid heap_index"⟩, m)
  | some entry =>
    let entry := { entry with freeBlocks := entry.freeBlocks ++ [⟨block.offset, block.size⟩] }
    let entry := coalesce entry
    (.ok { block with buffer := none, heap := none, offset := 0, size := 0 },
      { m with
        heaps := m.heaps.set block.heapIndex { entry with allocCount := entry.allocCount - 1 }
        allocatedBytes := m.allocatedBytes - UInt64.ofNat block.size
        allocationCount := m.allocationCount - 1 })

/-- `HeapManager::release_empty_heaps`: heaps without sub-allocations are erased from the
    vector, so the heaps after them move down. -/
def releaseEmptyHeaps (m : HeapManager) : HeapManager :=
  { m with
    heaps := m.heaps.filter (fun e => decide (e.allocCount ≠ 0))
    totalHeapBytes := m.totalHeapBytes -
      ((m.heaps.filter (fun e => decide (e.allocCount = 0))).map
        fun e => UInt64.ofNat e.capacity).sum }

/-- `HeapManager::stats`. -/
def stats (m : HeapManager) : HeapStats :=
  let free := m.heaps.flatMap HeapEntry.freeBlocks
  let available := (free.map fun fb => UInt64.ofNat fb.size).sum
  let largestFree := free.foldl (fun largest fb => if fb.size > largest then fb.size else largest) 0
  { totalHeapBytes := m.totalHeapBytes
    allocatedBytes := m.allocatedBytes
    availableBytes := available
    heapCount := m.heaps.length
    allocationCount := m.allocationCount
    fragmentationRatio :=
      if available > 0 then 1 - (largestFree : ℚ) / (available.toNat : ℚ) else 0 }

end HeapManager

end MetalNative
