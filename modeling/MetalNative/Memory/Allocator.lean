import MetalNative.Memory.HeapManager
import MetalNative.Lib.Keyed

namespace MetalNative

/-!
# `MetalSmartAllocator`: free-list caching over the heap manager

A translation of `allocator.mm`.  A freed block goes to the free list of its size class and mode
and is handed out again by the next request of that class; `emptyCache` gives every cached block
back to the heap manager and releases the heaps that are left empty.

The two hash maps are lists of keyed entries in their iteration order.  Internal ids come from a
64-bit counter that no run exhausts, so they are natural numbers.
-/

/-! ### Size classes -/

/-- Minimum allocation size. -/
def kMinAllocSize : ℕ := 64

/-- The loop `while (pow2 < size) pow2 <<= 1`.  A `size_t` is shifted out after 64 rounds and
    stays zero, so `none` is the loop that never ends. -/
def growPow2 (size : ℕ) : ℕ → ℕ → Option ℕ
  | 0, _ => none
  | rounds + 1, pow2 =>
    if pow2 < size then growPow2 size rounds ((pow2 <<< 1) % sizeTRange) else some pow2

/-- Round `size` up to the next size class: powers of two with 1.5x intermediates. -/
def nextSizeClass (size : ℕ) : Option ℕ :=
  if size ≤ kMinAllocSize then some kMinAllocSize
  else
    (growPow2 size 64 kMinAllocSize).map fun pow2 =>
      let halfPow2 := pow2 >>> 1
      let intermediate := halfPow2 + (halfPow2 >>> 1)
      if size ≤ intermediate ∧ intermediate < pow2 then intermediate else pow2

/-- The size class in the high bits and the mode in the low bit. -/
def bucketKey (sizeClass : ℕ) (mode : StorageMode) : ℕ :=
  ((sizeClass <<< 1) % sizeTRange) ||| (if mode = .Private then 1 else 0)

/-! ### The data -/

/-- A free-list entry. -/
structure CachedBlock where
  heapBlock : HeapBlock
  sizeClass : ℕ
  mode : StorageMode
  deriving DecidableEq, Repr

/-- Handle returned by the allocator, wrapping a GPU buffer. -/
structure AllocatedBlock where
  size : ℕ
  requested : ℕ
  sizeClass : ℕ
  mode : StorageMode
  aliasable : Bool
  buffer : Option ObjId
  internalId : ℕ
  deriving DecidableEq, Repr

/-- `AllocatorStats`. -/
structure AllocatorStats where
  allocatedBytes : UInt64 := 0
  cachedBytes : UInt64 := 0
  peakBytes : UInt64 := 0
  allocationCount : UInt64 := 0
  cacheHitCount : UInt64 := 0
  cacheMissCount : UInt64 := 0
  deriving DecidableEq, Repr

/-- `MetalSmartAllocator::Impl`.  The six counters are the fields of the snapshot that `stats`
    returns. -/
structure MetalSmartAllocator where
  heapMgr : HeapManager := {}
  freeLists : List (ℕ × List CachedBlock) := []
  liveBlocks : List (ℕ × HeapBlock) := []
  nextId : ℕ := 1
  stats : AllocatorStats := {}
  deriving DecidableEq, Repr

namespace MetalSmartAllocator

/-! ### `allocate` and `deallocate` -/

/-- Step 1 of `allocate`: the last block of the class's free list, if there is one. -/
def takeCached (a : MetalSmartAllocator) (sc key : ℕ) : Option (HeapBlock × MetalSmartAllocator) :=
  match Keyed.find Prod.fst a.freeLists key with
  | none => none
  | some (_, bucket) =>
    match bucket.getLast? with
    | none => none
    | some cached =>
      some (cached.heapBlock,
        { a with
          freeLists := Keyed.insert Prod.fst a.freeLists (key, bucket.dropLast)
          stats :=
            { a.stats with
              cachedBytes := a.stats.cachedBytes - UInt64.ofNat sc
              cacheHitCount := a.stats.cacheHitCount + 1 } })

/-- Step 3 of `allocate`: register the block under a new id and build the handle. -/
def handOver (a : MetalSmartAllocator) (nbytes sc : ℕ) (mode : StorageMode) (hb : HeapBlock) :
    AllocatedBlock × MetalSmartAllocator :=
  let id := a.nextId
  let allocatedBytes := a.stats.allocatedBytes + UInt64.ofNat sc
  ({ size := sc, requested := nbytes, sizeClass := sc, mode, aliasable := false,
     buffer := hb.buffer, internalId := id },
    { a with
      liveBlocks := Keyed.insert Prod.fst a.liveBlocks (id, hb)
      nextId := id + 1
      stats :=
        { a.stats with
          allocatedBytes
          allocationCount := a.stats.allocationCount + 1
          peakBytes :=
            if allocatedBytes > a.stats.peakBytes then allocatedBytes else a.stats.peakBytes } })

/-- `MetalSmartAllocator::allocate`; `none` when the size class is never found. -/
def allocate (dev : MTLDevice) (a : MetalSmartAllocator) (nbytes : ℕ) (mode : StorageMode) :
    Option (Outcome MetalSmartAllocator AllocatedBlock) :=
  if nbytes = 0 then
    some (.error ⟨.InvalidArgument, "MetalSmartAllocator::allocate: nbytes must be > 0"⟩, a)
  else
    (nextSizeClass nbytes).map fun sc =>
      let key := bucketKey sc mode
      match a.takeCached sc key with
      | some (hb, a) =>
        let (block, a) := a.handOver nbytes sc mode hb
        (.ok block, a)
      | none =>
        match a.heapMgr.allocate dev sc mode with
        | (.error e, mgr) => (.error e, { a with heapMgr := mgr })
        | (.ok hb, mgr) =>
          let (block, a) :=
            { a with
              heapMgr := mgr
              stats := { a.stats with cacheMissCount := a.stats.cacheMissCount + 1 } }.handOver
              nbytes sc mode hb
          (.ok block, a)

/-- The bucket that `free_lists[key]` refers to, empty when it was not there. -/
def bucket (a : MetalSmartAllocator) (key : ℕ) : List CachedBlock :=
  ((Keyed.find Prod.fst a.freeLists key).map Prod.snd).getD []

/-- `MetalSmartAllocator::deallocate`; a successful call returns the cleared handle. -/
def deallocate (a : MetalSmartAllocator) (block : AllocatedBlock) :
    Outcome MetalSmartAllocator AllocatedBlock :=
  match Keyed.find Prod.fst a.liveBlocks block.internalId with
  | none =>
    (.error ⟨.InvalidArgument, "MetalSmartAllocator::deallocate: unknown block (double free?)"⟩, a)
  | some (_, hb) =>
    let a :=
      { a with
        liveBlocks := Keyed.erase Prod.fst a.liveBlocks block.internalId
        stats :=
          { a.stats with
            allocatedBytes := a.stats.allocatedBytes - UInt64.ofNat block.size
            allocationCount := a.stats.allocationCount - 1 } }
    let cleared := { block with buffer := none, size := 0, requested := 0, internalId := 0 }
    if block.aliasable then
      match a.heapMgr.deallocate hb with
      | (.error e, mgr) => (.error e, { a with heapMgr := mgr })
      | (.ok _, mgr) => (.ok cleared, { a with heapMgr := mgr })
    else
      let key := bucketKey block.sizeClass block.mode
      let cached : CachedBlock := ⟨hb, block.sizeClass, block.mode⟩
      (.ok cleared,
        { a with
          freeLists := Keyed.insert Prod.fst a.freeLists (key, a.bucket key ++ [cached])
          stats :=
            { a.stats with cachedBytes := a.stats.cachedBytes + UInt64.ofNat block.size } })

/-- `MetalSmartAllocator::make_aliasable`: the allocator itself does not change. -/
def makeAliasable (a : MetalSmartAllocator) (block : AllocatedBlock) :
    Outcome MetalSmartAllocator AllocatedBlock :=
  if block.buffer = none then
    (.error ⟨.InvalidArgument, "MetalSmartAllocator::make_aliasable: block has no buffer"⟩, a)
  else (.ok { block with aliasable := true }, a)

/-! ### `empty_cache` -/

/-- The inner loop of `empty_cache`: give the blocks of one bucket back.  A block given back has
    been cleared in place; an exception leaves the rest of the bucket as it was. -/
def drainBucket (m : HeapManager) : List CachedBlock →
    Option MNException × HeapManager × List CachedBlock
  | [] => (none, m, [])
  | cached :: rest =>
    match m.deallocate cached.heapBlock with
    | (.error e, m) => (some e, m, cached :: rest)
    | (.ok cleared, m) =>
      let (e, m, rest) := drainBucket m rest
      (e, m, { cached with heapBlock := cleared } :: rest)

/-- The outer loop of `empty_cache`. -/
def drain (m : HeapManager) : List (ℕ × List CachedBlock) →
    Option MNException × HeapManager × List (ℕ × List CachedBlock)
  | [] => (none, m, [])
  | (key, bucket) :: lists =>
    match drainBucket m bucket with
    | (some e, m, bucket) => (some e, m, (key, bucket) :: lists)
    | (none, m, bucket) =>
      let (e, m, lists) := drain m lists
      (e, m, (key, bucket) :: lists)

/-- `MetalSmartAllocator::empty_cache`. -/
def emptyCache (a : MetalSmartAllocator) : Outcome MetalSmartAllocator Unit :=
  match drain a.heapMgr a.freeLists with
  | (some e, m, lists) => (.error e, { a with heapMgr := m, freeLists := lists })
  | (none, m, _) =>
    (.ok (),
      { a with
        heapMgr := m.releaseEmptyHeaps
        freeLists := []
        stats := { a.stats with cachedBytes := 0 } })

end MetalSmartAllocator

end MetalNative
