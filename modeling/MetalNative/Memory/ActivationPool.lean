import MetalNative.Core.Error
import MetalNative.Lib.Keyed

namespace MetalNative

/-!
# `ActivationPool`: reusing activation buffers

A translation of `activation_pool.mm`.  Buffers are kept in a vector that only grows; a buffer that
is not in use stands in the free list of its size, and purging drops the Metal buffer of an entry
but not the entry.

* `createBuffer`, `purgeUnusedInternal`, `findFreeBuffer` — the helpers.
* `acquire`, `release`, `releaseAll`, `purgeUnused`, `configureForModel` — the calls.

`size_t` values are natural numbers below `sizeTRange`, with the wrap-around written out.
-/

/-! ### Size classes -/

/-- Minimum allocation size (one GPU page). -/
def kMinActivationSize : ℕ := 16384

/-- Standard size classes. -/
def kSizeClasses : List ℕ :=
  [256 * 1024, 512 * 1024, 1024 * 1024, 2048 * 1024, 4096 * 1024, 8192 * 1024, 16384 * 1024,
    32768 * 1024]

/-- Maximum waste tolerance. -/
def kMaxWasteFraction : Float32 := 0.25

/-- The smallest size class that holds `requested`, or `SIZE_MAX`. -/
def findSizeClass (requested : ℕ) (classes : List ℕ) : ℕ :=
  (classes.find? fun sc => sc ≥ requested).getD SIZE_MAX

/-- Whether a size class wastes too much. -/
def excessiveWaste (requested sizeClass : ℕ) : Bool :=
  if sizeClass = requested then false
  else
    let wasteFraction := (UInt64.ofNat (sizeClass - requested)).toFloat32 /
      (UInt64.ofNat sizeClass).toFloat32
    wasteFraction > kMaxWasteFraction

/-! ### The data -/

/-- `PooledBuffer`; `none` is `nil`. -/
structure PooledBuffer where
  buffer : Option ObjId
  size : ℕ
  index : UInt32
  inUse : Bool
  deriving DecidableEq, Repr

/-- `BufferHandle`. -/
structure BufferHandle where
  metalBuffer : Option ObjId
  size : ℕ
  poolIndex : UInt32
  deriving DecidableEq, Repr

/-- `ActivationPool::Impl`. -/
structure ActivationPool where
  maxBudget : ℕ
  sizeClasses : List ℕ := kSizeClasses.insertionSort fun a b => a ≤ b
  freeLists : List (ℕ × List UInt32) := []
  buffers : List PooledBuffer := []
  nextIndex : UInt32 := 0
  totalAllocatedBytes : ℕ := 0
  totalInUseBytes : ℕ := 0
  hitCount : UInt64 := 0
  missCount : UInt64 := 0
  deriving DecidableEq, Repr

namespace ActivationPool

/-- The constructor; `recommended` is the recommended working set of the device. -/
def new (maxBudgetBytes recommended : ℕ) : ActivationPool :=
  { maxBudget := if maxBudgetBytes = 0 then recommended else maxBudgetBytes }

/-! ### Helpers -/

/-- The bytes of the buffers that exist. -/
def backedBytes (p : ActivationPool) : ℕ :=
  (p.buffers.map fun pb => if pb.buffer.isSome then pb.size else 0).sum

/-- `newBufferWithLength`: Metal may refuse, and it does when the buffers would not fit its 64-bit
    address space. -/
def newBuffer (p : ActivationPool) (size : ℕ) (answer : Option ObjId) : Option ObjId :=
  if p.backedBytes + size < sizeTRange then answer else none

/-- The list that `free_lists[size]` refers to, empty when it was not there. -/
def freeList (lists : List (ℕ × List UInt32)) (size : ℕ) : List UInt32 :=
  ((Keyed.find Prod.fst lists size).map Prod.snd).getD []

/-- `free_lists[size].push_back(index)`. -/
def pushFree (lists : List (ℕ × List UInt32)) (size : ℕ) (index : UInt32) :
    List (ℕ × List UInt32) :=
  Keyed.insert Prod.fst lists (size, freeList lists size ++ [index])

/-- Whether the entry at `index` has a Metal buffer. -/
def backed (buffers : List PooledBuffer) (index : UInt32) : Bool :=
  (buffers[index.toNat]?.bind PooledBuffer.buffer).isSome

/-- `purge_unused_internal`. -/
def purgeUnusedInternal (p : ActivationPool) : ActivationPool :=
  let freed :=
    (p.buffers.map fun pb => if pb.inUse = false ∧ pb.buffer.isSome then pb.size else 0).sum
  let buffers := p.buffers.map fun pb => if pb.inUse then pb else { pb with buffer := none }
  { p with
    buffers
    freeLists := p.freeLists.map fun entry => (entry.1, entry.2.filter (backed buffers))
    totalAllocatedBytes := (p.totalAllocatedBytes + sizeTRange - freed % sizeTRange) % sizeTRange }

/-- `create_buffer`; the answer is what Metal would give. -/
def createBuffer (p : ActivationPool) (size : ℕ) (answer : Option ObjId) :
    Outcome ActivationPool PooledBuffer :=
  let overBudget (p : ActivationPool) : Bool :=
    (p.totalAllocatedBytes + size) % sizeTRange > p.maxBudget
  let p := if p.maxBudget > 0 ∧ overBudget p then p.purgeUnusedInternal else p
  if p.maxBudget > 0 ∧ overBudget p then
    (.error ⟨.OutOfMemory, "ActivationPool budget exceeded: " ++
      toString ((p.totalAllocatedBytes + size) % sizeTRange) ++ " > " ++ toString p.maxBudget⟩, p)
  else
    match p.newBuffer size answer with
    | none =>
      (.error ⟨.AllocationFailed,
        "Failed to allocate Metal buffer of size " ++ toString size⟩, p)
    | some buffer =>
      let pb : PooledBuffer := ⟨some buffer, size, p.nextIndex, true⟩
      (.ok pb,
        { p with
          buffers := p.buffers ++ [pb]
          nextIndex := p.nextIndex + 1
          totalAllocatedBytes := (p.totalAllocatedBytes + size) % sizeTRange })

/-- Set the `in_use` flag of the entry at position `i`. -/
def setInUse (p : ActivationPool) (i : ℕ) (inUse : Bool) : ActivationPool :=
  { p with buffers := p.buffers.modify i fun pb => { pb with inUse } }

/-- `find_free_buffer`: the last buffer of the free list, if there is one. -/
def findFreeBuffer (p : ActivationPool) (sizeClass : ℕ) :
    Option (PooledBuffer × ActivationPool) :=
  match Keyed.find Prod.fst p.freeLists sizeClass with
  | none => none
  | some (_, list) =>
    match list.getLast? with
    | none => none
    | some idx =>
      let p := { p with freeLists := Keyed.insert Prod.fst p.freeLists (sizeClass, list.dropLast) }
      let p := p.setInUse idx.toNat true
      p.buffers[idx.toNat]?.map fun pb => (pb, p)

/-- The handle of an entry. -/
def handle (pb : PooledBuffer) : BufferHandle := ⟨pb.buffer, pb.size, pb.index⟩

/-! ### Calls -/

/-- `acquire`. -/
def acquire (p : ActivationPool) (size : ℕ) (answer : Option ObjId) :
    Outcome ActivationPool BufferHandle :=
  let size := if size < kMinActivationSize then kMinActivationSize else size
  let sizeClass := findSizeClass size p.sizeClasses
  let fits := sizeClass ≠ SIZE_MAX ∧ excessiveWaste size sizeClass = false
  match (if fits then p.findFreeBuffer sizeClass else none) with
  | some (pb, p) =>
    (.ok (handle pb),
      { p with
        hitCount := p.hitCount + 1
        totalInUseBytes := (p.totalInUseBytes + pb.size) % sizeTRange })
  | none =>
    let p := { p with missCount := p.missCount + 1 }
    let allocSize := if fits then sizeClass else size
    match p.createBuffer allocSize answer with
    | (.error e, p) => (.error e, p)
    | (.ok pb, p) =>
      (.ok (handle pb),
        { p with totalInUseBytes := (p.totalInUseBytes + pb.size) % sizeTRange })

/-- `release`. -/
def release (p : ActivationPool) (h : BufferHandle) : Outcome ActivationPool Unit :=
  match p.buffers[h.poolIndex.toNat]? with
  | none => (.error ⟨.InvalidArgument, "Invalid BufferHandle: index out of range"⟩, p)
  | some pb =>
    if pb.inUse = false then
      (.error ⟨.InvalidArgument, "Double release of BufferHandle"⟩, p)
    else
      (.ok (),
        { p.setInUse h.poolIndex.toNat false with
          totalInUseBytes := (p.totalInUseBytes + sizeTRange - pb.size) % sizeTRange
          freeLists := pushFree p.freeLists pb.size pb.index })

/-- `release_all`. -/
def releaseAll (p : ActivationPool) : ActivationPool :=
  { p with
    buffers := p.buffers.map fun pb => { pb with inUse := false }
    freeLists := (p.buffers.filter PooledBuffer.inUse).foldl
      (fun lists pb => pushFree lists pb.size pb.index) p.freeLists
    totalInUseBytes := 0 }

/-- `purge_unused`. -/
def purgeUnused (p : ActivationPool) : ActivationPool := p.purgeUnusedInternal

/-- The sizes of the activations of a model. -/
def modelSizes (hiddenDim numHeads maxSeqLen batchSize : ℕ) : List ℕ :=
  [batchSize * maxSeqLen * 3 * hiddenDim * 4 % sizeTRange,
    batchSize * numHeads * maxSeqLen * maxSeqLen * 4 % sizeTRange,
    batchSize * maxSeqLen * hiddenDim * 4 % sizeTRange,
    batchSize * maxSeqLen * 4 * hiddenDim * 4 % sizeTRange]

/-- `add_model_size_classes`. -/
def addModelSizeClasses (p : ActivationPool) (sizes : List ℕ) : ActivationPool :=
  let classes := sizes.foldl (fun cs sz => if sz ∈ cs then cs else cs ++ [sz]) p.sizeClasses
  { p with sizeClasses := classes.insertionSort fun a b => a ≤ b }

/-- Pre-allocate up to `rounds` buffers of one size; the first failure ends the loop. -/
def preallocate (size : ℕ) : List (Option ObjId) → ActivationPool → ActivationPool
  | [], p => p
  | answer :: answers, p =>
    match p.createBuffer size answer with
    | (.error _, p) => p
    | (.ok pb, p) =>
      preallocate size answers
        { p.setInUse (p.buffers.length - 1) false with
          freeLists := pushFree p.freeLists size pb.index }

/-- `configure_for_model`; the answers are for the two buffers of each size. -/
def configureForModel (p : ActivationPool) (hiddenDim numHeads maxSeqLen batchSize : ℕ)
    (answers : ℕ → Option ObjId × Option ObjId) : ActivationPool :=
  let sizes := modelSizes hiddenDim numHeads maxSeqLen batchSize
  let p := p.addModelSizeClasses sizes
  sizes.zipIdx.foldl (fun p (size, i) => preallocate size [(answers i).1, (answers i).2] p) p

end ActivationPool

end MetalNative
