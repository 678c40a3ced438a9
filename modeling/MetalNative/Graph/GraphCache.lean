import MetalNative.Core.Tensor
import MetalNative.Lib.Keyed
import MetalNative.Lib.Run

namespace MetalNative

/-!
# `GraphCache`: executables in memory and on disk

A translation of `graph_cache.mm` and of the bucketing of shapes in `shape_bucketing.mm`.  The list
`order` is the memory cache; its keys are distinct, so the map from keys to its entries is a search
through it.  A file of the disk cache is known by the hash that its name is made of.  The system is
one client that calls the operations of the cache, the blocks that `insert` has dispatched, which
run at any time and in any order, and the timer.

* `bucketSize`, `bucketShape`, `applyBucketing` — the effective key.
* `hash`, `diskPath` — the name of a key's file.
* `lookup`, `insert`, `setL1Capacity`, `timerHandler`, `clearL1` — the sections under `mu`.
* `CacheSystem.step` — one section, one block, or one step of `clear_l2`, which holds no lock.
-/

/-! ### Bucketing -/

/-- `kBucketSizes`. -/
def kBucketSizes : List ℕ :=
  [32, 48, 64, 96, 128, 192, 256, 384, 512, 768, 1024, 1536, 2048, 4096, 8192, 16384]

/-- `bucket_size`; the search is for the first bucket that is not less. -/
def bucketSize (size : ℕ) : ℕ :=
  if size ≥ kBucketSizes.getLastD 0 then size
  else (kBucketSizes.find? fun bucket => size ≤ bucket).getD size

/-- `ShapeBucketer::bucket_shape`. -/
def bucketShape (shape : MNShape) : MNShape :=
  shape.map fun dim => if dim ≤ 0 then dim else toInt64 (bucketSize (toSizeT dim))

/-! ### Keys -/

/-- The hash of the enumerator's value. -/
def MNDType.hash : MNDType → UInt64
  | .Float32 => 0
  | .Float16 => 1
  | .BFloat16 => 2
  | .Int64 => 3
  | .Int32 => 4
  | .Int16 => 5
  | .Int8 => 6
  | .UInt8 => 7
  | .Bool => 8

/-- `GraphCacheKey`. -/
structure GraphCacheKey where
  topology_hash : UInt64
  shape_tuple : List UInt64
  dtype : MNDType
  deriving DecidableEq, Repr

namespace GraphCacheKey

/-- `h ^= hash(val) + 0x9e3779b9 + (h << 6) + (h >> 2)`; the library hashes an integer to itself. -/
def mix (h val : UInt64) : UInt64 :=
  h ^^^ (val + 0x9e3779b9 + (h <<< (6 : UInt64)) + (h >>> (2 : UInt64)))

/-- `std::hash<GraphCacheKey>`. -/
def hash (key : GraphCacheKey) : UInt64 :=
  mix (key.shape_tuple.foldl mix key.topology_hash) key.dtype.hash

/-- `disk_path`: the 16 hexadecimal digits of the hash name the file. -/
def diskPath (key : GraphCacheKey) : UInt64 := key.hash

end GraphCacheKey

/-! ### The cache in memory -/

/-- `CacheEntry`; times are in nanoseconds. -/
structure CacheEntry (ε : Type) where
  key : GraphCacheKey
  executable : ε
  last_access_time : ℕ
  deriving DecidableEq, Repr

/-- A package on disk, with the key that it was written for. -/
structure Package (ε : Type) where
  path : UInt64
  executable : ε
  key : GraphCacheKey
  deriving DecidableEq, Repr

/-- The members of `GraphCache::Impl`. -/
structure GraphCache (ε : Type) where
  order : List (CacheEntry ε) := []
  max_l1_entries : ℕ
  l1_hits : UInt64 := 0
  l1_misses : UInt64 := 0
  l2_hits : UInt64 := 0
  l2_misses : UInt64 := 0
  bucketing_enabled : Bool := false
  deriving DecidableEq, Repr

/-- What becomes of a package that exists: `validate_cache_entry` rejects it, there is no device,
    `deserialize` gives `nil`, or it is loaded. -/
inductive DiskAnswer where
  | invalid
  | noDevice
  | unreadable
  | loaded
  deriving DecidableEq, Repr

namespace GraphCache

variable {ε : Type}

/-- `GraphCache::GraphCache`. -/
def new (max_l1_entries : ℕ) : GraphCache ε :=
  { max_l1_entries := if max_l1_entries > 0 then max_l1_entries else 1 }

/-- `map.find`. -/
def find (c : GraphCache ε) (key : GraphCacheKey) : Option (CacheEntry ε) :=
  Keyed.find CacheEntry.key c.order key

/-- `apply_bucketing`. -/
def applyBucketing (c : GraphCache ε) (key : GraphCacheKey) : GraphCacheKey :=
  if c.bucketing_enabled = false then key
  else
    let original : MNShape := key.shape_tuple.map fun dim => toInt64 dim.toNat
    let bucketed := bucketShape original
    { key with shape_tuple := bucketed.map fun dim => UInt64.ofNat (toSizeT dim) }

/-- An entry is moved to the front. -/
def moveToFront (c : GraphCache ε) (entry : CacheEntry ε) : GraphCache ε :=
  { c with order := Keyed.insert CacheEntry.key c.order entry }

/-- The least recently used entry goes when the cache is full. -/
def evictLru (c : GraphCache ε) : GraphCache ε :=
  if c.order.length ≥ c.max_l1_entries then { c with order := c.order.dropLast } else c

/-- `emplace_front`. -/
def emplaceFront (c : GraphCache ε) (entry : CacheEntry ε) : GraphCache ε :=
  { c with order := entry :: c.order }

/-- `lookup` at the time `now`; the answer is what is found about the package, if there is one. -/
def lookup (c : GraphCache ε) (files : List (Package ε)) (key : GraphCacheKey) (now : ℕ)
    (answer : DiskAnswer) : Outcome (GraphCache ε) (Option ε) :=
  let effective_key := c.applyBucketing key
  match c.find effective_key with
  | some entry =>
    let c := c.moveToFront { entry with last_access_time := now }
    (.ok (some entry.executable), { c with l1_hits := c.l1_hits + 1 })
  | none =>
    let c := { c with l1_misses := c.l1_misses + 1 }
    match Keyed.find Package.path files effective_key.diskPath, answer with
    | some _, .noDevice =>
      (.error ⟨.InvalidArgument, "GraphSerializer::deserialize: device must not be nil"⟩, c)
    | some package, .loaded =>
      let c := { c with l2_hits := c.l2_hits + 1 }
      (.ok (some package.executable),
        c.evictLru.emplaceFront ⟨effective_key, package.executable, now⟩)
    | _, _ => (.ok none, { c with l2_misses := c.l2_misses + 1 })

/-- `insert` at the time `now`, with the package that it dispatches to be written. -/
def insert (c : GraphCache ε) (key : GraphCacheKey) (executable : Option ε) (now : ℕ) :
    Outcome (GraphCache ε) (Option (Package ε)) :=
  match executable with
  | none =>
    (.error ⟨.InvalidArgument, "GraphCache::insert: executable must not be nil"⟩, c)
  | some executable =>
    let effective_key := c.applyBucketing key
    let entry : CacheEntry ε := ⟨effective_key, executable, now⟩
    match c.find effective_key with
    | some _ => (.ok none, c.moveToFront entry)
    | none =>
      (.ok (some ⟨effective_key.diskPath, executable, effective_key⟩),
        c.evictLru.emplaceFront entry)

/-- The age of an entry in whole seconds. -/
def age (now : ℕ) (entry : CacheEntry ε) : ℕ := (now - entry.last_access_time) / 1000000000

/-- The handler of the eviction timer. -/
def timerHandler (c : GraphCache ε) (now : ℕ) : GraphCache ε :=
  { c with order := c.order.filter fun entry => ¬ age now entry > 60 }

/-- `set_l1_capacity`. -/
def setL1Capacity (c : GraphCache ε) (new_max_entries : ℕ) : GraphCache ε :=
  let max_l1_entries := if new_max_entries > 0 then new_max_entries else 1
  { c with max_l1_entries, order := c.order.take max_l1_entries }

/-- `set_bucketing_enabled`. -/
def setBucketingEnabled (c : GraphCache ε) (enabled : Bool) : GraphCache ε :=
  { c with bucketing_enabled := enabled }

/-- `clear_l1`. -/
def clearL1 (c : GraphCache ε) : GraphCache ε :=
  { c with
    order := []
    l1_hits := 0
    l1_misses := 0
    l2_hits := 0
    l2_misses := 0 }

end GraphCache

/-! ### The client, the dispatched blocks and the timer -/

/-- Where the client stands: between two calls, or inside `clear_l2`, about to list the directory or
    to remove the files of the listing. -/
inductive ClearPhase where
  | idle
  | list
  | remove (paths : List UInt64)
  deriving DecidableEq, Repr

/-- The cache, the packages on disk, the dispatched blocks that have not run, and, latest first, the
    effective keys and executables inserted since the last `clear`. -/
structure CacheSystem (ε : Type) where
  cache : GraphCache ε
  files : List (Package ε) := []
  pending : List (Package ε) := []
  phase : ClearPhase := .idle
  inserted : List (GraphCacheKey × ε) := []
  deriving DecidableEq, Repr

/-- The calls of the client, the timer, and the blocks that `insert` has dispatched. -/
inductive CacheAction (ε : Type) where
  | lookup (key : GraphCacheKey) (now : ℕ) (answer : DiskAnswer)
  | insert (key : GraphCacheKey) (executable : Option ε) (now : ℕ)
  | setL1Capacity (new_max_entries : ℕ)
  | setBucketingEnabled (enabled : Bool)
  /-- `clear` begins, with `clear_l1`. -/
  | clear
  /-- `clear_l2` lists the directory, or gets an error. -/
  | listFiles (listed : Bool)
  /-- `clear_l2` removes the next file of the listing, or fails to. -/
  | removeFile (removed : Bool)
  | timer (now : ℕ)
  /-- A block writes its package, or drops an exception. -/
  | serialize (i : ℕ) (written : Bool)
  deriving DecidableEq, Repr

namespace CacheSystem

variable {ε : Type}

/-- A new cache over an empty directory. -/
def init (max_l1_entries : ℕ) : CacheSystem ε := { cache := .new max_l1_entries }

/-- One step of the client in `clear_l2`. -/
def clearStep (s : CacheSystem ε) : CacheAction ε → Option (CacheSystem ε)
  | .listFiles listed =>
    if s.phase = .list then
      some { s with
        phase := if listed = true then .remove (s.files.map Package.path) else .idle }
    else none
  | .removeFile removed =>
    match s.phase with
    | .remove [] => some { s with phase := .idle }
    | .remove (path :: paths) =>
      some { s with
        phase := .remove paths
        files := if removed = true then Keyed.erase Package.path s.files path else s.files }
    | _ => none
  | _ => none

/-- A call of the client; it makes one only when the last one has returned. -/
def callStep (s : CacheSystem ε) : CacheAction ε → Option (CacheSystem ε)
  | .lookup key now answer => some { s with cache := (s.cache.lookup s.files key now answer).2 }
  | .insert key executable now =>
    match executable, s.cache.insert key executable now with
    | some e, (.ok package, cache) =>
      some { s with
        cache
        pending := s.pending ++ package.toList
        inserted := (s.cache.applyBucketing key, e) :: s.inserted }
    | _, (_, cache) => some { s with cache }
  | .setL1Capacity new_max_entries =>
    some { s with cache := s.cache.setL1Capacity new_max_entries }
  | .setBucketingEnabled enabled => some { s with cache := s.cache.setBucketingEnabled enabled }
  | .clear =>
    some { s with
      cache := s.cache.clearL1
      phase := .list
      inserted := [] }
  | _ => none

/-- One step. -/
def step (s : CacheSystem ε) : CacheAction ε → Option (CacheSystem ε)
  | .timer now => some { s with cache := s.cache.timerHandler now }
  | .serialize i written =>
    s.pending[i]?.map fun package =>
      { s with
        pending := s.pending.eraseIdx i
        files := if written = true then Keyed.insert Package.path s.files package else s.files }
  | .listFiles listed => s.clearStep (.listFiles listed)
  | .removeFile removed => s.clearStep (.removeFile removed)
  | call => if s.phase = .idle then s.callStep call else none

/-- The executable given by the most recent `insert`, since the last `clear`, of this key. -/
def lastInsert (s : CacheSystem ε) (key : GraphCacheKey) : Option ε :=
  (Keyed.find Prod.fst s.inserted key).map Prod.snd

end CacheSystem

end MetalNative
