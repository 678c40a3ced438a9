import MetalNative.Graph.CacheCoherence
import MetalNative.Lib.LinkedMap

namespace MetalNative

open LinkedMap Run List GraphCache

/-!
# The containers and the counters of the `GraphCache`

`GraphCache` takes the list `order` for the whole memory cache.  Here are its members once more with
the map of iterators beside the list, and the operations as the source writes them on both.  As long
as the two containers agree they do what the operations of `GraphCache` do.

* `GraphCache.Impl`, `Impl.toGraphCache` — the members, and the cache that they are.
* `Impl.lookup`, `Impl.insert`, `Impl.setL1Capacity`, `Impl.timerHandler`, `Impl.clearL1` — the
  sections under `mu`.
* `Impl.lookup_refines`, `Impl.insert_refines`, … — what `GraphCache` does.
* `L1Run.step` — a section, with a record of the uses of keys and of the lookups since the last
  clear.
* `l1_cache_invariant` — what holds in every run; the misses are accounted for exactly if no lookup
  has lost the device.
* `impl_refines_cache` — every run does what it would without the map.
* `lost_device_uncounted` — a lookup that loses the device.
-/

/-- A `CacheEntry` without its key. -/
structure GraphCache.Impl.Entry (ε : Type) where
  executable : ε
  last_access_time : ℕ
  deriving DecidableEq, Repr

/-- The members of `GraphCache::Impl`; `list` is `order` with `map`. -/
structure GraphCache.Impl (ε : Type) where
  list : LinkedMap GraphCacheKey (GraphCache.Impl.Entry ε) := {}
  max_l1_entries : ℕ
  l1_hits : UInt64 := 0
  l1_misses : UInt64 := 0
  l2_hits : UInt64 := 0
  l2_misses : UInt64 := 0
  bucketing_enabled : Bool := false
  deriving DecidableEq, Repr

namespace GraphCache.Impl

variable {ε : Type}

/-- The entries in the order of the list. -/
def entries (list : LinkedMap GraphCacheKey (Entry ε)) : List (CacheEntry ε) :=
  list.order.map fun n => ⟨n.key, n.value.executable, n.value.last_access_time⟩

/-- The cache without its map. -/
def toGraphCache (c : Impl ε) : GraphCache ε where
  order := entries c.list
  max_l1_entries := c.max_l1_entries
  l1_hits := c.l1_hits
  l1_misses := c.l1_misses
  l2_hits := c.l2_hits
  l2_misses := c.l2_misses
  bucketing_enabled := c.bucketing_enabled

/-- `GraphCache::GraphCache`. -/
def new (max_l1_entries : ℕ) : Impl ε :=
  { max_l1_entries := if max_l1_entries > 0 then max_l1_entries else 1 }

/-- `apply_bucketing`. -/
def applyBucketing (c : Impl ε) (key : GraphCacheKey) : GraphCacheKey :=
  c.toGraphCache.applyBucketing key

/-- The last entry goes when the map is full, and a new one is put in front. -/
def insertEntry (c : Impl ε) (key : GraphCacheKey) (entry : Entry ε) : Impl ε :=
  let list := if c.list.map.length ≥ c.max_l1_entries then c.list.popBack else c.list
  { c with list := list.pushFront key entry }

/-- `lookup` at the time `now`; the answer is what is found about the package, if there is one. -/
def lookup (c : Impl ε) (files : List (Package ε)) (key : GraphCacheKey) (now : ℕ)
    (answer : DiskAnswer) : Outcome (Impl ε) (Option ε) :=
  let effective_key := c.applyBucketing key
  match c.list.iterator effective_key with
  | some it =>
    let list := (c.list.modify it fun entry => { entry with last_access_time := now }).splice it
    (.ok ((list.node it).map fun entry => entry.value.executable),
      { c with list, l1_hits := c.l1_hits + 1 })
  | none =>
    let c := { c with l1_misses := c.l1_misses + 1 }
    match Keyed.find Package.path files effective_key.diskPath, answer with
    | some _, .noDevice =>
      (.error ⟨.InvalidArgument, "GraphSerializer::deserialize: device must not be nil"⟩, c)
    | some package, .loaded =>
      let c := { c with l2_hits := c.l2_hits + 1 }
      (.ok (some package.executable), c.insertEntry effective_key ⟨package.executable, now⟩)
    | _, _ => (.ok none, { c with l2_misses := c.l2_misses + 1 })

/-- `insert` at the time `now`, with the package that it dispatches to be written. -/
def insert (c : Impl ε) (key : GraphCacheKey) (executable : Option ε) (now : ℕ) :
    Outcome (Impl ε) (Option (Package ε)) :=
  match executable with
  | none =>
    (.error ⟨.InvalidArgument, "GraphCache::insert: executable must not be nil"⟩, c)
  | some executable =>
    let effective_key := c.applyBucketing key
    match c.list.iterator effective_key with
    | some it =>
      let list := (c.list.modify it fun _ => ⟨executable, now⟩).splice it
      (.ok none, { c with list })
    | none =>
      (.ok (some ⟨effective_key.diskPath, executable, effective_key⟩),
        c.insertEntry effective_key ⟨executable, now⟩)

/-- The handler of the eviction timer. -/
def timerHandler (c : Impl ε) (now : ℕ) : Impl ε :=
  { c with
    list := c.list.eraseEach
      (fun it => (now - it.value.last_access_time) / 1000000000 > 60) c.list.order }

/-- `set_l1_capacity`. -/
def setL1Capacity (c : Impl ε) (new_max_entries : ℕ) : Impl ε :=
  let max_l1_entries := if new_max_entries > 0 then new_max_entries else 1
  { c with
    max_l1_entries
    list := c.list.popWhile (fun l => l.map.length > max_l1_entries) c.list.order.length }

/-- `set_bucketing_enabled`. -/
def setBucketingEnabled (c : Impl ε) (enabled : Bool) : Impl ε :=
  { c with bucketing_enabled := enabled }

/-- `clear_l1`. -/
def clearL1 (c : Impl ε) : Impl ε :=
  { c with
    list := c.list.clear
    l1_hits := 0
    l1_misses := 0
    l2_hits := 0
    l2_misses := 0 }

/-! ### The cache without its map -/

variable {c : Impl ε} {key : GraphCacheKey}

/-- A node as an entry. -/
def toEntry (n : Node GraphCacheKey (Entry ε)) : CacheEntry ε :=
  ⟨n.key, n.value.executable, n.value.last_access_time⟩

theorem toGraphCache_order (c : Impl ε) : c.toGraphCache.order = c.list.order.map toEntry := rfl

theorem map_key_order (c : Impl ε) : c.toGraphCache.order.map CacheEntry.key = c.list.keys := by
  rw [toGraphCache_order, map_map]
  rfl

theorem find_map_toEntry (order : List (Node GraphCacheKey (Entry ε))) (key : GraphCacheKey) :
    Keyed.find CacheEntry.key (order.map toEntry) key
      = (Keyed.find Node.key order key).map toEntry := by
  unfold Keyed.find
  rw [find?_map]
  rfl

theorem erase_map_toEntry (order : List (Node GraphCacheKey (Entry ε))) (key : GraphCacheKey) :
    Keyed.erase CacheEntry.key (order.map toEntry) key
      = (Keyed.erase Node.key order key).map toEntry := by
  unfold Keyed.erase
  rw [filter_map]
  rfl

/-- A key without an iterator is not in the cache. -/
theorem find_none (h : c.list.Coherent) (hit : c.list.iterator key = none) :
    key ∉ c.list.keys ∧ c.toGraphCache.find key = none := by
  have hkey : key ∉ c.list.keys := h.iterator_eq_none.mp hit
  refine ⟨hkey, Keyed.find_eq_none.mpr fun e he hk => hkey ?_⟩
  rw [← map_key_order, ← hk]
  exact mem_map_of_mem he

/-- An iterator leads to the entry that the cache has for the key. -/
theorem find_some (h : c.list.Coherent) {it : ℕ} (hit : c.list.iterator key = some it) :
    ∃ n ∈ c.list.order, n.key = key ∧ n.id = it ∧ c.toGraphCache.find key = some (toEntry n) := by
  obtain ⟨n, hn, hk, hid⟩ := h.iterator_eq_some.mp hit
  refine ⟨n, hn, hk, hid, ?_⟩
  unfold find
  rw [toGraphCache_order, find_map_toEntry, h.keys.find_eq_some.mpr ⟨hn, hk⟩, Option.map_some]

/-- The entry in front of those with other keys. -/
theorem moveToFront_refines (h : c.list.Coherent) {n : Node GraphCacheKey (Entry ε)}
    (hn : n ∈ c.list.order) (f : Entry ε → Entry ε) :
    entries ((c.list.modify n.id f).splice n.id)
      = Keyed.insert CacheEntry.key (entries c.list) (toEntry { n with value := f n.value }) := by
  show map toEntry _ = Keyed.insert CacheEntry.key (c.list.order.map toEntry) _
  rw [h.order_modify_splice hn f, map_cons, Keyed.insert, erase_map_toEntry]
  rfl

theorem insertEntry_refines (h : c.list.Coherent) (hkey : key ∉ c.list.keys) (entry : Entry ε) :
    (c.insertEntry key entry).list.Coherent ∧
      (c.insertEntry key entry).toGraphCache
        = c.toGraphCache.evictLru.emplaceFront ⟨key, entry.executable, entry.last_access_time⟩ := by
  unfold insertEntry evictLru emplaceFront
  have hlen : c.toGraphCache.order.length = c.list.map.length := by
    rw [toGraphCache_order, length_map, h.length_map]
  rw [hlen]
  by_cases hfull : c.list.map.length ≥ c.max_l1_entries
  · have hfull' : c.list.map.length ≥ c.toGraphCache.max_l1_entries := hfull
    rw [if_pos hfull, if_pos hfull']
    have hkey' : key ∉ c.list.popBack.keys := by
      intro hmem
      refine hkey ?_
      unfold LinkedMap.keys at hmem ⊢
      rw [order_popBack] at hmem
      exact (dropLast_sublist _).map _ |>.subset hmem
    refine ⟨h.popBack.pushFront hkey' _, ?_⟩
    have horder : entries (c.list.popBack.pushFront key entry)
        = toEntry ⟨c.list.popBack.next, key, entry⟩ :: (entries c.list).dropLast := by
      show toEntry _ :: c.list.popBack.order.map toEntry = _
      rw [order_popBack, map_dropLast]
      rfl
    simp only [toGraphCache, horder]
    rfl
  · have hfull' : ¬ c.list.map.length ≥ c.toGraphCache.max_l1_entries := hfull
    rw [if_neg hfull, if_neg hfull']
    exact ⟨h.pushFront hkey _, rfl⟩

/-- **`lookup`** does what it does without the map. -/
theorem lookup_refines (h : c.list.Coherent) (files : List (Package ε)) (key : GraphCacheKey)
    (now : ℕ) (answer : DiskAnswer) :
    (c.lookup files key now answer).2.list.Coherent ∧
      (c.lookup files key now answer).1 = (c.toGraphCache.lookup files key now answer).1 ∧
      (c.lookup files key now answer).2.toGraphCache
        = (c.toGraphCache.lookup files key now answer).2 := by
  unfold lookup GraphCache.lookup applyBucketing
  cases hit : c.list.iterator (c.toGraphCache.applyBucketing key) with
  | some it =>
    obtain ⟨n, hn, hk, rfl, hfind⟩ := find_some h hit
    have hnode : ((c.list.modify n.id fun entry => { entry with last_access_time := now }).splice
        n.id).node n.id = some { n with value := { n.value with last_access_time := now } } := by
      unfold LinkedMap.node
      rw [h.order_modify_splice hn]
      simp [Keyed.find]
    simp only [hit, hfind, hnode]
    refine ⟨(h.modify _ _).splice _, rfl, ?_⟩
    simp only [toGraphCache, moveToFront_refines h hn]
    rfl
  | none =>
    obtain ⟨hkey, hfind⟩ := find_none h hit
    simp only [hit, hfind]
    cases hfile : Keyed.find Package.path files
        (c.toGraphCache.applyBucketing key).diskPath with
    | none => exact ⟨h, rfl, rfl⟩
    | some package =>
      cases answer with
      | loaded =>
        obtain ⟨hco, href⟩ := insertEntry_refines
          (c := { c with l1_misses := c.l1_misses + 1, l2_hits := c.l2_hits + 1 }) h hkey
          ⟨package.executable, now⟩
        exact ⟨hco, rfl, href⟩
      | invalid => exact ⟨h, rfl, rfl⟩
      | noDevice => exact ⟨h, rfl, rfl⟩
      | unreadable => exact ⟨h, rfl, rfl⟩

/-- **`insert`** does what it does without the map. -/
theorem insert_refines (h : c.list.Coherent) (key : GraphCacheKey) (executable : Option ε)
    (now : ℕ) :
    (c.insert key executable now).2.list.Coherent ∧
      (c.insert key executable now).1 = (c.toGraphCache.insert key executable now).1 ∧
      (c.insert key executable now).2.toGraphCache
        = (c.toGraphCache.insert key executable now).2 := by
  unfold insert GraphCache.insert applyBucketing
  cases executable with
  | none => exact ⟨h, rfl, rfl⟩
  | some e =>
    cases hit : c.list.iterator (c.toGraphCache.applyBucketing key) with
    | some it =>
      obtain ⟨n, hn, hk, rfl, hfind⟩ := find_some h hit
      simp only [hit, hfind]
      refine ⟨(h.modify _ _).splice _, trivial, ?_⟩
      simp only [toGraphCache, moveToFront_refines h hn, moveToFront, toEntry, hk]
    | none =>
      obtain ⟨hkey, hfind⟩ := find_none h hit
      simp only [hit, hfind]
      obtain ⟨hco, href⟩ := insertEntry_refines h hkey ⟨e, now⟩
      exact ⟨hco, trivial, href⟩

/-- **The timer** drops the same entries without the map. -/
theorem timerHandler_refines (h : c.list.Coherent) (now : ℕ) :
    (c.timerHandler now).list.Coherent ∧
      (c.timerHandler now).toGraphCache = c.toGraphCache.timerHandler now := by
  obtain ⟨hco, horder⟩ := h.eraseEach
    (fun it => (now - it.value.last_access_time) / 1000000000 > 60) (nil_append _).symm
  refine ⟨hco, ?_⟩
  have hentries : entries (c.timerHandler now).list
      = (entries c.list).filter fun entry => ¬ age now entry > 60 := by
    show ((c.list.eraseEach _ c.list.order).order).map toEntry = (c.list.order.map toEntry).filter _
    rw [horder, nil_append, filter_map]
    congr 1
    refine filter_congr fun n _ => ?_
    rw [Bool.eq_iff_iff, Bool.not_eq_true', decide_eq_false_iff_not]
    exact decide_eq_true_iff.symm
  simp only [toGraphCache, GraphCache.timerHandler, hentries]
  rfl

/-- **`set_l1_capacity`** keeps the first entries, as many as there may be. -/
theorem setL1Capacity_refines (h : c.list.Coherent) (n : ℕ) :
    (c.setL1Capacity n).list.Coherent ∧
      (c.setL1Capacity n).toGraphCache = c.toGraphCache.setL1Capacity n := by
  refine ⟨h.popWhile _ _, ?_⟩
  have horder := h.popDownTo (if n > 0 then n else 1) (le_refl c.list.order.length)
  have hentries : entries (c.setL1Capacity n).list
      = (entries c.list).take (if n > 0 then n else 1) := by
    unfold entries setL1Capacity
    rw [← map_take, ← horder]
  simp only [toGraphCache, GraphCache.setL1Capacity, hentries]
  rfl

end GraphCache.Impl

/-! ### Runs -/

/-- The cache, with the effective keys looked up with success or inserted, latest first, and the
    numbers of lookups since the last clear and of those that lost the device. -/
structure L1Run (ε : Type) where
  impl : GraphCache.Impl ε
  uses : List GraphCacheKey := []
  lookups : ℕ := 0
  lost : ℕ := 0

/-- The sections under `mu`; a lookup finds the files of the moment. -/
inductive L1Action (ε : Type) where
  | lookup (key : GraphCacheKey) (now : ℕ) (files : List (Package ε)) (answer : DiskAnswer)
  | insert (key : GraphCacheKey) (executable : Option ε) (now : ℕ)
  | setL1Capacity (new_max_entries : ℕ)
  | setBucketingEnabled (enabled : Bool)
  | clearL1
  | timer (now : ℕ)
  deriving DecidableEq, Repr

namespace L1Run

open GraphCache (Impl)

variable {ε : Type}

/-- A new cache. -/
def init (max_l1_entries : ℕ) : L1Run ε := { impl := .new max_l1_entries }

/-- A lookup goes to the disk, finds a valid package there, and no device to load it for. -/
def losesDevice (c : Impl ε) (files : List (Package ε)) (key : GraphCacheKey)
    (answer : DiskAnswer) : Bool :=
  c.applyBucketing key ∉ c.list.keys &&
    (Keyed.find Package.path files (c.applyBucketing key).diskPath).isSome && answer = .noDevice

/-- The key that a call has used. -/
def used (result : Except MNException (Option ε)) (key : GraphCacheKey) : List GraphCacheKey :=
  match result with
  | .ok (some _) => [key]
  | _ => []

/-- One step. -/
def step (s : L1Run ε) : L1Action ε → Option (L1Run ε)
  | .lookup key now files answer =>
    let effective_key := s.impl.applyBucketing key
    some
      { impl := (s.impl.lookup files key now answer).2
        uses := used (s.impl.lookup files key now answer).1 effective_key ++ s.uses
        lookups := s.lookups + 1
        lost := if losesDevice s.impl files key answer then s.lost + 1 else s.lost }
  | .insert key executable now =>
    some { s with
      impl := (s.impl.insert key executable now).2
      uses := used (.ok executable) (s.impl.applyBucketing key) ++ s.uses }
  | .setL1Capacity new_max_entries => some { s with impl := s.impl.setL1Capacity new_max_entries }
  | .setBucketingEnabled enabled => some { s with impl := s.impl.setBucketingEnabled enabled }
  | .clearL1 => some { s with impl := s.impl.clearL1, lookups := 0, lost := 0 }
  | .timer now => some { s with impl := s.impl.timerHandler now }

/-- The keys in the order of the list. -/
def keys (s : L1Run ε) : List GraphCacheKey := s.impl.list.keys

/-- What a step does to the keys: some leave, one that is there comes to the front, or a new one is
    put in front, for the last one when the cache is full. -/
inductive Moves (s s' : L1Run ε) : Prop
  | leave (hkeys : s'.keys.Sublist s.keys) (huses : s'.uses = s.uses)
      (hsize : s.keys.length ≤ s.impl.max_l1_entries →
        s'.keys.length ≤ s'.impl.max_l1_entries)
      (hcap : 1 ≤ s.impl.max_l1_entries → 1 ≤ s'.impl.max_l1_entries)
  | touch (key : GraphCacheKey) (hmem : key ∈ s.keys)
      (hkeys : s'.keys = key :: s.keys.filter (· ≠ key)) (huses : s'.uses = key :: s.uses)
      (hcap : s'.impl.max_l1_entries = s.impl.max_l1_entries)
  | add (key : GraphCacheKey) (hnew : key ∉ s.keys)
      (hkeys : s'.keys = key ::
        if s.keys.length ≥ s.impl.max_l1_entries then s.keys.dropLast else s.keys)
      (huses : s'.uses = key :: s.uses)
      (hcap : s'.impl.max_l1_entries = s.impl.max_l1_entries)

variable {s s' : L1Run ε}

theorem lookup_capacity (c : Impl ε) (files : List (Package ε)) (key : GraphCacheKey) (now : ℕ)
    (answer : DiskAnswer) : (c.lookup files key now answer).2.max_l1_entries =
      c.max_l1_entries := by
  unfold Impl.lookup
  dsimp only
  split
  · rfl
  · split <;> rfl

theorem insert_capacity (c : Impl ε) (key : GraphCacheKey) (executable : Option ε) (now : ℕ) :
    (c.insert key executable now).2.max_l1_entries = c.max_l1_entries := by
  unfold Impl.insert
  split
  · rfl
  · dsimp only
    split <;> rfl

/-- The keys when room has been made. -/
theorem map_key_evictLru (c : Impl ε) :
    c.toGraphCache.evictLru.order.map CacheEntry.key
      = if c.list.keys.length ≥ c.max_l1_entries then c.list.keys.dropLast else c.list.keys := by
  have hlen : c.toGraphCache.order.length = c.list.keys.length := by
    rw [← Impl.map_key_order, length_map]
  unfold evictLru
  rw [hlen]
  split_ifs with hfull hfull' hfull'
  · rw [← Impl.map_key_order]
    exact map_dropLast
  · exact absurd hfull hfull'
  · exact absurd hfull' hfull
  · exact Impl.map_key_order c

variable {key : GraphCacheKey}

/-- A lookup moves the key that it finds, and adds the one that it loads. -/
theorem lookup_moves (h : s.impl.list.Coherent) {now : ℕ}
    {files : List (Package ε)} {answer : DiskAnswer}
    (hstep : s.step (.lookup key now files answer) = some s') :
    s'.impl.list.Coherent ∧ Moves s s' := by
  obtain rfl := Option.some.inj hstep
  obtain ⟨hco, hres, href⟩ := Impl.lookup_refines h files key now answer
  have hcap := lookup_capacity s.impl files key now answer
  have hkeys : (s.impl.lookup files key now answer).2.list.keys
      = (s.impl.toGraphCache.lookup files key now answer).2.order.map CacheEntry.key := by
    rw [← href, Impl.map_key_order]
  refine ⟨hco, ?_⟩
  rcases s.impl.toGraphCache.lookup_cases files key now answer with
    ⟨entry, hfind, hok, horder⟩ | ⟨hnone, ⟨package, -, -, hok, horder⟩ | ⟨hno, horder⟩⟩
  · have hkey : entry.key = s.impl.applyBucketing key := Keyed.find_key hfind
    have hmem : entry.key ∈ s.impl.list.keys := by
      rw [← Impl.map_key_order]
      exact mem_map_of_mem (Keyed.find_mem hfind)
    refine .touch entry.key hmem ?_ ?_ hcap
    · rw [horder, Keyed.insert, map_cons, Keyed.map_key_erase, Impl.map_key_order] at hkeys
      exact hkeys
    · have hused : used (s.impl.lookup files key now answer).1 (s.impl.applyBucketing key)
          = [entry.key] := by
        rw [hres, hok, hkey]
        rfl
      exact congrArg (· ++ s.uses) hused
  · have hnew : s.impl.applyBucketing key ∉ s.impl.list.keys := by
      rw [← Impl.map_key_order]
      intro hmem
      obtain ⟨entry, hentry, hk⟩ := mem_map.mp hmem
      exact Keyed.find_eq_none.mp hnone entry hentry hk
    refine .add (s.impl.applyBucketing key) hnew ?_ ?_ hcap
    · rw [horder, map_cons, map_key_evictLru] at hkeys
      exact hkeys
    · have hused : used (s.impl.lookup files key now answer).1 (s.impl.applyBucketing key)
          = [s.impl.applyBucketing key] := by
        rw [hres, hok]
        rfl
      exact congrArg (· ++ s.uses) hused
  · have hsame : (s.impl.lookup files key now answer).2.list.keys = s.impl.list.keys := by
      rw [hkeys, horder, Impl.map_key_order]
    have hsub : (s.impl.lookup files key now answer).2.list.keys.Sublist s.impl.list.keys := by
      rw [hsame]
    refine .leave hsub ?_ ?_ fun hle => hle.trans_eq hcap.symm
    · have hused : used (s.impl.lookup files key now answer).1
        (s.impl.applyBucketing key) = [] := by
        rw [hres]
        unfold used
        split
        · rename_i e heq
          exact absurd heq (hno e)
        · rfl
      exact congrArg (· ++ s.uses) hused
    · intro hle
      exact (congrArg length hsame).trans_le (hle.trans_eq hcap.symm)

/-- An insertion moves the key, or adds it. -/
theorem insert_moves (h : s.impl.list.Coherent) {executable : Option ε}
    {now : ℕ} (hstep : s.step (.insert key executable now) = some s') :
    s'.impl.list.Coherent ∧ Moves s s' := by
  obtain rfl := Option.some.inj hstep
  obtain ⟨hco, -, href⟩ := Impl.insert_refines h key executable now
  have hcap := insert_capacity s.impl key executable now
  have hkeys : (s.impl.insert key executable now).2.list.keys
      = (s.impl.toGraphCache.insert key executable now).2.order.map CacheEntry.key := by
    rw [← href, Impl.map_key_order]
  refine ⟨hco, ?_⟩
  cases executable with
  | none => exact .leave (Sublist.refl _) rfl (fun hle => hle) fun hle => hle
  | some e =>
    rcases s.impl.toGraphCache.insert_cases key e now with ⟨entry, hfind, heq⟩ | ⟨hnone, heq⟩
    · have hkey : entry.key = s.impl.applyBucketing key := Keyed.find_key hfind
      have hmem : s.impl.applyBucketing key ∈ s.impl.list.keys := by
        rw [← hkey, ← Impl.map_key_order]
        exact mem_map_of_mem (Keyed.find_mem hfind)
      refine .touch (s.impl.applyBucketing key) hmem ?_ rfl hcap
      rw [heq, moveToFront, Keyed.insert, map_cons, Keyed.map_key_erase,
        Impl.map_key_order] at hkeys
      exact hkeys
    · have hnew : s.impl.applyBucketing key ∉ s.impl.list.keys := by
        rw [← Impl.map_key_order]
        intro hmem
        obtain ⟨entry, hentry, hk⟩ := mem_map.mp hmem
        exact Keyed.find_eq_none.mp hnone entry hentry hk
      refine .add (s.impl.applyBucketing key) hnew ?_ rfl hcap
      rw [heq, emplaceFront, map_cons, map_key_evictLru] at hkeys
      exact hkeys

variable {a : L1Action ε}

/-- **One step**, on the containers. -/
theorem step_spec (h : s.impl.list.Coherent) (hstep : s.step a = some s') :
    s'.impl.list.Coherent ∧ Moves s s' := by
  cases a with
  | lookup key now files answer => exact lookup_moves h hstep
  | insert key executable now => exact insert_moves h hstep
  | setL1Capacity n =>
    obtain rfl := Option.some.inj hstep
    have horder := h.popDownTo (if n > 0 then n else 1) (le_refl _)
    have hkeys : (s.impl.setL1Capacity n).list.keys =
        s.impl.list.keys.take (if n > 0 then n else 1) := by
      unfold LinkedMap.keys
      rw [← map_take, ← horder]
      rfl
    have hsub : (s.impl.setL1Capacity n).list.keys.Sublist s.impl.list.keys := by
      rw [hkeys]
      exact take_sublist _ _
    refine ⟨h.popWhile _ _, .leave hsub rfl (fun _ => ?_) fun _ => ?_⟩
    · exact (congrArg length hkeys).trans_le (length_take_le _ _)
    · show 1 ≤ if n > 0 then n else 1
      split_ifs with hpos
      · exact hpos
      · exact le_refl 1
  | setBucketingEnabled enabled =>
    obtain rfl := Option.some.inj hstep
    exact ⟨h, .leave (Sublist.refl _) rfl (fun hle => hle) fun hle => hle⟩
  | clearL1 =>
    obtain rfl := Option.some.inj hstep
    exact ⟨.clear _, .leave (nil_sublist _) rfl (fun _ => Nat.zero_le _) fun hle => hle⟩
  | timer now =>
    obtain rfl := Option.some.inj hstep
    obtain ⟨hco, horder⟩ := h.eraseEach
      (fun it => (now - it.value.last_access_time) / 1000000000 > 60) (nil_append _).symm
    have hsub : (s.impl.timerHandler now).list.keys.Sublist s.impl.list.keys := by
      refine Sublist.map _ ?_
      show Sublist (s.impl.list.eraseEach _ s.impl.list.order).order _
      rw [horder, nil_append]
      exact filter_sublist
    exact ⟨hco, .leave hsub rfl (fun hle => hsub.length_le.trans hle) fun hle => hle⟩

/-! ### The counters -/

/-- Every lookup has been counted in the memory cache, and every miss there on disk, but for those
    that lost the device. -/
structure Counted (s : L1Run ε) : Prop where
  lookups : s.impl.l1_hits + s.impl.l1_misses = UInt64.ofNat s.lookups
  misses : s.impl.l1_misses = s.impl.l2_hits + s.impl.l2_misses + UInt64.ofNat s.lost

/-- A lookup counts once in the memory cache, and after a miss once on disk, unless it loses the
    device. -/
theorem lookup_counters {c : Impl ε} (hco : c.list.Coherent) (files : List (Package ε))
    (key : GraphCacheKey) (now : ℕ) (answer : DiskAnswer) :
    (c.lookup files key now answer).2.l1_hits + (c.lookup files key now answer).2.l1_misses
        = c.l1_hits + c.l1_misses + 1 ∧
      (c.lookup files key now answer).2.l1_misses + (c.l2_hits + c.l2_misses)
        = c.l1_misses + ((c.lookup files key now answer).2.l2_hits
            + (c.lookup files key now answer).2.l2_misses)
          + if losesDevice c files key answer then 1 else 0 := by
  cases hit : c.list.iterator (c.applyBucketing key) with
  | some it =>
    obtain ⟨n, hn, hk, -⟩ := hco.iterator_eq_some.mp hit
    have hmem : c.applyBucketing key ∈ c.list.keys := hk ▸ mem_map_of_mem hn
    have hlost : losesDevice c files key answer = false := by
      simp [losesDevice, hmem]
    simp only [Impl.lookup, hit, hlost]
    constructor <;> grind
  | none =>
    have hkey := (Impl.find_none hco hit).1
    simp only [Impl.lookup, hit]
    cases hfile : Keyed.find Package.path files (c.applyBucketing key).diskPath with
    | none =>
      have hlost : losesDevice c files key answer = false := by
        simp [losesDevice, hfile]
      simp only [hlost]
      constructor <;> grind
    | some package =>
      have hlost : losesDevice c files key answer = decide (answer = .noDevice) := by
        simp [losesDevice, hfile, hkey]
      simp only [hlost]
      -- of the four answers of the disk only the one without a device is not counted there
      cases answer with
      | invalid | unreadable | noDevice => constructor <;> grind
      | loaded =>
        simp only [Impl.insertEntry]
        constructor <;> grind

theorem Counted.lookup (h : Counted s) (hco : s.impl.list.Coherent) {now : ℕ}
    {files : List (Package ε)} {answer : DiskAnswer}
    (hstep : s.step (.lookup key now files answer) = some s') : Counted s' := by
  obtain rfl := Option.some.inj hstep
  obtain ⟨hlookups, hmisses⟩ := h
  obtain ⟨hfirst, hsecond⟩ := lookup_counters hco files key now answer
  have hsucc : ∀ n : ℕ, UInt64.ofNat (n + 1) = UInt64.ofNat n + 1 := fun n => UInt64.ofNat_add n 1
  refine ⟨?_, ?_⟩
  · show _ = UInt64.ofNat (s.lookups + 1)
    rw [hfirst, hlookups, hsucc]
  · show (s.impl.lookup files key now answer).2.l1_misses
      = (s.impl.lookup files key now answer).2.l2_hits
        + (s.impl.lookup files key now answer).2.l2_misses
        + UInt64.ofNat (if losesDevice s.impl files key answer then s.lost + 1 else s.lost)
    split_ifs at hsecond ⊢ with hlost
    · rw [hsucc]
      grind
    · grind

/-- The other sections do not touch the counters, or reset them. -/
theorem Counted.step (h : Counted s) (hco : s.impl.list.Coherent)
    (hstep : L1Run.step s a = some s') : Counted s' := by
  cases a with
  | lookup key now files answer => exact h.lookup hco hstep
  | insert key executable now =>
    obtain rfl := Option.some.inj hstep
    have hcounters : ∀ c : Impl ε, (c.insert key executable now).2.l1_hits = c.l1_hits ∧
        (c.insert key executable now).2.l1_misses = c.l1_misses ∧
        (c.insert key executable now).2.l2_hits = c.l2_hits ∧
        (c.insert key executable now).2.l2_misses = c.l2_misses := by
      intro c
      unfold Impl.insert
      split
      · exact ⟨rfl, rfl, rfl, rfl⟩
      · dsimp only
        split <;> exact ⟨rfl, rfl, rfl, rfl⟩
    obtain ⟨h₁, h₂, h₃, h₄⟩ := hcounters s.impl
    exact ⟨by simpa only [h₁, h₂] using h.lookups, by simpa only [h₂, h₃, h₄] using h.misses⟩
  | clearL1 =>
    obtain rfl := Option.some.inj hstep
    exact ⟨rfl, rfl⟩
  | setL1Capacity n | setBucketingEnabled enabled | timer now =>
    obtain rfl := Option.some.inj hstep
    exact ⟨h.lookups, h.misses⟩

/-! ### The invariant -/

/-- What holds in every run. -/
structure L1Inv (s : L1Run ε) : Prop where
  coherent : s.impl.list.Coherent
  capacity : 1 ≤ s.impl.max_l1_entries
  size : s.keys.length ≤ s.impl.max_l1_entries
  ranked : Ranked s.uses s.keys
  counted : Counted s

theorem L1Inv.init (n : ℕ) : L1Inv (init n : L1Run ε) := by
  refine ⟨.empty, ?_, Nat.zero_le _, .nil _, rfl, rfl⟩
  show 1 ≤ if n > 0 then n else 1
  split_ifs with hpos
  · exact hpos
  · exact le_refl 1

/-- **One step.** -/
theorem L1Inv.step (h : L1Inv s) (hstep : L1Run.step s a = some s') :
    L1Inv s' := by
  obtain ⟨hco, hmoves⟩ := step_spec h.coherent hstep
  have hcounted := h.counted.step h.coherent hstep
  cases hmoves with
  | leave hkeys huses hsize hcap =>
    exact ⟨hco, hcap h.capacity, hsize h.size, huses ▸ h.ranked.sublist hkeys, hcounted⟩
  | touch key hmem hkeys huses hcap =>
    refine ⟨hco, hcap ▸ h.capacity, ?_, ?_, hcounted⟩
    · -- the key is counted once, in front
      have hlen : (s.keys.filter (· ≠ key)).length < s.keys.length := by
        refine length_filter_lt_length_iff_exists.mpr ⟨key, hmem, ?_⟩
        simp
      have hsize := h.size
      rw [hkeys, hcap, length_cons]
      omega
    · rw [hkeys, huses]
      exact h.ranked.use key
  | add key hnew hkeys huses hcap =>
    refine ⟨hco, hcap ▸ h.capacity, ?_, ?_, hcounted⟩
    · have hsize := h.size
      have hpos := h.capacity
      rw [hkeys, hcap, length_cons]
      split_ifs with hfull
      · rw [length_dropLast]
        omega
      · omega
    · rw [hkeys, huses]
      split_ifs with hfull
      · refine (h.ranked.sublist (dropLast_sublist _)).push fun hmem => hnew ?_
        exact (dropLast_sublist _).subset hmem
      · exact h.ranked.push hnew

/-- The keys that are in the memory cache of the first state only. -/
def leaving (s s' : L1Run ε) : List GraphCacheKey := s.keys.filter (· ∉ s'.keys)

/-- A step that adds a key evicts none while there is room, and at capacity exactly the key that was
    used before all others. -/
def EvictsLeastRecent (s s' : L1Run ε) : Prop :=
  ∀ key, key ∉ s.keys → key ∈ s'.keys →
    (s.keys.length < s.impl.max_l1_entries → leaving s s' = []) ∧
    (s.keys.length = s.impl.max_l1_entries → ∃ old, leaving s s' = [old] ∧
      ∀ other ∈ s.keys, other ≠ old → age s.uses other < age s.uses old)

theorem L1Inv.evicts (h : L1Inv s) (hstep : L1Run.step s a = some s') :
    EvictsLeastRecent s s' := by
  intro key hout hin
  cases (step_spec h.coherent hstep).2 with
  | leave hkeys huses hsize hcap => exact absurd (hkeys.subset hin) hout
  | touch k hmem hkeys huses hcap =>
    rw [hkeys] at hin
    rcases mem_cons.mp hin with rfl | hin
    · exact absurd hmem hout
    · exact absurd (mem_of_mem_filter hin) hout
  | add k hnew hkeys huses hcap =>
    unfold leaving
    rw [hkeys]
    refine ⟨fun hroom => ?_, fun hfull => ?_⟩
    · rw [if_neg (by omega)]
      refine filter_eq_nil_iff.mpr fun other hother => ?_
      simp [hother]
    · rw [if_pos (by omega)]
      have hne : s.keys ≠ [] := by
        intro hnil
        have hpos := h.capacity
        rw [hnil, length_nil] at hfull
        omega
      exact h.ranked.evict_last hne hnew

/-- What is claimed of a state: the containers hold the same keys once each, the capacity is at
    least one and bounds the size, the next step evicts as it should, and the counters add up. -/
structure L1Invariant (s : L1Run ε) : Prop where
  coherent : s.impl.list.Coherent
  capacity : 1 ≤ s.impl.max_l1_entries
  size : s.impl.list.map.length ≤ s.impl.max_l1_entries
  evicts : ∀ a s', L1Run.step s a = some s' → EvictsLeastRecent s s'
  misses : s.impl.l1_misses = s.impl.l2_hits + s.impl.l2_misses
  lookups : s.impl.l1_hits + s.impl.l1_misses = UInt64.ofNat s.lookups

/-- **The memory cache and its statistics.**  In every run the containers hold the same keys once
    each, the size never exceeds the capacity, a key that is added at capacity takes the place of
    the one used least recently, and all lookups since the last clear are counted.  The misses are
    the hits and misses on disk exactly if the number of lookups since then that found a valid
    package and no device to load it for vanishes, as a `uint64_t`. -/
theorem l1_cache_invariant {n : ℕ} (h : Reaches step (init n) s) :
    L1Invariant s ↔ UInt64.ofNat s.lost = 0 := by
  have hinv : L1Inv s := h.invariant (.init n) fun _ _ _ hu _ hstep => hu.step hstep
  have hmisses := hinv.counted.misses
  constructor
  · intro hclaim
    have heq := hclaim.misses
    grind
  · intro hlost
    refine ⟨hinv.coherent, hinv.capacity, ?_, fun a s' hstep => hinv.evicts hstep, ?_,
      hinv.counted.lookups⟩
    · have hlen : s.impl.list.map.length = s.keys.length := by
        rw [hinv.coherent.length_map]
        exact (length_map _).symm
      rw [hlen]
      exact hinv.size
    · rw [hmisses, hlost, UInt64.add_zero]

/-- A section on the cache without its map. -/
def runSection (c : GraphCache ε) : L1Action ε → GraphCache ε
  | .lookup key now files answer => (c.lookup files key now answer).2
  | .insert key executable now => (c.insert key executable now).2
  | .setL1Capacity new_max_entries => c.setL1Capacity new_max_entries
  | .setBucketingEnabled enabled => c.setBucketingEnabled enabled
  | .clearL1 => c.clearL1
  | .timer now => c.timerHandler now

/-- **Step.**  A section finds and leaves containers that agree, and does what it does without the
    map. -/
theorem step_refines (h : s.impl.list.Coherent) (a : L1Action ε) :
    ∃ s', step s a = some s' ∧ s'.impl.list.Coherent ∧
      s'.impl.toGraphCache = runSection s.impl.toGraphCache a := by
  cases a with
  | lookup key now files answer =>
    obtain ⟨hco, -, href⟩ := Impl.lookup_refines h files key now answer
    exact ⟨_, rfl, hco, href⟩
  | insert key executable now =>
    obtain ⟨hco, -, href⟩ := Impl.insert_refines h key executable now
    exact ⟨_, rfl, hco, href⟩
  | setL1Capacity n => exact ⟨_, rfl, Impl.setL1Capacity_refines h n⟩
  | setBucketingEnabled enabled => exact ⟨_, rfl, h, rfl⟩
  | clearL1 => exact ⟨_, rfl, .clear _, rfl⟩
  | timer now => exact ⟨_, rfl, Impl.timerHandler_refines h now⟩

/-- **The list and the map refine the list alone**: after any sections the next lookup answers what
    it would without the map. -/
theorem impl_refines_cache (n : ℕ) (actions : List (L1Action ε)) :
    ∃ s, exec step (init n) actions = some s ∧ s.impl.list.Coherent ∧
      s.impl.toGraphCache = actions.foldl runSection (.new n) ∧
      ∀ files key now answer, (s.impl.lookup files key now answer).1
        = ((actions.foldl runSection (.new n)).lookup files key now answer).1 := by
  have hrun : ∀ s : L1Run ε, s.impl.list.Coherent → ∃ s', exec step s actions = some s' ∧
      s'.impl.list.Coherent ∧
      s'.impl.toGraphCache = actions.foldl runSection s.impl.toGraphCache := by
    induction actions with
    | nil => exact fun s h => ⟨s, rfl, h, rfl⟩
    | cons a actions ih =>
      intro s h
      obtain ⟨u, hu, hco, href⟩ := step_refines h a
      obtain ⟨s', hs', hco', href'⟩ := ih u hco
      refine ⟨s', ?_, hco', by rw [href', href, foldl_cons]⟩
      rw [exec, hu]
      exact hs'
  obtain ⟨s, hs, hco, href⟩ := hrun (init n) .empty
  refine ⟨s, hs, hco, href, fun files key now answer => ?_⟩
  rw [(Impl.lookup_refines hco files key now answer).2.1, href]
  rfl

/-- A miss, an insertion, and an insertion at capacity. -/
def fullCache : List (L1Action ℕ) :=
  [.lookup CacheSystem.smallKey 0 [] .invalid, .insert CacheSystem.smallKey (some 1) 1,
    .insert CacheSystem.largeKey (some 2) 2]

theorem l1_cache_invariant_evicting :
    ∃ s : L1Run ℕ, s.keys = [CacheSystem.largeKey] ∧ L1Invariant s := by
  have hsome : (exec step (init 1) fullCache).any (fun s => decide
      (s.keys = [CacheSystem.largeKey] ∧ UInt64.ofNat s.lost = 0)) = true := by
    decide
  obtain ⟨s, hs, hP⟩ := (Option.any_eq_true _ _).mp hsome
  obtain ⟨hkeys, hlost⟩ := of_decide_eq_true hP
  exact ⟨s, hkeys, (l1_cache_invariant (reaches_exec hs)).mpr hlost⟩

/-- The device is gone when a valid package is to be loaded: `deserialize` throws, and the miss is
    counted nowhere on disk. -/
theorem lost_device_uncounted :
    ∃ s : L1Run ℕ, Reaches step (init 1) s ∧ s.impl.l1_misses ≠ s.impl.l2_hits +
      s.impl.l2_misses := by
  refine ⟨_, .tail .refl trivial (a := .lookup CacheSystem.smallKey 0
    [⟨CacheSystem.smallKey.diskPath, 1, CacheSystem.smallKey⟩] .noDevice) rfl, ?_⟩
  decide

end L1Run

end MetalNative
