import MetalNative.Memory.AllocatorSafety
import Mathlib.Algebra.Order.BigOperators.Group.List

namespace MetalNative

open Run List MetalSmartAllocator AllocatedBlock

/-!
# The statistics of `MetalSmartAllocator`

The allocator is run together with a record of its past: every handle value that a call has left
with the client, the handles as `allocate` returned them, and the values that `allocated_bytes`
has had.  No condition is put on the calls or on Metal: an allocation may be refused, a copy of a
handle may be deallocated twice, and a heap may throw in the middle of `empty_cache`.

* `bucketKey_inj` — on size classes the key of a bucket determines the class and the mode.
* `AuditInv` — the invariant, and `AuditInv.allocate`, `AuditInv.deallocate`,
  `AuditInv.emptyCache`, that the calls keep it.
* `allocator_accounts` — the statistics agree with the blocks in every reachable state.
-/

namespace MetalSmartAllocator

/-! ### Buckets -/

/-- The sizes that `next_size_class` returns. -/
def IsClass (sc : ℕ) : Prop := 0 < sc ∧ sc ≤ 2 ^ 63

theorem isClass_nextSizeClass {size sc : ℕ} (h : nextSizeClass size = some sc) : IsClass sc :=
  (nextSizeClass_spec h).2

/-- The shifted class is even, so the low bit is the mode. -/
theorem bucketKey_eq (sc : ℕ) (mode : StorageMode) :
    bucketKey sc mode = 2 * (sc % 2 ^ 63) + if mode = .Private then 1 else 0 := by
  have hshift : (sc <<< 1) % sizeTRange = 2 * (sc % 2 ^ 63) := by
    rw [Nat.shiftLeft_eq]
    unfold sizeTRange
    omega
  unfold bucketKey
  rw [hshift]
  split_ifs
  · have h := Nat.two_pow_add_eq_or_of_lt (i := 1) (b := 1) (by omega) (sc % 2 ^ 63)
    rw [pow_one] at h
    exact h.symm
  · simp

/-- On size classes the key determines the class and the mode. -/
theorem bucketKey_inj {sc sc' : ℕ} {mode mode' : StorageMode} (hsc : IsClass sc)
    (hsc' : IsClass sc') (h : bucketKey sc mode = bucketKey sc' mode') :
    sc = sc' ∧ mode = mode' := by
  rw [bucketKey_eq, bucketKey_eq] at h
  unfold IsClass at hsc hsc'
  -- the class `2 ^ 63` is shifted out, but no class is zero
  cases mode <;> cases mode' <;> simp at h ⊢ <;> omega

/-! ### The blocks in the free lists -/

variable {lists : List (ℕ × List CachedBlock)} {key : ℕ} {bucket : List CachedBlock}

/-- The bytes of the cached blocks. -/
def cachedClassBytes (lists : List (ℕ × List CachedBlock)) : ℕ :=
  (lists.flatMap fun entry => entry.2.map CachedBlock.sizeClass).sum

/-- Every cached block is in the bucket of its class and mode. -/
def Bucketed (lists : List (ℕ × List CachedBlock)) : Prop :=
  ∀ entry ∈ lists, ∀ c ∈ entry.2, IsClass c.sizeClass ∧ entry.1 = bucketKey c.sizeClass c.mode

/-- The bytes, one bucket taken out. -/
theorem cachedClassBytes_erase (hl : Keyed.Distinct Prod.fst lists)
    (hf : Keyed.find Prod.fst lists key = some (key, bucket)) :
    cachedClassBytes lists = (bucket.map CachedBlock.sizeClass).sum
      + cachedClassBytes (Keyed.erase Prod.fst lists key) := by
  have hperm := (hl.perm_cons_erase hf).flatMap_right fun entry =>
    entry.2.map CachedBlock.sizeClass
  unfold cachedClassBytes
  rw [hperm.sum_eq, flatMap_cons, sum_append]

/-- The bytes, one bucket replaced. -/
theorem cachedClassBytes_insert :
    cachedClassBytes (Keyed.insert Prod.fst lists (key, bucket))
      = (bucket.map CachedBlock.sizeClass).sum
        + cachedClassBytes (Keyed.erase Prod.fst lists key) := by
  unfold cachedClassBytes Keyed.insert
  rw [flatMap_cons, sum_append]

theorem Bucketed.insert (h : Bucketed lists)
    (hb : ∀ c ∈ bucket, IsClass c.sizeClass ∧ key = bucketKey c.sizeClass c.mode) :
    Bucketed (Keyed.insert Prod.fst lists (key, bucket)) := by
  intro entry he
  rcases Keyed.mem_insert.mp he with rfl | ⟨he, -⟩
  · exact hb
  · exact h entry he

/-- A cache hit hands out a block of the requested class and mode. -/
theorem takeCached_class {a a' : MetalSmartAllocator} {sc : ℕ} {mode : StorageMode}
    {hb : HeapBlock} (hl : Keyed.Distinct Prod.fst a.freeLists) (hbuckets : Bucketed a.freeLists)
    (hsc : IsClass sc) (h : a.takeCached sc (bucketKey sc mode) = some (hb, a')) :
    (∃ entry ∈ a.freeLists, ∃ c ∈ entry.2, c.heapBlock = hb ∧ c.sizeClass = sc ∧ c.mode = mode) ∧
      cachedClassBytes a.freeLists = cachedClassBytes a'.freeLists + sc ∧
      Keyed.Distinct Prod.fst a'.freeLists ∧ Bucketed a'.freeLists ∧
      a'.liveBlocks = a.liveBlocks ∧ a'.nextId = a.nextId ∧
      a'.stats = { a.stats with
        cachedBytes := a.stats.cachedBytes - UInt64.ofNat sc
        cacheHitCount := a.stats.cacheHitCount + 1 } := by
  unfold takeCached at h
  split at h
  · cases h
  · rename_i k bucket hf
    split at h
    · cases h
    · rename_i cached hlast
      simp only [Option.some.injEq, Prod.mk.injEq] at h
      obtain ⟨rfl, rfl⟩ := h
      obtain rfl : k = bucketKey sc mode := Keyed.find_key hf
      have hmem := Keyed.find_mem hf
      have hcached := mem_of_getLast? hlast
      obtain ⟨hclass, hkey⟩ := hbuckets _ hmem cached hcached
      obtain ⟨hsame, hmode⟩ := bucketKey_inj hsc hclass hkey
      refine ⟨⟨_, hmem, cached, hcached, rfl, hsame.symm, hmode.symm⟩, ?_, hl.insert _,
        hbuckets.insert fun c hc => hbuckets _ hmem c (dropLast_subset _ hc), rfl, rfl, rfl⟩
      -- the bucket is its last block and the rest
      have hbucket : (bucket.map CachedBlock.sizeClass).sum
          = (bucket.dropLast.map CachedBlock.sizeClass).sum + sc := by
        conv_lhs => rw [← dropLast_append_getLast? cached hlast]
        simp [hsame]
      show cachedClassBytes a.freeLists = cachedClassBytes (Keyed.insert _ _ _) + sc
      rw [cachedClassBytes_erase hl hf, cachedClassBytes_insert, hbucket]
      omega

/-- Putting a block into its bucket. -/
theorem cachedClassBytes_push {a : MetalSmartAllocator} (hl : Keyed.Distinct Prod.fst a.freeLists)
    (c : CachedBlock) (key : ℕ) :
    cachedClassBytes (Keyed.insert Prod.fst a.freeLists (key, a.bucket key ++ [c]))
      = cachedClassBytes a.freeLists + c.sizeClass := by
  rw [cachedClassBytes_insert, map_append, sum_append]
  unfold bucket
  cases hf : Keyed.find Prod.fst a.freeLists key with
  | none =>
    rw [Keyed.erase_eq_self hf]
    simp
    omega
  | some p =>
    rw [find_fst hf] at hf
    rw [cachedClassBytes_erase hl hf]
    simp
    omega

theorem Bucketed.push {a : MetalSmartAllocator} (h : Bucketed a.freeLists) {c : CachedBlock}
    (hc : IsClass c.sizeClass) (hkey : key = bucketKey c.sizeClass c.mode) :
    Bucketed (Keyed.insert Prod.fst a.freeLists (key, a.bucket key ++ [c])) := by
  refine h.insert fun c' hc' => ?_
  rcases mem_append.mp hc' with hold | hnew
  · unfold bucket at hold
    cases hf : Keyed.find Prod.fst a.freeLists key with
    | none => simp [hf] at hold
    | some p =>
      rw [hf] at hold
      have hclass := h p (Keyed.find_mem hf) c' hold
      rwa [Keyed.find_key hf] at hclass
  · rw [mem_singleton.mp hnew]
    exact ⟨hc, hkey⟩

/-- Giving blocks back clears them in place: their classes and modes stay, also where a heap
    throws. -/
theorem drainBucket_meta (bucket : List CachedBlock) (m : HeapManager) :
    (drainBucket m bucket).2.2.map (fun c => (c.sizeClass, c.mode))
      = bucket.map fun c => (c.sizeClass, c.mode) := by
  induction bucket generalizing m with
  | nil => rfl
  | cons cached rest ih =>
    unfold drainBucket
    rcases m.deallocate cached.heapBlock with ⟨e | cleared, m'⟩
    · rfl
    · simp [ih]

/-- The keys, the classes and the modes. -/
def shape (lists : List (ℕ × List CachedBlock)) : List (ℕ × List (ℕ × StorageMode)) :=
  lists.map fun entry => (entry.1, entry.2.map fun c => (c.sizeClass, c.mode))

theorem shape_drain (lists : List (ℕ × List CachedBlock)) (m : HeapManager) :
    shape (drain m lists).2.2 = shape lists := by
  unfold shape
  induction lists generalizing m with
  | nil => rfl
  | cons entry lists ih =>
    obtain ⟨key, bucket⟩ := entry
    have hmeta := drainBucket_meta bucket m
    unfold drain
    generalize drainBucket m bucket = r at hmeta ⊢
    obtain ⟨_ | e, m', bucket'⟩ := r
    · simp only [map_cons] at hmeta ⊢
      rw [ih, hmeta]
    · simp only [map_cons]
      rw [hmeta]

variable {lists' : List (ℕ × List CachedBlock)}

/-- Only the keys, the classes and the modes matter. -/
theorem Bucketed.congr (h : Bucketed lists)
    (hshape : shape lists' = shape lists) : Bucketed lists' := by
  intro entry he c hc
  have hmem := mem_map_of_mem
    (f := fun entry : ℕ × List CachedBlock => (entry.1, entry.2.map fun c => (c.sizeClass, c.mode)))
    he
  change _ ∈ shape lists' at hmem
  rw [hshape] at hmem
  obtain ⟨entry', he', heq⟩ := mem_map.mp hmem
  obtain ⟨hkey, hlist⟩ := Prod.mk.inj heq
  have hc' : (c.sizeClass, c.mode) ∈ entry'.2.map fun c => (c.sizeClass, c.mode) := by
    rw [hlist]
    exact mem_map_of_mem hc
  obtain ⟨d, hd, hdc⟩ := mem_map.mp hc'
  obtain ⟨hclass, hmode⟩ := Prod.mk.inj hdc
  have hd' := h entry' he' d hd
  rwa [hclass, hmode, hkey] at hd'

theorem cachedClassBytes_congr
    (hshape : shape lists' = shape lists) :
    cachedClassBytes lists' = cachedClassBytes lists := by
  have hclasses : ∀ l : List (ℕ × List CachedBlock), cachedClassBytes l
      = ((shape l).flatMap fun entry => entry.2.map Prod.fst).sum := by
    intro l
    unfold cachedClassBytes shape
    simp [flatMap_map, Function.comp_def]
  rw [hclasses, hshape, ← hclasses]

theorem distinct_congr
    (hl : Keyed.Distinct Prod.fst lists) (hshape : shape lists' = shape lists) :
    Keyed.Distinct Prod.fst lists' := by
  have hkeys := congrArg (map Prod.fst) hshape
  unfold shape at hkeys
  simp only [map_map, Function.comp_def] at hkeys
  unfold Keyed.Distinct at hl ⊢
  rwa [show lists'.map Prod.fst = lists.map Prod.fst from hkeys]

end MetalSmartAllocator

/-! ### The allocator and its past -/

/-- The allocator, every handle value that a call has left with the client, the handles as
    `allocate` returned them, and what `allocated_bytes` has been. -/
structure AllocAudit where
  alloc : MetalSmartAllocator := {}
  handles : List AllocatedBlock := []
  issued : List AllocatedBlock := []
  history : List UInt64 := [0]
  deriving DecidableEq, Repr

/-- One call.  The client keeps a copy of every handle, also of the ones it gives back, and may
    use any of them; a call that throws leaves the handle as it was. -/
def auditStep (dev : MTLDevice) (s : AllocAudit) : AllocCall → Option AllocAudit
  | .allocate nbytes mode =>
    (s.alloc.allocate dev nbytes mode).map fun
      | (.ok h, a) => ⟨a, h :: s.handles, h :: s.issued, a.stats.allocatedBytes :: s.history⟩
      | (.error _, a) => ⟨a, s.handles, s.issued, a.stats.allocatedBytes :: s.history⟩
  | .deallocate h =>
    if h ∈ s.handles then
      match s.alloc.deallocate h with
      | (.ok h', a) => some ⟨a, h' :: s.handles, s.issued, a.stats.allocatedBytes :: s.history⟩
      | (.error _, a) => some ⟨a, s.handles, s.issued, a.stats.allocatedBytes :: s.history⟩
    else none
  | .makeAliasable h =>
    if h ∈ s.handles then
      match s.alloc.makeAliasable h with
      | (.ok h', a) => some ⟨a, h' :: s.handles, s.issued, a.stats.allocatedBytes :: s.history⟩
      | (.error _, a) => some ⟨a, s.handles, s.issued, a.stats.allocatedBytes :: s.history⟩
    else none
  | .emptyCache =>
    let a := s.alloc.emptyCache.2
    some ⟨a, s.handles, s.issued, a.stats.allocatedBytes :: s.history⟩
  | .rehash lists =>
    if lists.Perm s.alloc.freeLists then
      some { s with alloc := { s.alloc with freeLists := lists } }
    else none

namespace AllocAudit

open MetalSmartAllocator

/-- The handles whose blocks are live. -/
def live (s : AllocAudit) : List AllocatedBlock :=
  s.issued.filter fun h => (Keyed.find Prod.fst s.alloc.liveBlocks h.internalId).isSome

/-- The bytes of the size classes of the live blocks. -/
def liveBytes (s : AllocAudit) : ℕ := (s.live.map AllocatedBlock.sizeClass).sum

/-- A handle that has been cleared, or one that `allocate` returned, perhaps marked as aliasable
    since. -/
def Known (s : AllocAudit) (h : AllocatedBlock) : Prop :=
  h.internalId = 0 ∨ ∃ g ∈ s.issued, g.internalId = h.internalId ∧ g.size = h.size ∧
    g.sizeClass = h.sizeClass ∧ g.mode = h.mode

/-- The invariant. -/
structure AuditInv (s : AllocAudit) : Prop where
  ids : Keyed.Distinct Prod.fst s.alloc.liveBlocks
  issuedIds : Keyed.Distinct AllocatedBlock.internalId s.issued
  fresh : ∀ h ∈ s.issued, 0 < h.internalId ∧ h.internalId < s.alloc.nextId
  next : 0 < s.alloc.nextId
  source : ∀ entry ∈ s.alloc.liveBlocks, ∃ h ∈ s.issued, h.internalId = entry.1
  classes : ∀ h ∈ s.issued, IsClass h.sizeClass ∧ h.size = h.sizeClass
  handles : ∀ h ∈ s.handles, s.Known h
  count : s.alloc.stats.allocationCount = UInt64.ofNat s.live.length
  allocated : s.alloc.stats.allocatedBytes = UInt64.ofNat s.liveBytes
  cached : s.alloc.stats.cachedBytes = UInt64.ofNat (cachedClassBytes s.alloc.freeLists)
  now : s.alloc.stats.allocatedBytes ∈ s.history
  peak : s.alloc.stats.peakBytes ∈ s.history ∧ ∀ b ∈ s.history, b ≤ s.alloc.stats.peakBytes
  lookups : s.alloc.stats.cacheHitCount + s.alloc.stats.cacheMissCount
    = UInt64.ofNat s.issued.length
  lists : Keyed.Distinct Prod.fst s.alloc.freeLists
  buckets : Bucketed s.alloc.freeLists
  fits : s.liveBytes + cachedClassBytes s.alloc.freeLists < sizeTRange

variable {dev : MTLDevice} {s t : AllocAudit}

/-- The live handles are the live blocks. -/
theorem AuditInv.live_perm (h : AuditInv s) :
    (s.live.map internalId).Perm (s.alloc.liveBlocks.map Prod.fst) := by
  have hlive : (s.live.map internalId).Nodup :=
    h.issuedIds.sublist (filter_sublist.map _)
  refine (perm_ext_iff_of_nodup hlive h.ids).mpr fun id => ?_
  constructor
  · intro hid
    obtain ⟨g, hg, rfl⟩ := mem_map.mp hid
    obtain ⟨entry, he, hkey⟩ := Keyed.find_isSome.mp (mem_filter.mp hg).2
    exact mem_map.mpr ⟨entry, he, hkey⟩
  · intro hid
    obtain ⟨entry, he, rfl⟩ := mem_map.mp hid
    obtain ⟨g, hg, hkey⟩ := h.source entry he
    refine mem_map.mpr ⟨g, mem_filter.mpr ⟨hg, ?_⟩, hkey⟩
    exact Keyed.find_isSome.mpr ⟨entry, he, hkey.symm⟩

/-- Recording what `allocated_bytes` has become. -/
theorem peak_cons {peak now : UInt64} {history : List UInt64}
    (h : peak ∈ history ∧ ∀ b ∈ history, b ≤ peak) :
    (if now > peak then now else peak) ∈ now :: history ∧
      ∀ b ∈ now :: history, b ≤ if now > peak then now else peak := by
  split_ifs with hlt
  · refine ⟨mem_cons_self .., fun b hb => ?_⟩
    rcases mem_cons.mp hb with rfl | hb
    · exact UInt64.le_refl b
    · exact UInt64.le_trans (h.2 b hb) (UInt64.le_of_lt hlt)
  · refine ⟨mem_cons_of_mem _ h.1, fun b hb => ?_⟩
    rcases mem_cons.mp hb with rfl | hb
    · exact UInt64.not_lt.mp hlt
    · exact h.2 b hb

/-- A value that is not above the present one does not touch the peak. -/
theorem peak_cons_of_le {peak old now : UInt64} {history : List UInt64}
    (h : peak ∈ history ∧ ∀ b ∈ history, b ≤ peak) (hold : old ∈ history) (hle : now ≤ old) :
    peak ∈ now :: history ∧ ∀ b ∈ now :: history, b ≤ peak := by
  have hnow := UInt64.le_trans hle (h.2 old hold)
  refine ⟨mem_cons_of_mem _ h.1, fun b hb => ?_⟩
  rcases mem_cons.mp hb with rfl | hb
  · exact hnow
  · exact h.2 b hb

/-! ### The calls -/

/-- Registering a block under the next id. -/
theorem AuditInv.handOver (h : AuditInv s) {a : MetalSmartAllocator} {sc : ℕ}
    (nbytes : ℕ) (mode : StorageMode) (hb : HeapBlock) (hsc : IsClass sc)
    (hlive : a.liveBlocks = s.alloc.liveBlocks) (hnext : a.nextId = s.alloc.nextId)
    (hcount : a.stats.allocationCount = s.alloc.stats.allocationCount)
    (hallocated : a.stats.allocatedBytes = s.alloc.stats.allocatedBytes)
    (hpeak : a.stats.peakBytes = s.alloc.stats.peakBytes)
    (hcached : a.stats.cachedBytes = UInt64.ofNat (cachedClassBytes a.freeLists))
    (hlookups : a.stats.cacheHitCount + a.stats.cacheMissCount
      = UInt64.ofNat (s.issued.length + 1))
    (hlists : Keyed.Distinct Prod.fst a.freeLists) (hbuckets : Bucketed a.freeLists)
    (hfits : s.liveBytes + cachedClassBytes a.freeLists + sc < sizeTRange) :
    AuditInv
      ⟨(a.handOver nbytes sc mode hb).2, (a.handOver nbytes sc mode hb).1 :: s.handles,
        (a.handOver nbytes sc mode hb).1 :: s.issued,
        (a.handOver nbytes sc mode hb).2.stats.allocatedBytes :: s.history⟩ := by
  set block := (a.handOver nbytes sc mode hb).1
  set t : AllocAudit := ⟨(a.handOver nbytes sc mode hb).2, block :: s.handles, block :: s.issued,
    (a.handOver nbytes sc mode hb).2.stats.allocatedBytes :: s.history⟩
  have hid : block.internalId = s.alloc.nextId := hnext
  have hinsert : t.alloc.liveBlocks
      = Keyed.insert Prod.fst s.alloc.liveBlocks (s.alloc.nextId, hb) := by
    show Keyed.insert Prod.fst a.liveBlocks (a.nextId, hb) = _
    rw [hlive, hnext]
  -- the handles issued before keep their liveness
  have hold : ∀ g ∈ s.issued, Keyed.find Prod.fst t.alloc.liveBlocks g.internalId
      = Keyed.find Prod.fst s.alloc.liveBlocks g.internalId := by
    intro g hg
    rw [hinsert]
    exact Keyed.find_insert_ne (Nat.ne_of_lt (h.fresh g hg).2)
  have hnew : Keyed.find Prod.fst t.alloc.liveBlocks block.internalId
      = some (s.alloc.nextId, hb) := by
    rw [hinsert, hid]
    exact Keyed.find_insert_self
  have hlive' : t.live = block :: s.live := by
    show (block :: s.issued).filter (fun g =>
      (Keyed.find Prod.fst t.alloc.liveBlocks g.internalId).isSome) = block :: s.live
    rw [filter_cons_of_pos (by rw [hnew]; rfl)]
    congr 1
    refine filter_congr fun g hg => ?_
    rw [hold g hg]
  have hbytes : t.liveBytes = sc + s.liveBytes := by
    unfold liveBytes
    rw [hlive', map_cons, sum_cons]
    rfl
  have hstats : t.alloc.stats.allocatedBytes = s.alloc.stats.allocatedBytes + UInt64.ofNat sc := by
    show a.stats.allocatedBytes + UInt64.ofNat sc = _
    rw [hallocated]
  refine
    { ids := hinsert ▸ h.ids.insert _
      issuedIds := ?_
      fresh := fun g hg => ?_
      next := Nat.succ_pos _
      source := fun entry he => ?_
      classes := fun g hg => ?_
      handles := fun g hg => ?_
      count := ?_
      allocated := ?_
      cached := hcached
      now := mem_cons_self ..
      peak := ?_
      lookups := hlookups
      lists := hlists
      buckets := hbuckets
      fits := ?_ }
  · refine nodup_cons.mpr ⟨fun hmem => ?_, h.issuedIds⟩
    obtain ⟨g, hg, heq⟩ := mem_map.mp hmem
    exact Nat.ne_of_lt (h.fresh g hg).2 (heq.trans hid)
  · show 0 < g.internalId ∧ g.internalId < a.nextId + 1
    rw [hnext]
    rcases mem_cons.mp hg with rfl | hg
    · rw [hid]
      exact ⟨h.next, Nat.lt_succ_self _⟩
    · exact ⟨(h.fresh g hg).1, Nat.lt_succ_of_lt (h.fresh g hg).2⟩
  · rw [hinsert] at he
    rcases Keyed.mem_insert.mp he with rfl | ⟨he, -⟩
    · exact ⟨block, mem_cons_self .., hid⟩
    · obtain ⟨g, hg, hkey⟩ := h.source entry he
      exact ⟨g, mem_cons_of_mem _ hg, hkey⟩
  · rcases mem_cons.mp hg with rfl | hg
    · exact ⟨hsc, rfl⟩
    · exact h.classes g hg
  · rcases mem_cons.mp hg with rfl | hg
    · exact .inr ⟨block, mem_cons_self .., rfl, rfl, rfl, rfl⟩
    · rcases h.handles g hg with hzero | ⟨g', hg', hsame⟩
      · exact .inl hzero
      · exact .inr ⟨g', mem_cons_of_mem _ hg', hsame⟩
  · rw [hlive', length_cons, UInt64.ofNat_add, ← h.count, ← hcount]
    rfl
  · rw [hstats, hbytes, h.allocated, Nat.add_comm, UInt64.ofNat_add]
  · exact peak_cons (hpeak ▸ h.peak)
  · rw [hbytes]
    show sc + s.liveBytes + cachedClassBytes a.freeLists < _
    omega

/-- A call that only changes what the client knows, or nothing. -/
theorem AuditInv.record (h : AuditInv s) {handles : List AllocatedBlock}
    (hknown : ∀ g ∈ handles, s.Known g) :
    AuditInv ⟨s.alloc, handles, s.issued, s.alloc.stats.allocatedBytes :: s.history⟩ :=
  { h with
    handles := hknown
    now := mem_cons_self ..
    peak := peak_cons_of_le h.peak h.now (UInt64.le_refl _) }

/-- A live block leaves the live map.  `handle` is the issued handle. -/
theorem AuditInv.retire (h : AuditInv s) {a : MetalSmartAllocator} {g : AllocatedBlock}
    {handles : List AllocatedBlock} (hg : g ∈ s.live)
    (hlive : a.liveBlocks = Keyed.erase Prod.fst s.alloc.liveBlocks g.internalId)
    (hnext : a.nextId = s.alloc.nextId) (hknown : ∀ x ∈ handles, s.Known x)
    (hcount : a.stats.allocationCount = s.alloc.stats.allocationCount - 1)
    (hallocated : a.stats.allocatedBytes
      = s.alloc.stats.allocatedBytes - UInt64.ofNat g.sizeClass)
    (hpeak : a.stats.peakBytes = s.alloc.stats.peakBytes)
    (hcached : a.stats.cachedBytes = UInt64.ofNat (cachedClassBytes a.freeLists))
    (hlookups : a.stats.cacheHitCount + a.stats.cacheMissCount
      = s.alloc.stats.cacheHitCount + s.alloc.stats.cacheMissCount)
    (hlists : Keyed.Distinct Prod.fst a.freeLists) (hbuckets : Bucketed a.freeLists)
    (hfits : cachedClassBytes a.freeLists ≤ cachedClassBytes s.alloc.freeLists + g.sizeClass) :
    AuditInv ⟨a, handles, s.issued, a.stats.allocatedBytes :: s.history⟩ := by
  set t : AllocAudit := ⟨a, handles, s.issued, a.stats.allocatedBytes :: s.history⟩
  have hdistinct : Keyed.Distinct internalId s.live :=
    h.issuedIds.sublist (filter_sublist.map _)
  have hlive' : t.live = Keyed.erase internalId s.live g.internalId := by
    show s.issued.filter (fun x => (Keyed.find Prod.fst a.liveBlocks x.internalId).isSome) = _
    unfold Keyed.erase live
    rw [filter_filter, hlive]
    refine filter_congr fun x hx => ?_
    by_cases hid : x.internalId = g.internalId
    · rw [hid, Keyed.find_erase_self]
      simp
    · rw [Keyed.find_erase_ne hid]
      simp [hid]
  have hperm : s.live.Perm (g :: t.live) := by
    rw [hlive']
    exact hdistinct.perm_cons_erase (hdistinct.find_eq_some.mpr ⟨hg, rfl⟩)
  have hlength : s.live.length = t.live.length + 1 := hperm.length_eq
  have hbytes : s.liveBytes = g.sizeClass + t.liveBytes :=
    (hperm.map sizeClass).sum_eq
  have hnow : a.stats.allocatedBytes = UInt64.ofNat t.liveBytes := by
    rw [hallocated, h.allocated, hbytes, Nat.add_comm, UInt64.ofNat_add]
    exact UInt64.add_sub_cancel _ _
  have hsmall := h.fits
  refine
    { ids := hlive ▸ h.ids.erase _
      issuedIds := h.issuedIds
      fresh := fun x hx => hnext ▸ h.fresh x hx
      next := hnext ▸ h.next
      source := fun entry he => h.source entry (Keyed.mem_erase.mp (hlive ▸ he)).1
      classes := h.classes
      handles := hknown
      count := ?_
      allocated := hnow
      cached := hcached
      now := mem_cons_self ..
      peak := ?_
      lookups := hlookups.trans h.lookups
      lists := hlists
      buckets := hbuckets
      fits := ?_ }
  · show a.stats.allocationCount = _
    rw [hcount, h.count, hlength, UInt64.ofNat_add]
    exact UInt64.add_sub_cancel _ _
  · refine peak_cons_of_le (hpeak ▸ h.peak) h.now ?_
    -- no wrap-around: the live blocks fit the address space
    rw [hnow, h.allocated, UInt64.le_iff_toNat_le, UInt64.toNat_ofNat', UInt64.toNat_ofNat']
    unfold sizeTRange at hsmall
    rw [Nat.mod_eq_of_lt (by omega), Nat.mod_eq_of_lt (by omega)]
    omega
  · show t.liveBytes + cachedClassBytes a.freeLists < _
    omega

/-- The handle behind a live id that the client knows. -/
theorem AuditInv.live_of_known (h : AuditInv s) {x : AllocatedBlock} (hx : s.Known x)
    {entry : ℕ × HeapBlock} (he : Keyed.find Prod.fst s.alloc.liveBlocks x.internalId =
      some entry) :
    ∃ g ∈ s.live, g.internalId = x.internalId ∧ g.sizeClass = x.size ∧
      g.sizeClass = x.sizeClass ∧ g.mode = x.mode := by
  rcases hx with hzero | ⟨g, hg, hid, hsize, hclass, hmode⟩
  · -- ids start at one
    obtain ⟨g, hg, hkey⟩ := h.source entry (Keyed.find_mem he)
    have hpos := (h.fresh g hg).1
    rw [hkey, Keyed.find_key he, hzero] at hpos
    exact absurd hpos (lt_irrefl 0)
  · refine ⟨g, mem_filter.mpr ⟨hg, ?_⟩, hid, (h.classes g hg).2.symm.trans hsize, hclass,
      hmode⟩
    rw [hid, he]
    rfl

/-- What Metal promises of an allocation: a block that it grants fits, together with the live and
    the cached blocks, into the 64-bit address space. -/
def MetalFits (dev : MTLDevice) (s : AllocAudit) : AllocCall → Prop
  | .allocate nbytes mode => ∀ sc ∈ nextSizeClass nbytes,
      (s.alloc.takeCached sc (bucketKey sc mode)).isNone = true →
      (s.alloc.heapMgr.allocate dev sc mode).1.isOk = true →
      s.liveBytes + cachedClassBytes s.alloc.freeLists + sc < sizeTRange
  | _ => True

instance (dev : MTLDevice) (s : AllocAudit) : ∀ c, Decidable (MetalFits dev s c)
  | .allocate _ _ => inferInstanceAs (Decidable (∀ sc ∈ nextSizeClass _, _ → _ → _))
  | .deallocate _ => isTrue trivial
  | .makeAliasable _ => isTrue trivial
  | .emptyCache => isTrue trivial
  | .rehash _ => isTrue trivial

/-- **`allocate`** keeps the invariant, also when it throws. -/
theorem AuditInv.allocate (h : AuditInv s) {nbytes : ℕ} {mode : StorageMode}
    (hfits : MetalFits dev s (.allocate nbytes mode))
    (hs : auditStep dev s (.allocate nbytes mode) = some t) : AuditInv t := by
  obtain ⟨⟨r, a⟩, hr, ht⟩ := Option.map_eq_some_iff.mp hs
  unfold MetalSmartAllocator.allocate at hr
  split_ifs at hr with hzero
  · obtain ⟨rfl, rfl⟩ := some_mk_inj hr
    rw [← ht]
    exact h.record h.handles
  · obtain ⟨sc, hsc, hr⟩ := Option.map_eq_some_iff.mp hr
    have hclass := isClass_nextSizeClass hsc
    dsimp only at hr
    split at hr
    · -- a cache hit: the block's class moves from the cached to the live bytes
      rename_i hb a₁ htake
      obtain ⟨-, hbytes, hlists, hbuckets, hlive, hnext, hstats⟩ :=
        takeCached_class h.lists h.buckets hclass htake
      obtain ⟨rfl, rfl⟩ := Prod.mk.inj hr
      rw [← ht]
      refine h.handOver nbytes mode hb hclass hlive hnext ?_ ?_ ?_ ?_ ?_ hlists hbuckets ?_
      · rw [hstats]
      · rw [hstats]
      · rw [hstats]
      · rw [hstats]
        show s.alloc.stats.cachedBytes - UInt64.ofNat sc = _
        rw [h.cached, hbytes, UInt64.ofNat_add]
        exact UInt64.add_sub_cancel _ _
      · rw [hstats, UInt64.ofNat_add, ← h.lookups]
        show s.alloc.stats.cacheHitCount + 1 + s.alloc.stats.cacheMissCount = _
        rw [UInt64.add_assoc, UInt64.add_comm 1, ← UInt64.add_assoc]
        rfl
      · have hsmall := h.fits
        omega
    · rename_i htake
      split at hr
      · rename_i e mgr hfail
        obtain ⟨rfl, rfl⟩ := Prod.mk.inj hr
        rw [← ht]
        exact { h.record h.handles with }
      · rename_i hb mgr hok
        obtain ⟨rfl, rfl⟩ := Prod.mk.inj hr
        rw [← ht]
        refine h.handOver nbytes mode hb hclass rfl rfl rfl rfl rfl h.cached ?_ h.lists h.buckets ?_
        · rw [UInt64.ofNat_add, ← h.lookups]
          show s.alloc.stats.cacheHitCount + (s.alloc.stats.cacheMissCount + 1) = _
          rw [← UInt64.add_assoc]
          rfl
        · refine hfits sc hsc ?_ ?_
          · rw [htake]
            rfl
          · rw [hok]
            rfl

/-- **`deallocate`** keeps the invariant, also when the heap manager throws. -/
theorem AuditInv.deallocate (h : AuditInv s) {x : AllocatedBlock}
    (hs : auditStep dev s (.deallocate x) = some t) : AuditInv t := by
  simp only [auditStep] at hs
  split_ifs at hs with hx
  have hknown := h.handles x hx
  unfold MetalSmartAllocator.deallocate at hs
  cases hf : Keyed.find Prod.fst s.alloc.liveBlocks x.internalId with
  | none =>
    rw [hf] at hs
    obtain rfl := Option.some.inj hs
    exact h.record h.handles
  | some entry =>
    obtain ⟨id, hb⟩ := entry
    obtain ⟨g, hg, hid, hsize, hclass, hmode⟩ := h.live_of_known hknown hf
    have hcleared : ∀ y ∈ { x with buffer := none, size := 0, requested := 0, internalId := 0 }
        :: s.handles, s.Known y := by
      intro y hy
      rcases mem_cons.mp hy with rfl | hy
      · exact .inl rfl
      · exact h.handles y hy
    have hisClass := (h.classes g (mem_filter.mp hg).1).1
    have hbytes : s.alloc.stats.allocatedBytes - UInt64.ofNat x.size
        = s.alloc.stats.allocatedBytes - UInt64.ofNat g.sizeClass := by rw [hsize]
    rw [hf] at hs
    dsimp only at hs
    rw [hbytes, ← hid] at hs
    by_cases halias : x.aliasable = true
    · -- straight back to the heap manager
      rw [if_pos halias] at hs
      generalize s.alloc.heapMgr.deallocate hb = r at hs
      obtain ⟨e | cleared, mgr⟩ := r
      · obtain rfl := Option.some.inj hs
        exact h.retire hg rfl rfl h.handles rfl rfl rfl h.cached rfl h.lists h.buckets
          (Nat.le_add_right _ _)
      · obtain rfl := Option.some.inj hs
        exact h.retire hg rfl rfl hcleared rfl rfl rfl h.cached rfl h.lists h.buckets
          (Nat.le_add_right _ _)
    · -- into the bucket of its class
      rw [if_neg halias] at hs
      obtain rfl := Option.some.inj hs
      have hpush := cachedClassBytes_push h.lists (⟨hb, x.sizeClass, x.mode⟩ : CachedBlock)
        (bucketKey x.sizeClass x.mode)
      refine h.retire hg rfl rfl hcleared rfl rfl rfl ?_ rfl (h.lists.insert _)
        (h.buckets.push (show IsClass x.sizeClass from hclass ▸ hisClass) rfl) ?_
      · rw [h.cached, ← hsize, hclass, ← UInt64.ofNat_add]
        exact congrArg UInt64.ofNat hpush.symm
      · rw [hclass]
        exact hpush.le

/-- **`empty_cache`** keeps the invariant, also when a heap throws half way. -/
theorem AuditInv.emptyCache (h : AuditInv s) (hs : auditStep dev s .emptyCache = some t) :
    AuditInv t := by
  have hshape := shape_drain s.alloc.freeLists s.alloc.heapMgr
  simp only [auditStep, MetalSmartAllocator.emptyCache] at hs
  generalize drain s.alloc.heapMgr s.alloc.freeLists = r at hs hshape
  have hrecord := h.record h.handles
  obtain ⟨_ | e, m, lists⟩ := r
  · obtain rfl := Option.some.inj hs
    have hsmall := h.fits
    exact
      { hrecord with
        cached := rfl
        lists := nodup_nil
        buckets := fun entry he => absurd he not_mem_nil
        fits := by
          show s.liveBytes + 0 < _
          omega }
  · obtain rfl := Option.some.inj hs
    have hbytes := cachedClassBytes_congr hshape
    exact
      { hrecord with
        cached := h.cached.trans (congrArg UInt64.ofNat hbytes.symm)
        lists := distinct_congr h.lists hshape
        buckets := h.buckets.congr hshape
        fits := by
          show s.liveBytes + cachedClassBytes lists < _
          rw [hbytes]
          exact h.fits }

/-- **Step.**  Every call keeps the invariant. -/
theorem AuditInv.step {c : AllocCall} (h : AuditInv s) (hfits : MetalFits dev s c)
    (hs : auditStep dev s c = some t) : AuditInv t := by
  cases c with
  | allocate nbytes mode => exact h.allocate hfits hs
  | deallocate x => exact h.deallocate hs
  | makeAliasable x =>
    simp only [auditStep, makeAliasable] at hs
    split_ifs at hs with hx
    · obtain rfl := Option.some.inj hs
      exact h.record h.handles
    · obtain rfl := Option.some.inj hs
      refine h.record fun y hy => ?_
      rcases mem_cons.mp hy with rfl | hy
      · exact h.handles x hx
      · exact h.handles y hy
  | emptyCache => exact h.emptyCache hs
  | rehash lists =>
    simp only [auditStep] at hs
    split_ifs at hs with hperm
    obtain rfl := Option.some.inj hs
    have hbytes : cachedClassBytes lists = cachedClassBytes s.alloc.freeLists :=
      (hperm.flatMap_right _).sum_eq
    exact
      { h with
        cached := h.cached.trans (congrArg UInt64.ofNat hbytes.symm)
        lists := h.lists.perm hperm.symm
        buckets := fun entry he => h.buckets entry (hperm.subset he)
        fits := by
          show s.liveBytes + cachedClassBytes lists < _
          rw [hbytes]
          exact h.fits }

theorem AuditInv.init : AuditInv {} where
  ids := nodup_nil
  issuedIds := nodup_nil
  fresh h hh := absurd hh not_mem_nil
  next := Nat.one_pos
  source entry he := absurd he not_mem_nil
  classes h hh := absurd hh not_mem_nil
  handles h hh := absurd hh not_mem_nil
  count := rfl
  allocated := rfl
  cached := rfl
  now := mem_singleton_self _
  peak := ⟨mem_singleton_self _, fun b hb => by
    rw [mem_singleton.mp hb]
    exact UInt64.le_refl _⟩
  lookups := rfl
  lists := nodup_nil
  buckets entry he := absurd he not_mem_nil
  fits := by
    show 0 < sizeTRange
    decide

/-! ### Every run -/

/-- The statistics agree with the blocks. -/
structure Accounts (s : AllocAudit) : Prop where
  /-- The live handles are the live blocks, one handle for each. -/
  live : (s.live.map AllocatedBlock.internalId).Perm (s.alloc.liveBlocks.map Prod.fst) ∧
    (s.live.map AllocatedBlock.internalId).Nodup
  count : s.alloc.stats.allocationCount.toNat = s.alloc.liveBlocks.length
  allocated : s.alloc.stats.allocatedBytes.toNat = s.liveBytes
  cached : s.alloc.stats.cachedBytes.toNat = cachedClassBytes s.alloc.freeLists
  peak : s.alloc.stats.peakBytes ∈ s.history ∧ ∀ b ∈ s.history, b ≤ s.alloc.stats.peakBytes
  lookups : s.alloc.stats.cacheHitCount + s.alloc.stats.cacheMissCount
    = UInt64.ofNat s.issued.length
  buckets : ∀ entry ∈ s.alloc.freeLists, ∀ c ∈ entry.2, entry.1 = bucketKey c.sizeClass c.mode
  /-- What the cache would serve to a request has the class and the mode of the request. -/
  hits : ∀ nbytes mode sc hb a, nextSizeClass nbytes = some sc →
    s.alloc.takeCached sc (bucketKey sc mode) = some (hb, a) →
      ∃ entry ∈ s.alloc.freeLists, ∃ c ∈ entry.2, c.heapBlock = hb ∧ c.sizeClass = sc ∧
        c.mode = mode

/-- Every live block takes at least one byte. -/
theorem AuditInv.length_le (h : AuditInv s) : s.live.length ≤ s.liveBytes := by
  have hpos : ∀ g ∈ s.live.map sizeClass, 1 ≤ g := by
    intro n hn
    obtain ⟨g, hg, rfl⟩ := mem_map.mp hn
    exact (h.classes g (mem_filter.mp hg).1).1.1
  have hsum := card_nsmul_le_sum _ 1 hpos
  simpa [liveBytes] using hsum

theorem AuditInv.accounts (h : AuditInv s) : Accounts s := by
  have hsmall := h.fits
  have hlength := h.length_le
  have hperm := h.live_perm
  have hcount : s.live.length = s.alloc.liveBlocks.length := by
    simpa using hperm.length_eq
  refine ⟨⟨hperm, hperm.nodup_iff.mpr h.ids⟩, ?_, ?_, ?_, h.peak, h.lookups,
    fun entry he c hc => (h.buckets entry he c hc).2, ?_⟩
  · rw [h.count, ← hcount]
    exact Nat.mod_eq_of_lt (show _ < sizeTRange by omega)
  · rw [h.allocated]
    exact Nat.mod_eq_of_lt (show _ < sizeTRange by omega)
  · rw [h.cached]
    exact Nat.mod_eq_of_lt (show _ < sizeTRange by omega)
  · intro nbytes mode sc hb a hsc htake
    exact (takeCached_class h.lists h.buckets (isClass_nextSizeClass hsc) htake).1

/-- **Accounting.**  In every run on a device that keeps its promise the statistics agree with the
    blocks. -/
theorem allocator_accounts (dev : MTLDevice) (hrun : Runs (auditStep dev) (MetalFits dev) {} s) :
    Accounts s := by
  have hinv : AuditInv s := hrun.invariant AuditInv.init fun _ _ _ hu hg hs => hu.step hg hs
  exact hinv.accounts

/-- A hit, a refused request, a double free, an aliasable block and an emptied cache. -/
def auditCalls : List AllocCall :=
  [.allocate 100 .Shared, .allocate 0 .Shared, .allocate 64 .Private,
    .deallocate ⟨128, 100, 128, .Shared, false, some 1, 1⟩,
    .deallocate ⟨128, 100, 128, .Shared, false, some 1, 1⟩, .allocate 120 .Shared,
    .makeAliasable ⟨64, 64, 64, .Private, false, some 3, 2⟩,
    .deallocate ⟨64, 64, 64, .Private, true, some 3, 2⟩, .emptyCache]

theorem allocator_accounts_run :
    ∃ s, exec (auditStep grantingDevice) {} auditCalls = some s ∧ Accounts s := by
  have hsome : (exec (auditStep grantingDevice) {} auditCalls).isSome = true := by decide
  obtain ⟨s, hs⟩ := Option.isSome_iff_exists.mp hsome
  have hfits : GuardedAlong (auditStep grantingDevice) (MetalFits grantingDevice)
      {} auditCalls := by
    decide
  exact ⟨s, hs, allocator_accounts grantingDevice (runs_exec hs hfits)⟩

end AllocAudit

end MetalNative
