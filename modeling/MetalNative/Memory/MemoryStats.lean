import MetalNative.Memory.AllocatorAccounting
import MetalNative.Memory.BufferIdentity
import MetalNative.Interop.NumPyImport

namespace MetalNative

open Run MetalSmartAllocator AllocAudit List

/-!
# `memory_allocated` and its relatives

The statistics that `bind_core.cpp` reads are those of the pooling allocator.  A tensor made from
NumPy data has a buffer of its own, which the allocator does not know; and `reset_peak_stats` is
`empty_cache`, which leaves the peak as it is.

* `TensorMemory`, `MemoryOp`, `TensorMemory.step` — the live tensors of a process with their
  buffers, what the program does, and what the statistics have read.
* `Truthful` — the statistics mean what the documentation says.
* `Keeps` — the condition on a step; `stats_truthful_iff` says that a run is truthful throughout
  exactly where all of its steps meet it.
-/

/-- The buffer of a tensor, out of the pool or an `MNBuffer` of its own; tensors that share it
    name the same one. -/
inductive TensorBuffer where
  | pooled (block : AllocatedBlock)
  | direct (id nbytes : ℕ)
  deriving DecidableEq, Repr

/-- The bytes of a buffer, of its size class where it is pooled. -/
def TensorBuffer.bytes : TensorBuffer → ℕ
  | .pooled block => block.sizeClass
  | .direct _ nbytes => nbytes

/-- The live tensors and the allocator. -/
structure TensorMemory where
  alloc : MetalSmartAllocator := {}
  tensors : List TensorBuffer := []
  nextDirect : ℕ := 0
  /-- What `memory_allocated` has read since the latest `reset_peak_stats`. -/
  readings : List ℕ := [0]
  /-- How many bytes the live tensors have had since the start. -/
  totals : List ℕ := [0]
  deriving DecidableEq, Repr

/-- What a program does. -/
inductive MemoryOp where
  /-- `MNTensor::empty`: `zeros`, `ones` and `clone` begin with it, and so do the results of the
      operators. -/
  | empty (nbytes : ℕ) (mode : StorageMode)
  /-- `tensor_from_numpy`; `to_shared` makes its buffer in the same way. -/
  | from_numpy (device : BufferDevice) (nbytes : ℕ)
  /-- The result of an operator that shares the buffer of a tensor. -/
  | view (i : ℕ)
  | destroy (i : ℕ)
  | empty_cache
  | reset_peak_stats
  /-- The hash map of the free lists changes its iteration order. -/
  | rehash (lists : List (ℕ × List CachedBlock))

namespace TensorMemory

/-- `memory_allocated()`. -/
def memory_allocated (s : TensorMemory) : ℕ := s.alloc.stats.allocatedBytes.toNat

/-- `max_memory_allocated()`. -/
def max_memory_allocated (s : TensorMemory) : ℕ := s.alloc.stats.peakBytes.toNat

/-- The bytes of the buffers of the live tensors. -/
def total (s : TensorMemory) : ℕ := (s.tensors.dedup.map TensorBuffer.bytes).sum

/-- A state has been reached. -/
def observe (s : TensorMemory) : TensorMemory :=
  { s with readings := s.memory_allocated :: s.readings, totals := s.total :: s.totals }

/-- The result of `allocate_pooled`; there is no tensor when it throws. -/
def allocated (s : TensorMemory) : Outcome MetalSmartAllocator AllocatedBlock → TensorMemory
  | (.ok block, a) => { s with alloc := a, tensors := .pooled block :: s.tensors }
  | (.error _, a) => { s with alloc := a }

/-- A reference to a buffer goes: `~MNBuffer` runs with the last one. -/
def drop (s : TensorMemory) (buf : TensorBuffer) : TensorMemory :=
  if buf ∈ s.tensors then s
  else match buf with
    | .pooled block => { s with alloc := (s.alloc.deallocate block).2 }
    | .direct _ _ => s

/-- One operation; `none` is an operation on a tensor that does not exist, or an allocation that
    never returns. -/
def step (dev : MTLDevice) (s : TensorMemory) : MemoryOp → Option TensorMemory
  | .empty nbytes mode =>
    (s.alloc.allocate dev (max nbytes 1) mode).map fun r => (s.allocated r).observe
  | .from_numpy device nbytes =>
    match newMNBuffer device nbytes with
    | .ok _ =>
      some { s with
        tensors := .direct s.nextDirect nbytes :: s.tensors
        nextDirect := s.nextDirect + 1 }.observe
    | .error _ => some s.observe
  | .view i => s.tensors[i]?.map fun buf => { s with tensors := buf :: s.tensors }.observe
  | .destroy i =>
    s.tensors[i]?.map fun buf => ({ s with tensors := s.tensors.eraseIdx i }.drop buf).observe
  | .empty_cache => some { s with alloc := s.alloc.emptyCache.2 }.observe
  | .reset_peak_stats =>
    -- `AllocatorStats` has no reset method
    some { s with alloc := s.alloc.emptyCache.2, readings := [] }.observe
  | .rehash lists =>
    if lists.Perm s.alloc.freeLists then
      some { s with alloc := { s.alloc with freeLists := lists } }.observe
    else none

end TensorMemory

/-- The statistics mean what they say. -/
structure Truthful (dev : MTLDevice) (s : TensorMemory) : Prop where
  allocated : s.memory_allocated = s.total
  /-- The maximum of `memory_allocated` since the latest reset. -/
  peak : s.max_memory_allocated ∈ s.readings ∧ ∀ r ∈ s.readings, r ≤ s.max_memory_allocated
  /-- Neither call changes what is allocated. -/
  unchanged : ∀ op, op = .empty_cache ∨ op = .reset_peak_stats → ∀ t, s.step dev op = some t →
    t.memory_allocated = s.memory_allocated

/-- The condition on a step: no buffer is made outside of the pool, and the peak is reset only
    while the tensors have as many bytes as they ever had. -/
def Keeps (s : TensorMemory) : MemoryOp → Prop
  | .from_numpy device nbytes => (newMNBuffer device nbytes).isOk = false
  | .reset_peak_stats => ∀ n ∈ s.totals, n ≤ s.total
  | _ => True

instance (s : TensorMemory) : (op : MemoryOp) → Decidable (Keeps s op)
  | .from_numpy _ _ => inferInstanceAs (Decidable (_ = _))
  | .reset_peak_stats => inferInstanceAs (Decidable (∀ n ∈ s.totals, n ≤ s.total))
  | .empty _ _ => isTrue trivial
  | .view _ => isTrue trivial
  | .destroy _ => isTrue trivial
  | .empty_cache => isTrue trivial
  | .rehash _ => isTrue trivial

/-- What Metal promises of an allocation: a block that it grants fits, together with the live
    tensors and the cached blocks, into the 64-bit address space. -/
def MemoryFits (dev : MTLDevice) (s : TensorMemory) : MemoryOp → Prop
  | .empty nbytes mode => ∀ sc ∈ nextSizeClass (max nbytes 1),
      (s.alloc.takeCached sc (bucketKey sc mode)).isNone = true →
      (s.alloc.heapMgr.allocate dev sc mode).1.isOk = true →
      s.total + cachedClassBytes s.alloc.freeLists + sc < sizeTRange
  | _ => True

instance (dev : MTLDevice) (s : TensorMemory) : (op : MemoryOp) → Decidable (MemoryFits dev s op)
  | .empty _ _ => inferInstanceAs (Decidable (∀ sc ∈ nextSizeClass _, _ → _ → _))
  | .from_numpy _ _ => isTrue trivial
  | .view _ => isTrue trivial
  | .destroy _ => isTrue trivial
  | .empty_cache => isTrue trivial
  | .reset_peak_stats => isTrue trivial
  | .rehash _ => isTrue trivial

/-! ### What the allocator does to its live blocks -/

section Blocks

variable {dev : MTLDevice} {a a' : MetalSmartAllocator} {b : AllocatedBlock} {nbytes : ℕ}
  {mode : StorageMode}

/-- A new block is live under a new id, and nothing else has changed. -/
theorem liveBlocks_allocate (hlists : Keyed.Distinct Prod.fst a.freeLists)
    (hfresh : ∀ entry ∈ a.liveBlocks, entry.1 < a.nextId)
    (hr : a.allocate dev nbytes mode = some (.ok b, a')) :
    ∃ hb, a'.liveBlocks = (b.internalId, hb) :: a.liveBlocks ∧ b.internalId = a.nextId ∧
      b.aliasable = false := by
  unfold MetalSmartAllocator.allocate at hr
  split_ifs at hr with hzero
  · cases hr
  obtain ⟨sc, hsc, hr⟩ := Option.map_eq_some_iff.mp hr
  dsimp only at hr
  split at hr
  · rename_i hb a₁ htake
    obtain ⟨-, -, -, hlive, hnext⟩ := takeCached_spec hlists htake
    obtain ⟨hblock, rfl⟩ := Prod.mk.inj hr
    obtain rfl := Except.ok.inj hblock
    have hfresh₁ : ∀ entry ∈ a₁.liveBlocks, entry.1 < a₁.nextId := by
      rw [hlive, hnext]
      exact hfresh
    refine ⟨hb, ?_, hnext, rfl⟩
    rw [liveBlocks_handOver hfresh₁, hlive]
    rfl
  · split at hr
    · cases hr
    · rename_i hb mgr hok
      obtain ⟨hblock, rfl⟩ := Prod.mk.inj hr
      obtain rfl := Except.ok.inj hblock
      exact ⟨hb, liveBlocks_handOver (a := { a with
        heapMgr := mgr
        stats := { a.stats with cacheMissCount := a.stats.cacheMissCount + 1 } }) hfresh nbytes sc
        mode hb, rfl, rfl⟩

/-- A request that is refused leaves the live blocks. -/
theorem liveBlocks_allocate_error {e : MNException}
    (hr : a.allocate dev nbytes mode = some (.error e, a')) : a'.liveBlocks = a.liveBlocks := by
  unfold MetalSmartAllocator.allocate at hr
  split_ifs at hr with hzero
  · obtain ⟨-, rfl⟩ := some_mk_inj hr
    rfl
  obtain ⟨sc, hsc, hr⟩ := Option.map_eq_some_iff.mp hr
  dsimp only at hr
  split at hr
  · cases hr
  · split at hr
    · obtain ⟨-, rfl⟩ := Prod.mk.inj hr
      rfl
    · cases hr

/-- A live block that is given back is no longer live. -/
theorem liveBlocks_deallocate {entry : ℕ × HeapBlock}
    (hfind : Keyed.find Prod.fst a.liveBlocks b.internalId = some entry) :
    (a.deallocate b).2.liveBlocks = Keyed.erase Prod.fst a.liveBlocks b.internalId := by
  unfold MetalSmartAllocator.deallocate
  rw [hfind]
  dsimp only
  split_ifs
  · split <;> rfl
  · rfl

/-- `empty_cache` leaves the counters of live bytes and the live blocks, also when a heap throws. -/
theorem emptyCache_keeps (a : MetalSmartAllocator) :
    a.emptyCache.2.stats.allocatedBytes = a.stats.allocatedBytes ∧
      a.emptyCache.2.stats.peakBytes = a.stats.peakBytes ∧
      a.emptyCache.2.liveBlocks = a.liveBlocks := by
  unfold MetalSmartAllocator.emptyCache
  split <;> exact ⟨rfl, rfl, rfl⟩

end Blocks

/-! ### The invariant -/

open TensorBuffer TensorMemory

section Invariant

variable {dev : MTLDevice} {s t : TensorMemory} {u v : AllocAudit}

/-- What holds in a run whose steps have all met the condition: `u` is the allocator with its whole
    past. -/
structure MemoryInv (s : TensorMemory) (u : AllocAudit) : Prop where
  alloc : u.alloc = s.alloc
  audit : AuditInv u
  /-- The live blocks are the buffers of the live tensors. -/
  live : ∀ buf, buf ∈ s.tensors ↔ ∃ b ∈ u.live, buf = .pooled b
  handles : ∀ b ∈ u.live, b ∈ u.handles
  totals : ∀ n, n ∈ s.totals ↔ ∃ x ∈ u.history, x.toNat = n
  peak : s.max_memory_allocated ∈ s.readings ∧ ∀ r ∈ s.readings, r ≤ s.max_memory_allocated

theorem live_new : ({} : AllocAudit).live = [] := rfl

theorem MemoryInv.init : MemoryInv {} {} where
  alloc := rfl
  audit := AuditInv.init
  live := by simp [live_new]
  handles := by simp [live_new]
  totals := by simp [eq_comm]
  peak := by simp [max_memory_allocated]

/-- The live tensors have the bytes of the live blocks. -/
theorem total_of_live (haudit : AuditInv u)
    (hlive : ∀ buf, buf ∈ s.tensors ↔ ∃ b ∈ u.live, buf = .pooled b) : s.total = u.liveBytes := by
  have hids : (u.live.map AllocatedBlock.internalId).Nodup :=
    haudit.issuedIds.sublist (filter_sublist.map _)
  have hnodup : (u.live.map pooled).Nodup :=
    (Nodup.of_map _ hids).map fun _ _ h => pooled.inj h
  have hperm : s.tensors.dedup.Perm (u.live.map pooled) := by
    refine (perm_ext_iff_of_nodup (nodup_dedup _) hnodup).mpr fun buf => ?_
    rw [mem_dedup, hlive buf, mem_map]
    simp only [eq_comm]
  have hsum := (hperm.map bytes).sum_eq
  unfold total liveBytes
  rw [hsum, map_map]
  rfl

/-- What the counter reads is what the live blocks have. -/
theorem AuditInv.toNat_allocated (h : AuditInv u) :
    u.alloc.stats.allocatedBytes.toNat = u.liveBytes := h.accounts.allocated

/-- A state that meets the invariant is truthful. -/
theorem MemoryInv.truthful (h : MemoryInv s u) : Truthful dev s where
  allocated := by
    rw [total_of_live h.audit h.live, ← AuditInv.toNat_allocated h.audit, h.alloc]
    rfl
  peak := h.peak
  unchanged := by
    have hkeeps := emptyCache_keeps s.alloc
    rintro op (rfl | rfl) t ht
    · obtain rfl := Option.some.inj ht
      exact congrArg UInt64.toNat hkeeps.1
    · obtain rfl := Option.some.inj ht
      exact congrArg UInt64.toNat hkeeps.1

/-- A peak over the whole past is one over the readings since the reset, where it was one before
    the latest state. -/
theorem peak_readings (h : MemoryInv s u) (haudit : AuditInv v)
    (hhistory : v.history = v.alloc.stats.allocatedBytes :: u.history) :
    v.alloc.stats.peakBytes.toNat ∈ v.alloc.stats.allocatedBytes.toNat :: s.readings ∧
      ∀ r ∈ v.alloc.stats.allocatedBytes.toNat :: s.readings,
        r ≤ v.alloc.stats.peakBytes.toNat := by
  obtain ⟨hmem, hmax⟩ := haudit.peak
  obtain ⟨hmem₀, hmax₀⟩ := h.audit.peak
  rw [hhistory] at hmem hmax
  have hold := UInt64.le_iff_toNat_le.mp (hmax _ (mem_cons_of_mem _ hmem₀))
  have hpeak : u.alloc.stats.peakBytes.toNat = s.max_memory_allocated := by
    rw [h.alloc]
    rfl
  rw [hpeak] at hold
  refine ⟨?_, ?_⟩
  · obtain hnow | hpast := mem_cons.mp hmem
    · rw [hnow]
      exact mem_cons_self ..
    · -- the peak has not moved
      have hle := UInt64.le_iff_toNat_le.mp (hmax₀ _ hpast)
      rw [hpeak] at hle
      have hsame := Nat.le_antisymm hle hold
      rw [hsame]
      exact mem_cons_of_mem _ h.peak.1
  · intro r hr
    obtain rfl | hpast := mem_cons.mp hr
    · exact UInt64.le_iff_toNat_le.mp (hmax _ (mem_cons_self ..))
    · exact (h.peak.2 r hpast).trans hold

/-- **Observation.**  Other tensors and another state of the allocator, which the audit follows. -/
theorem MemoryInv.observe (h : MemoryInv s u) (tensors : List TensorBuffer) (next : ℕ)
    (haudit : AuditInv v) (hhistory : v.history = v.alloc.stats.allocatedBytes :: u.history)
    (hlive : ∀ buf, buf ∈ tensors ↔ ∃ b ∈ v.live, buf = .pooled b)
    (hhandles : ∀ b ∈ v.live, b ∈ v.handles) :
    MemoryInv { s with alloc := v.alloc, tensors := tensors, nextDirect := next }.observe v where
  alloc := rfl
  audit := haudit
  live := hlive
  handles := hhandles
  totals := by
    intro n
    have htotal : total { s with alloc := v.alloc, tensors := tensors, nextDirect := next }
        = v.alloc.stats.allocatedBytes.toNat := by
      rw [AuditInv.toNat_allocated haudit]
      exact total_of_live haudit hlive
    unfold TensorMemory.observe
    rw [htotal, hhistory]
    simp [h.totals n, eq_comm]
  peak := peak_readings (s := s) h haudit hhistory

/-! ### The operations -/

theorem live_congr (hissued : v.issued = u.issued)
    (hblocks : v.alloc.liveBlocks = u.alloc.liveBlocks) : v.live = u.live := by
  unfold AllocAudit.live
  rw [hissued, hblocks]

/-- The ids of the live blocks have been handed out. -/
theorem AuditInv.live_fresh (h : AuditInv u) :
    ∀ entry ∈ u.alloc.liveBlocks, entry.1 < u.alloc.nextId := by
  intro entry he
  obtain ⟨g, hg, hid⟩ := h.source entry he
  rw [← hid]
  exact (h.fresh g hg).2

/-- **`allocate`**: the new block is live as well. -/
theorem MemoryInv.empty (h : MemoryInv s u) {nbytes : ℕ} {mode : StorageMode}
    (hfits : MemoryFits dev s (.empty nbytes mode))
    (hs : s.step dev (.empty nbytes mode) = some t) : ∃ v, MemoryInv t v := by
  obtain ⟨⟨r, a⟩, hr, rfl⟩ := Option.map_eq_some_iff.mp hs
  have hpromise : MetalFits dev u (.allocate (max nbytes 1) mode) := by
    intro sc hsc hcache hgrant
    rw [h.alloc] at hcache hgrant ⊢
    rw [← total_of_live h.audit h.live]
    exact hfits sc hsc hcache hgrant
  have hlists := h.audit.lists
  have hfresh := AuditInv.live_fresh h.audit
  rw [← h.alloc] at hr
  cases r with
  | error e =>
    have hstep : auditStep dev u (.allocate (max nbytes 1) mode)
        = some ⟨a, u.handles, u.issued, a.stats.allocatedBytes :: u.history⟩ := by
      simp [auditStep, hr]
    have haudit := h.audit.allocate hpromise hstep
    have hlive : AllocAudit.live ⟨a, u.handles, u.issued, a.stats.allocatedBytes :: u.history⟩
        = u.live := live_congr rfl (liveBlocks_allocate_error hr)
    refine ⟨_, h.observe _ _ haudit rfl ?_ ?_⟩
    · rw [hlive]
      exact h.live
    · rw [hlive]
      exact h.handles
  | ok b =>
    obtain ⟨hb, hlive, hid, -⟩ := liveBlocks_allocate hlists hfresh hr
    have hstep : auditStep dev u (.allocate (max nbytes 1) mode)
        = some ⟨a, b :: u.handles, b :: u.issued, a.stats.allocatedBytes :: u.history⟩ := by
      simp [auditStep, hr]
    have haudit := h.audit.allocate hpromise hstep
    have hlive' : AllocAudit.live ⟨a, b :: u.handles, b :: u.issued,
        a.stats.allocatedBytes :: u.history⟩ = b :: u.live := by
      show (b :: u.issued).filter
        (fun x => (Keyed.find Prod.fst a.liveBlocks x.internalId).isSome) = b :: u.live
      rw [hlive, filter_cons_of_pos (by simp [Keyed.find])]
      congr 1
      refine filter_congr fun x hx => ?_
      -- the blocks that were there have older ids
      have hne : ¬ b.internalId = x.internalId := by
        rw [hid]
        exact (Nat.ne_of_lt (h.audit.fresh x hx).2).symm
      simp [Keyed.find, hne]
    refine ⟨_, h.observe _ _ haudit rfl ?_ ?_⟩
    · intro buf
      rw [hlive']
      simp [h.live buf]
    · rw [hlive']
      intro x hx
      obtain rfl | hold := mem_cons.mp hx
      · exact mem_cons_self ..
      · exact mem_cons_of_mem _ (h.handles x hold)

/-- A buffer that is given back: the other live blocks stay. -/
theorem live_deallocate (dev : MTLDevice) (h : AuditInv u) {b : AllocatedBlock} (hb : b ∈ u.live)
    (hhandle : b ∈ u.handles) : ∃ v, AuditInv v ∧ v.alloc = (u.alloc.deallocate b).2 ∧
      v.history = v.alloc.stats.allocatedBytes :: u.history ∧
      (∀ x, x ∈ v.live ↔ x ∈ u.live ∧ x ≠ b) ∧ ∀ x ∈ u.handles, x ∈ v.handles := by
  obtain ⟨v, hstep, halloc, hhistory, hissued, hhandles⟩ : ∃ v, auditStep dev u (.deallocate b)
      = some v ∧ v.alloc = (u.alloc.deallocate b).2 ∧
      v.history = v.alloc.stats.allocatedBytes :: u.history ∧ v.issued = u.issued ∧
      ∀ x ∈ u.handles, x ∈ v.handles := by
    simp only [auditStep, if_pos hhandle]
    generalize u.alloc.deallocate b = r
    obtain ⟨e | b', a⟩ := r
    · exact ⟨_, rfl, rfl, rfl, rfl, fun _ hx => hx⟩
    · exact ⟨_, rfl, rfl, rfl, rfl, fun _ hx => mem_cons_of_mem _ hx⟩
  refine ⟨v, h.deallocate hstep, halloc, hhistory, ?_, hhandles⟩
  obtain ⟨hmem, hfound⟩ := mem_filter.mp hb
  obtain ⟨entry, hentry⟩ := Option.isSome_iff_exists.mp hfound
  intro x
  unfold AllocAudit.live
  rw [hissued, halloc, liveBlocks_deallocate hentry, mem_filter, mem_filter]
  by_cases hid : x.internalId = b.internalId
  · rw [hid, Keyed.find_erase_self]
    refine iff_of_false (by simp) ?_
    rintro ⟨⟨hx, -⟩, hne⟩
    exact hne (h.issuedIds.eq_of_key hx hmem hid)
  · rw [Keyed.find_erase_ne hid]
    have hne : x ≠ b := fun heq => hid (congrArg _ heq)
    simp [hne]

/-- An observation of the allocator as it is. -/
theorem exists_record (h : AuditInv u) : ∃ v, AuditInv v ∧ v.alloc = u.alloc ∧
    v.history = v.alloc.stats.allocatedBytes :: u.history ∧ v.live = u.live ∧
      v.handles = u.handles :=
  ⟨_, h.record h.handles, rfl, rfl, live_congr rfl rfl, rfl⟩

/-- Other tensors with the same buffers. -/
theorem MemoryInv.sameBuffers (h : MemoryInv s u) {tensors : List TensorBuffer}
    (hsame : ∀ buf, buf ∈ tensors ↔ buf ∈ s.tensors) :
    ∃ v, MemoryInv { s with tensors := tensors }.observe v := by
  obtain ⟨v, haudit, halloc, hhistory, hlive, hhandles⟩ := exists_record h.audit
  have hobserve := h.observe tensors s.nextDirect haudit hhistory ?_ ?_
  · rw [halloc, h.alloc] at hobserve
    exact ⟨v, hobserve⟩
  · intro buf
    rw [hlive, hsame buf]
    exact h.live buf
  · rw [hlive, hhandles]
    exact h.handles

/-- A reference goes. -/
theorem MemoryInv.destroy (h : MemoryInv s u) {i : ℕ} (hs : s.step dev (.destroy i) = some t) :
    ∃ v, MemoryInv t v := by
  obtain ⟨buf, hbuf, rfl⟩ := Option.map_eq_some_iff.mp hs
  obtain ⟨hi, rfl⟩ := List.getElem?_eq_some_iff.mp hbuf
  have hmem : ∀ x, x ∈ s.tensors ↔ x = s.tensors[i] ∨ x ∈ s.tensors.eraseIdx i := by
    intro x
    rw [← (getElem_cons_eraseIdx_perm hi).mem_iff, mem_cons]
  obtain ⟨b, hb, hpooled⟩ := (h.live _).mp (getElem_mem hi)
  unfold TensorMemory.drop
  by_cases hshared : s.tensors[i] ∈ s.tensors.eraseIdx i
  · -- another tensor shares the buffer
    rw [if_pos hshared]
    refine h.sameBuffers fun x => ?_
    rw [hmem x]
    constructor
    · exact .inr
    · rintro (rfl | hx)
      · exact hshared
      · exact hx
  · rw [if_neg hshared, hpooled]
    obtain ⟨v, haudit, halloc, hhistory, hlive, hhandles⟩ :=
      live_deallocate dev h.audit hb (h.handles b hb)
    have hobserve := h.observe (s.tensors.eraseIdx i) s.nextDirect haudit hhistory ?_ ?_
    · rw [halloc, h.alloc] at hobserve
      exact ⟨v, hobserve⟩
    · intro x
      have hx := h.live x
      rw [hmem x] at hx
      constructor
      · intro hrest
        obtain ⟨c, hc, rfl⟩ := hx.mp (.inr hrest)
        refine ⟨c, (hlive c).mpr ⟨hc, ?_⟩, rfl⟩
        rintro rfl
        rw [hpooled] at hshared
        exact hshared hrest
      · rintro ⟨c, hc, rfl⟩
        obtain ⟨hc', hne⟩ := (hlive c).mp hc
        obtain heq | hrest := hx.mpr ⟨c, hc', rfl⟩
        · rw [hpooled] at heq
          exact absurd (pooled.inj heq) hne
        · exact hrest
    · intro x hx
      exact hhandles x (h.handles x ((hlive x).mp hx).1)

/-- `empty_cache`, in the audit. -/
theorem MemoryInv.audit_emptyCache (dev : MTLDevice) (h : MemoryInv s u) : ∃ v, AuditInv v ∧
    v.alloc = s.alloc.emptyCache.2 ∧ v.history = v.alloc.stats.allocatedBytes :: u.history ∧
      v.live = u.live ∧ v.handles = u.handles := by
  obtain ⟨-, -, hlive⟩ := emptyCache_keeps u.alloc
  have haudit : AuditInv ⟨u.alloc.emptyCache.2, u.handles, u.issued,
      u.alloc.emptyCache.2.stats.allocatedBytes :: u.history⟩ := @AuditInv.emptyCache dev u _ h.audit rfl
  refine ⟨_, haudit, ?_, rfl, live_congr rfl hlive, rfl⟩
  rw [h.alloc]

/-- While the tensors have as many bytes as they ever had, the peak is what is read. -/
theorem MemoryInv.peak_eq (h : MemoryInv s u) (hmost : ∀ n ∈ s.totals, n ≤ s.total) :
    s.max_memory_allocated = s.memory_allocated := by
  obtain ⟨hmem, hmax⟩ := h.audit.peak
  have hnow := UInt64.le_iff_toNat_le.mp (hmax _ h.audit.now)
  have hpeak := hmost _ ((h.totals _).mpr ⟨_, hmem, rfl⟩)
  rw [total_of_live h.audit h.live, ← AuditInv.toNat_allocated h.audit] at hpeak
  rw [h.alloc] at hnow hpeak
  exact Nat.le_antisymm hpeak hnow

/-- **Step.**  An operation that meets the condition keeps the invariant. -/
theorem MemoryInv.step {op : MemoryOp} (h : MemoryInv s u) (hfits : MemoryFits dev s op)
    (hkeeps : Keeps s op) (hs : s.step dev op = some t) : ∃ v, MemoryInv t v := by
  cases op with
  | empty nbytes mode => exact h.empty hfits hs
  | from_numpy device nbytes =>
    simp only [TensorMemory.step] at hs
    cases hnew : newMNBuffer device nbytes with
    | ok m =>
      have hrefused : (newMNBuffer device nbytes).isOk = false := hkeeps
      rw [hnew] at hrefused
      cases hrefused
    | error e =>
      rw [hnew] at hs
      obtain rfl := Option.some.inj hs
      exact h.sameBuffers fun _ => Iff.rfl
  | view i =>
    obtain ⟨buf, hbuf, rfl⟩ := Option.map_eq_some_iff.mp hs
    refine h.sameBuffers fun x => ?_
    rw [mem_cons]
    constructor
    · rintro (rfl | hx)
      · exact mem_of_getElem? hbuf
      · exact hx
    · exact .inr
  | destroy i => exact h.destroy hs
  | empty_cache =>
    obtain rfl := Option.some.inj hs
    obtain ⟨v, haudit, halloc, hhistory, hlive, hhandles⟩ := h.audit_emptyCache dev
    have hobserve := h.observe s.tensors s.nextDirect haudit hhistory
      (by rw [hlive]; exact h.live) (by rw [hlive, hhandles]; exact h.handles)
    rw [halloc] at hobserve
    exact ⟨v, hobserve⟩
  | reset_peak_stats =>
    obtain rfl := Option.some.inj hs
    obtain ⟨v, haudit, halloc, hhistory, hlive, hhandles⟩ := h.audit_emptyCache dev
    have hobserve := h.observe s.tensors s.nextDirect haudit hhistory
      (by rw [hlive]; exact h.live) (by rw [hlive, hhandles]; exact h.handles)
    rw [halloc] at hobserve
    obtain ⟨hnow, hpeak, -⟩ := emptyCache_keeps s.alloc
    -- the new peak is the old one, and that is what is read
    have hsame : s.alloc.emptyCache.2.stats.peakBytes.toNat
        = s.alloc.emptyCache.2.stats.allocatedBytes.toNat := by
      rw [hnow, hpeak]
      exact h.peak_eq hkeeps
    refine ⟨v, hobserve.alloc, hobserve.audit, hobserve.live, hobserve.handles, hobserve.totals, ?_⟩
    show s.alloc.emptyCache.2.stats.peakBytes.toNat
        ∈ [s.alloc.emptyCache.2.stats.allocatedBytes.toNat] ∧
      ∀ r ∈ [s.alloc.emptyCache.2.stats.allocatedBytes.toNat],
        r ≤ s.alloc.emptyCache.2.stats.peakBytes.toNat
    rw [hsame]
    simp
  | rehash lists =>
    simp only [TensorMemory.step] at hs
    split_ifs at hs with hperm
    obtain rfl := Option.some.inj hs
    have hstep : auditStep dev u (.rehash lists)
        = some { u with alloc := { u.alloc with freeLists := lists } } := by
      simp only [auditStep]
      rw [if_pos (by rwa [h.alloc])]
    have hpromise : MetalFits dev u (.rehash lists) := trivial
    obtain ⟨v, haudit, halloc, hhistory, hlive, hhandles⟩ :=
      exists_record (h.audit.step hpromise hstep)
    have hlive' : v.live = u.live := hlive.trans (live_congr rfl rfl)
    have hobserve := h.observe s.tensors s.nextDirect haudit hhistory
      (by rw [hlive']; exact h.live) (by rw [hlive', hhandles]; exact h.handles)
    rw [halloc, h.alloc] at hobserve
    exact ⟨v, hobserve⟩

/-- **And one that does not leads to a state that is not truthful.** -/
theorem MemoryInv.not_truthful {op : MemoryOp} (h : MemoryInv s u) (hkeeps : ¬ Keeps s op)
    (hs : s.step dev op = some t) : ¬ Truthful dev t := by
  intro ht
  cases op with
  | from_numpy device nbytes =>
    simp only [TensorMemory.step] at hs
    cases hnew : newMNBuffer device nbytes with
    | error e =>
      refine hkeeps ?_
      show (newMNBuffer device nbytes).isOk = false
      rw [hnew]
      rfl
    | ok m =>
      rw [hnew] at hs
      obtain rfl := Option.some.inj hs
      -- the counter stands still, and the tensors have more bytes
      have hpos : 0 < nbytes := by
        unfold newMNBuffer at hnew
        split_ifs at hnew with hzero
        exact Nat.pos_of_ne_zero hzero
      have hfresh : direct s.nextDirect nbytes ∉ s.tensors := by
        intro hmem
        obtain ⟨b, -, hb⟩ := (h.live _).mp hmem
        cases hb
      have hbefore : s.memory_allocated = s.total := (@MemoryInv.truthful dev s u h).allocated
      have hafter : s.memory_allocated
          = ((direct s.nextDirect nbytes :: s.tensors).dedup.map
            bytes).sum := ht.allocated
      rw [dedup_cons_of_notMem hfresh, map_cons, sum_cons] at hafter
      change s.memory_allocated = nbytes + s.total at hafter
      omega
  | reset_peak_stats =>
    obtain rfl := Option.some.inj hs
    refine hkeeps ?_
    intro n hn
    obtain ⟨hnow, hpeak, -⟩ := emptyCache_keeps s.alloc
    have hread : s.alloc.emptyCache.2.stats.peakBytes.toNat
        ∈ [s.alloc.emptyCache.2.stats.allocatedBytes.toNat] := ht.peak.1
    rw [mem_singleton, hnow, hpeak, ← h.alloc, AuditInv.toNat_allocated h.audit,
      ← total_of_live h.audit h.live] at hread
    obtain ⟨x, hx, rfl⟩ := (h.totals n).mp hn
    have hle := UInt64.le_iff_toNat_le.mp (h.audit.peak.2 x hx)
    rwa [hread] at hle
  | empty | view | destroy | empty_cache | rehash => exact hkeeps trivial

end Invariant

/-- **The statistics are truthful**, in every state of a run on a device that keeps its promise,
    exactly where no buffer of the run is made outside of the pool and the peak is reset only
    while the tensors have as many bytes as they ever had. -/
theorem stats_truthful_iff (dev : MTLDevice) {ops : List MemoryOp} {final : TensorMemory}
    (hfits : GuardedAlong (TensorMemory.step dev) (MemoryFits dev) {} ops)
    (hrun : exec (TensorMemory.step dev) {} ops = some final) :
    Along (TensorMemory.step dev) (Truthful dev) {} ops ↔
      GuardedAlong (TensorMemory.step dev) Keeps {} ops := by
  refine along_iff_guardedAlong (I := fun s => ∃ u, MemoryInv s u) (F := MemoryFits dev)
    ⟨_, MemoryInv.init⟩ ?_ ?_ ?_ hfits hrun
  · rintro s ⟨u, h⟩
    exact h.truthful
  · rintro s op t ⟨u, h⟩ hfit hkeep hs
    exact h.step hfit hkeep hs
  · rintro s op t ⟨u, h⟩ - hs htruthful
    by_contra hkeep
    exact h.not_truthful hkeep hs htruthful

/-- Tensors, a shared buffer, a reset at the peak, and the end of all of them. -/
def plainOps : List MemoryOp :=
  [.empty 100 .Shared, .view 0, .empty 64 .Shared, .reset_peak_stats, .destroy 0, .destroy 0,
    .empty_cache, .destroy 0]

theorem stats_truthful_plain : ∃ final, exec (TensorMemory.step grantingDevice) {} plainOps
    = some final ∧ Along (TensorMemory.step grantingDevice) (Truthful grantingDevice) {}
      plainOps := by
  have hsome : (exec (TensorMemory.step grantingDevice) {} plainOps).isSome = true := by decide
  obtain ⟨final, hrun⟩ := Option.isSome_iff_exists.mp hsome
  have hfits : GuardedAlong (TensorMemory.step grantingDevice) (MemoryFits grantingDevice) {}
      plainOps := by decide
  have hkeeps : GuardedAlong (TensorMemory.step grantingDevice) Keeps {} plainOps := by decide
  exact ⟨final, hrun, (stats_truthful_iff grantingDevice hfits hrun).mpr hkeeps⟩

/-- A device that makes every buffer. -/
def generousDevice : BufferDevice := ⟨2 ^ 32, fun _ => some fun _ => 0⟩

/-- A tensor of 64 bytes from NumPy data, of which none are counted; and a peak that is still the
    one before the reset. -/
theorem stats_untruthful :
    (∃ s, exec (TensorMemory.step grantingDevice) {} [.from_numpy generousDevice 64] = some s ∧
      s.total = 64 ∧ s.memory_allocated = 0) ∧
    ∃ s, exec (TensorMemory.step grantingDevice) {}
        [.empty 64 .Shared, .destroy 0, .reset_peak_stats] = some s ∧
      s.readings = [0] ∧ s.max_memory_allocated = 64 :=
  ⟨⟨_, rfl, by decide, by decide⟩, ⟨_, rfl, by decide, by decide⟩⟩

end MetalNative
