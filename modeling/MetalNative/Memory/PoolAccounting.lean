import MetalNative.Memory.PoolInvariant
import MetalNative.Lib.Run

namespace MetalNative

open Run List ActivationPool

/-!
# The accounts of `ActivationPool`

* `Reusable`, `allocSize` — whether `acquire` looks into the free lists, and the size of the buffer
  that it returns.
* `acquire_found`, `acquire_created` — the two ways of `acquire`.
* `PoolAccounts` — what the totals, the entries and the free lists say about each other.
* `pool_accounts` — it holds in every run that creates at most `2 ^ 32` entries, and there
  `acquire` hands out entries that were not in use and are large enough.
* `index_wraps` — the entry after that gets the index of the first one.
-/

namespace ActivationPool

variable {p p' : ActivationPool} {pb : PooledBuffer} {size : ℕ}

/-! ### Sizes -/

/-- The size that `acquire` looks for. -/
def roundedSize (size : ℕ) : ℕ := if size < kMinActivationSize then kMinActivationSize else size

/-- A request is served from the free list of its class. -/
def served (p : ActivationPool) (size : ℕ) : Bool :=
  let sizeClass := findSizeClass (roundedSize size) p.sizeClasses
  decide (sizeClass ≠ SIZE_MAX) && !excessiveWaste (roundedSize size) sizeClass &&
    !(freeList p.freeLists sizeClass).isEmpty

/-- A size class holds the request and does not waste too much: `acquire` looks into its free
    list. -/
def Reusable (p : ActivationPool) (size : ℕ) : Prop :=
  findSizeClass (roundedSize size) p.sizeClasses ≠ SIZE_MAX ∧
    excessiveWaste (roundedSize size) (findSizeClass (roundedSize size) p.sizeClasses) = false

instance (p : ActivationPool) (size : ℕ) : Decidable (Reusable p size) :=
  inferInstanceAs (Decidable (_ ∧ _))

/-- The size of the buffer that `acquire` returns. -/
def allocSize (p : ActivationPool) (size : ℕ) : ℕ :=
  if Reusable p size then findSizeClass (roundedSize size) p.sizeClasses else roundedSize size

theorem le_findSizeClass {requested : ℕ} {classes : List ℕ}
    (h : findSizeClass requested classes ≠ SIZE_MAX) :
    requested ≤ findSizeClass requested classes := by
  unfold findSizeClass at h ⊢
  cases hfind : classes.find? fun sc => sc ≥ requested with
  | none =>
    rw [hfind] at h
    exact absurd rfl h
  | some sc => simpa using find?_some hfind

theorem le_allocSize (p : ActivationPool) (size : ℕ) : size ≤ allocSize p size := by
  have hmin : size ≤ roundedSize size := by
    unfold roundedSize
    split_ifs <;> omega
  unfold allocSize
  split_ifs with hfits
  · exact hmin.trans (le_findSizeClass hfits.1)
  · exact hmin

theorem served_iff : p.served size = true ↔
    Reusable p size ∧ freeList p.freeLists (allocSize p size) ≠ [] := by
  have hdef : p.served size = true ↔ Reusable p size ∧
      freeList p.freeLists (findSizeClass (roundedSize size) p.sizeClasses) ≠ [] := by
    unfold served Reusable
    simp
  rw [hdef]
  unfold allocSize
  constructor
  · rintro ⟨hfits, hlist⟩
    rw [if_pos hfits]
    exact ⟨hfits, hlist⟩
  · rintro ⟨hfits, hlist⟩
    rw [if_pos hfits] at hlist
    exact ⟨hfits, hlist⟩

/-! ### `acquire` -/

/-- What `acquire` returns was not in use before, is in use now and is large enough. -/
def AcquireSafe (p : ActivationPool) (size : ℕ) (answer : Option ObjId) : Prop :=
  ∀ h p', p.acquire size answer = (.ok h, p') →
    size ≤ h.size ∧ (∀ pb, p.buffers[h.poolIndex.toNat]? = some pb → pb.inUse = false) ∧
      ∃ pb, p'.buffers[h.poolIndex.toNat]? = some pb ∧ pb.inUse = true ∧ handle pb = h

/-- A free list with an index in it serves. -/
theorem findFreeBuffer_isSome (hi : PoolInv p) (h : freeList p.freeLists size ≠ []) :
    (p.findFreeBuffer size).isSome = true := by
  unfold findFreeBuffer
  have hlist := h
  unfold freeList at hlist
  cases hfind : Keyed.find Prod.fst p.freeLists size with
  | none => simp [hfind] at hlist
  | some entry =>
    obtain ⟨k, list⟩ := entry
    have heq : freeList p.freeLists size = list := by
      unfold freeList
      rw [hfind]
      rfl
    cases hlast : list.getLast? with
    | none =>
      rw [heq] at h
      exact absurd (getLast?_eq_none_iff.mp hlast) h
    | some idx =>
      have hmem : idx ∈ freeList p.freeLists size := heq ▸ mem_of_getLast? hlast
      obtain ⟨pb, hpb, -⟩ := idleAt_iff.mp (hi.idle_of_mem hmem)
      dsimp only
      rw [hlast]
      simp [setInUse, hpb]

/-- An empty free list does not. -/
theorem findFreeBuffer_eq_none (h : freeList p.freeLists size = []) :
    p.findFreeBuffer size = none := by
  unfold freeList at h
  unfold findFreeBuffer
  cases hfind : Keyed.find Prod.fst p.freeLists size with
  | none => rfl
  | some entry =>
    obtain ⟨k, list⟩ := entry
    rw [hfind] at h
    obtain rfl : list = [] := h
    rfl

/-- A hit takes the entry that was found. -/
theorem acquire_found {p₁ : ActivationPool} {answer : Option ObjId} (hfits : Reusable p size)
    (hfind : p.findFreeBuffer (allocSize p size) = some (pb, p₁)) :
    p.acquire size answer = (.ok (handle pb),
      { p₁ with
        hitCount := p₁.hitCount + 1
        totalInUseBytes := (p₁.totalInUseBytes + pb.size) % sizeTRange }) := by
  have hclass : allocSize p size = findSizeClass (roundedSize size) p.sizeClasses := if_pos hfits
  rw [hclass] at hfind
  unfold acquire
  dsimp only
  rw [show (if size < kMinActivationSize then kMinActivationSize else size) = roundedSize size
    from rfl]
  rewrite [if_pos (show _ ∧ _ from hfits)]
  rw [hfind]

/-- A new entry is in use, and its bytes count as such. -/
def countInUse : Except MNException PooledBuffer × ActivationPool →
    Except MNException BufferHandle × ActivationPool
  | (.error e, p) => (.error e, p)
  | (.ok pb, p) =>
    (.ok (handle pb), { p with totalInUseBytes := (p.totalInUseBytes + pb.size) % sizeTRange })

/-- A miss creates an entry. -/
theorem acquire_created (hmiss : p.served size = false) (answer : Option ObjId) :
    p.acquire size answer = countInUse
      (createBuffer { p with missCount := p.missCount + 1 } (allocSize p size) answer) := by
  unfold acquire
  dsimp only
  rw [show (if size < kMinActivationSize then kMinActivationSize else size) = roundedSize size
    from rfl]
  by_cases hfits : Reusable p size
  · have hclass : allocSize p size = findSizeClass (roundedSize size) p.sizeClasses :=
      if_pos hfits
    -- the class has no idle buffer: its free list would have served the request
    have hlist : freeList p.freeLists (allocSize p size) = [] := by
      by_contra hne
      rw [served_iff.mpr ⟨hfits, hne⟩] at hmiss
      cases hmiss
    have hfind := findFreeBuffer_eq_none hlist
    rw [hclass] at hfind
    rewrite [if_pos (show _ ∧ _ from hfits), if_pos (show _ ∧ _ from hfits)]
    rewrite [hfind, hclass]
    rfl
  · have hsize : allocSize p size = roundedSize size := if_neg hfits
    rewrite [if_neg (show ¬ (_ ∧ _) from hfits), if_neg (show ¬ (_ ∧ _) from hfits)]
    rewrite [hsize]
    rfl

/-- **`acquire`** keeps the invariant and hands out what it should. -/
theorem PoolInv.acquire (hi : PoolInv p) (answer : Option ObjId)
    (hroom : p.served size = true ∨ p.buffers.length < indexRange) :
    PoolInv (p.acquire size answer).2 ∧ AcquireSafe p size answer := by
  unfold AcquireSafe
  have hle := le_allocSize p size
  cases hserved : p.served size with
  | true =>
    obtain ⟨hfits, hlist⟩ := served_iff.mp hserved
    obtain ⟨⟨pb, p₁⟩, hfind⟩ := Option.isSome_iff_exists.mp (findFreeBuffer_isSome hi hlist)
    obtain ⟨pb₀, hold, huse, hsize, hpb, -, hnew, -, hinv⟩ := findFreeBuffer_spec hi hfind
    rw [acquire_found hfits hfind]
    refine ⟨hinv.counters _ _ _, fun h p' hr => ?_⟩
    obtain ⟨hh, rfl⟩ := Prod.mk.inj hr
    obtain rfl := Except.ok.inj hh
    refine ⟨hle.trans hsize.ge, fun pb' hpb' => ?_, pb, hnew, ?_, rfl⟩
    · obtain rfl : pb₀ = pb' := Option.some.inj (hold.symm.trans hpb')
      exact huse
    · rw [hpb]
  | false =>
    have hlen : p.buffers.length < indexRange := hroom.resolve_left (by simp [hserved])
    have hi' := hi.counters p.sizeClasses p.hitCount (p.missCount + 1)
    obtain ⟨p₁, hi₁, hlen₁, ⟨e, hfail⟩ | ⟨b, hroom₁, hbudget₁, hok⟩⟩ :=
      createBuffer_spec (allocSize p size) hi' answer
    · rw [acquire_created hserved, hfail]
      exact ⟨hi₁, fun h p' hr => nomatch (Prod.mk.inj hr).1⟩
    · replace hlen₁ : p₁.buffers.length = p.buffers.length := hlen₁
      have hlt : p₁.buffers.length < indexRange := hlen₁ ▸ hlen
      have hinv := hi₁.append b true hlt hroom₁ hbudget₁
      have hnext := (next_append hi₁ hlt).1
      have hsmall : p₁.totalInUseBytes + allocSize p size < sizeTRange := by
        have hle := used_le hinv.held
        rw [← hinv.inUse] at hle
        exact hle.trans_lt hinv.room
      rw [acquire_created hserved, hok]
      unfold countInUse
      dsimp only
      rw [Nat.mod_eq_of_lt hsmall]
      refine ⟨hinv, fun h p' hr => ?_⟩
      obtain ⟨hh, rfl⟩ := Prod.mk.inj hr
      obtain rfl := Except.ok.inj hh
      refine ⟨hle, fun pb hpb => ?_, ⟨some b, allocSize p size, p₁.nextIndex, true⟩, ?_, rfl, rfl⟩
      · replace hpb : p.buffers[p₁.nextIndex.toNat]? = some pb := hpb
        rw [getElem?_eq_none (by omega)] at hpb
        cases hpb
      · show (p₁.buffers ++ [_])[p₁.nextIndex.toNat]? = some _
        rw [hnext, getElem?_concat_length]

/-! ### `configure_for_model` -/

/-- Pre-allocation keeps the invariant while there are indices for its buffers. -/
theorem PoolInv.preallocate (hi : PoolInv p) (size : ℕ) (answers : List (Option ObjId))
    (hroom : p.buffers.length + answers.length ≤ indexRange) :
    PoolInv (preallocate size answers p) ∧
      (preallocate size answers p).buffers.length
        ≤ p.buffers.length + answers.length := by
  induction answers generalizing p with
  | nil => exact ⟨hi, le_rfl⟩
  | cons answer answers ih =>
    rw [length_cons] at hroom ⊢
    unfold preallocate
    obtain ⟨p₁, hi₁, hlen₁, ⟨e, hfail⟩ | ⟨b, hroom₁, hbudget₁, hok⟩⟩ :=
      createBuffer_spec size hi answer
    · rw [hfail]
      exact ⟨hi₁, hlen₁.le.trans (Nat.le_add_right ..)⟩
    · rw [hok]
      dsimp only
      have hinv := hi₁.append b false (by omega) hroom₁ hbudget₁
      have hlast : ∀ (f : PooledBuffer → PooledBuffer) (pb : PooledBuffer),
          (p₁.buffers ++ [pb]).modify ((p₁.buffers ++ [pb]).length - 1) f
            = p₁.buffers ++ [f pb] := by
        intro f pb
        rw [length_append, length_singleton, Nat.add_sub_cancel]
        exact modifyTailIdx_add _ 0 p₁.buffers [pb]
      unfold ActivationPool.setInUse
      dsimp only
      rw [hlast]
      have hlen' : (p₁.buffers ++ [(⟨some b, size, p₁.nextIndex, false⟩ : PooledBuffer)]).length
          = p.buffers.length + 1 := by
        rw [length_append, hlen₁]
        rfl
      obtain ⟨hi₂, hlen₂⟩ := ih hinv (by dsimp only; omega)
      refine ⟨hi₂, hlen₂.trans ?_⟩
      dsimp only
      omega

/-- **`configure_for_model`** keeps the invariant. -/
theorem PoolInv.configureForModel (hi : PoolInv p) (hiddenDim numHeads maxSeqLen batchSize : ℕ)
    (answers : ℕ → Option ObjId × Option ObjId) (hroom : p.buffers.length + 8 ≤ indexRange) :
    PoolInv (p.configureForModel hiddenDim numHeads maxSeqLen batchSize answers) := by
  have hloop : ∀ (sizes : List (ℕ × ℕ)) (p : ActivationPool), PoolInv p →
      p.buffers.length + 2 * sizes.length ≤ indexRange →
        PoolInv (sizes.foldl (fun p entry => ActivationPool.preallocate entry.1
          [(answers entry.2).1, (answers entry.2).2] p) p) := by
    intro sizes
    induction sizes with
    | nil => exact fun p hi _ => hi
    | cons entry sizes ih =>
      intro p hi hroom
      rw [length_cons] at hroom
      obtain ⟨hi₁, hlen₁⟩ := hi.preallocate entry.1 [(answers entry.2).1, (answers entry.2).2]
        (by simp; omega)
      refine ih _ hi₁ ?_
      simp only [length_cons, length_nil] at hlen₁
      show (ActivationPool.preallocate _ _ p).buffers.length + _ ≤ _
      omega
  exact hloop _ _ (hi.counters _ p.hitCount p.missCount) hroom

/-! ### Runs -/

/-- The calls. -/
inductive PoolOp
  | acquire (size : ℕ) (answer : Option ObjId)
  | release (h : BufferHandle)
  | releaseAll
  | purgeUnused
  | configureForModel (hiddenDim numHeads maxSeqLen batchSize : ℕ)
      (answers : ℕ → Option ObjId × Option ObjId)

/-- The pool after a call, failed calls included. -/
def poolStep (p : ActivationPool) : PoolOp → Option ActivationPool
  | .acquire size answer => some (p.acquire size answer).2
  | .release h => some (p.release h).2
  | .releaseAll => some p.releaseAll
  | .purgeUnused => some p.purgeUnused
  | .configureForModel hiddenDim numHeads maxSeqLen batchSize answers =>
    some (p.configureForModel hiddenDim numHeads maxSeqLen batchSize answers)

/-- The call does not need an entry beyond the last index. -/
def HasIndices (p : ActivationPool) : PoolOp → Prop
  | .acquire size _ => p.served size = true ∨ p.buffers.length < indexRange
  | .configureForModel .. => p.buffers.length + 8 ≤ indexRange
  | _ => True

instance (p : ActivationPool) : ∀ op, Decidable (HasIndices p op)
  | .acquire _ _ => inferInstanceAs (Decidable (_ ∨ _))
  | .release _ => inferInstanceAs (Decidable True)
  | .releaseAll => inferInstanceAs (Decidable True)
  | .purgeUnused => inferInstanceAs (Decidable True)
  | .configureForModel .. => inferInstanceAs (Decidable (_ ≤ _))

/-- The totals, the entries and the free lists agree. -/
structure PoolAccounts (p : ActivationPool) : Prop where
  allocated : p.totalAllocatedBytes = p.backedBytes
  budget : 0 < p.maxBudget → p.totalAllocatedBytes ≤ p.maxBudget
  inUse : p.totalInUseBytes = p.usedBytes
  held : ∀ pb ∈ p.buffers, pb.inUse = true → pb.buffer.isSome = true
  idle : ∀ (i : ℕ) (pb : PooledBuffer), p.buffers[i]? = some pb → pb.inUse = false →
    pb.buffer.isSome = true → ∀ size, (freeList p.freeLists size).count (UInt32.ofNat i)
      = if size = pb.size then 1 else 0
  free : ∀ size, ∀ idx ∈ freeList p.freeLists size, ∃ pb, p.buffers[idx.toNat]? = some pb ∧
    pb.inUse = false ∧ pb.buffer.isSome = true ∧ pb.size = size

theorem PoolInv.accounts (hi : PoolInv p) : PoolAccounts p where
  allocated := hi.allocated
  budget := hi.budget
  inUse := hi.inUse
  held := hi.held
  idle i pb h huse hbuf size := by
    have hlt : i < indexRange := (List.getElem?_eq_some_iff.mp h).1.trans_le hi.count
    have hnat : (UInt32.ofNat i).toNat = i := Nat.mod_eq_of_lt hlt
    rw [hi.free]
    unfold idleAt
    rw [hnat, h]
    by_cases hs : size = pb.size
    · simp [idle, huse, hbuf, hs]
    · have hs' : ¬ pb.size = size := fun heq => hs heq.symm
      simp [idle, hs, hs']
  free size idx h := idleAt_iff.mp (hi.idle_of_mem h)

/-- One call keeps the invariant. -/
theorem PoolInv.step {op : PoolOp} (hi : PoolInv p) (hop : HasIndices p op)
    (h : poolStep p op = some p') : PoolInv p' := by
  cases op with
  | acquire size answer =>
    obtain rfl := Option.some.inj h
    exact (hi.acquire answer hop).1
  | release handle =>
    obtain rfl := Option.some.inj h
    exact hi.release handle
  | releaseAll =>
    obtain rfl := Option.some.inj h
    exact hi.releaseAll
  | purgeUnused =>
    obtain rfl := Option.some.inj h
    exact hi.purge
  | configureForModel hiddenDim numHeads maxSeqLen batchSize answers =>
    obtain rfl := Option.some.inj h
    exact hi.configureForModel hiddenDim numHeads maxSeqLen batchSize answers hop

/-- **Accounts.**  While there are indices for the entries, the accounts agree and `acquire`
    hands out what is free and large enough. -/
theorem pool_accounts (maxBudgetBytes recommended : ℕ)
    (h : Runs poolStep HasIndices (new maxBudgetBytes recommended) p) :
    PoolAccounts p ∧ ∀ size answer, HasIndices p (.acquire size answer) →
      AcquireSafe p size answer := by
  have hi : PoolInv p :=
    h.invariant (PoolInv.new maxBudgetBytes recommended) fun u op v hu hop hs => hu.step hop hs
  exact ⟨hi.accounts, fun size answer hop => (hi.acquire answer hop).2⟩

/-- Failed and successful calls of every kind. -/
theorem pool_accounts_mixed :
    ∃ p, exec poolStep (new 2000000 0) [.acquire 262144 (some 1), .acquire 524288 (some 2),
        .acquire 1048576 none, .release ⟨some 1, 262144, 0⟩, .acquire 262144 none,
        .release ⟨some 2, 524288, 1⟩, .releaseAll,
        .configureForModel 1 1 1 1 fun i => (some (10 + i), some (20 + i)),
        .purgeUnused, .acquire 2097152 (some 3)] = some p ∧
      PoolAccounts p ∧ ∀ size answer, HasIndices p (.acquire size answer) →
        AcquireSafe p size answer := by
  have hsome : (exec poolStep (new 2000000 0) [.acquire 262144 (some 1), .acquire 524288 (some 2),
      .acquire 1048576 none, .release ⟨some 1, 262144, 0⟩, .acquire 262144 none,
      .release ⟨some 2, 524288, 1⟩, .releaseAll,
      .configureForModel 1 1 1 1 fun i => (some (10 + i), some (20 + i)),
      .purgeUnused, .acquire 2097152 (some 3)]).isSome = true := by decide +kernel
  obtain ⟨p, hp⟩ := Option.isSome_iff_exists.mp hsome
  have hguard : GuardedAlong poolStep HasIndices (new 2000000 0) [.acquire 262144 (some 1),
      .acquire 524288 (some 2), .acquire 1048576 none, .release ⟨some 1, 262144, 0⟩,
      .acquire 262144 none, .release ⟨some 2, 524288, 1⟩, .releaseAll,
      .configureForModel 1 1 1 1 fun i => (some (10 + i), some (20 + i)),
      .purgeUnused, .acquire 2097152 (some 3)] := by decide +kernel
  exact ⟨p, hp, pool_accounts 2000000 0 (runs_exec hp hguard)⟩

/-! ### Running out of indices -/

/-- The pool after `n` rounds of `acquire`, `release_all` and `purge_unused`. -/
def cycled (n : ℕ) : ActivationPool :=
  { new 1000000 0 with
    freeLists := if n = 0 then [] else [(262144, [])]
    buffers := (List.range n).map fun i => ⟨none, 262144, UInt32.ofNat i, false⟩
    nextIndex := UInt32.ofNat n
    missCount := UInt64.ofNat n }

/-- The entry that a round leaves behind. -/
def leftover (n : ℕ) (buffer : Option ObjId) (inUse : Bool) : PooledBuffer :=
  ⟨buffer, 262144, UInt32.ofNat n, inUse⟩

theorem cycled_backedBytes (n : ℕ) : (cycled n).backedBytes = 0 := by
  refine sum_eq_zero fun x hx => ?_
  obtain ⟨pb, hpb, rfl⟩ := mem_map.mp hx
  obtain ⟨i, -, rfl⟩ := mem_map.mp hpb
  rfl

/-- Creating within the budget. -/
theorem createBuffer_within {b : ObjId} {total : ℕ} (htotal : p.totalAllocatedBytes + size = total)
    (hbudget : total ≤ p.maxBudget) (hsum : total < sizeTRange)
    (hroom : p.backedBytes + size < sizeTRange) :
    p.createBuffer size (some b) = (.ok ⟨some b, size, p.nextIndex, true⟩,
      { p with
        buffers := p.buffers ++ [⟨some b, size, p.nextIndex, true⟩]
        nextIndex := p.nextIndex + 1
        totalAllocatedBytes := total }) := by
  have hfits : ¬ (p.maxBudget > 0 ∧
      decide ((p.totalAllocatedBytes + size) % sizeTRange > p.maxBudget) = true) := by
    rw [htotal, Nat.mod_eq_of_lt hsum, decide_eq_true_eq]
    omega
  unfold createBuffer newBuffer
  dsimp only
  rw [if_neg hfits, if_neg hfits, if_pos hroom, htotal, Nat.mod_eq_of_lt hsum]

/-- A request that is a size class. -/
theorem reusable_class (hmin : kMinActivationSize ≤ size)
    (hclass : findSizeClass size p.sizeClasses = size) (hmax : size ≠ SIZE_MAX) :
    Reusable p size ∧ allocSize p size = size := by
  have hrounded : roundedSize size = size := if_neg (not_lt.mpr hmin)
  have hfits : Reusable p size := by
    unfold Reusable excessiveWaste
    rw [hrounded, hclass]
    exact ⟨hmax, if_pos rfl⟩
  refine ⟨hfits, ?_⟩
  unfold allocSize
  rw [if_pos hfits, hrounded, hclass]

/-- A request that is a size class, with nothing to reuse and room for a new buffer. -/
theorem acquire_fresh {b : ObjId} {total used : ℕ} (hmin : kMinActivationSize ≤ size)
    (hclass : findSizeClass size p.sizeClasses = size) (hmax : size ≠ SIZE_MAX)
    (hlist : freeList p.freeLists size = []) (htotal : p.totalAllocatedBytes + size = total)
    (hbudget : total ≤ p.maxBudget) (hsum : total < sizeTRange)
    (hroom : p.backedBytes + size < sizeTRange)
    (hused : (p.totalInUseBytes + size) % sizeTRange = used) :
    p.acquire size (some b) = (.ok (handle ⟨some b, size, p.nextIndex, true⟩),
      { p with
        buffers := p.buffers ++ [⟨some b, size, p.nextIndex, true⟩]
        nextIndex := p.nextIndex + 1
        totalAllocatedBytes := total
        totalInUseBytes := used
        missCount := p.missCount + 1 }) := by
  have hcreate := createBuffer_within (b := b) (p := { p with missCount := p.missCount + 1 })
    htotal hbudget hsum hroom
  obtain ⟨-, hsize⟩ := reusable_class hmin hclass hmax
  have hmiss : p.served size = false := by
    by_contra hserved
    rw [Bool.not_eq_false, served_iff, hsize] at hserved
    exact hserved.2 hlist
  rw [acquire_created hmiss, hsize, hcreate, ← hused]
  rfl

theorem cycled_acquire (n : ℕ) (b : ObjId) :
    (cycled n).acquire 262144 (some b) = (.ok (handle (leftover n (some b) true)),
      { cycled n with
        buffers := (cycled n).buffers ++ [leftover n (some b) true]
        nextIndex := UInt32.ofNat n + 1
        totalAllocatedBytes := 262144
        totalInUseBytes := 262144
        missCount := UInt64.ofNat n + 1 }) := by
  have hclass : findSizeClass 262144 (cycled n).sizeClasses = 262144 := by
    show findSizeClass 262144 (new 1000000 0).sizeClasses = 262144
    decide
  have hlist : freeList (cycled n).freeLists 262144 = [] := by
    unfold freeList cycled
    dsimp only
    split_ifs <;> rfl
  have hroom : (cycled n).backedBytes + 262144 < sizeTRange := by
    rw [cycled_backedBytes]
    decide
  have htotal : (cycled n).totalAllocatedBytes + 262144 = 262144 := by
    have hzero : (cycled n).totalAllocatedBytes = 0 := rfl
    rw [hzero]
  have hused : ((cycled n).totalInUseBytes + 262144) % sizeTRange = 262144 := by
    have hzero : (cycled n).totalInUseBytes = 0 := rfl
    rw [hzero]
    decide
  exact acquire_fresh (by decide) hclass (by decide) hlist htotal
    (show 262144 ≤ 1000000 by decide) (by decide) hroom hused

theorem cycled_inUse (n : ℕ) (b : ObjId) :
    ((cycled n).buffers ++ [leftover n (some b) true]).filter PooledBuffer.inUse
      = [leftover n (some b) true] := by
  rw [filter_append, filter_eq_nil_iff.mpr]
  · rfl
  · intro pb hpb
    obtain ⟨i, -, rfl⟩ := mem_map.mp hpb
    simp

/-- One round. -/
theorem cycled_round (n : ℕ) (b : ObjId) :
    (((cycled n).acquire 262144 (some b)).2.releaseAll).purgeUnused = cycled (n + 1) := by
  rw [cycled_acquire]
  have hidle := cycled_inUse n b
  have hbuffers : (((cycled n).buffers ++ [leftover n (some b) true]).map fun pb =>
      { pb with inUse := false }).map purged = (cycled (n + 1)).buffers := by
    unfold cycled leftover
    simp [range_succ, purged]
  have hfreed : ((((cycled n).buffers ++ [leftover n (some b) true]).map fun pb =>
      { pb with inUse := false }).map fun pb =>
        if pb.inUse = false ∧ pb.buffer.isSome then pb.size else 0).sum = 262144 := by
    rw [map_append, map_append, sum_append, sum_eq_zero]
    · simp [leftover]
    · intro x hx
      obtain ⟨pb, hpb, rfl⟩ := mem_map.mp hx
      obtain ⟨pb', hpb', rfl⟩ := mem_map.mp hpb
      obtain ⟨i, -, rfl⟩ := mem_map.mp hpb'
      rfl
  have hlists : (([leftover n (some b) true].foldl (fun lists pb => pushFree lists pb.size pb.index)
      (cycled n).freeLists).map fun entry =>
        (entry.1, entry.2.filter (backed (cycled (n + 1)).buffers))) = [(262144, [])] := by
    have hpush : [leftover n (some b) true].foldl (fun lists pb => pushFree lists pb.size pb.index)
        (cycled n).freeLists = [(262144, [UInt32.ofNat n])] := by
      show pushFree (cycled n).freeLists 262144 (UInt32.ofNat n) = _
      unfold cycled
      by_cases hn : n = 0
      · simp [hn, pushFree, Keyed.insert, Keyed.erase, freeList, Keyed.find]
      · simp [hn, pushFree, Keyed.insert, Keyed.erase, freeList, Keyed.find]
    have hnil : ∀ i, backed (cycled (n + 1)).buffers i = false := by
      intro i
      unfold backed cycled
      dsimp only
      rw [getElem?_map]
      cases (range (n + 1))[i.toNat]? <;> rfl
    rw [hpush]
    simp [hnil]
  have htotal : (262144 + sizeTRange - 262144 % sizeTRange) % sizeTRange = 0 := by decide
  have hpurged : (fun pb : PooledBuffer => if pb.inUse = true then pb
      else { pb with buffer := none }) = purged := rfl
  unfold releaseAll purgeUnused purgeUnusedInternal
  dsimp only at hpurged ⊢
  have hindex : UInt32.ofNat n + 1 = UInt32.ofNat (n + 1) := (UInt32.ofNat_add n 1).symm
  have hmisses : UInt64.ofNat n + 1 = UInt64.ofNat (n + 1) := (UInt64.ofNat_add n 1).symm
  rw [hidle, hfreed, htotal, hpurged, hbuffers, hlists, hindex, hmisses]
  rfl

/-- The free list of a round in which the index has wrapped around. -/
theorem cycled_freeList {n : ℕ} (hn : 0 < n) (b : ObjId) :
    ((cycled n).acquire 262144 (some b)).2.releaseAll.freeLists = [(262144, [UInt32.ofNat n])] := by
  rw [cycled_acquire]
  unfold releaseAll
  dsimp only
  rw [cycled_inUse]
  show pushFree (cycled n).freeLists 262144 (UInt32.ofNat n) = _
  unfold cycled
  simp [Nat.pos_iff_ne_zero.mp hn, pushFree, Keyed.insert, Keyed.erase, freeList, Keyed.find]

/-- An index that has wrapped around names the first entry, which has no buffer. -/
theorem cycled_wrapped {n : ℕ} (hn : 0 < n) (hwrap : UInt32.ofNat n = 0) (b : ObjId) :
    ∃ pb ∈ (((cycled n).acquire 262144 (some b)).2.releaseAll.acquire 262144 none).2.buffers,
      pb.inUse = true ∧ pb.buffer = none := by
  have hlists := cycled_freeList hn b
  have hfirst : ((cycled n).acquire 262144 (some b)).2.releaseAll.buffers[0]?
      = some (leftover 0 none false) := by
    rw [cycled_acquire]
    show (((cycled n).buffers ++ _).map _)[0]? = _
    have hhead : (cycled n).buffers[0]? = some (leftover 0 none false) := by
      show ((range n).map _)[0]? = _
      rw [getElem?_map, getElem?_range hn]
      rfl
    rw [List.getElem?_map, List.getElem?_append_left (List.getElem?_eq_some_iff.mp hhead).1, hhead]
    rfl
  generalize hq : ((cycled n).acquire 262144 (some b)).2.releaseAll = q at *
  have hclass : findSizeClass 262144 q.sizeClasses = 262144 := by
    rw [← hq, cycled_acquire]
    show findSizeClass 262144 (new 1000000 0).sizeClasses = 262144
    decide
  have htaken : (q.buffers.modify 0 fun pb => { pb with inUse := true })[0]?
      = some (leftover 0 none true) := by
    rw [getElem?_modify_eq, hfirst]
    rfl
  have hfind : q.findFreeBuffer 262144 = some (leftover 0 none true,
      { q with
        freeLists := Keyed.insert Prod.fst q.freeLists (262144, [])
        buffers := q.buffers.modify 0 fun pb => { pb with inUse := true } }) := by
    unfold findFreeBuffer
    rw [hlists, hwrap]
    show ((q.buffers.modify 0 _)[0]?).map _ = _
    rw [htaken]
    rfl
  refine ⟨leftover 0 none true, ?_, rfl, rfl⟩
  obtain ⟨hfits, hsize⟩ := reusable_class (by decide) hclass (by decide)
  rw [acquire_found hfits (hsize.symm ▸ hfind)]
  exact mem_of_getElem? htaken

/-- After `2 ^ 32` rounds the pool hands out an entry that has no buffer. -/
theorem index_wraps :
    ∃ p, Reaches poolStep (new 1000000 0) p ∧ ∃ pb ∈ p.buffers, pb.inUse = true ∧
      pb.buffer = none := by
  have hcycled : ∀ n, Reaches poolStep (new 1000000 0) (cycled n) := by
    intro n
    induction n with
    | zero => exact .refl
    | succ n ih =>
      rw [← cycled_round n 1]
      exact ((ih.tail (a := .acquire 262144 (some 1)) trivial rfl).tail (a := .releaseAll)
        trivial rfl).tail (a := .purgeUnused) trivial rfl
  have hwrap : UInt32.ofNat indexRange = 0 := by decide
  refine ⟨_, ?_, cycled_wrapped (show 0 < indexRange by decide) hwrap 1⟩
  exact (((hcycled indexRange).tail (a := .acquire 262144 (some 1)) trivial rfl).tail
    (a := .releaseAll) trivial rfl).tail (a := .acquire 262144 none) trivial rfl

end ActivationPool

end MetalNative
