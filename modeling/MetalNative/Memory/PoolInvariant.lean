import MetalNative.Memory.ActivationPool
import Mathlib.Algebra.Order.BigOperators.Group.List
import Mathlib.Algebra.Order.Group.Nat

namespace MetalNative

open List

/-!
# The invariant of `ActivationPool`

* `PoolInv` — the totals and the free lists agree with the entries; the free lists are described
  by how often an index stands in them.
* `PoolInv.purge`, `createBuffer_spec`, `PoolInv.append` — creating entries.
* `PoolInv.setInUse`, `findFreeBuffer_spec`, `PoolInv.release`, `PoolInv.releaseAll` — entries
  that change hands.
-/

namespace ActivationPool

variable {p p' : ActivationPool} {buffers : List PooledBuffer} {lists : List (ℕ × List UInt32)}
  {pb : PooledBuffer} {size : ℕ} {idx : UInt32}

/-! ### Sums over the entries -/

theorem sum_modify {α : Type} (f : α → ℕ) (g : α → α) : ∀ (l : List α) (i : ℕ) (x : α),
    l[i]? = some x → ((l.modify i g).map f).sum + f x = (l.map f).sum + f (g x) := by
  intro l
  induction l with
  | nil => intro i x h; simp at h
  | cons y l ih =>
    intro i x h
    cases i with
    | zero =>
      obtain rfl : y = x := by simpa using h
      simp only [modify_zero_cons, map_cons, sum_cons]
      omega
    | succ i =>
      have hi := ih i x (by simpa using h)
      simp only [modify_succ_cons, map_cons, sum_cons]
      omega

/-- The bytes of the entries in use. -/
def usedBytes (p : ActivationPool) : ℕ :=
  (p.buffers.map fun pb => if pb.inUse then pb.size else 0).sum

/-- A position of the list with one more entry. -/
theorem getElem?_concat {α : Type} {l : List α} {x y : α} {i : ℕ} (h : (l ++ [x])[i]? = some y) :
    l[i]? = some y ∨ i = l.length ∧ x = y := by
  rw [getElem?_append] at h
  split_ifs at h with hlt
  · exact .inl h
  · obtain ⟨hlt', heq⟩ := List.getElem?_eq_some_iff.mp h
    rw [length_singleton] at hlt'
    refine .inr ⟨by omega, ?_⟩
    simpa using heq

/-! ### Free lists -/

/-- The entry is free, has a buffer and the size `size`. -/
def idle (size : ℕ) (pb : PooledBuffer) : Bool :=
  !pb.inUse && pb.buffer.isSome && pb.size = size

/-- The entry at `idx` is idle and has the size `size`. -/
def idleAt (buffers : List PooledBuffer) (size : ℕ) (idx : UInt32) : Bool :=
  buffers[idx.toNat]?.any (idle size)

theorem idleAt_iff : idleAt buffers size idx = true ↔
    ∃ pb, buffers[idx.toNat]? = some pb ∧ pb.inUse = false ∧ pb.buffer.isSome = true ∧
      pb.size = size := by
  unfold idleAt idle
  simp [Option.any_eq_true, and_assoc]

theorem idleAt_append (buffers : List PooledBuffer) (pb : PooledBuffer) (size : ℕ) (idx : UInt32) :
    idleAt (buffers ++ [pb]) size idx
      = if idx.toNat = buffers.length then idle size pb else idleAt buffers size idx := by
  unfold idleAt
  split_ifs with h
  · rw [h, getElem?_concat_length]
    rfl
  · by_cases hlt : idx.toNat < buffers.length
    · rw [getElem?_append_left hlt]
    · have hend : (buffers ++ [pb]).length ≤ idx.toNat := by
        rw [length_append, length_singleton]
        omega
      rw [getElem?_eq_none hend, getElem?_eq_none (not_lt.mp hlt)]

theorem idleAt_modify {i : ℕ} (h : buffers[i]? = some pb) (f : PooledBuffer → PooledBuffer)
    (size : ℕ) (idx : UInt32) :
    idleAt (buffers.modify i f) size idx
      = if idx.toNat = i then idle size (f pb) else idleAt buffers size idx := by
  unfold idleAt
  rw [getElem?_modify]
  by_cases hi : i = idx.toNat
  · simp [← hi, h]
  · have hi' : ¬ idx.toNat = i := fun heq => hi heq.symm
    simp [hi, hi']

@[simp] theorem freeList_insert (lists : List (ℕ × List UInt32)) (s t : ℕ) (l : List UInt32) :
    freeList (Keyed.insert Prod.fst lists (s, l)) t = if t = s then l else freeList lists t := by
  unfold freeList
  split_ifs with h
  · have hfind : Keyed.find Prod.fst (Keyed.insert Prod.fst lists (s, l)) s = some (s, l) :=
      Keyed.find_insert_self
    rw [h, hfind]
    rfl
  · rw [Keyed.find_insert_ne h]

@[simp] theorem freeList_pushFree (lists : List (ℕ × List UInt32)) (s t : ℕ) (i : UInt32) :
    freeList (pushFree lists s i) t
      = if t = s then freeList lists s ++ [i] else freeList lists t := by
  unfold pushFree
  rw [freeList_insert]

theorem freeList_filter (lists : List (ℕ × List UInt32)) (f : UInt32 → Bool) (s : ℕ) :
    freeList (lists.map fun entry => (entry.1, entry.2.filter f)) s
      = (freeList lists s).filter f := by
  have hfind : Keyed.find Prod.fst (lists.map fun entry => (entry.1, entry.2.filter f)) s
      = (Keyed.find Prod.fst lists s).map fun entry => (entry.1, entry.2.filter f) :=
    Keyed.find_map (f := fun entry : ℕ × List UInt32 => (entry.1, entry.2.filter f))
      (fun _ => rfl) s
  unfold freeList
  rw [hfind]
  cases Keyed.find Prod.fst lists s with
  | none | some => rfl

/-- What the pushes of `release_all` append. -/
theorem freeList_foldl (es : List PooledBuffer) : ∀ (lists : List (ℕ × List UInt32)) (s : ℕ),
    freeList (es.foldl (fun lists pb => pushFree lists pb.size pb.index) lists) s
      = freeList lists s ++ (es.filter fun pb => pb.size = s).map PooledBuffer.index := by
  induction es with
  | nil => simp
  | cons pb es ih =>
    intro lists s
    rw [foldl_cons, ih, freeList_pushFree]
    by_cases h : s = pb.size
    · simp [h]
    · have h' : ¬ pb.size = s := fun heq => h heq.symm
      simp [h, h']

theorem distinct_pushFree (h : Keyed.Distinct Prod.fst lists) :
    Keyed.Distinct Prod.fst (pushFree lists size idx) := h.insert _

theorem distinct_foldl (es : List PooledBuffer) : ∀ lists : List (ℕ × List UInt32),
    Keyed.Distinct Prod.fst lists →
      Keyed.Distinct Prod.fst
        (es.foldl (fun lists (pb : PooledBuffer) => pushFree lists pb.size pb.index) lists) := by
  induction es with
  | nil => exact fun lists h => h
  | cons pb es ih => exact fun lists h => ih _ (distinct_pushFree h)

/-! ### The invariant -/

/-- The number of different indices. -/
def indexRange : ℕ := 2 ^ 32

/-- The invariant of the pool. -/
structure PoolInv (p : ActivationPool) : Prop where
  count : p.buffers.length ≤ indexRange
  next : p.nextIndex = UInt32.ofNat p.buffers.length
  index : ∀ (i : ℕ) (pb : PooledBuffer), p.buffers[i]? = some pb → pb.index.toNat = i
  held : ∀ pb ∈ p.buffers, pb.inUse = true → pb.buffer.isSome = true
  allocated : p.totalAllocatedBytes = p.backedBytes
  room : p.backedBytes < sizeTRange
  budget : 0 < p.maxBudget → p.totalAllocatedBytes ≤ p.maxBudget
  inUse : p.totalInUseBytes = p.usedBytes
  lists : Keyed.Distinct Prod.fst p.freeLists
  free : ∀ size idx, (freeList p.freeLists size).count idx = (idleAt p.buffers size idx).toNat

theorem PoolInv.new (maxBudgetBytes recommended : ℕ) :
    PoolInv (new maxBudgetBytes recommended) where
  count := Nat.zero_le _
  next := rfl
  index i pb h := by simp [ActivationPool.new] at h
  held := by simp [ActivationPool.new]
  allocated := rfl
  room := by
    show 0 < sizeTRange
    decide
  budget _ := Nat.zero_le _
  inUse := rfl
  lists := nodup_nil
  free size idx := by simp [ActivationPool.new, freeList, idleAt, Keyed.find]

/-- The size classes and the hit counts do not matter. -/
theorem PoolInv.counters (hi : PoolInv p) (classes : List ℕ) (hits misses : UInt64) :
    PoolInv { p with sizeClasses := classes, hitCount := hits, missCount := misses } :=
  ⟨hi.count, hi.next, hi.index, hi.held, hi.allocated, hi.room, hi.budget, hi.inUse, hi.lists,
    hi.free⟩

/-- Entries in use have a buffer. -/
theorem used_le (hi : ∀ pb ∈ p.buffers, pb.inUse = true → pb.buffer.isSome = true) :
    p.usedBytes ≤ p.backedBytes := by
  refine sum_le_sum fun pb hpb => ?_
  have hheld := hi pb hpb
  split_ifs with huse hbuf
  · exact le_rfl
  · exact absurd (hheld huse) hbuf
  · exact Nat.zero_le _
  · exact le_rfl

theorem PoolInv.idle_of_mem (hi : PoolInv p) (h : idx ∈ freeList p.freeLists size) :
    idleAt p.buffers size idx = true := by
  have hpos := count_pos_iff.mpr h
  rw [hi.free] at hpos
  cases hidle : idleAt p.buffers size idx with
  | true => rfl
  | false => simp [hidle] at hpos

theorem PoolInv.index_eq (hi : PoolInv p) {i : ℕ} (h : p.buffers[i]? = some pb) :
    idx.toNat = i ↔ idx = pb.index := by
  rw [← hi.index i pb h]
  exact UInt32.toNat_inj

/-! ### Purging -/

/-- The entries after a purge. -/
def purged (pb : PooledBuffer) : PooledBuffer := if pb.inUse then pb else { pb with buffer := none }

theorem purged_bytes (buffers : List PooledBuffer) :
    (buffers.map fun pb => if pb.inUse = false ∧ pb.buffer.isSome then pb.size else 0).sum
      + ((buffers.map purged).map fun pb => if pb.buffer.isSome then pb.size else 0).sum
      = (buffers.map fun pb => if pb.buffer.isSome then pb.size else 0).sum := by
  rw [map_map, ← sum_map_add]
  congr 1
  refine map_congr_left fun pb _ => ?_
  cases huse : pb.inUse <;> simp [purged, huse]

theorem idleAt_purged (buffers : List PooledBuffer) (size : ℕ) (idx : UInt32) :
    idleAt (buffers.map purged) size idx = false := by
  rw [Bool.eq_false_iff]
  intro h
  obtain ⟨pb, hpb, huse, hbuf, -⟩ := idleAt_iff.mp h
  rw [getElem?_map] at hpb
  obtain ⟨pb₀, -, rfl⟩ := Option.map_eq_some_iff.mp hpb
  unfold purged at huse hbuf
  split_ifs at huse hbuf with h₀
  · rw [h₀] at huse
    cases huse
  · cases hbuf

/-- **`purge_unused_internal`** keeps the invariant. -/
theorem PoolInv.purge (hi : PoolInv p) : PoolInv p.purgeUnusedInternal := by
  have hbytes := purged_bytes p.buffers
  have hroom := hi.room
  have hbacked : p.purgeUnusedInternal.backedBytes =
      ((p.buffers.map purged).map fun pb => if pb.buffer.isSome then pb.size else 0).sum := rfl
  have hle : p.purgeUnusedInternal.backedBytes ≤ p.backedBytes := by
    rw [hbacked]
    unfold backedBytes
    omega
  have htotal : p.purgeUnusedInternal.totalAllocatedBytes
      = p.purgeUnusedInternal.backedBytes := by
    rw [hbacked]
    show (p.totalAllocatedBytes + sizeTRange - (p.buffers.map fun pb =>
      if pb.inUse = false ∧ pb.buffer.isSome then pb.size else 0).sum % sizeTRange) % sizeTRange = _
    rw [hi.allocated]
    unfold backedBytes at hroom ⊢
    generalize hf : (p.buffers.map fun pb =>
      if pb.inUse = false ∧ pb.buffer.isSome then pb.size else 0).sum = freed at hbytes ⊢
    rw [← hbytes] at hroom ⊢
    rw [Nat.mod_eq_of_lt (show freed < sizeTRange by omega), Nat.add_sub_assoc (by omega),
      Nat.add_assoc, Nat.add_comm, Nat.add_assoc]
    have hsplit : sizeTRange - freed + freed = sizeTRange := by omega
    rw [hsplit, Nat.add_mod_right, Nat.mod_eq_of_lt (by omega)]
  have hused : p.purgeUnusedInternal.usedBytes = p.usedBytes := by
    show ((p.buffers.map purged).map fun pb => if pb.inUse then pb.size else 0).sum = _
    unfold usedBytes
    rw [map_map]
    congr 1
    refine map_congr_left fun pb _ => ?_
    cases huse : pb.inUse <;> simp [purged, huse]
  refine ⟨?_, ?_, ?_, ?_, htotal, hle.trans_lt hroom, ?_, hi.inUse.trans hused.symm, ?_, ?_⟩
  · show (p.buffers.map purged).length ≤ _
    rw [length_map]
    exact hi.count
  · show p.nextIndex = UInt32.ofNat (p.buffers.map purged).length
    rw [length_map]
    exact hi.next
  · intro i pb h
    replace h : (p.buffers.map purged)[i]? = some pb := h
    rw [getElem?_map] at h
    obtain ⟨pb₀, hpb₀, rfl⟩ := Option.map_eq_some_iff.mp h
    have hindex := hi.index i pb₀ hpb₀
    unfold purged
    split_ifs <;> exact hindex
  · intro pb hpb huse
    obtain ⟨pb₀, hpb₀, rfl⟩ := mem_map.mp hpb
    by_cases huse₀ : pb₀.inUse = true
    · rw [if_pos huse₀]
      exact hi.held pb₀ hpb₀ huse₀
    · rw [if_neg huse₀] at huse
      exact absurd huse huse₀
  · intro hpos
    rw [htotal]
    exact hle.trans (hi.allocated ▸ hi.budget hpos)
  · exact hi.lists.map fun entry => rfl
  · intro size idx
    show (freeList (p.freeLists.map fun entry =>
      (entry.1, entry.2.filter (backed (p.buffers.map purged)))) size).count idx
        = (idleAt (p.buffers.map purged) size idx).toNat
    rw [freeList_filter, idleAt_purged, Bool.toNat_false, count_eq_zero]
    intro hmem
    obtain ⟨hmem, hbacked⟩ := mem_filter.mp hmem
    obtain ⟨pb, hpb, huse, -⟩ := idleAt_iff.mp (hi.idle_of_mem hmem)
    simp [backed, hpb, purged, huse] at hbacked

theorem purge_length (p : ActivationPool) :
    p.purgeUnusedInternal.buffers.length = p.buffers.length := length_map _

/-! ### Creating -/

/-- What `create_buffer` comes down to: perhaps a purge, and perhaps a new entry. -/
theorem createBuffer_spec (size : ℕ) (hi : PoolInv p) (answer : Option ObjId) :
    ∃ p₁, PoolInv p₁ ∧ p₁.buffers.length = p.buffers.length ∧
      ((∃ e, p.createBuffer size answer = (.error e, p₁)) ∨
        ∃ b, p₁.backedBytes + size < sizeTRange ∧
          (0 < p₁.maxBudget → p₁.backedBytes + size ≤ p₁.maxBudget) ∧
          p.createBuffer size answer = (.ok ⟨some b, size, p₁.nextIndex, true⟩,
            { p₁ with
              buffers := p₁.buffers ++ [⟨some b, size, p₁.nextIndex, true⟩]
              nextIndex := p₁.nextIndex + 1
              totalAllocatedBytes := p₁.backedBytes + size })) := by
  unfold createBuffer
  simp only
  generalize hp₁ : (if p.maxBudget > 0 ∧
    decide ((p.totalAllocatedBytes + size) % sizeTRange > p.maxBudget) = true
      then p.purgeUnusedInternal else p) = p₁
  have hi₁ : PoolInv p₁ ∧ p₁.buffers.length = p.buffers.length := by
    rw [← hp₁]
    split_ifs
    · exact ⟨hi.purge, purge_length p⟩
    · exact ⟨hi, rfl⟩
  refine ⟨p₁, hi₁.1, hi₁.2, ?_⟩
  split_ifs with hover
  · exact .inl ⟨_, rfl⟩
  · unfold newBuffer
    split_ifs with hroom
    · cases answer with
      | none => exact .inl ⟨_, rfl⟩
      | some b =>
        have hsum : (p₁.totalAllocatedBytes + size) % sizeTRange = p₁.backedBytes + size := by
          rw [hi₁.1.allocated, Nat.mod_eq_of_lt hroom]
        refine .inr ⟨b, hroom, fun hpos => ?_, ?_⟩
        · rw [not_and, decide_eq_true_eq, hsum, not_lt] at hover
          exact hover hpos
        · simp only [hsum]
    · exact .inl ⟨_, rfl⟩

theorem next_append (hi : PoolInv p) (hroom : p.buffers.length < indexRange) :
    p.nextIndex.toNat = p.buffers.length ∧
      p.nextIndex + 1 = UInt32.ofNat (p.buffers.length + 1) := by
  rw [hi.next]
  refine ⟨Nat.mod_eq_of_lt hroom, ?_⟩
  rw [UInt32.ofNat_add]
  rfl

/-- A new entry at the end; `totalInUse` and `freeLists` follow its state. -/
theorem PoolInv.append (hi : PoolInv p) (b : ObjId) (used : Bool)
    (hcount : p.buffers.length < indexRange) (hroom : p.backedBytes + size < sizeTRange)
    (hbudget : 0 < p.maxBudget → p.backedBytes + size ≤ p.maxBudget) :
    PoolInv { p with
      buffers := p.buffers ++ [⟨some b, size, p.nextIndex, used⟩]
      nextIndex := p.nextIndex + 1
      totalAllocatedBytes := p.backedBytes + size
      totalInUseBytes := p.totalInUseBytes + if used then size else 0
      freeLists := if used then p.freeLists else pushFree p.freeLists size p.nextIndex } := by
  obtain ⟨hnext, hsucc⟩ := next_append hi hcount
  have hbytes : (backedBytes { p with
      buffers := p.buffers ++ [⟨some b, size, p.nextIndex, used⟩] }) = p.backedBytes + size := by
    unfold backedBytes
    simp
  have hlen : (p.buffers ++ [(⟨some b, size, p.nextIndex, used⟩ : PooledBuffer)]).length
      = p.buffers.length + 1 := by simp
  refine ⟨hlen.le.trans hcount, hsucc.trans (by rw [hlen]), ?_, ?_, hbytes.symm,
    hbytes.trans_lt hroom, hbudget, ?_, ?_, ?_⟩
  · intro i pb h
    rcases getElem?_concat h with hold | ⟨rfl, rfl⟩
    · exact hi.index i pb hold
    · exact hnext
  · intro pb hpb huse
    rcases mem_append.mp hpb with hold | hnew
    · exact hi.held pb hold huse
    · rw [mem_singleton.mp hnew]
      rfl
  · show p.totalInUseBytes + _ = ((p.buffers ++ [_]).map _).sum
    rw [hi.inUse, map_append, sum_append]
    rfl
  · cases used with
    | true => exact hi.lists
    | false => exact distinct_pushFree hi.lists
  · intro s idx
    have hfree := hi.free s idx
    have hidle := idleAt_append p.buffers ⟨some b, size, p.nextIndex, used⟩ s idx
    show (freeList (if used then _ else _) s).count idx = (idleAt (p.buffers ++ [_]) s idx).toNat
    rw [hidle, ← hnext]
    -- no list names the index of an entry that was not there
    have hfresh : ∀ t, (freeList p.freeLists t).count p.nextIndex = 0 := by
      intro t
      rw [hi.free]
      unfold idleAt
      rw [getElem?_eq_none hnext.ge]
      rfl
    by_cases heq : idx = p.nextIndex
    · rw [if_pos (congrArg UInt32.toNat heq), heq]
      cases used with
      | true => simp [hfresh, idle]
      | false =>
        by_cases hs : s = size
        · simp [hs, hfresh, idle]
        · have hs' : ¬ size = s := fun h => hs h.symm
          simp [hs, hs', hfresh, idle]
    · rw [if_neg fun h => heq (UInt32.toNat_inj.mp h), ← hfree]
      cases used with
      | true => rfl
      | false =>
        have hcount : [p.nextIndex].count idx = 0 := by
          rw [count_eq_zero, mem_singleton]
          exact heq
        by_cases hs : s = size
        · simp [hs, List.count_append, hcount]
        · simp [hs]

/-! ### Taking and releasing -/

/-- The entry at `i` changes hands; only its index may come or go in the free lists. -/
theorem PoolInv.setInUse (hi : PoolInv p) {i total : ℕ} {used : Bool} (h : p.buffers[i]? = some pb)
    (hbuf : pb.buffer.isSome = true) (hlists : Keyed.Distinct Prod.fst lists)
    (htotal : total + (if pb.inUse then pb.size else 0)
      = p.totalInUseBytes + if used then pb.size else 0)
    (hcount : ∀ s idx, (freeList lists s).count idx
      = if idx = pb.index then (idle s { pb with inUse := used }).toNat
        else (freeList p.freeLists s).count idx) :
    PoolInv { p.setInUse i used with freeLists := lists, totalInUseBytes := total } := by
  have hbacked := sum_modify (fun pb : PooledBuffer => if pb.buffer.isSome then pb.size else 0)
    (fun pb => { pb with inUse := used }) p.buffers i pb h
  have hused := sum_modify (fun pb : PooledBuffer => if pb.inUse then pb.size else 0)
    (fun pb => { pb with inUse := used }) p.buffers i pb h
  have hsame : (p.setInUse i used).backedBytes = p.backedBytes := by
    show ((p.buffers.modify i _).map _).sum = _
    exact Nat.add_right_cancel hbacked
  refine ⟨?_, ?_, ?_, ?_, hi.allocated.trans hsame.symm, hsame.trans_lt hi.room, hi.budget, ?_,
    hlists, ?_⟩
  · show (p.buffers.modify i _).length ≤ _
    rw [length_modify]
    exact hi.count
  · show p.nextIndex = UInt32.ofNat (p.buffers.modify i _).length
    rw [length_modify]
    exact hi.next
  · intro j pb' hj
    obtain ⟨pb₀, hpb₀, heq⟩ := Option.map_eq_some_iff.mp ((getElem?_modify ..).symm.trans hj)
    have hindex := hi.index j pb₀ hpb₀
    rw [← heq]
    split_ifs <;> exact hindex
  · intro pb' hpb' huse
    obtain ⟨j, hj⟩ := mem_iff_getElem?.mp hpb'
    obtain ⟨pb₀, hpb₀, heq⟩ := Option.map_eq_some_iff.mp ((getElem?_modify ..).symm.trans hj)
    split_ifs at heq with hij
    · obtain rfl : pb = pb₀ := Option.some.inj (h.symm.trans (hij ▸ hpb₀))
      rw [← heq]
      exact hbuf
    · obtain rfl : pb₀ = pb' := heq
      exact hi.held pb₀ (mem_of_getElem? hpb₀) huse
  · show total = ((p.buffers.modify i _).map _).sum
    have hold := hi.inUse
    unfold usedBytes at hold
    dsimp only at hused
    omega
  · intro s idx
    show (freeList lists s).count idx = (idleAt (p.buffers.modify i _) s idx).toNat
    rw [hcount, idleAt_modify h, hi.free]
    by_cases heq : idx = pb.index
    · rw [if_pos heq, if_pos ((hi.index_eq h).mpr heq)]
    · rw [if_neg heq, if_neg fun h' => heq ((hi.index_eq h).mp h')]

/-- An index in a free list stands there once. -/
theorem PoolInv.count_dropLast (hi : PoolInv p)
    (h : (freeList p.freeLists size).getLast? = some idx)
    (j : UInt32) : (freeList p.freeLists size).dropLast.count j
      = if j = idx then 0 else (freeList p.freeLists size).count j := by
  have hidle := hi.idle_of_mem (mem_of_getLast? h)
  have hone := hi.free size idx
  rw [hidle, ← dropLast_append_getLast? idx h, List.count_append] at hone
  conv_rhs => rw [← dropLast_append_getLast? idx h, List.count_append]
  split_ifs with hj
  · rw [hj]
    simpa using hone
  · have hne : ¬ idx = j := fun heq => hj heq.symm
    simp [hne]

/-- What `find_free_buffer` takes, with the bytes counted as in use. -/
theorem findFreeBuffer_spec (hi : PoolInv p) (h : p.findFreeBuffer size = some (pb, p')) :
    ∃ pb₀, p.buffers[pb.index.toNat]? = some pb₀ ∧ pb₀.inUse = false ∧ pb.size = size ∧
      pb = { pb₀ with inUse := true } ∧ pb.buffer.isSome = true ∧
      p'.buffers[pb.index.toNat]? = some pb ∧ p'.buffers.length = p.buffers.length ∧
      PoolInv { p' with totalInUseBytes := (p'.totalInUseBytes + pb.size) % sizeTRange } := by
  unfold findFreeBuffer at h
  split at h
  · cases h
  · rename_i k list hfind
    obtain rfl : k = size := Keyed.find_key hfind
    have hlist : freeList p.freeLists k = list := by
      unfold freeList
      rw [hfind]
      rfl
    split at h
    · cases h
    · rename_i idx hlast
      rw [← hlist] at hlast h
      obtain ⟨pb₀, hpb₀, huse, hbuf, hsize⟩ :=
        idleAt_iff.mp (hi.idle_of_mem (mem_of_getLast? hlast))
      have hindex : idx = pb₀.index := (hi.index_eq hpb₀).mp rfl
      have htaken : (p.buffers.modify idx.toNat fun pb => { pb with inUse := true })[idx.toNat]?
          = some { pb₀ with inUse := true } := by
        rw [getElem?_modify_eq, hpb₀]
        rfl
      obtain ⟨pb', hpb', heq⟩ := Option.map_eq_some_iff.mp h
      obtain rfl := Option.some.inj (htaken.symm.trans hpb')
      obtain ⟨rfl, rfl⟩ := Prod.mk.inj heq
      have hcount : ∀ s j, (freeList (Keyed.insert Prod.fst p.freeLists
          (k, (freeList p.freeLists k).dropLast)) s).count j
            = if j = pb₀.index then (idle s { pb₀ with inUse := true }).toNat
              else (freeList p.freeLists s).count j := by
        intro s j
        rw [freeList_insert]
        by_cases hs : s = k
        · rw [if_pos hs, hi.count_dropLast hlast, hs, hindex]
          rfl
        · rw [if_neg hs]
          split_ifs with hj
          · rw [hj, ← hindex, hi.free]
            have hs' : ¬ pb₀.size = s := fun heq => hs (heq.symm.trans hsize)
            simp [idleAt, hpb₀, idle, hs']
          · rfl
      have hinv : PoolInv { p.setInUse idx.toNat true with
          freeLists := Keyed.insert Prod.fst p.freeLists (k, (freeList p.freeLists k).dropLast)
          totalInUseBytes := p.totalInUseBytes + pb₀.size } :=
        hi.setInUse hpb₀ hbuf (hi.lists.insert _) (by simp [huse]) hcount
      have hsmall : p.totalInUseBytes + pb₀.size < sizeTRange := by
        have hle := used_le hinv.held
        rw [← hinv.inUse] at hle
        exact hle.trans_lt hinv.room
      refine ⟨pb₀, hindex ▸ hpb₀, huse, hsize, rfl, hbuf, hindex ▸ htaken,
        length_modify .., ?_⟩
      show PoolInv { p.setInUse idx.toNat true with
        freeLists := _, totalInUseBytes := (p.totalInUseBytes + pb₀.size) % sizeTRange }
      rw [Nat.mod_eq_of_lt hsmall]
      exact hinv

/-- **`release`** keeps the invariant, whatever handle it is given. -/
theorem PoolInv.release (hi : PoolInv p) (h : BufferHandle) : PoolInv (p.release h).2 := by
  unfold ActivationPool.release
  split
  · exact hi
  · rename_i pb hpb
    split_ifs with huse
    · exact hi
    · rw [Bool.not_eq_false] at huse
      have hmem := mem_of_getElem? hpb
      have hbuf := hi.held pb hmem huse
      have hle : pb.size ≤ p.totalInUseBytes := by
        rw [hi.inUse]
        refine le_sum_of_mem (mem_map.mpr ⟨pb, hmem, ?_⟩)
        rw [if_pos huse]
      have hroom : p.totalInUseBytes < sizeTRange := by
        rw [hi.inUse]
        exact (used_le hi.held).trans_lt hi.room
      have htotal : (p.totalInUseBytes + sizeTRange - pb.size) % sizeTRange
          = p.totalInUseBytes - pb.size := by
        rw [Nat.sub_add_comm hle, Nat.add_mod_right, Nat.mod_eq_of_lt (by omega)]
      dsimp only
      rw [htotal]
      refine hi.setInUse hpb hbuf (distinct_pushFree hi.lists) ?_ fun s idx => ?_
      · rw [if_pos huse]
        simpa using Nat.sub_add_cancel hle
      · have hold : (freeList p.freeLists s).count pb.index = 0 := by
          rw [hi.free]
          unfold idleAt
          rw [hi.index _ pb hpb, hpb]
          simp [idle, huse]
        rw [freeList_pushFree]
        by_cases hs : s = pb.size
        · rw [if_pos hs, List.count_append, ← hs]
          split_ifs with hidx
          · rw [hidx, hold]
            simp [idle, hbuf, hs]
          · have hne : ¬ pb.index = idx := fun heq => hidx heq.symm
            simp [hne]
        · rw [if_neg hs]
          have hs' : ¬ pb.size = s := fun heq => hs heq.symm
          split_ifs with hidx
          · rw [hidx, hold]
            simp [idle, hs']
          · rfl

/-- The indices of the entries that meet `q`. -/
theorem PoolInv.count_index (hi : PoolInv p) (q : PooledBuffer → Bool) (idx : UInt32) :
    ((p.buffers.filter q).map PooledBuffer.index).count idx
      = (p.buffers[idx.toNat]?.any q).toNat := by
  have hrange : (p.buffers.map PooledBuffer.index).map UInt32.toNat
      = range p.buffers.length := by
    refine ext_getElem? fun i => ?_
    rw [getElem?_map, getElem?_map]
    cases h : p.buffers[i]? with
    | none =>
      rw [getElem?_eq_none_iff] at h
      exact (getElem?_eq_none (by simpa using h)).symm
    | some pb =>
      have hlt := (List.getElem?_eq_some_iff.mp h).1
      rw [getElem?_range hlt]
      exact congrArg some (hi.index i pb h)
  have hnodup : (p.buffers.map PooledBuffer.index).Nodup :=
    Nodup.of_map UInt32.toNat (hrange ▸ nodup_range)
  have hsub : ((p.buffers.filter q).map PooledBuffer.index).Nodup :=
    hnodup.sublist (filter_sublist.map PooledBuffer.index)
  rw [hsub.count]
  cases hany : p.buffers[idx.toNat]?.any q with
  | true =>
    obtain ⟨pb, hpb, hq⟩ := (Option.any_eq_true _ _).mp hany
    rw [if_pos]
    · rfl
    · refine mem_map.mpr ⟨pb, mem_filter.mpr ⟨mem_of_getElem? hpb, hq⟩, ?_⟩
      exact ((hi.index_eq hpb).mp rfl).symm
  | false =>
    rw [if_neg]
    · rfl
    · intro hmem
      obtain ⟨pb, hpb, rfl⟩ := mem_map.mp hmem
      obtain ⟨hpb, hq⟩ := mem_filter.mp hpb
      obtain ⟨i, hat⟩ := mem_iff_getElem?.mp hpb
      rw [hi.index i pb hat, hat] at hany
      rw [Option.any_some, hq] at hany
      cases hany

/-- **`release_all`** keeps the invariant. -/
theorem PoolInv.releaseAll (hi : PoolInv p) : PoolInv p.releaseAll := by
  have hbytes : p.releaseAll.backedBytes = p.backedBytes := by
    show ((p.buffers.map _).map _).sum = _
    rw [map_map]
    rfl
  refine ⟨?_, ?_, ?_, ?_, hi.allocated.trans hbytes.symm, hbytes.trans_lt hi.room, hi.budget, ?_,
    distinct_foldl _ _ hi.lists, ?_⟩
  · show (p.buffers.map _).length ≤ _
    rw [length_map]
    exact hi.count
  · show p.nextIndex = UInt32.ofNat (p.buffers.map _).length
    rw [length_map]
    exact hi.next
  · intro i pb h
    obtain ⟨pb₀, hpb₀, rfl⟩ := Option.map_eq_some_iff.mp ((getElem?_map ..).symm.trans h)
    exact hi.index i pb₀ hpb₀
  · intro pb hpb huse
    obtain ⟨pb₀, -, rfl⟩ := mem_map.mp hpb
    cases huse
  · show 0 = ((p.buffers.map _).map _).sum
    rw [map_map]
    exact (sum_eq_zero fun x hx => by
      obtain ⟨pb, -, rfl⟩ := mem_map.mp hx
      rfl).symm
  · intro s idx
    show (freeList (foldl _ _ _) s).count idx = (idleAt (p.buffers.map _) s idx).toNat
    rw [freeList_foldl, List.count_append, filter_filter, hi.count_index, hi.free]
    unfold idleAt
    rw [getElem?_map]
    cases h : p.buffers[idx.toNat]? with
    | none => rfl
    | some pb =>
      have hheld := hi.held pb (mem_of_getElem? h)
      cases huse : pb.inUse with
      | true =>
        rw [huse] at hheld
        by_cases hs : pb.size = s <;> simp [idle, huse, hs, hheld]
      | false => simp [idle, huse]

end ActivationPool

end MetalNative
