import MetalNative.Memory.PoolEntries
import Mathlib.Algebra.BigOperators.Group.Finset.Piecewise
import Mathlib.Algebra.Order.BigOperators.Group.Finset
import Mathlib.Order.Lattice.Nat

namespace MetalNative

open Run List

/-!
# What `ActivationPool` reuses

* `usedSum`, `backedSum` — the bytes in use and the bytes allocated, with a weight for each size so
  that one lemma serves the whole pool and a single size.
* `loopStep` — a loop whose body acquires and releases the same sizes in every iteration.
* `pool_reuses` — a size that has a class is served again after its release; a loop over such sizes
  allocates no more in a class than was there before, or is held at once; no loop runs out of memory
  after its first iteration.
* `exact_size_not_reused` — a size without a class is allocated anew every time.
-/

namespace ActivationPool

variable {p q p' : ActivationPool} {pb : PooledBuffer} {h : BufferHandle} {size : ℕ}
  {answer : Option ObjId}

/-! ### Bytes -/

/-- The weights of the entries in use. -/
def usedSum (w : ℕ → ℕ) (p : ActivationPool) : ℕ :=
  (p.buffers.map fun pb => if pb.inUse then w pb.size else 0).sum

/-- The weights of the entries that have a buffer. -/
def backedSum (w : ℕ → ℕ) (p : ActivationPool) : ℕ :=
  (p.buffers.map fun pb => if pb.buffer.isSome then w pb.size else 0).sum

/-- The weight that counts the bytes of one size. -/
def only (c : ℕ) (size : ℕ) : ℕ := if size = c then size else 0

theorem usedSum_purge (w : ℕ → ℕ) (p : ActivationPool) :
    usedSum w p.purgeUnusedInternal = usedSum w p := by
  show ((p.buffers.map purged).map _).sum = _
  unfold usedSum
  rw [map_map]
  congr 1
  refine map_congr_left fun pb _ => ?_
  cases huse : pb.inUse <;> simp [purged, huse]

/-- After a purge, the entries with a buffer are those in use. -/
theorem backedSum_purge (hi : PoolInv p) (w : ℕ → ℕ) :
    backedSum w p.purgeUnusedInternal = usedSum w p := by
  show ((p.buffers.map purged).map _).sum = _
  unfold usedSum
  rw [map_map]
  congr 1
  refine map_congr_left fun pb hpb => ?_
  cases huse : pb.inUse with
  | true => simp [purged, huse, hi.held pb hpb huse]
  | false => simp [purged, huse]

theorem usedSum_le (hi : PoolInv p) (w : ℕ → ℕ) : usedSum w p ≤ backedSum w p := by
  refine sum_le_sum fun pb hpb => ?_
  split_ifs with huse hbuf
  · exact le_rfl
  · exact absurd (hi.held pb hpb huse) hbuf
  · exact Nat.zero_le _
  · exact le_rfl

/-- A size with an empty free list has no idle buffer. -/
theorem backedSum_of_empty (hi : PoolInv p) {c : ℕ} (hlist : freeList p.freeLists c = []) :
    backedSum (only c) p = usedSum (only c) p := by
  unfold backedSum usedSum
  congr 1
  refine map_congr_left fun pb hpb => ?_
  cases huse : pb.inUse with
  | true => simp [hi.held pb hpb huse]
  | false =>
    by_cases hbuf : pb.buffer.isSome = true
    · have hsize : pb.size ≠ c := by
        rintro rfl
        obtain ⟨i, hat⟩ := mem_iff_getElem?.mp hpb
        have hfree := hi.free pb.size pb.index
        have hidle : idleAt p.buffers pb.size pb.index = true :=
          idleAt_iff.mpr ⟨pb, (hi.index i pb hat).symm ▸ hat, huse, hbuf, rfl⟩
        rw [hlist, hidle] at hfree
        cases hfree
      simp [only, hsize]
    · simp [hbuf]

theorem usedSum_purge_or (hq : q = p ∨ q = p.purgeUnusedInternal) (w : ℕ → ℕ) :
    usedSum w q = usedSum w p := by
  rcases hq with rfl | rfl
  · rfl
  · exact usedSum_purge w p

theorem backedSum_purge_or (hi : PoolInv p) (hq : q = p ∨ q = p.purgeUnusedInternal) (w : ℕ → ℕ) :
    backedSum w q ≤ backedSum w p := by
  rcases hq with rfl | rfl
  · exact le_rfl
  · exact (backedSum_purge hi w).trans_le (usedSum_le hi w)

/-- **`acquire`** adds the size of its handle to the bytes in use. -/
theorem usedSum_acquire (hi : PoolInv p) (hroom : HasIndices p (.acquire size answer))
    (hr : p.acquire size answer = (.ok h, p')) (w : ℕ → ℕ) :
    usedSum w p' = usedSum w p + w h.size := by
  unfold usedSum
  rcases acquire_entries hi hroom hr with ⟨i, pb, hpb, huse, -, -, hh, hbs⟩ |
    ⟨q, hq, ⟨e, hfail, -⟩ | ⟨b, -, -, hh, hbs⟩⟩
  · obtain rfl := Except.ok.inj hh
    have hsum := sum_modify (fun pb : PooledBuffer => if pb.inUse then w pb.size else 0)
      (fun pb => { pb with inUse := true }) p.buffers i pb hpb
    rw [hbs]
    simpa [huse, handle] using hsum
  · cases hfail
  · obtain rfl := Except.ok.inj hh
    rw [hbs, map_append, sum_append]
    exact congrArg (· + w (allocSize p size)) (usedSum_purge_or hq w)

/-- What **`acquire`** allocates for a size with a class: nothing, or what makes the class the bytes
    in use of it. -/
theorem backedSum_acquire (hi : PoolInv p) (hroom : HasIndices p (.acquire size answer))
    (hr : p.acquire size answer = (.ok h, p')) (hfits : Reusable p size) (c : ℕ) :
    backedSum (only c) p' ≤ max (backedSum (only c) p) (usedSum (only c) p') := by
  have hused := usedSum_acquire hi hroom hr (only c)
  have hsize := acquire_size hi hroom hr
  cases hserved : p.served size with
  | true =>
    obtain ⟨i, pb, lists, total, hpb, -, -, -, heq⟩ := acquire_served hi hserved answer
    obtain ⟨-, rfl⟩ := Prod.mk.inj (heq.symm.trans hr)
    have hsum := sum_modify (fun pb : PooledBuffer => if pb.buffer.isSome then only c pb.size
        else 0)
      (fun pb => { pb with inUse := true }) p.buffers i pb hpb
    exact (Nat.add_right_cancel hsum).le.trans (le_max_left _ _)
  | false =>
    -- a miss for a size with a class: its list is empty
    have hlist : freeList p.freeLists (allocSize p size) = [] := by
      by_contra hne
      rw [served_iff.mpr ⟨hfits, hne⟩] at hserved
      cases hserved
    obtain ⟨q, hq, ⟨e, hfail, -⟩ | ⟨b, allocated, total, -, hok⟩⟩ := acquire_missed hserved answer
    · exact nomatch (Prod.mk.inj (hfail.symm.trans hr)).1
    · obtain ⟨-, rfl⟩ := Prod.mk.inj (hok.symm.trans hr)
      have hnew : backedSum (only c) { q with
          buffers := q.buffers ++ [⟨some b, allocSize p size, q.nextIndex, true⟩] }
            = backedSum (only c) q + only c (allocSize p size) := by
        unfold backedSum
        simp
      refine hnew.trans_le ?_
      rw [hused, hsize]
      by_cases hc : allocSize p size = c
      · -- nothing of the size was idle, so its buffers are those in use
        refine le_max_of_le_right (Nat.add_le_add_right ?_ _)
        rw [hc] at hlist
        exact (backedSum_purge_or hi hq _).trans_eq (backedSum_of_empty hi hlist)
      · have hzero : only c (allocSize p size) = 0 := if_neg hc
        rw [hzero, Nat.add_zero]
        exact le_max_of_le_left (backedSum_purge_or hi hq _)

/-- **`release`** takes the size of its entry from the bytes in use. -/
theorem usedSum_release (hpb : p.buffers[h.poolIndex.toNat]? = some pb) (huse : pb.inUse = true)
    (w : ℕ → ℕ) : usedSum w (p.release h).2 + w pb.size = usedSum w p := by
  have hsum := sum_modify (fun pb : PooledBuffer => if pb.inUse then w pb.size else 0)
    (fun pb => { pb with inUse := false }) p.buffers _ pb hpb
  rw [release_used hpb huse]
  simpa [huse, usedSum, setInUse] using hsum

theorem backedSum_release (hpb : p.buffers[h.poolIndex.toNat]? = some pb) (huse : pb.inUse = true)
    (w : ℕ → ℕ) : backedSum w (p.release h).2 = backedSum w p := by
  have hsum := sum_modify (fun pb : PooledBuffer => if pb.buffer.isSome then w pb.size else 0)
    (fun pb => { pb with inUse := false }) p.buffers _ pb hpb
  rw [release_used hpb huse]
  exact Nat.add_right_cancel hsum

/-! ### One size -/

theorem acquire_settings (hr : p.acquire size answer = (.ok h, p')) (hi : PoolInv p) :
    p'.sizeClasses = p.sizeClasses ∧ p'.maxBudget = p.maxBudget := by
  cases hserved : p.served size with
  | true =>
    obtain ⟨i, pb, lists, total, -, -, -, -, heq⟩ := acquire_served hi hserved answer
    obtain ⟨-, rfl⟩ := Prod.mk.inj (heq.symm.trans hr)
    exact ⟨rfl, rfl⟩
  | false =>
    obtain ⟨q, hq, ⟨e, hfail, -⟩ | ⟨b, allocated, total, -, hok⟩⟩ := acquire_missed hserved answer
    · exact nomatch (Prod.mk.inj (hfail.symm.trans hr)).1
    · obtain ⟨-, rfl⟩ := Prod.mk.inj (hok.symm.trans hr)
      rcases hq with rfl | rfl
      · exact ⟨rfl, rfl⟩
      · exact ⟨rfl, rfl⟩

/-- The size classes decide what is looked for. -/
theorem reusable_congr (hc : p'.sizeClasses = p.sizeClasses) (size : ℕ) :
    Reusable p' size ↔ Reusable p size := by
  unfold Reusable
  rw [hc]

theorem allocSize_congr (hc : p'.sizeClasses = p.sizeClasses) (size : ℕ) :
    allocSize p' size = allocSize p size := by
  have hiff := reusable_congr hc size
  unfold allocSize
  by_cases hfits : Reusable p size
  · rw [if_pos hfits, if_pos (hiff.mpr hfits), hc]
  · rw [if_neg hfits, if_neg (hiff.not.mpr hfits)]

/-- A handle of a size with a class: after its release, the next `acquire` of the size is a hit. -/
theorem acquire_again (hi : PoolInv p) (hroom : HasIndices p (.acquire size answer))
    (hr : p.acquire size answer = (.ok h, p')) (hfits : Reusable p size) :
    ∃ q, p'.release h = (.ok (), q) ∧ q.served size = true := by
  have hholds := (Holds.nil p.buffers).acquire hi hroom hr
  obtain ⟨pb, hpb, huse, rfl⟩ := hholds.entry h (mem_singleton_self h)
  refine ⟨_, release_used hpb huse, ?_⟩
  have hc := (acquire_settings hr hi).1
  refine served_iff.mpr ⟨(reusable_congr hc size).mpr hfits, ?_⟩
  have hsize : pb.size = allocSize p size := acquire_size hi hroom hr
  have hclass := allocSize_congr hc size
  show freeList (pushFree p'.freeLists pb.size pb.index) (allocSize p' size) ≠ []
  rw [hclass, ← hsize, freeList_pushFree, if_pos rfl]
  exact append_ne_nil_of_right_ne_nil _ (cons_ne_nil _ _)

/-! ### Loops -/

/-- A call in the body of a loop; a release names a handle by its position among those held. -/
inductive LoopOp
  | acquire (size : ℕ)
  | release (k : ℕ)
  deriving DecidableEq, Repr

/-- The sizes that are held after some calls. -/
def sizesAfter : List LoopOp → List ℕ → Option (List ℕ)
  | [], held => some held
  | .acquire size :: ops, held => sizesAfter ops (held ++ [size])
  | .release k :: ops, held =>
    if k < held.length then sizesAfter ops (held.eraseIdx k) else none

/-- The body releases what it acquires. -/
def Balanced (body : List LoopOp) : Prop := sizesAfter body [] = some []

instance (body : List LoopOp) : Decidable (Balanced body) :=
  inferInstanceAs (Decidable (_ = _))

/-- A loop under way. -/
structure LoopState where
  pool : ActivationPool
  iteration : ℕ := 0
  pos : ℕ := 0
  held : List BufferHandle := []
  deriving DecidableEq, Repr

/-- The next call of the body, or the next iteration; an exception ends the loop. -/
def loopStep (body : List LoopOp) (st : LoopState) (answer : Option ObjId) : Option LoopState :=
  match body[st.pos]? with
  | none => some { st with iteration := st.iteration + 1, pos := 0 }
  | some (.acquire size) =>
    match st.pool.acquire size answer with
    | (.ok h, pool) => some { st with pool, pos := st.pos + 1, held := st.held ++ [h] }
    | (.error _, _) => none
  | some (.release k) =>
    st.held[k]?.bind fun h =>
      match st.pool.release h with
      | (.ok _, pool) => some { st with pool, pos := st.pos + 1, held := st.held.eraseIdx k }
      | (.error _, _) => none

/-- The call does not need an entry beyond the last index. -/
def LoopOp.HasIndices (p : ActivationPool) (answer : Option ObjId) : LoopOp → Prop
  | .acquire size => ActivationPool.HasIndices p (.acquire size answer)
  | .release _ => True

instance (p : ActivationPool) (answer : Option ObjId) : ∀ op,
    Decidable (LoopOp.HasIndices p answer op)
  | .acquire _ => inferInstanceAs (Decidable (_ ∨ _))
  | .release _ => inferInstanceAs (Decidable True)

/-- The condition on a step of a loop. -/
def LoopIndices (body : List LoopOp) (st : LoopState) (answer : Option ObjId) : Prop :=
  ∀ op ∈ body[st.pos]?, op.HasIndices st.pool answer

instance (body : List LoopOp) (st : LoopState) (answer : Option ObjId) :
    Decidable (LoopIndices body st answer) :=
  inferInstanceAs (Decidable (∀ op ∈ body[st.pos]?, LoopOp.HasIndices st.pool answer op))

/-- The sizes that are held before the call at `n`. -/
def sizesAt (body : List LoopOp) (n : ℕ) : List ℕ := (sizesAfter (body.take n) []).getD []

/-- The bytes of the size `c` among the buffers for `sizes`. -/
def heldOf (p : ActivationPool) (c : ℕ) (sizes : List ℕ) : ℕ :=
  ((sizes.map (allocSize p)).map (only c)).sum

/-- The most bytes of the size `c` that the body holds at once. -/
def peakOf (p : ActivationPool) (body : List LoopOp) (c : ℕ) : ℕ :=
  (Finset.range (body.length + 1)).sup fun n => heldOf p c (sizesAt body n)

/-- The size of the buffer that a call asks for. -/
def LoopOp.bufferSize (p : ActivationPool) : LoopOp → Option ℕ
  | .acquire size => some (allocSize p size)
  | .release _ => none

/-- The sizes of the buffers that the body asks for. -/
def bufferSizes (p : ActivationPool) (body : List LoopOp) : Finset ℕ :=
  (body.filterMap (LoopOp.bufferSize p)).toFinset

/-- Every size that the body acquires has a class. -/
def AllReusable (p : ActivationPool) (body : List LoopOp) : Prop :=
  ∀ size, LoopOp.acquire size ∈ body → Reusable p size

/-! ### Balanced bodies -/

variable {body ops : List LoopOp} {st st' : LoopState}

theorem sizesAfter_append (ops ops' : List LoopOp) : ∀ held : List ℕ,
    sizesAfter (ops ++ ops') held = (sizesAfter ops held).bind (sizesAfter ops') := by
  induction ops with
  | nil => exact fun held => rfl
  | cons op ops ih =>
    intro held
    cases op with
    | acquire size => exact ih _
    | release k =>
      simp only [cons_append, sizesAfter]
      split_ifs
      · exact ih _
      · rfl

/-- The sizes before and after a call of a balanced body. -/
theorem sizesAt_step (hb : Balanced body) {n : ℕ} {op : LoopOp} (hop : body[n]? = some op) :
    sizesAfter [op] (sizesAt body n) = some (sizesAt body (n + 1)) := by
  have htake : body.take (n + 1) = body.take n ++ [op] := by
    rw [take_add_one, hop]
    rfl
  -- the whole body runs, and so does its beginning
  have hall : sizesAfter (body.take (n + 1) ++ body.drop (n + 1)) [] = some [] := by
    rw [take_append_drop]
    exact hb
  rw [sizesAfter_append] at hall
  obtain ⟨after, hafter, -⟩ := Option.bind_eq_some_iff.mp hall
  have hsplit := hafter
  rw [htake, sizesAfter_append] at hsplit
  obtain ⟨before, hbefore, hstep⟩ := Option.bind_eq_some_iff.mp hsplit
  unfold sizesAt
  rw [hbefore, hafter]
  exact hstep

theorem sizesAt_length (hb : Balanced body) : sizesAt body body.length = [] := by
  unfold sizesAt
  rw [take_length, show sizesAfter body [] = some [] from hb]
  rfl

/-- What is held has been acquired. -/
theorem mem_sizesAfter (ops : List LoopOp) : ∀ held after : List ℕ,
    sizesAfter ops held = some after → ∀ size ∈ after,
      size ∈ held ∨ LoopOp.acquire size ∈ ops := by
  induction ops with
  | nil =>
    intro held after h size hmem
    obtain rfl := Option.some.inj h
    exact .inl hmem
  | cons op ops ih =>
    intro held after h size hmem
    cases op with
    | acquire size' =>
      rcases ih _ _ h size hmem with hheld | hops
      · rcases mem_append.mp hheld with hheld | hnew
        · exact .inl hheld
        · rw [mem_singleton.mp hnew]
          exact .inr mem_cons_self
      · exact .inr (mem_cons_of_mem _ hops)
    | release k =>
      unfold sizesAfter at h
      split_ifs at h
      · rcases ih _ _ h size hmem with hheld | hops
        · exact .inl (mem_of_mem_eraseIdx hheld)
        · exact .inr (mem_cons_of_mem _ hops)

theorem mem_sizesAt {n size : ℕ} (hmem : size ∈ sizesAt body n) : LoopOp.acquire size ∈ body := by
  unfold sizesAt at hmem
  cases hafter : sizesAfter (body.take n) [] with
  | none =>
    rw [hafter] at hmem
    cases hmem
  | some after =>
    rw [hafter] at hmem
    exact mem_of_mem_take
      ((mem_sizesAfter _ _ _ hafter size hmem).resolve_left not_mem_nil)

theorem heldOf_le_peakOf (p : ActivationPool) {n : ℕ} (hn : n ≤ body.length) (c : ℕ) :
    heldOf p c (sizesAt body n) ≤ peakOf p body c :=
  Finset.le_sup (f := fun n => heldOf p c (sizesAt body n))
    (Finset.mem_range.mpr (Nat.lt_succ_of_le hn))

/-- The body holds no buffer of a size that it does not ask for. -/
theorem peakOf_eq_zero (p : ActivationPool) {c : ℕ} (hc : c ∉ bufferSizes p body) :
    peakOf p body c = 0 := by
  refine Nat.le_zero.mp (Finset.sup_le fun n _ => (sum_eq_zero fun x hx => ?_).le)
  obtain ⟨s, hs, rfl⟩ := mem_map.mp hx
  obtain ⟨size, hsize, rfl⟩ := mem_map.mp hs
  refine if_neg fun heq => hc ?_
  refine mem_toFinset.mpr (mem_filterMap.mpr ⟨.acquire size, mem_sizesAt hsize, ?_⟩)
  exact congrArg some heq

theorem exists_eraseIdx {α : Type} {l : List α} {k : ℕ} {x : α} (h : l[k]? = some x) :
    ∃ l₁ l₂, l = l₁ ++ x :: l₂ ∧ l.eraseIdx k = l₁ ++ l₂ := by
  obtain ⟨hlt, rfl⟩ := List.getElem?_eq_some_iff.mp h
  refine ⟨l.take k, l.drop (k + 1), ?_, eraseIdx_eq_take_drop_succ ..⟩
  rw [getElem_cons_drop, take_append_drop]

/-! ### The invariant of a loop -/

/-- The bytes fit the address space and the budget. -/
def Fits (p : ActivationPool) (bytes : ℕ) : Prop :=
  bytes < sizeTRange ∧ (0 < p.maxBudget → bytes ≤ p.maxBudget)

theorem PoolInv.fits (hi : PoolInv p) : Fits p (usedSum id p) := by
  have hle := usedSum_le hi id
  have hbacked : backedSum id p = p.backedBytes := rfl
  rw [hbacked] at hle
  refine ⟨hle.trans_lt hi.room, fun hpos => hle.trans ?_⟩
  rw [← hi.allocated]
  exact hi.budget hpos

/-- A loop that started in `p`: the pool holds the buffers for the sizes of the body, and what was
    held at some point of the first iteration fits. -/
structure LoopInv (p : ActivationPool) (body : List LoopOp) (st : LoopState) : Prop where
  pool : PoolInv st.pool
  sizeClasses : st.pool.sizeClasses = p.sizeClasses
  maxBudget : st.pool.maxBudget = p.maxBudget
  pos : st.pos ≤ body.length
  holds : Holds st.pool.buffers st.held
  sizes : st.held.map BufferHandle.size = (sizesAt body st.pos).map (allocSize p)
  used : ∀ w : ℕ → ℕ, usedSum w st.pool
    = usedSum w p + (((sizesAt body st.pos).map (allocSize p)).map w).sum
  fits : ∀ n ≤ body.length, n ≤ st.pos ∨ 0 < st.iteration →
    Fits p (usedSum id p + (((sizesAt body n).map (allocSize p)).map id).sum)
  bounded : AllReusable p body → ∀ c, backedSum (only c) st.pool
    ≤ max (backedSum (only c) p) (usedSum (only c) p + peakOf p body c)

theorem LoopInv.start (hi : PoolInv p) (body : List LoopOp) : LoopInv p body { pool := p } where
  pool := hi
  sizeClasses := rfl
  maxBudget := rfl
  pos := Nat.zero_le _
  holds := .nil _
  sizes := rfl
  used _ := rfl
  fits n _ hn := by
    obtain rfl : n = 0 := Nat.le_zero.mp (hn.resolve_right (Nat.lt_irrefl 0))
    exact hi.fits
  bounded _ c := le_max_left _ _

/-- A call of the body that has returned. -/
theorem LoopInv.advance (hl : LoopInv p body st) {pool : ActivationPool} {held : List BufferHandle}
    (hpos : st.pos < body.length) (hi : PoolInv pool)
    (hsettings : pool.sizeClasses = st.pool.sizeClasses ∧ pool.maxBudget = st.pool.maxBudget)
    (hholds : Holds pool.buffers held)
    (hsizes : held.map BufferHandle.size = (sizesAt body (st.pos + 1)).map (allocSize p))
    (hused : ∀ w : ℕ → ℕ, usedSum w pool
      = usedSum w p + (((sizesAt body (st.pos + 1)).map (allocSize p)).map w).sum)
    (hbacked : AllReusable p body → ∀ c, backedSum (only c) pool
      ≤ max (backedSum (only c) st.pool) (usedSum (only c) pool)) :
    LoopInv p body { st with pool, pos := st.pos + 1, held } := by
  have hbudget : pool.maxBudget = p.maxBudget := hsettings.2.trans hl.maxBudget
  refine ⟨hi, hsettings.1.trans hl.sizeClasses, hbudget, hpos, hholds, hsizes, hused,
    fun n hlen hn => ?_, fun hall c => ?_⟩
  · -- what is held now fits, for the pool keeps its budget
    by_cases hnew : n = st.pos + 1
    · have hfits := hi.fits
      unfold Fits at hfits ⊢
      rw [hused id, hbudget] at hfits
      rw [hnew]
      exact hfits
    · refine hl.fits n hlen (hn.imp_left fun hle => ?_)
      dsimp only at hle
      omega
  · -- what is allocated of a size is what was, or what is in use
    refine (hbacked hall c).trans (max_le (hl.bounded hall c) (le_max_of_le_right ?_))
    rw [hused]
    exact Nat.add_le_add_left (heldOf_le_peakOf p hpos c) _

theorem LoopInv.acquire (hl : LoopInv p body st) (hb : Balanced body)
    (hop : body[st.pos]? = some (.acquire size))
    (hroom : HasIndices st.pool (.acquire size answer))
    (hr : st.pool.acquire size answer = (.ok h, p')) :
    LoopInv p body { st with pool := p', pos := st.pos + 1, held := st.held ++ [h] } := by
  have hpos : st.pos < body.length := (List.getElem?_eq_some_iff.mp hop).1
  have hi := (hl.pool.acquire answer hroom).1
  rw [hr] at hi
  have hnext : sizesAt body (st.pos + 1) = sizesAt body st.pos ++ [size] :=
    (Option.some.inj (sizesAt_step hb hop)).symm
  have hsize : h.size = allocSize p size :=
    (acquire_size hl.pool hroom hr).trans (allocSize_congr hl.sizeClasses size)
  refine hl.advance hpos hi (acquire_settings hr hl.pool) (hl.holds.acquire hl.pool hroom hr) ?_
    (fun w => ?_) (fun hall c => ?_)
  · rw [hnext, map_append, map_append, hl.sizes]
    simp [hsize]
  · rw [usedSum_acquire hl.pool hroom hr, hl.used, hnext, hsize]
    simp [Nat.add_assoc]
  · have hfits := (reusable_congr hl.sizeClasses size).mpr (hall size (mem_of_getElem? hop))
    exact backedSum_acquire hl.pool hroom hr hfits c

/-- The handle that a release names can be released. -/
theorem LoopInv.release_ok (hl : LoopInv p body st) (hb : Balanced body) {k : ℕ}
    (hop : body[st.pos]? = some (.release k)) :
    ∃ h, st.held[k]? = some h ∧ (st.pool.release h).1 = .ok () := by
  have hlen : st.held.length = (sizesAt body st.pos).length := by
    have hmap := congrArg length hl.sizes
    simpa using hmap
  have hk : k < st.held.length := by
    have hstep := sizesAt_step hb hop
    unfold sizesAfter at hstep
    split_ifs at hstep with hk
    exact hlen.symm ▸ hk
  refine ⟨st.held[k], getElem?_eq_getElem hk, ?_⟩
  obtain ⟨pb, hpb, huse, -⟩ := hl.holds.entry _ (getElem_mem hk)
  rw [release_used hpb huse]

theorem LoopInv.release (hl : LoopInv p body st) (hb : Balanced body) {k : ℕ}
    (hop : body[st.pos]? = some (.release k)) (hk : st.held[k]? = some h) :
    LoopInv p body
      { st with pool := (st.pool.release h).2, pos := st.pos + 1, held := st.held.eraseIdx k } := by
  have hpos : st.pos < body.length := (List.getElem?_eq_some_iff.mp hop).1
  obtain ⟨pb, hpb, huse, hhandle⟩ := hl.holds.entry h (mem_of_getElem? hk)
  obtain ⟨l₁, l₂, hsplit, herase⟩ := exists_eraseIdx hk
  have hnext : sizesAt body (st.pos + 1) = (sizesAt body st.pos).eraseIdx k := by
    have hstep := sizesAt_step hb hop
    unfold sizesAfter at hstep
    split_ifs at hstep
    exact (Option.some.inj hstep).symm
  have hsizes : (st.held.eraseIdx k).map BufferHandle.size
      = (sizesAt body (st.pos + 1)).map (allocSize p) := by
    rw [hnext, ← eraseIdx_map, ← eraseIdx_map, hl.sizes]
  have hsettings : (st.pool.release h).2.sizeClasses = st.pool.sizeClasses ∧
      (st.pool.release h).2.maxBudget = st.pool.maxBudget := by
    rw [release_used hpb huse]
    exact ⟨rfl, rfl⟩
  refine hl.advance hpos (hl.pool.release h) hsettings ?_ hsizes (fun w => ?_) (fun _ c => ?_)
  · -- the other handles have other entries
    have hholds := hl.holds
    rw [hsplit] at hholds
    rw [herase, release_used hpb huse]
    refine (hholds.sublist ((sublist_cons_self _ _).append_left _)).modify
      (fun h' hmem => ?_) _
    have hne : h'.poolIndex ≠ h.poolIndex := by
      obtain ⟨-, hright, hcross⟩ := pairwise_append.mp hholds.apart
      rcases mem_append.mp hmem with hmem | hmem
      · exact hcross h' hmem _ mem_cons_self
      · exact ((pairwise_cons.mp hright).1 h' hmem).symm
    exact fun heq => hne (UInt32.toNat_inj.mp heq)
  · -- the handle that goes has the size of its entry
    have hsum := usedSum_release hpb huse w
    have hheld : ((st.held.map BufferHandle.size).map w).sum
        = (((st.held.eraseIdx k).map BufferHandle.size).map w).sum + w pb.size := by
      have hsize : h.size = pb.size := hhandle ▸ rfl
      rw [herase, hsplit]
      simp [hsize, Nat.add_comm, Nat.add_left_comm]
    rw [hl.used, ← hl.sizes, hheld, ← Nat.add_assoc] at hsum
    rw [← hsizes]
    exact Nat.add_right_cancel hsum
  · rw [backedSum_release hpb huse]
    exact le_max_left _ _

/-- The end of an iteration. -/
theorem LoopInv.again (hl : LoopInv p body st) (hb : Balanced body) (hop : body[st.pos]? = none) :
    LoopInv p body { st with iteration := st.iteration + 1, pos := 0 } := by
  have hpos : st.pos = body.length := le_antisymm hl.pos (getElem?_eq_none_iff.mp hop)
  have hempty : sizesAt body st.pos = [] := hpos ▸ sizesAt_length hb
  have hsizes := hl.sizes
  have hused := hl.used
  rw [hempty] at hsizes hused
  refine ⟨hl.pool, hl.sizeClasses, hl.maxBudget, Nat.zero_le _, hl.holds, hsizes, hused,
    fun n hlen _ => hl.fits n hlen (.inl (hpos ▸ hlen)), hl.bounded⟩

/-- One step of a loop keeps the invariant. -/
theorem LoopInv.step (hl : LoopInv p body st) (hb : Balanced body)
    (hop : LoopIndices body st answer) (hs : loopStep body st answer = some st') :
    LoopInv p body st' := by
  unfold loopStep at hs
  split at hs
  · rename_i hnone
    obtain rfl := Option.some.inj hs
    exact hl.again hb hnone
  · rename_i size hat
    split at hs
    · rename_i h pool hr
      obtain rfl := Option.some.inj hs
      exact hl.acquire hb hat (hop _ hat) hr
    · cases hs
  · rename_i k hat
    obtain ⟨h, hk, hs⟩ := Option.bind_eq_some_iff.mp hs
    have hnext := hl.release hb hat hk
    split at hs
    · rename_i u pool hr
      obtain rfl := Option.some.inj hs
      rw [hr] at hnext
      exact hnext
    · cases hs

/-! ### The bounds -/

theorem sum_backedSum (S : Finset ℕ) (p : ActivationPool) :
    ∑ c ∈ S, backedSum (only c) p
      = (p.buffers.map fun pb => if pb.buffer.isSome ∧ pb.size ∈ S then pb.size else 0).sum := by
  unfold backedSum
  induction p.buffers with
  | nil => simp
  | cons pb bs ih =>
    have hone : ∑ c ∈ S, (if pb.buffer.isSome = true then only c pb.size else 0)
        = if pb.buffer.isSome = true ∧ pb.size ∈ S then pb.size else 0 := by
      by_cases hbuf : pb.buffer.isSome = true
      · simp [hbuf, only]
      · simp [hbuf]
    simp only [map_cons, sum_cons, Finset.sum_add_distrib, ih, hone]

/-- The bytes of some sizes are bytes of the pool, and those of all its sizes are all of them. -/
theorem sum_backedSum_le (S : Finset ℕ) (p : ActivationPool) :
    ∑ c ∈ S, backedSum (only c) p ≤ p.backedBytes := by
  rw [sum_backedSum]
  refine sum_le_sum fun pb _ => ?_
  split_ifs with hin hbuf hbuf
  · exact le_rfl
  · exact absurd hin.1 hbuf
  · exact Nat.zero_le _
  · exact le_rfl

theorem sum_backedSum_all (p : ActivationPool) :
    ∑ c ∈ (p.buffers.map PooledBuffer.size).toFinset, backedSum (only c) p = p.backedBytes := by
  rw [sum_backedSum]
  unfold backedBytes
  congr 1
  refine map_congr_left fun pb hpb => ?_
  have hmem : pb.size ∈ (p.buffers.map PooledBuffer.size).toFinset :=
    mem_toFinset.mpr (mem_map_of_mem hpb)
  simp [hmem]

/-- The total of a loop over sizes that have a class. -/
theorem LoopInv.total_le (hl : LoopInv p body st) (hi : PoolInv p) (hall : AllReusable p body) :
    st.pool.totalAllocatedBytes
      ≤ p.totalAllocatedBytes + ∑ c ∈ bufferSizes p body, peakOf p body c := by
  rw [hl.pool.allocated, hi.allocated, ← sum_backedSum_all]
  have hclass : ∀ c, backedSum (only c) st.pool ≤ backedSum (only c) p + peakOf p body c := by
    intro c
    refine (hl.bounded hall c).trans (max_le (Nat.le_add_right _ _) ?_)
    exact Nat.add_le_add_right (usedSum_le hi _) _
  -- both sums over all sizes; a size that the body does not ask for adds nothing
  generalize (st.pool.buffers.map PooledBuffer.size).toFinset = S
  calc ∑ c ∈ S, backedSum (only c) st.pool
      ≤ ∑ c ∈ S, (backedSum (only c) p + peakOf p body c) :=
        Finset.sum_le_sum fun c _ => hclass c
    _ = ∑ c ∈ S, backedSum (only c) p + ∑ c ∈ S, peakOf p body c := Finset.sum_add_distrib
    _ ≤ p.backedBytes + ∑ c ∈ bufferSizes p body, peakOf p body c := by
        refine Nat.add_le_add (sum_backedSum_le S p) (Finset.sum_le_sum_of_ne_zero fun c _ hc => ?_)
        by_contra hnot
        exact hc (peakOf_eq_zero p hnot)

/-- What was held when the first iteration came by fits again. -/
theorem LoopInv.no_memory_error (hl : LoopInv p body st) (hb : Balanced body)
    (hagain : 0 < st.iteration) (hop : body[st.pos]? = some (.acquire size)) {e : MNException}
    (hr : (st.pool.acquire size answer).1 = .error e) : e.code ≠ .OutOfMemory := by
  intro hcode
  have hpos : st.pos < body.length := (List.getElem?_eq_some_iff.mp hop).1
  have hnext : sizesAt body (st.pos + 1) = sizesAt body st.pos ++ [size] :=
    (Option.some.inj (sizesAt_step hb hop)).symm
  obtain ⟨hrange, hbudget⟩ := hl.fits (st.pos + 1) hpos (.inr hagain)
  -- the bytes in use with the new buffer are those of the first iteration
  have hbytes : usedSum id st.pool + allocSize st.pool size
      = usedSum id p + (((sizesAt body (st.pos + 1)).map (allocSize p)).map id).sum := by
    rw [hl.used, hnext, allocSize_congr hl.sizeClasses]
    simp [Nat.add_assoc]
  cases hserved : st.pool.served size with
  | true =>
    obtain ⟨i, pb, lists, total, -, -, -, -, heq⟩ := acquire_served hl.pool hserved answer
    rw [heq] at hr
    cases hr
  | false =>
    obtain ⟨q, -, ⟨e', hfail, hmemory⟩ | ⟨b, allocated, total, -, hok⟩⟩ :=
      acquire_missed hserved answer
    · rw [hfail] at hr
      obtain rfl := Except.error.inj hr
      obtain ⟨rfl, hpositive, hover⟩ := hmemory hcode
      -- the code has purged, so only the bytes in use are allocated
      have hpurged : st.pool.purgeUnusedInternal.totalAllocatedBytes = usedSum id st.pool :=
        hl.pool.purge.allocated.trans (backedSum_purge hl.pool id)
      rw [hpurged, hbytes, Nat.mod_eq_of_lt hrange, hl.maxBudget] at hover
      exact absurd (hbudget (hl.maxBudget ▸ hpositive)) (not_le.mpr hover)
    · rw [hok] at hr
      cases hr

/-! ### Runs -/

theorem runs_poolInv {maxBudgetBytes recommended : ℕ}
    (hr : Runs poolStep HasIndices (new maxBudgetBytes recommended) p) : PoolInv p :=
  hr.invariant (PoolInv.new maxBudgetBytes recommended) fun _ _ _ hu hop hs => hu.step hop hs

/-- **The pool reuses what it pools.**  In every pool that a run leaves, a size that has a class is
    served from the pool after its release.  A loop over such sizes keeps the bytes of every buffer
    size at what was allocated of it before, or what is held of it at once; and no loop runs out of
    memory after its first iteration. -/
theorem pool_reuses (maxBudgetBytes recommended : ℕ)
    (hr : Runs poolStep HasIndices (new maxBudgetBytes recommended) p) :
    (∀ size answer h p', HasIndices p (.acquire size answer) →
      p.acquire size answer = (.ok h, p') → Reusable p size →
        ∃ q, p'.release h = (.ok (), q) ∧ ∀ again, ∃ h' q', q.acquire size again = (.ok h', q') ∧
          q'.hitCount = q.hitCount + 1 ∧ q'.missCount = q.missCount) ∧
    ∀ body, Balanced body → ∀ st, Runs (loopStep body) (LoopIndices body) { pool := p } st →
      (AllReusable p body →
        (∀ c, backedSum (only c) st.pool
          ≤ max (backedSum (only c) p) (usedSum (only c) p + peakOf p body c)) ∧
        st.pool.totalAllocatedBytes
          ≤ p.totalAllocatedBytes + ∑ c ∈ bufferSizes p body, peakOf p body c) ∧
      (∀ k, body[st.pos]? = some (.release k) →
        ∃ h, st.held[k]? = some h ∧ (st.pool.release h).1 = .ok ()) ∧
      (0 < st.iteration → ∀ size answer e, body[st.pos]? = some (.acquire size) →
        (st.pool.acquire size answer).1 = .error e → e.code ≠ .OutOfMemory) := by
  have hi := runs_poolInv hr
  refine ⟨fun size answer h p' hroom hacquire hfits => ?_, fun body hb st hloop => ?_⟩
  · obtain ⟨q, hrelease, hserved⟩ := acquire_again hi hroom hacquire hfits
    have hp' := (hi.acquire answer hroom).1
    rw [hacquire] at hp'
    have hq : PoolInv q := by
      have hinv := hp'.release h
      rw [hrelease] at hinv
      exact hinv
    refine ⟨q, hrelease, fun again => ?_⟩
    obtain ⟨i, pb, lists, total, -, -, -, -, heq⟩ := acquire_served hq hserved again
    exact ⟨_, _, heq, rfl, rfl⟩
  · have hl : LoopInv p body st :=
      hloop.invariant (LoopInv.start hi body) fun u _ v hu hop hs => hu.step hb hop hs
    exact ⟨fun hall => ⟨hl.bounded hall, hl.total_le hi hall⟩, fun k hop => hl.release_ok hb hop,
      fun hagain size answer e hop herror => hl.no_memory_error hb hagain hop herror⟩

/-- A pool of which one buffer is in use. -/
def loaded : ActivationPool := ((new 2000000 0).acquire 262144 (some 1)).2

/-- A body over two classes. -/
def twoClasses : List LoopOp :=
  [.acquire 262144, .acquire 524288, .release 0, .acquire 262144, .release 1, .release 0]

/-- A hit in that pool, and one iteration of the body. -/
theorem pool_reuses_two_classes :
    (∃ h p' q, loaded.acquire 524288 (some 2) = (.ok h, p') ∧ p'.release h = (.ok (), q) ∧
      ∀ again, ∃ h' q', q.acquire 524288 again = (.ok h', q') ∧
        q'.hitCount = q.hitCount + 1 ∧ q'.missCount = q.missCount) ∧
    ∃ st, exec (loopStep twoClasses) { pool := loaded }
        [some 2, some 3, none, none, none, none, none] = some st ∧
      st.pool.totalAllocatedBytes
        ≤ loaded.totalAllocatedBytes + ∑ c ∈ bufferSizes loaded twoClasses,
          peakOf loaded twoClasses c ∧
      ∀ answer e, (st.pool.acquire 262144 answer).1 = .error e → e.code ≠ .OutOfMemory := by
  have hexec : exec poolStep (new 2000000 0) [.acquire 262144 (some 1)] = some loaded := rfl
  have hrun : Runs poolStep HasIndices (new 2000000 0) loaded :=
    runs_exec hexec (by decide +kernel)
  obtain ⟨hhit, hloop⟩ := pool_reuses 2000000 0 hrun
  constructor
  · obtain ⟨q, hq⟩ := hhit 524288 (some 2) ⟨some 2, 524288, 1⟩ _ (.inr (by decide +kernel)) rfl
      (by decide +kernel)
    exact ⟨_, _, q, rfl, hq⟩
  · have hsome : (exec (loopStep twoClasses) { pool := loaded }
        [some 2, some 3, none, none, none, none, none]).any
          (fun st => decide (0 < st.iteration ∧ st.pos = 0)) = true := by decide +kernel
    obtain ⟨st, hst, hend⟩ := (Option.any_eq_true _ _).mp hsome
    obtain ⟨hagain, hpos⟩ := of_decide_eq_true hend
    have hguard : GuardedAlong (loopStep twoClasses) (LoopIndices twoClasses) { pool := loaded }
        [some 2, some 3, none, none, none, none, none] := by decide +kernel
    have hall : AllReusable loaded twoClasses := by
      intro size hmem
      obtain rfl | rfl : size = 262144 ∨ size = 524288 := by
        simp [twoClasses] at hmem
        omega
      · decide +kernel
      · decide +kernel
    obtain ⟨hbounds, -, hmemory⟩ := hloop twoClasses (by decide) st (runs_exec hst hguard)
    refine ⟨st, hst, (hbounds hall).2, fun answer e herror => ?_⟩
    exact hmemory hagain 262144 answer e (hpos ▸ rfl) herror

/-- A size without a class is allocated anew after every release, and a loop over two classes
    allocates for both although it holds one buffer at a time. -/
theorem exact_size_not_reused :
    (∃ p, exec poolStep (new 100000000 0)
        [.acquire 40000000 (some 1), .release ⟨some 1, 40000000, 0⟩, .acquire 40000000 (some 2)]
          = some p ∧ p.hitCount = 0 ∧ p.missCount = 2 ∧ p.totalAllocatedBytes = 80000000) ∧
    ∃ st, exec (loopStep [.acquire 262144, .release 0, .acquire 524288, .release 0])
        { pool := new 100000000 0 } [some 1, none, some 2, none, none] = some st ∧
      st.iteration = 1 ∧ st.pool.totalAllocatedBytes = 262144 + 524288 := by
  constructor
  · exact ⟨_, rfl, by decide +kernel⟩
  · exact ⟨_, rfl, by decide +kernel⟩

end ActivationPool

end MetalNative
