import MetalNative.Memory.PoolAccounting

namespace MetalNative

/-!
# What the calls of `ActivationPool` do to its entries

* `acquire_served`, `acquire_missed` — what the two ways of `acquire` leave: an idle entry is taken,
  or a new one is there, perhaps after a purge.
* `Holds` — the pool has an entry in use for each of some handles; `Holds.acquire`,
  `Holds.release` say how the calls change the handles that are held.
-/

namespace ActivationPool

variable {p p' : ActivationPool} {pb : PooledBuffer} {h : BufferHandle}
  {hs : List BufferHandle} {size : ℕ} {answer : Option ObjId}

/-! ### `find_free_buffer` and `create_buffer` -/

/-- The entry that `find_free_buffer` takes. -/
theorem findFreeBuffer_taken (hi : PoolInv p) (hlist : freeList p.freeLists size ≠ []) :
    ∃ i pb lists, p.buffers[i]? = some pb ∧ pb.inUse = false ∧ pb.buffer.isSome = true ∧
      pb.size = size ∧ p.findFreeBuffer size = some ({ pb with inUse := true },
        { p.setInUse i true with freeLists := lists }) := by
  obtain ⟨⟨taken, q⟩, hfind⟩ := Option.isSome_iff_exists.mp (findFreeBuffer_isSome hi hlist)
  obtain ⟨pb, hpb, huse, hsize, htaken, hbuf, -⟩ := findFreeBuffer_spec hi hfind
  have hbuf' : pb.buffer.isSome = true := by
    rw [htaken] at hbuf
    exact hbuf
  have hsize' : pb.size = size := by
    rw [htaken] at hsize
    exact hsize
  suffices ∃ lists, q = { p.setInUse taken.index.toNat true with freeLists := lists } by
    obtain ⟨lists, rfl⟩ := this
    exact ⟨taken.index.toNat, pb, lists, hpb, huse, hbuf', hsize', by rw [hfind, ← htaken]⟩
  -- the state is the one that the code leaves: its list popped, its entry marked
  unfold findFreeBuffer at hfind
  split at hfind
  · cases hfind
  · split at hfind
    · cases hfind
    · rename_i idx hlast
      obtain ⟨pb', hpb', heq⟩ := Option.map_eq_some_iff.mp hfind
      obtain ⟨rfl, rfl⟩ := Prod.mk.inj heq
      have hindex : pb'.index.toNat = idx.toNat := by
        obtain ⟨pb₀, hpb₀, heq₀⟩ :=
          Option.map_eq_some_iff.mp ((List.getElem?_modify ..).symm.trans hpb')
        have hindex₀ := hi.index idx.toNat pb₀ hpb₀
        rw [← heq₀]
        split_ifs <;> exact hindex₀
      rw [hindex]
      exact ⟨_, rfl⟩

/-- What `create_buffer` leaves: perhaps a purge, and perhaps a new entry at the end. -/
theorem createBuffer_cases (p : ActivationPool) (size : ℕ) (answer : Option ObjId) :
    ∃ q, (q = p ∨ q = p.purgeUnusedInternal) ∧
      ((∃ e, p.createBuffer size answer = (.error e, q) ∧
          (e.code = .OutOfMemory → q = p.purgeUnusedInternal ∧ 0 < p.maxBudget ∧
            p.maxBudget < (q.totalAllocatedBytes + size) % sizeTRange)) ∨
        ∃ b total, answer = some b ∧
          p.createBuffer size answer = (.ok ⟨some b, size, q.nextIndex, true⟩,
            { q with
              buffers := q.buffers ++ [⟨some b, size, q.nextIndex, true⟩]
              nextIndex := q.nextIndex + 1
              totalAllocatedBytes := total })) := by
  have hnew : ∀ q : ActivationPool, q.newBuffer size answer = none ∨
      ∃ b, answer = some b ∧ q.newBuffer size answer = some b := by
    intro q
    unfold newBuffer
    split_ifs
    · cases answer with
      | none => exact .inl rfl
      | some b => exact .inr ⟨b, rfl, rfl⟩
    · exact .inl rfl
  unfold createBuffer
  dsimp only
  -- the budget is looked at twice, before and after the purge
  by_cases hover : p.maxBudget > 0 ∧
      decide ((p.totalAllocatedBytes + size) % sizeTRange > p.maxBudget) = true
  · rw [if_pos hover]
    refine ⟨p.purgeUnusedInternal, .inr rfl, ?_⟩
    split_ifs with hstill
    · exact .inl ⟨_, rfl, fun _ => ⟨rfl, hstill.1, of_decide_eq_true hstill.2⟩⟩
    · obtain hnone | ⟨b, hb, hsome⟩ := hnew p.purgeUnusedInternal
      · rw [hnone]
        exact .inl ⟨_, rfl, fun hcode => nomatch hcode⟩
      · rw [hsome]
        exact .inr ⟨b, _, hb, rfl⟩
  · rw [if_neg hover, if_neg hover]
    refine ⟨p, .inl rfl, ?_⟩
    obtain hnone | ⟨b, hb, hsome⟩ := hnew p
    · rw [hnone]
      exact .inl ⟨_, rfl, fun hcode => nomatch hcode⟩
    · rw [hsome]
      exact .inr ⟨b, _, hb, rfl⟩

/-! ### `acquire` -/

/-- A hit takes an idle entry of the class. -/
theorem acquire_served (hi : PoolInv p) (hserved : p.served size = true) (answer : Option ObjId) :
    ∃ i pb lists total, p.buffers[i]? = some pb ∧ pb.inUse = false ∧ pb.buffer.isSome = true ∧
      pb.size = allocSize p size ∧ p.acquire size answer = (.ok (handle pb),
        { p.setInUse i true with
          freeLists := lists, hitCount := p.hitCount + 1, totalInUseBytes := total }) := by
  obtain ⟨hfits, hlist⟩ := served_iff.mp hserved
  obtain ⟨i, pb, lists, hpb, huse, hbuf, hsize, hfind⟩ := findFreeBuffer_taken hi hlist
  refine ⟨i, pb, lists, (p.totalInUseBytes + pb.size) % sizeTRange, hpb, huse, hbuf, hsize, ?_⟩
  rw [acquire_found hfits hfind]
  rfl

/-- A miss creates an entry, unless that fails. -/
theorem acquire_missed (hmiss : p.served size = false) (answer : Option ObjId) :
    ∃ q, (q = p ∨ q = p.purgeUnusedInternal) ∧
      ((∃ e, p.acquire size answer = (.error e, { q with missCount := p.missCount + 1 }) ∧
          (e.code = .OutOfMemory → q = p.purgeUnusedInternal ∧ 0 < p.maxBudget ∧
            p.maxBudget < (q.totalAllocatedBytes + allocSize p size) % sizeTRange)) ∨
        ∃ b allocated total, answer = some b ∧
          p.acquire size answer = (.ok ⟨some b, allocSize p size, q.nextIndex⟩,
            { q with
              buffers := q.buffers ++ [⟨some b, allocSize p size, q.nextIndex, true⟩]
              nextIndex := q.nextIndex + 1
              totalAllocatedBytes := allocated
              totalInUseBytes := total
              missCount := p.missCount + 1 })) := by
  rw [acquire_created hmiss]
  obtain ⟨q, hq, ⟨e, hfail, hmemory⟩ | ⟨b, allocated, hb, hok⟩⟩ :=
    createBuffer_cases { p with missCount := p.missCount + 1 } (allocSize p size) answer
  · rw [hfail]
    rcases hq with rfl | rfl
    · refine ⟨p, .inl rfl, .inl ⟨e, rfl, fun hcode => ?_⟩⟩
      obtain ⟨hpurged, hrest⟩ := hmemory hcode
      refine ⟨?_, hrest⟩
      -- the purge has changed nothing, apart from the count
      have hcount : p = { p.purgeUnusedInternal with missCount := p.missCount } :=
        congrArg (fun q : ActivationPool => { q with missCount := p.missCount }) hpurged
      exact hcount
    · exact ⟨p.purgeUnusedInternal, .inr rfl, .inl ⟨e, rfl, fun hcode =>
        ⟨rfl, (hmemory hcode).2⟩⟩⟩
  · rw [hok]
    rcases hq with rfl | rfl
    · exact ⟨p, .inl rfl, .inr ⟨b, _, _, hb, rfl⟩⟩
    · exact ⟨p.purgeUnusedInternal, .inr rfl, .inr ⟨b, _, _, hb, rfl⟩⟩

/-- The entries after `acquire`. -/
theorem acquire_entries {r : Except MNException BufferHandle} (hi : PoolInv p)
    (hroom : HasIndices p (.acquire size answer)) (hr : p.acquire size answer = (r, p')) :
    (∃ i pb, p.buffers[i]? = some pb ∧ pb.inUse = false ∧ pb.buffer.isSome = true ∧
      pb.size = allocSize p size ∧ r = .ok (handle pb) ∧
      p'.buffers = p.buffers.modify i fun pb => { pb with inUse := true }) ∨
    ∃ q, (q = p ∨ q = p.purgeUnusedInternal) ∧
      ((∃ e, r = .error e ∧ p'.buffers = q.buffers) ∨
        ∃ b, answer = some b ∧ q.nextIndex.toNat = q.buffers.length ∧
          r = .ok ⟨some b, allocSize p size, q.nextIndex⟩ ∧
          p'.buffers = q.buffers ++ [⟨some b, allocSize p size, q.nextIndex, true⟩]) := by
  cases hserved : p.served size with
  | true =>
    obtain ⟨i, pb, lists, total, hpb, huse, hbuf, hsize, heq⟩ := acquire_served hi hserved answer
    obtain ⟨rfl, rfl⟩ := Prod.mk.inj (heq.symm.trans hr)
    exact .inl ⟨i, pb, hpb, huse, hbuf, hsize, rfl, rfl⟩
  | false =>
    have hlen : p.buffers.length < indexRange := hroom.resolve_left (by simp [hserved])
    obtain ⟨q, hq, ⟨e, hfail, -⟩ | ⟨b, allocated, total, hb, hok⟩⟩ := acquire_missed hserved answer
    · obtain ⟨rfl, rfl⟩ := Prod.mk.inj (hfail.symm.trans hr)
      exact .inr ⟨q, hq, .inl ⟨e, rfl, rfl⟩⟩
    · obtain ⟨rfl, rfl⟩ := Prod.mk.inj (hok.symm.trans hr)
      have hnext : q.nextIndex.toNat = q.buffers.length := by
        rcases hq with rfl | rfl
        · exact (next_append hi hlen).1
        · exact (next_append hi.purge ((purge_length p).trans_lt hlen)).1
      exact .inr ⟨q, hq, .inr ⟨b, hb, hnext, rfl, rfl⟩⟩

/-! ### Handles that are held -/

variable {bs : List PooledBuffer}

/-- There is an entry in use for each of the handles, and no two of them have the same. -/
structure Holds (bs : List PooledBuffer) (hs : List BufferHandle) : Prop where
  entry : ∀ h ∈ hs, ∃ pb, bs[h.poolIndex.toNat]? = some pb ∧ pb.inUse = true ∧ handle pb = h
  apart : hs.Pairwise fun h₁ h₂ => h₁.poolIndex ≠ h₂.poolIndex

theorem Holds.nil (bs : List PooledBuffer) : Holds bs [] := ⟨by simp, .nil⟩

theorem Holds.sublist {hs' : List BufferHandle} (hh : Holds bs hs) (hsub : hs'.Sublist hs) :
    Holds bs hs' :=
  ⟨fun h hmem => hh.entry h (hsub.subset hmem), hh.apart.sublist hsub⟩

theorem Holds.append (hh : Holds bs hs) (l : List PooledBuffer) : Holds (bs ++ l) hs := by
  refine ⟨fun h hmem => ?_, hh.apart⟩
  obtain ⟨pb, hpb, hrest⟩ := hh.entry h hmem
  have hlt := (List.getElem?_eq_some_iff.mp hpb).1
  exact ⟨pb, (List.getElem?_append_left hlt).trans hpb, hrest⟩

theorem Holds.purged (hh : Holds bs hs) : Holds (bs.map purged) hs := by
  refine ⟨fun h hmem => ?_, hh.apart⟩
  obtain ⟨pb, hpb, huse, hrest⟩ := hh.entry h hmem
  refine ⟨pb, ?_, huse, hrest⟩
  rw [List.getElem?_map, hpb, Option.map_some, ActivationPool.purged, if_pos huse]

/-- The entry that changes is none of theirs. -/
theorem Holds.modify (hh : Holds bs hs) {i : ℕ} (hne : ∀ h ∈ hs, h.poolIndex.toNat ≠ i)
    (f : PooledBuffer → PooledBuffer) : Holds (bs.modify i f) hs := by
  refine ⟨fun h hmem => ?_, hh.apart⟩
  obtain ⟨pb, hpb, hrest⟩ := hh.entry h hmem
  refine ⟨pb, ?_, hrest⟩
  simp [(hne h hmem).symm, hpb]

/-- One more handle, with an entry of its own. -/
theorem Holds.concat (hh : Holds bs hs) (pb : PooledBuffer) (hpb : bs[h.poolIndex.toNat]? = some pb)
    (huse : pb.inUse = true) (hhandle : handle pb = h)
    (hne : ∀ h' ∈ hs, h'.poolIndex.toNat ≠ h.poolIndex.toNat) : Holds bs (hs ++ [h]) := by
  constructor
  · intro h' hmem
    rcases List.mem_append.mp hmem with hold | hnew
    · exact hh.entry h' hold
    · obtain rfl := List.mem_singleton.mp hnew
      exact ⟨pb, hpb, huse, hhandle⟩
  · refine List.pairwise_append.mpr ⟨hh.apart, List.pairwise_singleton .., ?_⟩
    intro h₁ h₁mem h₂ h₂mem
    obtain rfl := List.mem_singleton.mp h₂mem
    exact fun heq => hne h₁ h₁mem (congrArg UInt32.toNat heq)

/-- A position of an entry that is not in use belongs to no handle. -/
theorem Holds.index_ne (hh : Holds bs hs) {i : ℕ}
    (hpb : ∀ pb, bs[i]? = some pb → pb.inUse = false) :
    ∀ h ∈ hs, h.poolIndex.toNat ≠ i := by
  rintro h hmem rfl
  obtain ⟨pb', hpb', huse', -⟩ := hh.entry h hmem
  have huse := hpb pb' hpb'
  rw [huse'] at huse
  cases huse

theorem Holds.purge_or (hh : Holds p.buffers hs) {q : ActivationPool}
    (hq : q = p ∨ q = p.purgeUnusedInternal) : Holds q.buffers hs := by
  rcases hq with rfl | rfl
  · exact hh
  · exact hh.purged

/-- **`acquire`** adds the handle that it returns. -/
theorem Holds.acquire (hh : Holds p.buffers hs) (hi : PoolInv p)
    (hroom : HasIndices p (.acquire size answer)) (hr : p.acquire size answer = (.ok h, p')) :
    Holds p'.buffers (hs ++ [h]) := by
  rcases acquire_entries hi hroom hr with ⟨i, pb, hpb, huse, -, -, hh', hbs⟩ |
    ⟨q, hq, ⟨e, hfail, -⟩ | ⟨b, -, hnext, hh', hbs⟩⟩
  · -- an idle entry, so none of theirs
    obtain rfl := Except.ok.inj hh'
    have hindex : (handle pb).poolIndex.toNat = i := hi.index i pb hpb
    have hne : ∀ h ∈ hs, h.poolIndex.toNat ≠ i := hh.index_ne fun pb' hpb' => by
      obtain rfl := Option.some.inj (hpb.symm.trans hpb')
      exact huse
    rw [hbs]
    refine (hh.modify hne _).concat { pb with inUse := true } ?_ rfl rfl ?_
    · rw [hindex, List.getElem?_modify_eq, hpb]
      rfl
    · rw [hindex]
      exact hne
  · cases hfail
  · -- a new entry, behind all of theirs
    obtain rfl := Except.ok.inj hh'
    have hheld := hh.purge_or hq
    rw [hbs]
    refine (hheld.append _).concat ⟨some b, allocSize p size, q.nextIndex, true⟩ ?_ rfl
      rfl ?_
    · rw [hnext, List.getElem?_concat_length]
    · rw [hnext]
      refine hheld.index_ne fun pb hpb => ?_
      rw [List.getElem?_eq_none le_rfl] at hpb
      cases hpb

/-- An `acquire` that fails takes nothing. -/
theorem Holds.failed {e : MNException} (hh : Holds p.buffers hs) (hi : PoolInv p)
    (hroom : HasIndices p (.acquire size answer)) (hr : p.acquire size answer = (.error e, p')) :
    Holds p'.buffers hs := by
  rcases acquire_entries hi hroom hr with ⟨i, pb, -, -, -, -, hh', -⟩ |
    ⟨q, hq, ⟨e, -, hbs⟩ | ⟨b, -, -, hh', -⟩⟩
  · cases hh'
  · rw [hbs]
    exact hh.purge_or hq
  · cases hh'

/-- The handle that `acquire` returns has the size that was looked for. -/
theorem acquire_size (hi : PoolInv p) (hroom : HasIndices p (.acquire size answer))
    (hr : p.acquire size answer = (.ok h, p')) : h.size = allocSize p size := by
  rcases acquire_entries hi hroom hr with ⟨i, pb, -, -, -, hsize, hh', -⟩ |
    ⟨q, -, ⟨e, hfail, -⟩ | ⟨b, -, -, hh', -⟩⟩
  · obtain rfl := Except.ok.inj hh'
    exact hsize
  · cases hfail
  · obtain rfl := Except.ok.inj hh'
    rfl

/-! ### `release` -/

/-- Releasing an entry in use. -/
theorem release_used (hpb : p.buffers[h.poolIndex.toNat]? = some pb) (huse : pb.inUse = true) :
    p.release h = (.ok (), { p.setInUse h.poolIndex.toNat false with
      totalInUseBytes := (p.totalInUseBytes + sizeTRange - pb.size) % sizeTRange
      freeLists := pushFree p.freeLists pb.size pb.index }) := by
  unfold release
  rw [hpb]
  dsimp only
  rw [if_neg (by simp [huse])]

/-- Releasing an entry that is not in use. -/
theorem release_unused (hpb : p.buffers[h.poolIndex.toNat]? = some pb) (huse : pb.inUse = false) :
    p.release h = (.error ⟨.InvalidArgument, "Double release of BufferHandle"⟩, p) := by
  unfold release
  rw [hpb]
  dsimp only
  rw [if_pos huse]

end ActivationPool

end MetalNative
