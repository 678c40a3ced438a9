import MetalNative.Memory.PoolEntries

namespace MetalNative

open Run List Option

/-!
# Handles of `ActivationPool` and how often they are released

A handle carries the index of an entry, and `release` knows a handle that has been released before
by the flag of that entry alone.  `PoolUser` is a pool together with a record of what `acquire` has
returned and how often each handle has been released.

* `Unshared` — a handle that has been released is not released again while its entry serves a later
  one.
* `handles_released_once` — in runs of such steps a handle is released once, and no buffer of a live
  handle is handed out.
* `stale_handle_releases` — without it, a stale handle frees the entry of a live one, and the next
  `acquire` hands out its buffer.
-/

namespace ActivationPool

/-! ### The record -/

/-- A handle that `acquire` has returned. -/
structure Acquisition where
  handle : BufferHandle
  releases : ℕ := 0
  deriving DecidableEq, Repr

/-- The handle has not been released. -/
def Acquisition.live (a : Acquisition) : Bool := a.releases = 0

/-- A release of the handle. -/
def Acquisition.count (a : Acquisition) : Acquisition := { a with releases := a.releases + 1 }

/-- A pool, and the handles that `acquire` has returned. -/
structure PoolUser where
  pool : ActivationPool
  acquired : List Acquisition := []
  deriving DecidableEq, Repr

/-- The calls; a release names the `acquire` whose handle it is given. -/
inductive HandleOp
  | acquire (size : ℕ) (answer : Option ObjId)
  | release (i : ℕ)
  | releaseAll
  | purgeUnused

namespace PoolUser

/-- The entry of the handle is in use. -/
def usesEntry (s : PoolUser) (h : BufferHandle) : Bool :=
  s.pool.buffers[h.poolIndex.toNat]?.any PooledBuffer.inUse

/-- The handles that are live. -/
def held (s : PoolUser) : List BufferHandle :=
  (s.acquired.filter Acquisition.live).map Acquisition.handle

/-- The record after an `acquire`. -/
def record (acquired : List Acquisition) : Except MNException BufferHandle → List Acquisition
  | .ok h => acquired ++ [⟨h, 0⟩]
  | .error _ => acquired

/-- A call; the record changes with the calls that return. -/
def step (s : PoolUser) : HandleOp → Option PoolUser
  | .acquire size answer =>
    let (r, pool) := s.pool.acquire size answer
    some ⟨pool, record s.acquired r⟩
  | .release i =>
    s.acquired[i]?.map fun a =>
      let (r, pool) := s.pool.release a.handle
      ⟨pool, if r.isOk then s.acquired.modify i Acquisition.count else s.acquired⟩
  | .releaseAll =>
    some ⟨s.pool.releaseAll,
      s.acquired.map fun a => if a.live && s.usesEntry a.handle then a.count else a⟩
  | .purgeUnused => some { s with pool := s.pool.purgeUnused }

/-- No live handle has the entry of `h`. -/
def Idle (s : PoolUser) (h : BufferHandle) : Prop :=
  ∀ a ∈ s.acquired, a.live = true → a.handle.poolIndex ≠ h.poolIndex

instance (s : PoolUser) (h : BufferHandle) : Decidable (s.Idle h) :=
  inferInstanceAs (Decidable (∀ a ∈ s.acquired, _ → _))

/-- The condition on a step: a handle that has been released is not released again while its entry
    serves another.  Entries have indices, and Metal answers with a new buffer. -/
def Unshared (s : PoolUser) : HandleOp → Prop
  | .acquire size answer => HasIndices s.pool (.acquire size answer) ∧
      ∀ pb ∈ s.pool.buffers, answer.isSome = true → pb.buffer ≠ answer
  | .release i => ∀ a ∈ s.acquired[i]?, a.live = true ∨ s.Idle a.handle
  | _ => True

instance (s : PoolUser) : ∀ op, Decidable (s.Unshared op)
  | .acquire _ _ => inferInstanceAs (Decidable (_ ∧ _))
  | .release i => inferInstanceAs (Decidable (∀ a ∈ s.acquired[i]?, _ ∨ _))
  | .releaseAll => inferInstanceAs (Decidable True)
  | .purgeUnused => inferInstanceAs (Decidable True)

variable {s t : PoolUser} {size : ℕ} {answer : Option ObjId} {a : Acquisition} {h : BufferHandle}

/-! ### The invariant -/

/-- No two entries have the same Metal buffer. -/
def Separate (bs : List PooledBuffer) : Prop :=
  ∀ (i j : ℕ) (pb pb' : PooledBuffer), bs[i]? = some pb → bs[j]? = some pb' →
    pb.buffer.isSome = true → pb.buffer = pb'.buffer → i = j

/-- The entries in use are those of the live handles. -/
structure UserInv (s : PoolUser) : Prop where
  pool : PoolInv s.pool
  holds : Holds s.pool.buffers s.held
  used : ∀ (i : ℕ) (pb : PooledBuffer), s.pool.buffers[i]? = some pb → pb.inUse = true →
    ∃ a ∈ s.acquired, a.live = true ∧ a.handle.poolIndex.toNat = i
  index : ∀ a ∈ s.acquired, a.handle.poolIndex.toNat < s.pool.buffers.length
  once : ∀ a ∈ s.acquired, a.releases ≤ 1
  separate : Separate s.pool.buffers

theorem UserInv.new (maxBudgetBytes recommended : ℕ) :
    UserInv { pool := new maxBudgetBytes recommended } where
  pool := .new maxBudgetBytes recommended
  holds := .nil _
  used i pb h := by simp [ActivationPool.new] at h
  index := by simp
  once := by simp
  separate i j pb pb' h := by simp [ActivationPool.new] at h

theorem mem_held (hmem : a ∈ s.acquired) (hlive : a.live = true) : a.handle ∈ s.held :=
  mem_map_of_mem (mem_filter.mpr ⟨hmem, hlive⟩)

/-! ### Separate buffers -/

variable {bs : List PooledBuffer}

theorem Separate.purged (hs : Separate bs) :
    Separate (bs.map ActivationPool.purged) := by
  intro i j pb pb' hi hj hbuf heq
  obtain ⟨pb₀, hpb₀, rfl⟩ := map_eq_some_iff.mp ((getElem?_map ..).symm.trans hi)
  obtain ⟨pb₁, hpb₁, rfl⟩ := map_eq_some_iff.mp ((getElem?_map ..).symm.trans hj)
  -- a purge takes buffers away and moves none
  have hkept : ∀ pb : PooledBuffer, (ActivationPool.purged pb).buffer.isSome = true →
      (ActivationPool.purged pb).buffer = pb.buffer := by
    intro pb hsome
    unfold ActivationPool.purged at hsome ⊢
    split_ifs at hsome ⊢ with huse
    · rfl
    · cases hsome
  have hbuf' : (ActivationPool.purged pb₁).buffer.isSome = true := heq ▸ hbuf
  have h₀ := hkept pb₀ hbuf
  rw [h₀] at hbuf heq
  rw [hkept pb₁ hbuf'] at heq
  exact hs i j pb₀ pb₁ hpb₀ hpb₁ hbuf heq

theorem Separate.modify (hs : Separate bs) (k : ℕ) (used : Bool) :
    Separate (bs.modify k fun pb => { pb with inUse := used }) := by
  have hsame : ∀ (i : ℕ) (pb : PooledBuffer),
      (bs.modify k fun pb => { pb with inUse := used })[i]? = some pb →
        ∃ pb₀, bs[i]? = some pb₀ ∧ pb.buffer = pb₀.buffer := by
    intro i pb hpb
    obtain ⟨pb₀, hpb₀, rfl⟩ := map_eq_some_iff.mp ((getElem?_modify ..).symm.trans hpb)
    refine ⟨pb₀, hpb₀, ?_⟩
    split_ifs <;> rfl
  intro i j pb pb' hi hj hbuf heq
  obtain ⟨pb₀, hpb₀, heq₀⟩ := hsame i pb hi
  obtain ⟨pb₁, hpb₁, heq₁⟩ := hsame j pb' hj
  exact hs i j pb₀ pb₁ hpb₀ hpb₁ (heq₀ ▸ hbuf) (heq₀.symm.trans (heq.trans heq₁))

theorem Separate.map_inUse (hs : Separate bs) :
    Separate (bs.map fun pb => { pb with inUse := false }) := by
  intro i j pb pb' hi hj hbuf heq
  obtain ⟨pb₀, hpb₀, rfl⟩ := map_eq_some_iff.mp ((getElem?_map ..).symm.trans hi)
  obtain ⟨pb₁, hpb₁, rfl⟩ := map_eq_some_iff.mp ((getElem?_map ..).symm.trans hj)
  exact hs i j pb₀ pb₁ hpb₀ hpb₁ hbuf heq

theorem Separate.concat {new : PooledBuffer} (hs : Separate bs)
    (hfresh : ∀ pb ∈ bs, pb.buffer ≠ new.buffer) : Separate (bs ++ [new]) := by
  intro i j pb pb' hi hj hbuf heq
  rcases getElem?_concat hi with hi | ⟨rfl, rfl⟩
  · rcases getElem?_concat hj with hj | ⟨rfl, rfl⟩
    · exact hs i j pb pb' hi hj hbuf heq
    · exact absurd heq (hfresh pb (mem_of_getElem? hi))
  · rcases getElem?_concat hj with hj | ⟨rfl, rfl⟩
    · exact absurd heq.symm (hfresh pb' (mem_of_getElem? hj))
    · rfl

/-! ### The steps -/

variable {p q : ActivationPool} {pb : PooledBuffer}

theorem purge_or_used (hq : q = p ∨ q = p.purgeUnusedInternal) {i : ℕ}
    (hpb : q.buffers[i]? = some pb) (huse : pb.inUse = true) :
    p.buffers[i]? = some pb := by
  rcases hq with rfl | rfl
  · exact hpb
  · obtain ⟨pb₀, hpb₀, rfl⟩ := map_eq_some_iff.mp ((getElem?_map ..).symm.trans hpb)
    by_cases huse₀ : pb₀.inUse = true
    · rw [if_pos huse₀]
      exact hpb₀
    · rw [if_neg huse₀] at huse
      exact absurd huse huse₀

theorem purge_or_separate (hq : q = p ∨ q = p.purgeUnusedInternal)
    (hs : Separate p.buffers) : Separate q.buffers := by
  rcases hq with rfl | rfl
  · exact hs
  · exact hs.purged

theorem purge_or_length (hq : q = p ∨ q = p.purgeUnusedInternal) :
    q.buffers.length = p.buffers.length := by
  rcases hq with rfl | rfl
  · rfl
  · exact purge_length p

/-- A handle that is added, for an entry that was not in use. -/
theorem UserInv.acquired (hi : UserInv s) {pool : ActivationPool} (hpool : PoolInv pool)
    (hholds : Holds pool.buffers (s.held ++ [h]))
    (hused : ∀ (i : ℕ) (pb : PooledBuffer), pool.buffers[i]? = some pb → pb.inUse = true →
      h.poolIndex.toNat = i ∨ s.pool.buffers[i]? = some pb)
    (hlength : s.pool.buffers.length ≤ pool.buffers.length)
    (hindex : h.poolIndex.toNat < pool.buffers.length) (hsep : Separate pool.buffers) :
    UserInv ⟨pool, s.acquired ++ [⟨h, 0⟩]⟩ := by
  have hheld : (PoolUser.mk pool (s.acquired ++ [⟨h, 0⟩])).held = s.held ++ [h] := by
    simp [held, Acquisition.live]
  have hcases : ∀ a ∈ s.acquired ++ [⟨h, 0⟩], a ∈ s.acquired ∨ a = ⟨h, 0⟩ := by simp
  refine ⟨hpool, ?_, fun i pb hpb huse => ?_, fun a hmem => ?_, fun a hmem => ?_, hsep⟩
  · rw [hheld]
    exact hholds
  · rcases hused i pb hpb huse with hnew | hold
    · exact ⟨⟨h, 0⟩, by simp, rfl, hnew⟩
    · obtain ⟨a, hmem, hlive, hat⟩ := hi.used i pb hold huse
      exact ⟨a, mem_append_left _ hmem, hlive, hat⟩
  · rcases hcases a hmem with hold | rfl
    · exact (hi.index a hold).trans_le hlength
    · exact hindex
  · rcases hcases a hmem with hold | rfl
    · exact hi.once a hold
    · exact Nat.zero_le 1

/-- The buffers that a purge leaves were there before. -/
theorem purge_or_buffer (hq : q = p ∨ q = p.purgeUnusedInternal)
    (hpb : pb ∈ q.buffers) (hsome : pb.buffer.isSome = true) :
    ∃ pb₀ ∈ p.buffers, pb₀.buffer = pb.buffer := by
  rcases hq with rfl | rfl
  · exact ⟨pb, hpb, rfl⟩
  · obtain ⟨pb₀, hmem₀, rfl⟩ := mem_map.mp hpb
    refine ⟨pb₀, hmem₀, ?_⟩
    split_ifs at hsome ⊢ with huse
    · rfl
    · cases hsome

theorem UserInv.acquire (hi : UserInv s) (hop : s.Unshared (.acquire size answer))
    (hs : s.step (.acquire size answer) = some t) : UserInv t := by
  obtain ⟨hroom, hfresh⟩ := hop
  obtain ⟨r, p', hr⟩ : ∃ r p', s.pool.acquire size answer = (r, p') := ⟨_, _, rfl⟩
  have hpool := (hi.pool.acquire answer hroom).1
  unfold step at hs
  dsimp only at hs
  rw [hr] at hpool hs
  obtain rfl : ⟨p', record s.acquired r⟩ = t := some.inj hs
  rcases acquire_entries hi.pool hroom hr with ⟨i, pb, hpb, huse, -, -, rfl, hbs⟩ |
    ⟨q, hq, ⟨e, rfl, hbs⟩ | ⟨b, rfl, hnext, rfl, hbs⟩⟩
  · -- an entry that is used again
    have hindex : (handle pb).poolIndex.toNat = i := hi.pool.index i pb hpb
    have hlen : p'.buffers.length = s.pool.buffers.length := by rw [hbs, length_modify]
    refine hi.acquired hpool (hi.holds.acquire hi.pool hroom hr) (fun j pb' hpb' _ => ?_)
      hlen.ge ?_ ?_
    · rw [hindex]
      by_cases hj : i = j
      · exact .inl hj
      · right
        rw [← hpb', hbs]
        simp [hj]
    · rw [hindex, hlen]
      exact (List.getElem?_eq_some_iff.mp hpb).1
    · rw [hbs]
      exact hi.separate.modify i true
  · -- a failure: the record is as it was, and so are the entries in use
    refine ⟨hpool, hi.holds.failed hi.pool hroom hr, fun j pb' hpb' huse' => ?_, fun a hmem => ?_,
      hi.once, ?_⟩
    · replace hpb' : p'.buffers[j]? = some pb' := hpb'
      rw [hbs] at hpb'
      exact hi.used j pb' (purge_or_used hq hpb' huse') huse'
    · show a.handle.poolIndex.toNat < p'.buffers.length
      rw [hbs, purge_or_length hq]
      exact hi.index a hmem
    · show Separate p'.buffers
      rw [hbs]
      exact purge_or_separate hq hi.separate
  · -- an entry behind the others
    have hlen : p'.buffers.length = s.pool.buffers.length + 1 := by
      rw [hbs, length_append, purge_or_length hq]
      rfl
    refine hi.acquired hpool (hi.holds.acquire hi.pool hroom hr) (fun j pb' hpb' huse' => ?_)
      (by omega) ?_ ?_
    · rw [hbs] at hpb'
      rcases getElem?_concat hpb' with hold | ⟨rfl, rfl⟩
      · exact .inr (purge_or_used hq hold huse')
      · exact .inl hnext
    · rw [hlen, ← purge_or_length hq, ← hnext]
      exact Nat.lt_succ_self _
    · rw [hbs]
      refine (purge_or_separate hq hi.separate).concat fun pb hpb hbuf => ?_
      obtain ⟨pb₀, hmem₀, heq₀⟩ := purge_or_buffer hq hpb (by simp [hbuf])
      exact hfresh pb₀ hmem₀ rfl (heq₀.trans hbuf)

/-- An entry in use belongs to a live handle. -/
theorem UserInv.live_of_used (hi : UserInv s)
    (hpb : s.pool.buffers[h.poolIndex.toNat]? = some pb) (huse : pb.inUse = true) : ¬ s.Idle h := by
  intro hidle
  obtain ⟨b, hmem, hlive, hat⟩ := hi.used _ pb hpb huse
  exact hidle b hmem hlive (UInt32.toNat_inj.mp hat)

/-- An element that is not the one that is exchanged stays. -/
theorem mem_exchanged {α : Type*} {l₁ l₂ : List α} {x y b : α} (h : b ∈ l₁ ++ x :: l₂) :
    b = x ∨ b ∈ l₁ ++ y :: l₂ := by
  simp only [mem_append, mem_cons] at h ⊢
  rcases h with hbefore | hsame | hbehind
  · exact .inr (.inl hbefore)
  · exact .inl hsame
  · exact .inr (.inr (.inr hbehind))

/-- Releasing a live handle. -/
theorem UserInv.release_live (hi : UserInv s) {i : ℕ} {pool : ActivationPool}
    (ha : s.acquired[i]? = some a) (hlive : a.live = true) (hpool : PoolInv pool)
    (hbs : pool.buffers =
      s.pool.buffers.modify a.handle.poolIndex.toNat fun pb => { pb with inUse := false }) :
    UserInv ⟨pool, s.acquired.modify i Acquisition.count⟩ := by
  have hlt := (List.getElem?_eq_some_iff.mp ha).1
  obtain ⟨l₁, a', l₂, hsplit, hlen, hmodify⟩ := exists_of_modify Acquisition.count hlt
  obtain rfl : a' = a := by
    rw [hsplit, ← hlen] at ha
    simpa using ha
  have hdead : a'.count.live = false := by simp [Acquisition.count, Acquisition.live]
  have hbefore : s.held = (l₁.filter Acquisition.live).map Acquisition.handle
      ++ a'.handle :: (l₂.filter Acquisition.live).map Acquisition.handle := by
    simp [held, hsplit, hlive]
  have hafter : (PoolUser.mk pool (s.acquired.modify i Acquisition.count)).held
      = (l₁.filter Acquisition.live).map Acquisition.handle
        ++ (l₂.filter Acquisition.live).map Acquisition.handle := by
    simp [held, hmodify, hdead]
  have hholds := hi.holds
  rw [hbefore] at hholds
  -- a handle with another entry keeps its place in the record
  have hkept : ∀ b ∈ s.acquired, b.handle.poolIndex.toNat ≠ a'.handle.poolIndex.toNat →
      b ∈ s.acquired.modify i Acquisition.count := by
    intro b hmem hne
    rw [hsplit] at hmem
    rw [hmodify]
    rcases mem_exchanged hmem with rfl | hother
    · exact absurd rfl hne
    · exact hother
  have hback : ∀ b ∈ s.acquired.modify i Acquisition.count, b = a'.count ∨ b ∈ s.acquired := by
    intro b hmem
    rw [hmodify] at hmem
    rw [hsplit]
    exact mem_exchanged hmem
  have hself : a' ∈ s.acquired := mem_of_getElem? ha
  refine ⟨hpool, ?_, fun j pb hpb huse => ?_, fun b hmem => ?_, fun b hmem => ?_, ?_⟩
  · rw [hafter]
    show Holds pool.buffers _
    rw [hbs]
    refine (hholds.sublist ?_).modify (fun h hmem => ?_) _
    · exact (sublist_cons_self _ _).append_left _
    · -- the other live handles have other entries
      have hne : h.poolIndex ≠ a'.handle.poolIndex := by
        obtain ⟨-, hright, hcross⟩ := pairwise_append.mp hholds.apart
        rcases mem_append.mp hmem with hmem | hmem
        · exact hcross h hmem _ mem_cons_self
        · exact ((pairwise_cons.mp hright).1 h hmem).symm
      exact fun heq => hne (UInt32.toNat_inj.mp heq)
  · -- an entry that is still in use is another one
    replace hpb : pool.buffers[j]? = some pb := hpb
    rw [hbs] at hpb
    have hj : a'.handle.poolIndex.toNat ≠ j := by
      rintro rfl
      rw [getElem?_modify_eq] at hpb
      obtain ⟨pb₀, -, rfl⟩ := map_eq_some_iff.mp hpb
      cases huse
    have hold : s.pool.buffers[j]? = some pb := by
      rw [← hpb]
      simp [hj]
    obtain ⟨b, hmem, hb, hat⟩ := hi.used j pb hold huse
    exact ⟨b, hkept b hmem (hat ▸ hj.symm), hb, hat⟩
  · show b.handle.poolIndex.toNat < pool.buffers.length
    rw [hbs, length_modify]
    rcases hback b hmem with rfl | hold
    · exact hi.index a' hself
    · exact hi.index b hold
  · rcases hback b hmem with rfl | hold
    · have hzero : a'.releases = 0 := of_decide_eq_true hlive
      show a'.releases + 1 ≤ 1
      omega
    · exact hi.once b hold
  · show Separate pool.buffers
    rw [hbs]
    exact hi.separate.modify _ false

theorem UserInv.release (hi : UserInv s) {i : ℕ} (hop : s.Unshared (.release i))
    (hs : s.step (.release i) = some t) : UserInv t := by
  unfold step at hs
  obtain ⟨a, ha, hs⟩ := map_eq_some_iff.mp hs
  have hlt := hi.index a (mem_of_getElem? ha)
  have hpb := getElem?_eq_getElem hlt
  have hpool := hi.pool.release a.handle
  cases huse : (s.pool.buffers[a.handle.poolIndex.toNat]).inUse with
  | true =>
    -- the flag is set, so the handle is live: a stale one would free the entry of another
    have hlive := (hop a ha).resolve_right (hi.live_of_used hpb huse)
    have hr := release_used hpb huse
    rw [hr] at hpool
    dsimp only at hs
    rw [hr] at hs
    subst hs
    exact hi.release_live ha hlive hpool rfl
  | false =>
    -- the double release is noticed
    dsimp only at hs
    rw [release_unused hpb huse] at hs
    subst hs
    exact hi

theorem UserInv.releaseAll (hi : UserInv s) (hs : s.step .releaseAll = some t) : UserInv t := by
  obtain rfl := some.inj hs
  -- the entries of the live handles are in use, so all of them are counted as released
  have hdead : ∀ a ∈ s.acquired, (if a.live && s.usesEntry a.handle then a.count else a).live
      = false := by
    intro a hmem
    split_ifs with hlive
    · simp [Acquisition.count, Acquisition.live]
    · rw [Bool.and_eq_true, not_and] at hlive
      by_contra hnot
      rw [Bool.not_eq_false] at hnot
      obtain ⟨pb, hpb, huse, -⟩ := hi.holds.entry a.handle (mem_held hmem hnot)
      refine hlive hnot ?_
      unfold usesEntry
      rw [hpb]
      exact huse
  have hnone : ∀ (j : ℕ) (pb : PooledBuffer), s.pool.releaseAll.buffers[j]? = some pb →
      pb.inUse = false := by
    intro j pb hpb
    obtain ⟨pb₀, -, rfl⟩ := map_eq_some_iff.mp ((getElem?_map ..).symm.trans hpb)
    rfl
  refine ⟨hi.pool.releaseAll, ?_, fun j pb hpb huse => ?_, fun a hmem => ?_, fun a hmem => ?_,
    hi.separate.map_inUse⟩
  · have hempty : (s.acquired.map fun a => if a.live && s.usesEntry a.handle then a.count
        else a).filter Acquisition.live = [] := by
      rw [filter_eq_nil_iff]
      intro a hmem
      obtain ⟨a₀, hmem₀, rfl⟩ := mem_map.mp hmem
      rw [hdead a₀ hmem₀]
      exact Bool.false_ne_true
    unfold held
    rw [hempty]
    exact .nil _
  · rw [hnone j pb hpb] at huse
    cases huse
  · show a.handle.poolIndex.toNat < (s.pool.buffers.map _).length
    rw [length_map]
    obtain ⟨a₀, hmem₀, rfl⟩ := mem_map.mp hmem
    have hindex := hi.index a₀ hmem₀
    split_ifs <;> exact hindex
  · obtain ⟨a₀, hmem₀, rfl⟩ := mem_map.mp hmem
    split_ifs with hlive
    · have hzero : a₀.releases = 0 := of_decide_eq_true ((Bool.and_eq_true ..).mp hlive).1
      show a₀.releases + 1 ≤ 1
      omega
    · exact hi.once a₀ hmem₀

theorem UserInv.purge (hi : UserInv s) (hs : s.step .purgeUnused = some t) : UserInv t := by
  obtain rfl := some.inj hs
  have hq : s.pool.purgeUnused = s.pool ∨ s.pool.purgeUnused = s.pool.purgeUnusedInternal :=
      .inr rfl
  refine ⟨hi.pool.purge, hi.holds.purged, fun j pb hpb huse => ?_, fun a hmem => ?_, hi.once,
    purge_or_separate hq hi.separate⟩
  · exact hi.used j pb (purge_or_used hq hpb huse) huse
  · exact (hi.index a hmem).trans_eq (purge_or_length hq).symm

/-- One call keeps the invariant. -/
theorem UserInv.step {op : HandleOp} (hi : UserInv s) (hop : s.Unshared op)
    (hs : s.step op = some t) : UserInv t := by
  cases op with
  | acquire size answer => exact hi.acquire hop hs
  | release i => exact hi.release hop hs
  | releaseAll => exact hi.releaseAll hs
  | purgeUnused => exact hi.purge hs

/-! ### Runs -/

/-- Different entries in use have different buffers. -/
theorem metalBuffer_ne {p : ActivationPool} {hs : List BufferHandle} {h₁ h₂ : BufferHandle}
    (hi : PoolInv p) (hsep : Separate p.buffers) (hh : Holds p.buffers hs) (h₁mem : h₁ ∈ hs)
    (h₂mem : h₂ ∈ hs) (hne : h₁.poolIndex ≠ h₂.poolIndex) : h₁.metalBuffer ≠ h₂.metalBuffer := by
  obtain ⟨pb₁, hpb₁, huse₁, rfl⟩ := hh.entry h₁ h₁mem
  obtain ⟨pb₂, hpb₂, -, rfl⟩ := hh.entry h₂ h₂mem
  have hbuf := hi.held pb₁ (mem_of_getElem? hpb₁) huse₁
  exact fun heq => hne (UInt32.toNat_inj.mp (hsep _ _ pb₁ pb₂ hpb₁ hpb₂ hbuf heq))

/-- A handle that has been released throws exactly while no live handle has its entry. -/
theorem UserInv.release_stale (hi : UserInv s) (hmem : a ∈ s.acquired) :
    s.Idle a.handle ↔ ∃ e, s.pool.release a.handle = (.error e, s.pool) := by
  obtain ⟨pb, hpb⟩ : ∃ pb, s.pool.buffers[a.handle.poolIndex.toNat]? = some pb :=
    ⟨_, getElem?_eq_getElem (hi.index a hmem)⟩
  cases huse : pb.inUse with
  | true =>
    -- in use by a live handle: the call frees its entry
    refine iff_of_false (hi.live_of_used hpb huse) ?_
    rintro ⟨e, hthrow⟩
    rw [release_used hpb huse] at hthrow
    cases (Prod.mk.inj hthrow).1
  | false =>
    refine iff_of_true (fun b hb hlive heq => ?_) ⟨_, release_unused hpb huse⟩
    obtain ⟨pb', hpb', huse', -⟩ := hi.holds.entry b.handle (mem_held hb hlive)
    rw [heq, hpb] at hpb'
    rw [some.inj hpb', huse'] at huse
    cases huse

/-- **Handles are released once.**  In every run in which no handle is released again while its
    entry serves another, no handle has been released twice; a live handle can be released, and a
    handle that has been released throws and changes nothing exactly when no live handle has its
    entry; live handles have different buffers, and `acquire` returns none of them. -/
theorem handles_released_once (maxBudgetBytes recommended : ℕ)
    (hr : Runs step Unshared { pool := new maxBudgetBytes recommended } s) :
    (∀ a ∈ s.acquired, a.releases ≤ 1) ∧
    (∀ a ∈ s.acquired, a.live = true → (s.pool.release a.handle).1 = .ok ()) ∧
    (∀ a ∈ s.acquired, a.live = false →
      (s.Idle a.handle ↔ ∃ e, s.pool.release a.handle = (.error e, s.pool))) ∧
    (s.held.Pairwise fun h₁ h₂ => h₁.metalBuffer ≠ h₂.metalBuffer) ∧
    ∀ size answer h pool, s.Unshared (.acquire size answer) →
      s.pool.acquire size answer = (.ok h, pool) → ∀ a ∈ s.acquired, a.live = true →
        h.poolIndex ≠ a.handle.poolIndex ∧ h.metalBuffer ≠ a.handle.metalBuffer := by
  have hi : UserInv s :=
    hr.invariant (.new maxBudgetBytes recommended) fun u op v hu hop hs => hu.step hop hs
  refine ⟨hi.once, fun a hmem hlive => ?_, fun a hmem _ => hi.release_stale hmem, ?_,
    fun size answer h pool hop hacquire a hmem hlive => ?_⟩
  · obtain ⟨pb, hpb, huse, -⟩ := hi.holds.entry a.handle (mem_held hmem hlive)
    rw [release_used hpb huse]
  · exact hi.holds.apart.imp_of_mem fun h₁mem h₂mem hne =>
      metalBuffer_ne hi.pool hi.separate hi.holds h₁mem h₂mem hne
  · have hstep : s.step (.acquire size answer) = some ⟨pool, s.acquired ++ [⟨h, 0⟩]⟩ := by
      unfold step
      dsimp only
      rw [hacquire]
      rfl
    have hnext := hi.acquire hop hstep
    have hholds := hi.holds.acquire hi.pool hop.1 hacquire
    have hold : a.handle ∈ s.held ++ [h] := mem_append_left _ (mem_held hmem hlive)
    have hnew : h ∈ s.held ++ [h] := mem_append_right _ (mem_singleton_self _)
    have hne : a.handle.poolIndex ≠ h.poolIndex :=
      (pairwise_append.mp hholds.apart).2.2 _ (mem_held hmem hlive) h
        (mem_singleton_self _)
    exact ⟨hne.symm, (metalBuffer_ne hnext.pool hnext.separate hholds hold hnew hne).symm⟩

/-- An entry that serves three handles in turn, and releases that throw. -/
theorem handles_released_once_in_turn :
    ∃ s, exec step { pool := new 1000000 0 } [.acquire 262144 (some 1), .acquire 262144 (some 2),
        .release 0, .release 0, .acquire 262144 none, .release 2, .release 0, .release 1,
        .acquire 262144 none, .releaseAll, .release 3, .purgeUnused, .acquire 262144 (some 1)]
        = some s ∧
      (∀ a ∈ s.acquired, a.releases ≤ 1) ∧
      (∀ a ∈ s.acquired, a.live = true → (s.pool.release a.handle).1 = .ok ()) ∧
      (∀ a ∈ s.acquired, a.live = false →
        (s.Idle a.handle ↔ ∃ e, s.pool.release a.handle = (.error e, s.pool))) ∧
      (s.held.Pairwise fun h₁ h₂ => h₁.metalBuffer ≠ h₂.metalBuffer) ∧
      ∀ size answer h pool, s.Unshared (.acquire size answer) →
        s.pool.acquire size answer = (.ok h, pool) → ∀ a ∈ s.acquired, a.live = true →
          h.poolIndex ≠ a.handle.poolIndex ∧ h.metalBuffer ≠ a.handle.metalBuffer := by
  have hsome : (exec step { pool := new 1000000 0 } [.acquire 262144 (some 1),
      .acquire 262144 (some 2), .release 0, .release 0, .acquire 262144 none, .release 2,
      .release 0, .release 1, .acquire 262144 none, .releaseAll, .release 3, .purgeUnused,
      .acquire 262144 (some 1)]).isSome = true := by decide +kernel
  obtain ⟨s, hs⟩ := isSome_iff_exists.mp hsome
  have hguard : GuardedAlong step Unshared { pool := new 1000000 0 } [.acquire 262144 (some 1),
      .acquire 262144 (some 2), .release 0, .release 0, .acquire 262144 none, .release 2,
      .release 0, .release 1, .acquire 262144 none, .releaseAll, .release 3, .purgeUnused,
      .acquire 262144 (some 1)] := by decide +kernel
  exact ⟨s, hs, handles_released_once 1000000 0 (runs_exec hs hguard)⟩

/-- A stale release frees the entry of a live handle; the next `acquire` hands out its buffer. -/
theorem stale_handle_releases :
    ∃ s, Reaches step { pool := new 1000000 0 } s ∧
      (∃ a ∈ s.acquired, 1 < a.releases) ∧
      ∃ a ∈ s.acquired[1]?, ∃ b ∈ s.acquired[2]?, a.live = true ∧ b.live = true ∧
        a.handle.metalBuffer = some 1 ∧ b.handle.metalBuffer = some 1 :=
  exists_reaches [.acquire 262144 (some 1), .release 0, .acquire 262144 none, .release 0,
    .acquire 262144 none] (by decide +kernel)

end PoolUser

end ActivationPool

end MetalNative
