import MetalNative.Dispatch.PooledTensors
import MetalNative.Memory.BufferIdentity

namespace MetalNative

open Run PooledClient List Option
open MetalSmartAllocator (cachedBlocks)

/-!
# Memory that the GPU still needs is recycled

Nothing keeps a block while a kernel that is bound to its buffer waits for the GPU: the last tensor
goes, the block is in its free list, and the next tensor of the size class gets it.

* `HandsOutIdle` — no block that `allocate` can hand out is bound to a kernel that has not
  completed.
* `RecycleSafe` — the condition on a step: what it gives back is bound to no such kernel.
* `pooled_blocks_idle` — runs of such steps hand out idle blocks, and the first step that does not
  meet the condition ends that.
* `destroyed_input_recycled` — `c = a + b; del a`, and a new tensor gets the input of the pending
  sum.
-/

namespace PooledClient

/-- A kernel that is bound to a Metal buffer has not completed. -/
def Busy (s : PooledClient) (buf : ObjId) : Prop :=
  ∃ e ∈ s.encoded, e.commandBuffer ∉ s.completed ∧ buf ∈ e.buffers

instance (s : PooledClient) (buf : ObjId) : Decidable (s.Busy buf) :=
  inferInstanceAs (Decidable (∃ e ∈ s.encoded, e.commandBuffer ∉ s.completed ∧ buf ∈ e.buffers))

/-- The buffer of a block that `allocate` hands out is bound to no kernel that has not completed. -/
def HandsOutIdle (dev : MTLDevice) (s : PooledClient) : Prop :=
  ∀ nbytes mode block allocator, s.allocator.allocate dev nbytes mode =
    some (.ok block, allocator) →
    ∀ buf ∈ block.buffer, ¬ s.Busy buf

/-- The condition on a step: the block that it gives back is bound to no kernel that has not
    completed. -/
def RecycleSafe (s : PooledClient) (a : PooledAction) : Prop :=
  ∀ block ∈ s.releases a, ∀ buf ∈ block.buffer, ¬ s.Busy buf

instance (s : PooledClient) (a : PooledAction) : Decidable (s.RecycleSafe a) :=
  inferInstanceAs (Decidable (∀ block ∈ s.releases a, ∀ buf ∈ block.buffer, ¬ s.Busy buf))

/-! ### The invariant -/

/-- The block is a live one of the allocator, as `allocate` made it. -/
structure Owns (a : MetalSmartAllocator) (block : AllocatedBlock) (hb : HeapBlock) : Prop where
  live : (block.internalId, hb) ∈ a.liveBlocks
  buffer : block.buffer = hb.buffer
  aliasable : block.aliasable = false
  requested : 0 < block.requested
  sizeClass : nextSizeClass block.requested = some block.sizeClass

/-- The blocks in use are live, the buffers of kernels exist, and those of cached blocks are
idle. -/
structure PooledInv (s : PooledClient) : Prop where
  minted : s.allocator.Minted
  owned : ∀ block ∈ s.tensors ++ s.pc.held, ∃ hb, Owns s.allocator block hb
  encoded_lt : ∀ e ∈ s.encoded, ∀ buf ∈ e.buffers, buf < s.allocator.heapMgr.nextObject
  cached : ∀ hb ∈ cachedBlocks s.allocator.freeLists, ∀ buf ∈ hb.buffer, ¬ s.Busy buf

variable {dev : MTLDevice} {s s' : PooledClient} {block : AllocatedBlock}

/-- The thread, the pipeline and the tensors play no part in what is busy, and completion only
    helps. -/
theorem Busy.of_subset {buf : ObjId} (h : s'.Busy buf) (hencoded : s'.encoded = s.encoded)
    (hcompleted : s.completed ⊆ s'.completed) : s.Busy buf := by
  obtain ⟨e, he, hnot, hbuf⟩ := h
  exact ⟨e, hencoded ▸ he, fun hmem => hnot (hcompleted hmem), hbuf⟩

theorem Owns.of_live {a a' : MetalSmartAllocator} {hb : HeapBlock} (h : Owns a block hb)
    (hlive : (block.internalId, hb) ∈ a'.liveBlocks) : Owns a' block hb where
  live := hlive
  buffer := h.buffer
  aliasable := h.aliasable
  requested := h.requested
  sizeClass := h.sizeClass

/-- Other references to live blocks, with the allocator as it was. -/
theorem PooledInv.of_held (hs : PooledInv s) (halloc : s'.allocator = s.allocator)
    (hencoded : s'.encoded = s.encoded) (hcompleted : s.completed ⊆ s'.completed)
    (hheld : ∀ block ∈ s'.tensors ++ s'.pc.held, ∃ hb, Owns s.allocator block hb) :
      PooledInv s' where
  minted := halloc ▸ hs.minted
  owned := fun block hblock => by
    rw [halloc]
    exact hheld block hblock
  encoded_lt := by
    rw [hencoded, halloc]
    exact hs.encoded_lt
  cached := fun hb hmem buf hbuf hbusy =>
    hs.cached hb (halloc ▸ hmem) buf hbuf (hbusy.of_subset hencoded hcompleted)

/-- **`~MNBuffer`.**  What is given back is idle, and it belongs to no other tensor. -/
theorem PooledInv.drop (hs : PooledInv s) (hidle : s.pc = .idle) {hb : HeapBlock}
    (hown : Owns s.allocator block hb)
    (hsafe : ¬ Shared s.tensors block → ∀ buf ∈ block.buffer, ¬ s.Busy buf) :
    PooledInv (s.drop block) := by
  unfold PooledClient.drop
  split_ifs with hshared
  · exact hs
  obtain ⟨hminted, hmgr, hlive, hcached⟩ := hs.minted.deallocate hown.aliasable hown.live
  refine ⟨hminted, fun other hother => ?_, ?_, fun hb' hmem buf hbuf => ?_⟩
  · replace hother : other ∈ s.tensors := by simpa [hidle, PooledPC.held] using hother
    obtain ⟨hb', h⟩ := hs.owned other (mem_append_left _ hother)
    refine ⟨hb', h.of_live ?_⟩
    rw [hlive]
    exact Keyed.mem_erase.mpr ⟨h.live, fun heq => hshared ⟨other, hother, heq⟩⟩
  · show ∀ e ∈ s.encoded, ∀ buf ∈ e.buffers,
      buf < (s.allocator.deallocate block).2.heapMgr.nextObject
    rw [hmgr]
    exact hs.encoded_lt
  · rcases hcached hb' hmem with rfl | hold
    · exact hsafe hshared buf (hown.buffer ▸ hbuf)
    · exact hs.cached hb' hold buf hbuf

/-- **`allocate_pooled`.**  The new block is live and the others have stayed what they were. -/
theorem PooledInv.allocatePooled (hs : PooledInv s) {nbytes : ℕ} {mode : StorageMode}
    {r : Option AllocatedBlock × PooledClient} (h : s.allocatePooled dev nbytes mode = some r) :
    PooledInv r.2 ∧ (∀ block ∈ r.1, ∃ hb, Owns r.2.allocator block hb) ∧
      ∃ allocator, r.2 = { s with allocator } := by
  obtain ⟨⟨res, allocator⟩, hr, rfl⟩ := map_eq_some_iff.mp h
  cases res with
  | error e =>
    obtain ⟨hminted, hnext, hlists, hlive⟩ := hs.minted.allocate_error hr
    refine ⟨⟨hminted, fun block hblock => ?_, fun e he buf hbuf => ?_, ?_⟩,
      fun block hblock => (by cases hblock), allocator, rfl⟩
    · obtain ⟨hb, h⟩ := hs.owned block hblock
      exact ⟨hb, h.of_live (hlive.symm ▸ h.live)⟩
    · exact (hs.encoded_lt e he buf hbuf).trans_le hnext
    · show ∀ hb ∈ cachedBlocks allocator.freeLists, _
      rw [hlists]
      exact hs.cached
  | ok block =>
    obtain ⟨hb, hout⟩ := hs.minted.allocate hr
    refine ⟨⟨hout.minted, fun other hother => ?_, fun e he buf hbuf => ?_,
      fun hb' hmem => hs.cached hb' (hout.cached hb' hmem)⟩, fun new hnew => ?_, allocator, rfl⟩
    · obtain ⟨hb', h⟩ := hs.owned other hother
      refine ⟨hb', h.of_live ?_⟩
      rw [hout.live]
      exact mem_cons_of_mem _ h.live
    · exact (hs.encoded_lt e he buf hbuf).trans_le hout.nextObject
    · obtain rfl : block = new := some.inj hnew
      refine ⟨hb, ?_, hout.buffer, hout.aliasable, ?_, ?_⟩
      · rw [hout.live]
        exact mem_cons_self ..
      · rw [hout.requested]
        exact Nat.lt_of_lt_of_le Nat.one_pos (Nat.le_max_right ..)
      · rw [hout.requested]
        exact hout.sizeClass

/-! ### The steps -/

/-- A call of the client. -/
theorem PooledInv.call (hs : PooledInv s) (hidle : s.pc = .idle) {op : PooledOp}
    (hsafe : s.RecycleSafe (.call op)) (h : s.call dev op = some s') : PooledInv s' := by
  have hheld : s.pc.held = [] := by rw [hidle, PooledPC.held]
  cases op with
  | empty nbytes mode =>
    obtain ⟨⟨out, s₁⟩, hr, rfl⟩ := map_eq_some_iff.mp h
    obtain ⟨hinv, hnew, allocator, rfl⟩ := hs.allocatePooled hr
    refine hinv.of_held rfl rfl (List.Subset.refl _) fun block hblock => ?_
    simp only [hheld, append_nil, mem_append, mem_toList] at hblock
    rcases hblock with hold | rfl
    · exact hinv.owned block (mem_append_left _ hold)
    · exact hnew block rfl
  | view i =>
    obtain ⟨block, hi, rfl⟩ := map_eq_some_iff.mp h
    refine hs.of_held rfl rfl (List.Subset.refl _) fun other hother => ?_
    simp only [hheld, append_nil, mem_append, mem_singleton] at hother
    rcases hother with hold | rfl
    · exact hs.owned other (mem_append_left _ hold)
    · exact hs.owned other (mem_append_left _ (mem_of_getElem? hi))
  | kernel operands nbytes mode =>
    simp only [PooledClient.call] at h
    split_ifs at h with hoperands
    obtain ⟨⟨out, s₁⟩, hr, rfl⟩ := map_eq_some_iff.mp h
    obtain ⟨hinv, hnew, allocator, rfl⟩ := hs.allocatePooled hr
    cases out with
    | none => exact hinv
    | some out =>
      refine hinv.of_held rfl rfl (List.Subset.refl _) fun block hblock => ?_
      rcases mem_append.mp hblock with hold | hkernel
      · exact hinv.owned block (mem_append_left _ hold)
      · rcases mem_cons.mp hkernel with rfl | hoperand
        · exact hnew block rfl
        · obtain ⟨i, -, hi⟩ := mem_filterMap.mp hoperand
          exact hinv.owned block (mem_append_left _ (mem_of_getElem? hi))
  | destroy i =>
    obtain ⟨block, hi, rfl⟩ := map_eq_some_iff.mp h
    have hinv : PooledInv { s with tensors := s.tensors.eraseIdx i } := by
      refine hs.of_held rfl rfl (List.Subset.refl _) fun other hother => hs.owned other ?_
      rcases mem_append.mp hother with hold | hpc
      · exact mem_append_left _ (mem_of_mem_eraseIdx hold)
      · exact mem_append_right _ hpc
    obtain ⟨hb, hown⟩ := hs.owned block (mem_append_left _ (mem_of_getElem? hi))
    refine hinv.drop hidle hown fun hlast => hsafe block ?_
    -- the last reference to the block goes
    show (s.tensors[i]?).filter _ = some block
    rw [hi, filter_some, if_pos (decide_eq_true hlast)]
  | pipeline op =>
    obtain rfl := some.inj h
    exact hs.of_held rfl rfl (Subset.refl _) fun block hblock => by
      refine hs.owned block (mem_append_left _ ?_)
      simpa [callPipeline, PooledPC.held, PooledRet.held] using hblock

/-- An exception out of a call of the pipeline. -/
theorem PooledInv.unwind (hs : PooledInv s) {next : PooledRet} (hpc : s.pc = .calling next)
    (hsafe : ∀ block ∈ next.out, ¬ Shared s.tensors block → ∀ buf ∈ block.buffer, ¬ s.Busy buf)
    (sys : System) : PooledInv ({ s with sys }.unwind next) := by
  have hinv : PooledInv { s with sys, pc := .idle } := by
    refine hs.of_held rfl rfl (List.Subset.refl _) fun block hblock => ?_
    exact hs.owned block (mem_append_left _ (by simpa [PooledPC.held] using hblock))
  unfold PooledClient.unwind
  split
  · exact hinv
  · rename_i out hout
    have hmem : out ∈ s.pc.held := by
      rw [hpc]
      cases next with
      | done => cases hout
      | encode | result =>
        obtain rfl := some.inj hout
        exact mem_cons_self ..
    obtain ⟨hb, hown⟩ := hs.owned out (mem_append_right _ hmem)
    exact hinv.drop rfl hown (hsafe out hout)

/-- The encoding of a kernel: its blocks are live, so no cached one becomes busy. -/
theorem PooledInv.encode (hs : PooledInv s) {operands : List AllocatedBlock} {out : AllocatedBlock}
    (hpc : s.pc = .encode operands out) (cb : ObjId) :
    PooledInv ({ s with
      encoded :=
        ⟨cb, (out :: operands).filterMap AllocatedBlock.buffer⟩ :: s.encoded }.callPipeline
      .commitAndContinue (.result out)) := by
  have hheld : ∀ block ∈ out :: operands, ∃ hb, Owns s.allocator block hb := fun block hblock =>
    hs.owned block (mem_append_right _ (by rwa [hpc]))
  have hbound : ∀ buf ∈ (out :: operands).filterMap AllocatedBlock.buffer,
      ∃ hb ∈ s.allocator.live, hb.buffer = some buf := by
    intro buf hbuf
    obtain ⟨block, hblock, heq⟩ := mem_filterMap.mp hbuf
    obtain ⟨hb, hown⟩ := hheld block hblock
    exact ⟨hb, mem_map_of_mem hown.live, hown.buffer ▸ heq⟩
  refine ⟨hs.minted, fun block hblock => ?_, fun e he buf hbuf => ?_, fun hb hmem buf hbuf => ?_⟩
  · rcases mem_append.mp hblock with hold | hnew
    · exact hs.owned block (mem_append_left _ hold)
    · obtain rfl := mem_singleton.mp hnew
      exact hheld block (mem_cons_self ..)
  · rcases mem_cons.mp he with rfl | hold
    · obtain ⟨hb, hmem, heq⟩ := hbound buf hbuf
      obtain ⟨minted, hlt, heq'⟩ := hs.minted.created hb (mem_append_left _ hmem)
      obtain rfl : minted = buf := some.inj (heq'.symm.trans heq)
      exact hlt
    · exact hs.encoded_lt e hold buf hbuf
  · rintro ⟨e, he, hnot, hbuf'⟩
    rcases mem_cons.mp he with rfl | hold
    · obtain ⟨hb', hmem', heq⟩ := hbound buf hbuf'
      exact hs.minted.buffer_ne hmem' hmem (heq.trans hbuf.symm)
    · exact hs.cached hb hmem buf hbuf ⟨e, hold, hnot, hbuf'⟩

/-- A step of the client's thread. -/
theorem PooledInv.run (hs : PooledInv s) {env : Env} (hsafe : s.RecycleSafe (.run env))
    (h : s.run env = some s') : PooledInv s' := by
  unfold PooledClient.run at h
  split at h
  · cases h
  · rename_i next hpc
    have howned : ∀ block ∈ s.tensors ++ next.held, ∃ hb, Owns s.allocator block hb := by
      intro block hblock
      exact hs.owned block (by rwa [hpc])
    by_cases hreturned : s.returned = true
    · rw [if_pos hreturned] at h
      obtain rfl := some.inj h
      cases next with
      | done | encode operands out => exact hs.of_held rfl rfl (List.Subset.refl _) howned
      | result out =>
        refine hs.of_held rfl rfl (List.Subset.refl _) fun block hblock => howned block ?_
        simpa [resume, PooledPC.held, PooledRet.held] using hblock
    · rw [if_neg hreturned] at h
      obtain ⟨sys, -, rfl⟩ := map_eq_some_iff.mp h
      by_cases hthrows : s.throws env = true
      · rw [if_pos hthrows]
        refine hs.unwind hpc (fun block hout hlast => hsafe block ?_) sys
        simp only [releases, hpc]
        rw [if_pos ⟨Bool.eq_false_iff.mpr hreturned, hthrows⟩, mem_def.mp hout,
          filter_some, if_pos (decide_eq_true hlast)]
        rfl
      · rw [if_neg hthrows]
        exact hs.of_held rfl rfl (List.Subset.refl _) fun block hblock => hs.owned block hblock
  · rename_i operands out hpc
    split at h
    · obtain rfl := some.inj h
      refine hs.of_held rfl rfl (Subset.refl _) fun block hblock => hs.owned block ?_
      rcases mem_append.mp hblock with hold | hnew
      · exact mem_append_left _ hold
      · obtain rfl := mem_singleton.mp hnew
        rw [hpc]
        exact mem_append_right _ (mem_cons_self ..)
    · split_ifs at h
      obtain rfl := some.inj h
      exact hs.encode hpc _

/-- The completion of a command buffer: some kernels are done. -/
theorem PooledInv.complete (hs : PooledInv s) (h : s.complete = some s') : PooledInv s' := by
  unfold PooledClient.complete at h
  split at h
  · cases h
  · obtain ⟨sys, -, rfl⟩ := map_eq_some_iff.mp h
    exact hs.of_held rfl rfl (subset_cons_self ..) fun block hblock => hs.owned block hblock

variable {a : PooledAction}

theorem PooledInv.step (hs : PooledInv s) (hsafe : s.RecycleSafe a)
    (h : step dev s a = some s') : PooledInv s' := by
  cases a with
  | call op =>
    simp only [step] at h
    split at h
    · rename_i hidle
      exact hs.call hidle hsafe h
    · cases h
  | run env => exact hs.run hsafe h
  | complete => exact hs.complete h

theorem PooledInv.init (bufferCount : ℕ) : PooledInv (init bufferCount) where
  minted := MetalSmartAllocator.minted_new
  owned := fun _ hblock => absurd hblock not_mem_nil
  encoded_lt := fun _ he => absurd he not_mem_nil
  cached := fun _ hmem => absurd hmem not_mem_nil

/-- A block comes from a free list, whose buffers are idle, or has a new buffer. -/
theorem PooledInv.handsOutIdle (hs : PooledInv s) : HandsOutIdle dev s := by
  intro nbytes mode block allocator hr buf hbuf hbusy
  obtain ⟨hb, hout⟩ := hs.minted.allocate hr
  have hhb : buf ∈ hb.buffer := hout.buffer ▸ hbuf
  rcases hout.origin with hcached | ⟨new, hnew, hle⟩
  · exact hs.cached hb hcached buf hhb hbusy
  · obtain rfl : new = buf := some.inj (hnew.symm.trans hhb)
    obtain ⟨e, he, -, hmem⟩ := hbusy
    exact absurd (hs.encoded_lt e he new hmem) (Nat.not_lt.mpr hle)

/-! ### Steps that do not meet the condition -/

/-- What `releases` names is given back by the step. -/
theorem step_releases (hreleases : block ∈ s.releases a)
    (h : step dev s a = some s') :
    block ∈ s.tensors ++ s.pc.held ∧ s'.allocator = (s.allocator.deallocate block).2 ∧
      s'.encoded = s.encoded ∧ s'.completed = s.completed := by
  cases a with
  | call op =>
    simp only [step] at h
    split at h
    · cases op with
      | destroy i =>
        obtain ⟨block', hi, rfl⟩ := map_eq_some_iff.mp h
        simp only [releases, hi] at hreleases
        obtain ⟨hsame, hlast⟩ := filter_eq_some_iff.mp hreleases
        obtain rfl : block' = block := some.inj hsame
        have hlast : ¬ Shared (s.tensors.eraseIdx i) block' := of_decide_eq_true hlast
        unfold drop
        rw [if_neg hlast]
        exact ⟨mem_append_left _ (mem_of_getElem? hi), rfl, rfl, rfl⟩
      | empty nbytes mode | view i | kernel operands nbytes mode | pipeline op => cases hreleases
    · cases h
  | run env =>
    simp only [step, run] at h
    simp only [releases] at hreleases
    split at h
    · cases h
    · rename_i next hpc
      simp only [hpc] at hreleases
      split_ifs at hreleases with hthrows
      · rw [if_neg (by simp [hthrows.1])] at h
        obtain ⟨sys, -, rfl⟩ := map_eq_some_iff.mp h
        obtain ⟨hout, hlast⟩ := filter_eq_some_iff.mp hreleases
        have hlast : ¬ Shared s.tensors block := of_decide_eq_true hlast
        rw [if_pos hthrows.2]
        unfold unwind
        rw [hout]
        dsimp only
        unfold drop
        rw [if_neg hlast]
        refine ⟨mem_append_right _ ?_, rfl, rfl, rfl⟩
        rw [hpc]
        cases next with
        | done => cases hout
        | encode operands out | result out =>
          obtain rfl := some.inj hout
          exact mem_cons_self ..
      · cases hreleases
    · rename_i operands out hpc
      simp only [hpc] at hreleases
      cases hreleases
  | complete => cases hreleases

/-- A step that gives back a busy block leaves it for the next tensor of its class. -/
theorem PooledInv.handsOutBusy (hs : PooledInv s) (hnot : ¬ s.RecycleSafe a)
    (h : PooledClient.step dev s a = some s') : ¬ HandsOutIdle dev s' := by
  intro hidle
  refine hnot fun block hreleases buf hbuf hbusy => ?_
  obtain ⟨hmem, halloc, hencoded, hcompleted⟩ := step_releases hreleases h
  obtain ⟨hb, hown⟩ := hs.owned block hmem
  obtain ⟨next, allocator, hnext, hsame⟩ := MetalSmartAllocator.exists_allocate_deallocate
    hs.minted hown.aliasable hown.live hown.requested hown.sizeClass
  rw [← halloc] at hnext
  refine hidle _ _ next allocator hnext buf ?_ ?_
  · rw [hsame, ← hown.buffer]
    exact hbuf
  · exact hbusy.of_subset hencoded.symm (hcompleted ▸ List.Subset.refl _)

/-! ### The result -/

/-- **Idle blocks.**  While every block that is given back is bound to no kernel that has not
    completed, so is every block that `allocate` hands out; and a step that gives back another one
    ends that. -/
theorem pooled_blocks_idle (dev : MTLDevice) (bufferCount : ℕ) {s : PooledClient}
    (h : Runs (PooledClient.step dev) RecycleSafe (PooledClient.init bufferCount) s) :
    HandsOutIdle dev s ∧
      ∀ a s', PooledClient.step dev s a = some s' → ¬ s.RecycleSafe a → ¬ HandsOutIdle dev s' := by
  have hinv : PooledInv s :=
    h.invariant (PooledInv.init bufferCount) fun _ _ _ hi hg hstep => hi.step hg hstep
  exact ⟨hinv.handsOutIdle, fun _ _ hstep hnot => hinv.handsOutBusy hnot hstep⟩

/-- `c = a + b` in eager mode. -/
def sumSchedule : List PooledAction :=
  [.call (.empty 16 .Shared), .call (.empty 16 .Shared), .call (.kernel [0, 1] 16 .Shared)] ++
    List.replicate 10 (.run {})

/-- The sum completes before its first operand is destroyed. -/
theorem pooled_blocks_idle_sum :
    ∃ s, exec (PooledClient.step grantingDevice) (PooledClient.init 3)
      (sumSchedule ++ [.complete, .call (.destroy 0)]) = some s ∧ s.tensors.length = 2 ∧
        HandsOutIdle grantingDevice s := by
  have hsome : (exec (step grantingDevice) (init 3)
      (sumSchedule ++ [.complete, .call (.destroy 0)])).any
      (fun s => decide (s.tensors.length = 2)) = true := by decide
  obtain ⟨s, hs, hlength⟩ := (any_eq_true _ _).mp hsome
  have hguard : GuardedAlong (step grantingDevice) RecycleSafe (init 3)
      (sumSchedule ++ [.complete, .call (.destroy 0)]) := by decide
  exact ⟨s, hs, of_decide_eq_true hlength,
    (pooled_blocks_idle grantingDevice 3 (runs_exec hs hguard)).1⟩

/-- A request that is answered with a busy block. -/
theorem not_handsOutIdle {nbytes : ℕ} {mode : StorageMode}
    (h : ∃ r ∈ s.allocator.allocate dev nbytes mode, ∃ block ∈ r.1.toOption,
      ∃ buf ∈ block.buffer, s.Busy buf) : ¬ HandsOutIdle dev s := by
  obtain ⟨⟨res, allocator⟩, hr, block, hblock, buf, hbuf, hbusy⟩ := h
  cases res with
  | error e => cases hblock
  | ok block' =>
    obtain rfl : block' = block := some.inj hblock
    exact fun hidle => hidle nbytes mode block' allocator hr buf hbuf hbusy

/-- `c = a + b; del a; zeros(..)`: the sum has been committed and has not run, and the zeros go into
    the buffer of `a`. -/
theorem destroyed_input_recycled :
    ∃ s, Reaches (PooledClient.step grantingDevice) (PooledClient.init 3) s ∧
      ¬ HandsOutIdle grantingDevice s := by
  have hbusy : ∃ s, Reaches (step grantingDevice) (init 3) s ∧
      ∃ r ∈ s.allocator.allocate grantingDevice 16 .Shared, ∃ block ∈ r.1.toOption,
        ∃ buf ∈ block.buffer, s.Busy buf :=
    exists_reaches (sumSchedule ++ [.call (.destroy 0)]) (by decide)
  obtain ⟨s, hs, hbusy⟩ := hbusy
  exact ⟨s, hs, not_handsOutIdle hbusy⟩

end PooledClient

end MetalNative
