import MetalNative.Interop.ZeroCopy
import MetalNative.Memory.BufferIdentity

namespace MetalNative

namespace ZeroCopy

open Run List Option
open MetalSmartAllocator (Minted)

/-!
# Who keeps the memory of an import

An imported tensor holds an address.  Its memory stays as long as its owner does: a block of the
allocator as long as a tensor or an export context shares its buffer, a storage of PyTorch as long
as a torch tensor refers to it.

* `ImportsSafe` — the memory of every imported tensor is that of its owner, which has not given it
  up, and no other owner's tensor is over it.
* `KeepsImports` — the condition on a step: it gives up no memory under an imported tensor, and
  imports only what lies in the memory of its owner.
* `imports_alive` — runs of such steps, and the first step that is not one.
* `imports_dangle` — an importer that outlives the capsule and the exporter, and one that outlives
  its torch tensor.
-/

namespace State

/-- The owner has not given its memory up, and `n` bytes of it begin at `p`. -/
def Owned (s : State) (o : Owner) (p : Pointer) (n : ℕ) : Prop :=
  match o with
  | .block b =>
    (∃ entry ∈ s.allocator.liveBlocks, entry.1 = b.internalId ∧ entry.2.buffer = b.buffer) ∧
      ∃ x ∈ b.buffer, p.region = .buffer x ∧ p.offset + n ≤ b.requested
  | .storage k =>
    ∃ st ∈ s.storages[k]?, st.alive = true ∧ p.region = .storage k ∧ p.offset + n ≤ st.nbytes

instance (s : State) (o : Owner) (p : Pointer) (n : ℕ) : Decidable (s.Owned o p n) :=
  match o with
  | .block b =>
    inferInstanceAs (Decidable
      ((∃ entry ∈ s.allocator.liveBlocks, entry.1 = b.internalId ∧ entry.2.buffer = b.buffer) ∧
        ∃ x ∈ b.buffer, p.region = .buffer x ∧ p.offset + n ≤ b.requested))
  | .storage k =>
    inferInstanceAs (Decidable
      (∃ st ∈ s.storages[k]?, st.alive = true ∧ p.region = .storage k ∧ p.offset + n ≤ st.nbytes))

/-- No imported tensor dangles: its memory is that of its owner, who has not given it up, and the
    tensors over memory of others are elsewhere. -/
structure ImportsSafe (s : State) : Prop where
  owned : ∀ t ∈ s.tensors, t.Imported → s.Owned t.owner t.first t.extent
  apart : ∀ t ∈ s.tensors, t.Imported → ∀ u ∈ s.tensors, u.owner.key ≠ t.owner.key →
    u.first.region ≠ t.first.region

instance (s : State) : Decidable s.ImportsSafe :=
  decidable_of_iff ((∀ t ∈ s.tensors, t.Imported → s.Owned t.owner t.first t.extent) ∧
    ∀ t ∈ s.tensors, t.Imported → ∀ u ∈ s.tensors, u.owner.key ≠ t.owner.key →
      u.first.region ≠ t.first.region)
    ⟨fun h => ⟨h.1, h.2⟩, fun h => ⟨h.owned, h.apart⟩⟩

/-- A write to a tensor that shares its storage with `t`, or by PyTorch to the storage itself. -/
def WritesTo (s : State) (t : Tensor) : Action → Prop
  | .write i _ => ∃ u ∈ s.tensors[i]?, u.owner.key = t.owner.key
  | .storageWrite k _ => t.owner.key = .inr k
  | _ => False

/-- The owner that gives its memory up in a step: the block of a buffer whose last reference goes,
    or a storage. -/
def released (s : State) : Action → Option (ℕ ⊕ ℕ)
  | .drop i =>
    (s.tensors[i]?.bind fun t => t.buffer.block.filter fun b =>
      ¬ { s with tensors := s.tensors.eraseIdx i }.Referenced b).map fun b => .inl b.internalId
  | .deleter j =>
    (s.managed[j]?.bind fun m => m.buffer.block.filter fun b =>
      ¬ { s with managed := s.managed.eraseIdx j }.Referenced b).map fun b => .inl b.internalId
  | .torchDrop k => some (.inr k)
  | _ => none

/-- The tensors that there are still after a step. -/
def survivors (s : State) : Action → List Tensor
  | .drop i => s.tensors.eraseIdx i
  | _ => s.tensors

/-- What a step imports has an owner. -/
def ImportsOwned (s : State) : Action → Prop
  | .fromDlpack j answer =>
    ∀ m ∈ s.managed[j]?, answer = true → ¬ m.Rejected →
      s.Owned m.buffer.owner m.pointer m.extent
  | .fromTorchStrided _ _ _ => False
  | _ => True

instance (s : State) (a : Action) : Decidable (s.ImportsOwned a) :=
  match a with
  | .fromDlpack j answer =>
    inferInstanceAs (Decidable (∀ m ∈ s.managed[j]?, answer = true → ¬ m.Rejected →
      s.Owned m.buffer.owner m.pointer m.extent))
  | .fromTorchStrided .. => inferInstanceAs (Decidable False)
  | .empty .. | .view .. | .write .. | .toDlpack .. | .deleter .. | .drop .. | .torchEmpty ..
  | .fromTorch .. | .torchDrop .. | .storageWrite .. => inferInstanceAs (Decidable True)

/-- The condition on a step: no memory under an imported tensor is given up, and what is imported
    lies in memory that its owner has not given up. -/
def KeepsImports (s : State) (a : Action) : Prop :=
  (∀ o ∈ s.released a, ∀ t ∈ s.survivors a, t.Imported → t.owner.key ≠ o) ∧ s.ImportsOwned a

instance (s : State) (a : Action) : Decidable (s.KeepsImports a) :=
  inferInstanceAs (Decidable (_ ∧ _))

/-! ### The invariant -/

/-- The shared buffers have live blocks, and every tensor lies in the memory of its owner. -/
structure Inv (s : State) : Prop where
  minted : s.allocator.Minted
  shared : ∀ c ∈ s.buffers, ∀ b ∈ c.block, b.aliasable = false ∧
    ∃ hb, (b.internalId, hb) ∈ s.allocator.liveBlocks ∧ hb.buffer = b.buffer
  tensors : ∀ t ∈ s.tensors, s.Owned t.owner t.first t.extent

variable {dev : MTLDevice} {address : Region → ℕ} {s s' : State} {a : Action} {p : Pointer}

variable {o : Owner}

/-- Memory of an owner whose block is still live, or whose storage has not changed. -/
theorem Owned.of_live {n : ℕ} (h : s.Owned o p n)
    (hblock : ∀ b, o = .block b → ∀ hb, (b.internalId, hb) ∈ s.allocator.liveBlocks →
      (b.internalId, hb) ∈ s'.allocator.liveBlocks)
    (hstorage : ∀ k, o = .storage k → ∀ st ∈ s.storages[k]?, s'.storages[k]? = some st) :
    s'.Owned o p n := by
  cases o with
  | block b =>
    obtain ⟨⟨⟨id, hb⟩, hmem, hid, hbuffer⟩, hrange⟩ := h
    obtain rfl : id = b.internalId := hid
    exact ⟨⟨_, hblock b rfl hb hmem, rfl, hbuffer⟩, hrange⟩
  | storage k =>
    obtain ⟨st, hst, hrest⟩ := h
    exact ⟨st, hstorage k rfl st hst, hrest⟩

/-- Nothing but the tensors and the memory has changed. -/
theorem Owned.congr {n : ℕ} (h : s.Owned o p n)
    (hallocator : s'.allocator = s.allocator) (hstorages : s'.storages = s.storages) :
    s'.Owned o p n :=
  h.of_live (fun _ _ _ hmem => hallocator ▸ hmem) fun _ _ _ hst => hstorages ▸ hst

/-- Two live blocks with one Metal buffer are one block. -/
theorem Inv.same_block (hs : s.Inv) {x y : ℕ × HeapBlock} (hx : x ∈ s.allocator.liveBlocks)
    (hy : y ∈ s.allocator.liveBlocks) (h : x.2.buffer = y.2.buffer) : x = y := by
  have hnodup := hs.minted.buffers
  unfold MetalSmartAllocator.blocks MetalSmartAllocator.live at hnodup
  rw [List.map_append, List.map_map] at hnodup
  exact inj_on_of_nodup_map (nodup_append.mp hnodup).1 hx hy h

/-- A region belongs to one owner. -/
theorem Inv.key_eq (hs : s.Inv) {o o' : Owner} {p p' : Pointer} {n n' : ℕ} (h : s.Owned o p n)
    (h' : s.Owned o' p' n') (hregion : p.region = p'.region) : o.key = o'.key := by
  cases o with
  | block b =>
    obtain ⟨⟨x, hx, hxid, hxbuffer⟩, i, hi, hp, -⟩ := h
    cases o' with
    | block b' =>
      obtain ⟨⟨y, hy, hyid, hybuffer⟩, j, hj, hp', -⟩ := h'
      have hij : i = j := Region.buffer.inj (hp.symm.trans (hregion.trans hp'))
      have hsame : x = y := by
        refine hs.same_block hx hy ?_
        rw [hxbuffer, hybuffer, hi, hj, hij]
      show Sum.inl b.internalId = Sum.inl b'.internalId
      rw [← hxid, ← hyid, hsame]
    | storage k =>
      obtain ⟨-, -, -, hp', -⟩ := h'
      rw [hp, hp'] at hregion
      cases hregion
  | storage k =>
    obtain ⟨-, -, -, hp, -⟩ := h
    cases o' with
    | block b' =>
      obtain ⟨-, j, -, hp', -⟩ := h'
      rw [hp, hp'] at hregion
      cases hregion
    | storage k' =>
      obtain ⟨-, -, -, hp', -⟩ := h'
      rw [hp, hp'] at hregion
      rw [Region.storage.inj hregion]

theorem Inv.importsSafe (hs : s.Inv) : s.ImportsSafe where
  owned := fun t ht _ => hs.tensors t ht
  apart := fun t ht _ u hu hkey hregion =>
    hkey (hs.key_eq (hs.tensors u hu) (hs.tensors t ht) hregion)

theorem Inv.init : Inv {} where
  minted := MetalSmartAllocator.minted_new
  shared := fun _ hc => absurd hc not_mem_nil
  tensors := fun _ ht => absurd ht not_mem_nil

/-- Some of the bytes. -/
theorem Owned.sub {n start extent : ℕ} (h : s.Owned o p n)
    (hrange : start + extent ≤ n) : s.Owned o (p.add start) extent := by
  cases o with
  | block b =>
    obtain ⟨hlive, x, hx, hregion, hle⟩ := h
    refine ⟨hlive, x, hx, hregion, ?_⟩
    show p.offset + start + extent ≤ b.requested
    omega
  | storage k =>
    obtain ⟨st, hst, halive, hregion, hle⟩ := h
    refine ⟨st, hst, halive, hregion, ?_⟩
    show p.offset + start + extent ≤ st.nbytes
    omega

/-- What is owned in a storage belongs to it, and the storage exists. -/
theorem Owned.storage_of_region {n k : ℕ} (h : s.Owned o p n)
    (hregion : p.region = .storage k) : o.key = .inr k ∧ k < s.storages.length := by
  cases o with
  | block b =>
    obtain ⟨-, x, -, hp, -⟩ := h
    rw [hp] at hregion
    cases hregion
  | storage k' =>
    obtain ⟨st, hst, -, hp, -⟩ := h
    obtain rfl : k' = k := Region.storage.inj (hp.symm.trans hregion)
    exact ⟨rfl, (List.getElem?_eq_some_iff.mp hst).1⟩

/-! ### The steps -/

/-- More tensors and capsules over buffers that are shared already, or over memory that is owned. -/
theorem Inv.of_handles (hs : s.Inv) (hallocator : s'.allocator = s.allocator)
    (hstorages : ∀ (k : ℕ), ∀ st ∈ s.storages[k]?, s'.storages[k]? = some st)
    (hbuffers : ∀ c ∈ s'.buffers, c ∈ s.buffers ∨ c.block = none)
    (htensors : ∀ t ∈ s'.tensors, t ∈ s.tensors ∨ s.Owned t.owner t.first t.extent) :
    s'.Inv where
  minted := hallocator ▸ hs.minted
  shared := by
    intro c hc b hb
    rw [hallocator]
    rcases hbuffers c hc with hold | hnone
    · exact hs.shared c hold b hb
    · rw [hnone] at hb
      cases hb
  tensors := by
    intro t ht
    have howned : s.Owned t.owner t.first t.extent := (htensors t ht).elim (hs.tensors t) id
    exact howned.of_live (fun _ _ _ hmem => hallocator ▸ hmem) fun k _ => hstorages k

/-- Fewer handles. -/
theorem Inv.erase (hs : s.Inv) (hallocator : s'.allocator = s.allocator)
    (hstorages : s'.storages = s.storages) (htensors : s'.tensors ⊆ s.tensors)
    (hmanaged : s'.managed ⊆ s.managed) : s'.Inv := by
  refine hs.of_handles hallocator (fun k st hst => hstorages ▸ hst) (fun c hc => .inl ?_)
    fun t ht => .inl (htensors ht)
  rcases mem_append.mp hc with hc | hc
  · obtain ⟨t, ht, rfl⟩ := mem_map.mp hc
    exact mem_append_left _ (mem_map_of_mem (htensors ht))
  · obtain ⟨m, hm, rfl⟩ := mem_map.mp hc
    exact mem_append_right _ (mem_map_of_mem (hmanaged hm))

/-- A pointer into memory that is owned has been wrapped. -/
theorem Inv.addImport (hs : s.Inv) {extent : ℕ}
    (howned : s.Owned o p extent) (hallocator : s'.allocator = s.allocator)
    (htensors : s'.tensors = s.tensors ++ [.wrap address o p extent])
    (hmanaged : s'.managed = s.managed)
    (hstorages : ∀ (k : ℕ), ∀ st ∈ s.storages[k]?, s'.storages[k]? = some st) : s'.Inv := by
  refine hs.of_handles hallocator hstorages (fun c hc => ?_) fun t ht => ?_
  · simp only [buffers, htensors, hmanaged, map_append, map_cons, map_nil,
      mem_append, mem_singleton] at hc ⊢
    rcases hc with (hc | rfl) | hc
    · exact .inl (.inl hc)
    · exact .inr rfl
    · exact .inl (.inr hc)
  · rw [htensors] at ht
    rcases mem_append.mp ht with ht | ht
    · exact .inl ht
    · obtain rfl := mem_singleton.mp ht
      exact .inr howned

/-- **`MNTensor::empty`.** -/
theorem Inv.empty (hs : s.Inv) {nbytes : ℕ} {mode : StorageMode}
    (h : step dev address s (.empty nbytes mode) = some s') : s'.Inv := by
  obtain ⟨⟨r, allocator⟩, hr, rfl⟩ := map_eq_some_iff.mp h
  cases r with
  | error e =>
    obtain ⟨hminted, -, -, hlive⟩ := hs.minted.allocate_error hr
    refine ⟨hminted, fun c hc b hb => ?_, fun t ht => ?_⟩
    · show _ ∧ ∃ hb, (b.internalId, hb) ∈ allocator.liveBlocks ∧ _
      rw [hlive]
      exact hs.shared c hc b hb
    · refine (hs.tensors t ht).of_live (fun b _ hb hmem => ?_) fun _ _ _ hst => hst
      show (b.internalId, hb) ∈ allocator.liveBlocks
      rwa [hlive]
  | ok new =>
    obtain ⟨hb, hout⟩ := hs.minted.allocate hr
    have hold : ∀ e ∈ s.allocator.liveBlocks, e ∈ allocator.liveBlocks := by
      intro e he
      rw [hout.live]
      exact mem_cons_of_mem _ he
    have hnew : (new.internalId, hb) ∈ allocator.liveBlocks := by
      rw [hout.live]
      exact mem_cons_self ..
    refine ⟨hout.minted, fun c hc b hb' => ?_, fun t ht => ?_⟩
    · show _ ∧ ∃ hb, (b.internalId, hb) ∈ allocator.liveBlocks ∧ _
      have hcases : c ∈ s.buffers ∨ c = .pooled new := by
        simp only [buffers, map_append, map_cons, map_nil, mem_append,
          mem_singleton] at hc ⊢
        tauto
      rcases hcases with hc | rfl
      · obtain ⟨halias, hb', hmem, hbuffer⟩ := hs.shared c hc b hb'
        exact ⟨halias, hb', hold _ hmem, hbuffer⟩
      · obtain rfl : new = b := some.inj hb'
        exact ⟨hout.aliasable, hb, hnew, hout.buffer.symm⟩
    · rcases mem_append.mp ht with ht | ht
      · exact (hs.tensors t ht).of_live (fun _ _ _ hmem => hold _ hmem) fun _ _ _ hst => hst
      · obtain rfl := mem_singleton.mp ht
        -- the new block has a Metal buffer, and as many bytes as were asked for
        obtain ⟨x, -, hx⟩ := hout.minted.created hb
          (mem_append_left _ (mem_map_of_mem hnew))
        have hbuffer : new.buffer = some x := hout.buffer.trans hx
        refine ⟨⟨_, hnew, rfl, hout.buffer.symm⟩, x, hbuffer, ?_, ?_⟩
        · show (Option.map Region.buffer new.buffer).getD .absolute = _
          rw [hbuffer]
          rfl
        · show 0 + nbytes ≤ new.requested
          rw [hout.requested, Nat.zero_add]
          exact Nat.le_max_left ..

/-- **`~MNBuffer`.**  What loses its last reference is under no tensor that is left. -/
theorem Inv.release (hs : s.Inv) {c : Buffer} (hshared : ∀ b ∈ c.block, b.aliasable = false ∧
      ∃ hb, (b.internalId, hb) ∈ s.allocator.liveBlocks ∧ hb.buffer = b.buffer)
    (hkeeps : ∀ b ∈ c.block, ¬ s.Referenced b → ∀ t ∈ s.tensors, t.Imported →
      t.owner.key ≠ .inl b.internalId) : (s.release c).Inv := by
  unfold State.release
  cases hblock : c.block with
  | none => exact hs
  | some b =>
    dsimp only
    split_ifs with href
    · exact hs
    obtain ⟨halias, hb, hlive, -⟩ := hshared b hblock
    obtain ⟨hminted, -, herase, -⟩ := hs.minted.deallocate halias hlive
    have hkept : ∀ id, id ≠ b.internalId → ∀ hb', (id, hb') ∈ s.allocator.liveBlocks →
        (id, hb') ∈ (s.allocator.deallocate b).2.liveBlocks := by
      intro id hne hb' hmem
      rw [herase]
      exact Keyed.mem_erase.mpr ⟨hmem, hne⟩
    refine ⟨hminted, fun c' hc' b' hb' => ?_, fun t ht => ?_⟩
    · obtain ⟨halias', hb'', hmem, hbuffer⟩ := hs.shared c' hc' b' hb'
      exact ⟨halias', hb'', hkept _ (fun heq => href ⟨c', hc', b', hb', heq⟩) _ hmem, hbuffer⟩
    · refine (hs.tensors t ht).of_live (fun b' howner hb' hmem => ?_) fun _ _ _ hst => hst
      refine hkept _ (fun heq => ?_) hb' hmem
      cases hb'' : t.buffer.block with
      | none =>
        -- an imported tensor: the condition
        refine hkeeps b hblock href t ht hb'' ?_
        rw [howner, ← heq]
        rfl
      | some b'' =>
        -- a tensor that shares the buffer would be a reference to it
        have hsame : b'' = b' := by
          cases hbuf : t.buffer with
          | pooled x =>
            rw [Tensor.owner, hbuf] at howner
            rw [hbuf] at hb''
            exact (some.inj hb'').symm.trans (Owner.block.inj howner)
          | wrapped o =>
            rw [hbuf] at hb''
            cases hb''
        refine href ⟨t.buffer, ?_, b'', hb'', by rw [hsame, heq]⟩
        exact mem_append_left _ (mem_map_of_mem ht)

/-- **Step.** -/
theorem Inv.step (hs : s.Inv) (hkeeps : s.KeepsImports a)
    (h : ZeroCopy.step dev address s a = some s') : s'.Inv := by
  have hsame : ∀ (k : ℕ), ∀ st ∈ s.storages[k]?, s.storages[k]? = some st := fun k st hst => hst
  have hgrown : ∀ (x : Storage) (k : ℕ), ∀ st ∈ s.storages[k]?,
      (s.storages ++ [x])[k]? = some st := by
    intro x k st hst
    rw [List.getElem?_append_left (List.getElem?_eq_some_iff.mp hst).1]
    exact hst
  cases a with
  | empty nbytes mode => exact hs.empty h
  | view i start extent contiguous =>
    obtain ⟨t, hi, h⟩ := bind_eq_some_iff.mp h
    split_ifs at h with hrange
    obtain rfl := some.inj h
    have ht := mem_of_getElem? hi
    refine hs.of_handles rfl hsame (fun c hc => .inl ?_) fun u hu => ?_
    · simp only [buffers, map_append, map_cons, map_nil, mem_append,
        mem_singleton] at hc ⊢
      rcases hc with (hc | rfl) | hc
      · exact .inl hc
      · exact .inl (mem_map_of_mem ht)
      · exact .inr hc
    · rcases mem_append.mp hu with hu | hu
      · exact .inl hu
      · obtain rfl := mem_singleton.mp hu
        exact .inr ((hs.tensors t ht).sub hrange)
  | write i bytes =>
    obtain ⟨t, -, rfl⟩ := map_eq_some_iff.mp h
    exact hs.of_handles rfl hsame (fun c hc => .inl hc) fun u hu => .inl hu
  | toDlpack i =>
    obtain ⟨t, hi, rfl⟩ := map_eq_some_iff.mp h
    split_ifs with hcontiguous
    · refine hs.of_handles rfl hsame (fun c hc => .inl ?_) fun u hu => .inl hu
      simp only [buffers, map_append, map_cons, map_nil, mem_append,
        mem_singleton] at hc ⊢
      rcases hc with hc | hc | rfl
      · exact .inl hc
      · exact .inr hc
      · exact .inl (mem_map_of_mem (mem_of_getElem? hi))
    · exact hs
  | fromDlpack j answer =>
    obtain ⟨m, hj, rfl⟩ := map_eq_some_iff.mp h
    split_ifs with hfails
    · exact hs
    · push Not at hfails
      have howned := hkeeps.2 m hj (by simpa using hfails.2) hfails.1
      exact hs.addImport howned rfl rfl rfl hsame
  | deleter j =>
    obtain ⟨m, hj, rfl⟩ := map_eq_some_iff.mp h
    have hm : m.buffer ∈ s.buffers :=
      mem_append_right _ (mem_map_of_mem (mem_of_getElem? hj))
    have hless : Inv { s with managed := s.managed.eraseIdx j } :=
      hs.erase rfl rfl (fun t ht => ht) fun m hm => mem_of_mem_eraseIdx hm
    refine hless.release (hs.shared _ hm) fun b hb hlast t ht himported => ?_
    refine hkeeps.1 _ ?_ t ht himported
    simp [released, hj, mem_def.mp hb, hlast]
  | drop i =>
    obtain ⟨u, hi, rfl⟩ := map_eq_some_iff.mp h
    have hu : u.buffer ∈ s.buffers :=
      mem_append_left _ (mem_map_of_mem (mem_of_getElem? hi))
    have hless : Inv { s with tensors := s.tensors.eraseIdx i } :=
      hs.erase rfl rfl (fun t ht => mem_of_mem_eraseIdx ht) fun m hm => hm
    refine hless.release (hs.shared _ hu) fun b hb hlast t ht himported => ?_
    refine hkeeps.1 _ ?_ t ht himported
    simp [released, hi, mem_def.mp hb, hlast]
  | torchEmpty nbytes =>
    obtain rfl := some.inj h
    exact hs.of_handles rfl (hgrown _) (fun c hc => .inl hc) fun u hu => .inl hu
  | fromTorch k start extent =>
    obtain ⟨st, hk, h⟩ := bind_eq_some_iff.mp h
    split_ifs at h with hrange
    obtain rfl := some.inj h
    have howned : s.Owned (.storage k) ⟨.storage k, start⟩ extent :=
      ⟨st, hk, hrange.1, rfl, hrange.2.2⟩
    exact hs.addImport howned rfl rfl rfl hsame
  | fromTorchStrided k nbytes bytes => exact absurd hkeeps.2 id
  | torchDrop k =>
    obtain ⟨st, hk, rfl⟩ := map_eq_some_iff.mp h
    refine ⟨hs.minted, hs.shared, fun t ht => ?_⟩
    refine (hs.tensors t ht).of_live (fun _ _ _ hmem => hmem) fun k' howner st' hst' => ?_
    -- no tensor is over the storage that goes
    have himported : t.Imported := by
      unfold Tensor.Imported
      cases hbuffer : t.buffer with
      | pooled b =>
        rw [Tensor.owner, hbuffer] at howner
        cases howner
      | wrapped o => rfl
    have hne : k ≠ k' := by
      rintro rfl
      exact hkeeps.1 _ rfl t ht himported (by rw [howner]; rfl)
    show (s.storages.set k _)[k']? = some st'
    rw [getElem?_set_ne hne]
    exact hst'
  | storageWrite k bytes =>
    obtain ⟨st, -, rfl⟩ := map_eq_some_iff.mp h
    exact hs.of_handles rfl hsame (fun c hc => .inl hc) fun u hu => .inl hu

/-! ### Writes -/

@[simp] theorem release_memory (c : Buffer) : (s.release c).memory = s.memory := by
  unfold State.release
  cases c.block with
  | none => rfl
  | some b =>
    dsimp only
    split_ifs <;> rfl

@[simp] theorem release_tensors (c : Buffer) : (s.release c).tensors = s.tensors := by
  unfold State.release
  cases c.block with
  | none => rfl
  | some b =>
    dsimp only
    split_ifs <;> rfl

/-- A write stays in its region. -/
theorem region_of_fill {memory : Region → ℕ → UInt8} {n : ℕ} {bytes : ℕ → UInt8}
    {r : Region} {i : ℕ} (h : fill memory p n bytes r i ≠ memory r i) : r = p.region := by
  by_contra hne
  unfold fill at h
  exact h (if_neg fun hin => hne hin.1)

/-- **Writes.**  The elements of a tensor change only by writes to its storage. -/
theorem Inv.writesTo (hs : s.Inv) {t : Tensor} (ht : t ∈ s.tensors)
    (h : ZeroCopy.step dev address s a = some s') {i : ℕ}
    (hchange : s'.memory t.first.region (t.first.offset + i)
      ≠ s.memory t.first.region (t.first.offset + i)) : s.WritesTo t a := by
  have howned := hs.tensors t ht
  cases a with
  | empty nbytes mode =>
    obtain ⟨⟨r, allocator⟩, -, rfl⟩ := Option.map_eq_some_iff.mp h
    cases r <;> exact absurd rfl hchange
  | view j start extent contiguous =>
    obtain ⟨u, -, h⟩ := bind_eq_some_iff.mp h
    split_ifs at h
    obtain rfl := some.inj h
    exact absurd rfl hchange
  | write j bytes =>
    obtain ⟨u, hj, rfl⟩ := Option.map_eq_some_iff.mp h
    have hregion := region_of_fill hchange
    exact ⟨u, hj, hs.key_eq (hs.tensors u (mem_of_getElem? hj)) howned hregion.symm⟩
  | toDlpack j =>
    obtain ⟨u, -, rfl⟩ := Option.map_eq_some_iff.mp h
    split_ifs at hchange <;> exact absurd rfl hchange
  | fromDlpack j answer =>
    obtain ⟨m, -, rfl⟩ := Option.map_eq_some_iff.mp h
    split_ifs at hchange <;> exact absurd rfl hchange
  | deleter j | drop j =>
    obtain ⟨x, -, rfl⟩ := Option.map_eq_some_iff.mp h
    rw [release_memory] at hchange
    exact absurd rfl hchange
  | torchEmpty nbytes =>
    obtain rfl := Option.some.inj h
    exact absurd rfl hchange
  | fromTorch k start extent =>
    obtain ⟨st, -, h⟩ := bind_eq_some_iff.mp h
    split_ifs at h
    obtain rfl := some.inj h
    exact absurd rfl hchange
  | fromTorchStrided k nbytes bytes =>
    obtain ⟨st, -, h⟩ := bind_eq_some_iff.mp h
    split_ifs at h
    obtain rfl := some.inj h
    have hregion := region_of_fill hchange
    -- the storage of the copy is new
    exact absurd (howned.storage_of_region hregion).2 (Nat.lt_irrefl _)
  | torchDrop k =>
    obtain ⟨st, -, rfl⟩ := Option.map_eq_some_iff.mp h
    exact absurd rfl hchange
  | storageWrite k bytes =>
    obtain ⟨st, -, rfl⟩ := Option.map_eq_some_iff.mp h
    exact (howned.storage_of_region (region_of_fill hchange)).1

/-! ### Steps that do not meet the condition -/

/-- A block that `~MNBuffer` has given back is owned no longer. -/
theorem Inv.not_owned_release (hs : s.Inv) {c : Buffer} {b : AllocatedBlock} (hb : b ∈ c.block)
    (hlast : ¬ s.Referenced b) (hshared : b.aliasable = false ∧
      ∃ hb, (b.internalId, hb) ∈ s.allocator.liveBlocks ∧ hb.buffer = b.buffer) {owner : Owner}
    (hkey : owner.key = .inl b.internalId) (p : Pointer) (n : ℕ) :
    ¬ (s.release c).Owned owner p n := by
  obtain ⟨halias, hb', hlive, -⟩ := hshared
  obtain ⟨-, -, herase, -⟩ := hs.minted.deallocate halias hlive
  have hrelease : s.release c = { s with allocator := (s.allocator.deallocate b).2 } := by
    unfold State.release
    rw [mem_def.mp hb]
    dsimp only
    rw [if_neg hlast]
  rw [hrelease]
  cases owner with
  | block b' =>
    rintro ⟨⟨entry, hentry, hid, -⟩, -⟩
    have hentry : entry ∈ (s.allocator.deallocate b).2.liveBlocks := hentry
    rw [herase] at hentry
    exact (Keyed.mem_erase.mp hentry).2 (hid.trans (Sum.inl.inj hkey))
  | storage k => cases hkey

/-- What is given up is owned no longer. -/
theorem Inv.not_owned_released (hs : s.Inv) {o : ℕ ⊕ ℕ} (ho : o ∈ s.released a)
    (h : ZeroCopy.step dev address s a = some s') {owner : Owner} (hkey : owner.key = o)
    (p : Pointer) (n : ℕ) : ¬ s'.Owned owner p n := by
  cases a with
  | drop i =>
    obtain ⟨u, hi, rfl⟩ := Option.map_eq_some_iff.mp h
    simp only [released, hi, bind_some] at ho
    obtain ⟨b, hb, rfl⟩ := map_eq_some_iff.mp ho
    obtain ⟨hb, hlast⟩ := filter_eq_some_iff.mp hb
    have hu : u.buffer ∈ s.buffers :=
      mem_append_left _ (mem_map_of_mem (mem_of_getElem? hi))
    have hless : Inv { s with tensors := s.tensors.eraseIdx i } :=
      hs.erase rfl rfl (fun t ht => mem_of_mem_eraseIdx ht) fun m hm => hm
    exact hless.not_owned_release hb (of_decide_eq_true hlast) (hs.shared _ hu b hb) hkey p n
  | deleter j =>
    obtain ⟨m, hj, rfl⟩ := Option.map_eq_some_iff.mp h
    simp only [released, hj, bind_some] at ho
    obtain ⟨b, hb, rfl⟩ := map_eq_some_iff.mp ho
    obtain ⟨hb, hlast⟩ := filter_eq_some_iff.mp hb
    have hm : m.buffer ∈ s.buffers :=
      mem_append_right _ (mem_map_of_mem (mem_of_getElem? hj))
    have hless : Inv { s with managed := s.managed.eraseIdx j } :=
      hs.erase rfl rfl (fun t ht => ht) fun m hm => mem_of_mem_eraseIdx hm
    exact hless.not_owned_release hb (of_decide_eq_true hlast) (hs.shared _ hm b hb) hkey p n
  | torchDrop k =>
    obtain ⟨st, hk, rfl⟩ := Option.map_eq_some_iff.mp h
    obtain rfl := some.inj ho
    cases owner with
    | block b => cases hkey
    | storage k' =>
      obtain rfl : k' = k := Sum.inr.inj hkey
      rintro ⟨st', hst', halive, -⟩
      have hst' : (s.storages.set k' { st with alive := false })[k']? = some st' := hst'
      rw [List.getElem?_set_self (List.getElem?_eq_some_iff.mp hk).1] at hst'
      rw [← some.inj hst'] at halive
      cases halive
  | empty | view | write | toDlpack | fromDlpack | torchEmpty | fromTorch | fromTorchStrided
  | storageWrite => cases ho

/-- A step that gives memory up under an imported tensor, or imports what nobody owns, leaves a
    tensor that dangles. -/
theorem Inv.not_importsSafe (hs : s.Inv) (hnot : ¬ s.KeepsImports a)
    (h : ZeroCopy.step dev address s a = some s') : ¬ s'.ImportsSafe := by
  intro hsafe
  refine hnot ⟨fun o ho t ht himported hkey => ?_, ?_⟩
  · -- the tensor is there still, and its owner is not
    have ht' : t ∈ s'.tensors := by
      cases a with
      | drop i =>
        obtain ⟨u, -, rfl⟩ := Option.map_eq_some_iff.mp h
        rw [release_tensors]
        exact ht
      | deleter j =>
        obtain ⟨m, -, rfl⟩ := Option.map_eq_some_iff.mp h
        rw [release_tensors]
        exact ht
      | torchDrop k =>
        obtain ⟨st, -, rfl⟩ := Option.map_eq_some_iff.mp h
        exact ht
      | empty | view | write | toDlpack | fromDlpack | torchEmpty | fromTorch | fromTorchStrided
      | storageWrite => cases ho
    exact hs.not_owned_released ho h hkey _ _ (hsafe.owned t ht' himported)
  · cases a with
    | fromDlpack j answer =>
      rintro m hj hanswer hrejected
      obtain ⟨m', hj', rfl⟩ := Option.map_eq_some_iff.mp h
      obtain rfl : m' = m := some.inj (hj'.symm.trans hj)
      have hwraps : ¬ (m'.Rejected ∨ answer = false) := by
        simp [hrejected, hanswer]
      rw [if_neg hwraps] at hsafe
      have howned := hsafe.owned _ (mem_append_right _ (mem_singleton_self _)) rfl
      exact howned.congr rfl rfl
    | fromTorchStrided k nbytes bytes =>
      obtain ⟨st, -, h⟩ := bind_eq_some_iff.mp h
      split_ifs at h
      obtain rfl := some.inj h
      obtain ⟨st', hst', halive, -⟩ :=
        hsafe.owned _ (mem_append_right _ (mem_singleton_self _)) rfl
      have hst' : (s.storages ++ [⟨nbytes, false⟩])[s.storages.length]? = some st' := hst'
      rw [getElem?_concat_length] at hst'
      rw [← some.inj hst'] at halive
      cases halive
    | empty | view | write | toDlpack | deleter | drop | torchEmpty | fromTorch | torchDrop
    | storageWrite => trivial

/-! ### The result -/

/-- **Imports.**  While every step keeps the owners of imported tensors, none of these dangles, and
    their elements change only by writes to their storage; a step that does not leaves one that
    dangles. -/
theorem imports_alive (dev : MTLDevice) (address : Region → ℕ) {s : State}
    (h : Runs (ZeroCopy.step dev address) KeepsImports {} s) :
    s.ImportsSafe ∧
      (∀ a s', ZeroCopy.step dev address s a = some s' → ∀ t ∈ s.tensors, t.Imported →
        ∀ i < t.extent, s'.memory t.first.region (t.first.offset + i)
          ≠ s.memory t.first.region (t.first.offset + i) → s.WritesTo t a) ∧
      ∀ a s', ZeroCopy.step dev address s a = some s' → ¬ s.KeepsImports a → ¬ s'.ImportsSafe := by
  have hinv : s.Inv :=
    h.invariant Inv.init fun _ _ _ hi hkeeps hstep => hi.step hkeeps hstep
  refine ⟨hinv.importsSafe, ?_, fun a s' hstep hnot => hinv.not_importsSafe hnot hstep⟩
  intro a s' hstep t ht _ i _ hchange
  exact hinv.writesTo ht hstep hchange

/-- An export, an import and the deleter; the exporter stays. -/
def exporterStays : List Action :=
  [.empty 64 .Shared, .toDlpack 0, .fromDlpack 0 true, .deleter 0, .empty 64 .Shared,
    .write 2 fun _ => 7]

/-- The new tensor gets memory of its own. -/
theorem imports_alive_exporter_stays :
    ∃ s, exec (ZeroCopy.step grantingDevice fun _ => 16384) {} exporterStays = some s ∧
      s.tensors.length = 3 ∧ s.ImportsSafe := by
  have hsome : (exec (ZeroCopy.step grantingDevice fun _ => 16384) {} exporterStays).any
      (fun s => decide (s.tensors.length = 3)) = true := by decide
  obtain ⟨s, hs, hlength⟩ := (any_eq_true _ _).mp hsome
  have hguard : GuardedAlong (ZeroCopy.step grantingDevice fun _ => 16384) KeepsImports {}
      exporterStays := by decide
  exact ⟨s, hs, of_decide_eq_true hlength,
    (imports_alive grantingDevice (fun _ => 16384) (runs_exec hs hguard)).1⟩

/-- An import, then the deleter, and the exporter goes. -/
def exporterGoes : List Action :=
  [.empty 64 .Shared, .toDlpack 0, .fromDlpack 0 true, .deleter 0, .drop 0]

/-- An importer that outlives the capsule and the exporter: the next tensor gets its memory, and a
    write to that tensor changes its elements.  A torch tensor that is dropped, the copy of one that
    is not contiguous, and a slice that is imported from behind its end. -/
theorem imports_dangle :
    (∃ s, Reaches (ZeroCopy.step grantingDevice fun _ => 16384) {} s ∧
      ∃ s' ∈ ZeroCopy.step grantingDevice (fun _ => 16384) s (.write 1 fun _ => 7),
      ∃ t ∈ s.tensors, t.Imported ∧ (∃ u ∈ s.tensors[1]?, u.owner.key ≠ t.owner.key) ∧
        s'.memory t.first.region t.first.offset ≠ s.memory t.first.region t.first.offset) ∧
    ∀ as ∈ ([exporterGoes, [.torchEmpty 64, .fromTorch 0 0 64, .torchDrop 0],
        [.torchEmpty 64, .fromTorchStrided 0 32 fun _ => 0],
        [.empty 64 .Shared, .view 0 48 16 true, .toDlpack 1, .fromDlpack 0 true]] :
          List (List Action)),
      ∃ s, exec (ZeroCopy.step grantingDevice fun _ => 16384) {} as = some s ∧
        ¬ s.ImportsSafe := by
  constructor
  · exact exists_reaches (exporterGoes ++ [.empty 64 .Shared]) (by decide)
  · intro as has
    have hdangles : ∀ as ∈ ([exporterGoes, [.torchEmpty 64, .fromTorch 0 0 64, .torchDrop 0],
        [.torchEmpty 64, .fromTorchStrided 0 32 fun _ => 0],
        [.empty 64 .Shared, .view 0 48 16 true, .toDlpack 1, .fromDlpack 0 true]] :
          List (List Action)), (exec (ZeroCopy.step grantingDevice fun _ => 16384) {} as).any
            (fun s => decide (¬ s.ImportsSafe)) = true := by decide
    obtain ⟨s, hs, hnot⟩ := (any_eq_true _ _).mp (hdangles as has)
    exact ⟨s, hs, of_decide_eq_true hnot⟩

end State

end ZeroCopy

end MetalNative
