import MetalNative.Lib.Ownership
import MetalNative.Memory.BufferIdentity
import MetalNative.Interop.DLPack
import MetalNative.Interop.NumPyImport

namespace MetalNative

open Run Ownership List Option

/-!
# Who owns what an `MNBuffer` holds

A translation of the ownership in `buffer.mm`: `MNBuffer` is a `unique_ptr` to its `Impl`, the
destructor of the outer object gives the block back and runs the release callback, and both moves
are those of the pointer.

* `Impl`, `State`, `Op`, `step` — the buffers of a process and what is done with them; the state
  also records which blocks were obtained and given back, and which callbacks were taken over and
  run.
* `Linear` — each resource is owned by one buffer or has been released, and not both.
* `Spares` — the condition on a step: a move assignment that replaces nothing of value.
* `buffers_linear_iff` — a run is linear throughout exactly where all of its steps meet it.
-/

namespace MNBuffer

/-- A `std::function<void()>`. -/
abbrev Callback := ℕ

/-- The name of an `MNBuffer` object. -/
abbrev BufferId := ℕ

/-- `MNBuffer::Impl`. -/
structure Impl where
  buffer : Option ObjId := none
  size : ℕ := 0
  mode : StorageMode := .Shared
  no_copy : Bool := false
  release_callback : Option Callback := none
  from_allocator : Bool := false
  alloc_block : AllocatedBlock := ⟨0, 0, 0, .Shared, false, none, 0⟩
  deriving DecidableEq, Repr

/-- The buffers that exist, each with its `impl_`, and the allocator of the one `MNDevice`. -/
structure State where
  objects : List (BufferId × Option Impl) := []
  nextObject : BufferId := 0
  allocator : MetalSmartAllocator := {}
  /-- The internal ids of the blocks that `allocate_pooled` has obtained. -/
  obtained : List ℕ := []
  /-- Those that have been deallocated. -/
  deallocated : List ℕ := []
  /-- The callbacks that `wrap_external` has taken over. -/
  wrapped : List Callback := []
  /-- Those that have been run. -/
  called : List Callback := []
  /-- `std::terminate`, after an exception out of a destructor. -/
  terminated : Bool := false
  deriving DecidableEq, Repr

/-- What a program does with buffers.  A factory also takes what Metal answers, and the name of the
    Metal buffer that it creates. -/
inductive Op where
  | construct (device : BufferDevice) (size : ℕ) (mode : StorageMode) (obj : ObjId)
  | allocate_pooled (size : ℕ) (mode : StorageMode)
  | wrap_external (proc : ProcessMemory) (data_ptr size : ℕ) (release_callback : Option Callback)
      (obj : ObjId)
  /-- `MNBuffer(std::move(other))`. -/
  | moveConstruct (other : BufferId)
  /-- `target = std::move(other)`. -/
  | moveAssign (target other : BufferId)
  /-- `~MNBuffer()`, when a buffer goes out of scope or its last `shared_ptr` does. -/
  | destroy (b : BufferId)

namespace State

/-- `impl_` of a buffer. -/
def impl (s : State) (b : BufferId) : Option (Option Impl) :=
  (Keyed.find Prod.fst s.objects b).map Prod.snd

/-- `impl_ = p`. -/
def setImpl (s : State) (b : BufferId) (p : Option Impl) : State :=
  { s with objects := Keyed.insert Prod.fst s.objects (b, p) }

/-- A new buffer. -/
def create (s : State) (p : Option Impl) : State :=
  { s with
    objects := Keyed.insert Prod.fst s.objects (s.nextObject, p)
    nextObject := s.nextObject + 1 }

/-- The object is gone. -/
def forget (s : State) (b : BufferId) : State :=
  { s with objects := Keyed.erase Prod.fst s.objects b }

/-- The body of `~MNBuffer`. -/
def release (s : State) (p : Impl) : State :=
  let s :=
    if p.from_allocator then
      match s.allocator.deallocate p.alloc_block with
      | (.ok _, a) =>
        { s with allocator := a, deallocated := p.alloc_block.internalId :: s.deallocated }
      | (.error _, a) => { s with allocator := a, terminated := true }
    else s
  if s.terminated then s
  else { s with called := p.release_callback.toList ++ s.called }

/-- One operation.  A factory that throws leaves no buffer; `none` is an operation on a buffer that
    does not exist, or an allocation that never returns. -/
def perform (dev : MTLDevice) (s : State) : Op → Option State
  | .construct device size mode obj =>
    match newMNBuffer device size with
    | .error _ => some s
    | .ok _ => some (s.create (some { buffer := some obj, size, mode }))
  | .allocate_pooled size mode =>
    if size = 0 then some s
    else (s.allocator.allocate dev size mode).map fun r =>
      match r with
      | (.error _, a) => { s with allocator := a }
      | (.ok block, a) =>
        { s with
          allocator := a
          obtained := block.internalId :: s.obtained }.create
          (some { buffer := block.buffer, size, mode, from_allocator := true, alloc_block := block })
  | .wrap_external proc data_ptr size release_callback obj =>
    match wrapExternal proc data_ptr size with
    | .error _ => some s
    | .ok _ =>
      some ({ s with wrapped := release_callback.toList ++ s.wrapped }.create
        (some { buffer := some obj, size, mode := .Shared, no_copy := true, release_callback }))
  | .moveConstruct other =>
    (s.impl other).map fun p => (s.setImpl other none).create p
  | .moveAssign target other =>
    -- `reset(other.release())`: what the target had is deleted by the pointer, as an `Impl`
    (s.impl other).bind fun p =>
      (s.impl target).map fun _ => (s.setImpl other none).setImpl target p
  | .destroy b =>
    (s.impl b).map fun p =>
      let s := p.elim s s.release
      if s.terminated then s else s.forget b

/-- One operation of a program that has not been terminated. -/
def step (dev : MTLDevice) (s : State) (op : Op) : Option State :=
  if s.terminated then none else s.perform dev op

end State

/-! ### Ownership -/

/-- The block that a buffer answers for. -/
def block (p : Option Impl) : List ℕ :=
  p.elim [] fun p => if p.from_allocator then [p.alloc_block.internalId] else []

/-- The callback that a buffer answers for. -/
def callback (p : Option Impl) : List Callback :=
  p.elim [] fun p => p.release_callback.toList

/-- Each resource is owned by one buffer or has been released, and not both. -/
structure Linear (s : State) : Prop where
  running : s.terminated = false
  /-- A block is not obtained again under the same id. -/
  obtained : s.obtained.Nodup
  blocks : s.obtained ~ s.deallocated ++ holdings block s.objects
  callbacks : s.wrapped ~ s.called ++ holdings callback s.objects
  /-- The live blocks of the allocator are those that buffers own. -/
  live : s.allocator.liveBlocks.map Prod.fst ~ holdings block s.objects

/-- What a move assignment replaces. -/
def replaced (s : State) : Op → Option Impl
  | .moveAssign target other => if target = other then none else (s.impl target).join
  | _ => none

/-- The condition on a step: nothing that is replaced owns a block or a callback. -/
def Spares (s : State) (op : Op) : Prop :=
  block (replaced s op) = [] ∧ callback (replaced s op) = []

instance (s : State) (op : Op) : Decidable (Spares s op) :=
  inferInstanceAs (Decidable (_ ∧ _))

/-! ### The invariant -/

/-- What the allocator and the names of the buffers promise. -/
structure Sound (s : State) : Prop where
  minted : s.allocator.Minted
  objects : Keyed.Distinct Prod.fst s.objects
  fresh : ∀ e ∈ s.objects, e.1 < s.nextObject
  obtained_lt : ∀ id ∈ s.obtained, id < s.allocator.nextId
  aliasable : ∀ e ∈ s.objects, ∀ p ∈ e.2, p.from_allocator = true →
    p.alloc_block.aliasable = false

/-- Each resource is owned, released or lost. -/
structure Accounts (s : State) (lostBlocks : List ℕ) (lostCallbacks : List Callback) : Prop where
  running : s.terminated = false
  obtained : s.obtained.Nodup
  blocks : s.obtained ~ s.deallocated ++ (lostBlocks ++ holdings block s.objects)
  callbacks : s.wrapped ~ s.called ++ (lostCallbacks ++ holdings callback s.objects)
  live : s.allocator.liveBlocks.map Prod.fst ~ lostBlocks ++ holdings block s.objects

section Steps

variable {dev : MTLDevice} {s t : State} {op : Op}

/-- Nothing has been lost. -/
theorem Linear.accounts (h : Linear s) : Accounts s [] [] :=
  ⟨h.running, h.obtained, h.blocks, h.callbacks, h.live⟩

/-- A state is linear exactly where nothing has been lost. -/
theorem Accounts.linear_iff {lostBlocks : List ℕ} {lostCallbacks : List Callback}
    (h : Accounts s lostBlocks lostCallbacks) :
    Linear s ↔ lostBlocks = [] ∧ lostCallbacks = [] := by
  constructor
  · intro hlinear
    -- what is lost is missing from the released and the owned ones
    have hblocks := (h.blocks.symm.trans hlinear.blocks).length_eq
    have hcallbacks := (h.callbacks.symm.trans hlinear.callbacks).length_eq
    simp only [List.length_append] at hblocks hcallbacks
    exact ⟨List.length_eq_zero_iff.mp (by omega), List.length_eq_zero_iff.mp (by omega)⟩
  · rintro ⟨rfl, rfl⟩
    exact ⟨h.running, h.obtained, h.blocks, h.callbacks, h.live⟩

theorem sound_init : Sound {} where
  minted := MetalSmartAllocator.minted_new
  objects := List.nodup_nil
  fresh := fun _ he => absurd he List.not_mem_nil
  obtained_lt := fun _ hid => absurd hid List.not_mem_nil
  aliasable := fun _ he => absurd he List.not_mem_nil

theorem linear_init : Linear {} := ⟨rfl, List.nodup_nil, .nil, .nil, .nil⟩

variable {b : BufferId} {p : Option Impl}

/-- The entry of a buffer. -/
theorem State.find_of_impl (h : s.impl b = some p) :
    Keyed.find Prod.fst s.objects b = some (b, p) := by
  obtain ⟨e, he, rfl⟩ := map_eq_some_iff.mp h
  rw [he, MetalSmartAllocator.find_fst he]

/-! ### New buffers -/

/-- A new buffer, with what it owns. -/
theorem Sound.holdings_create {R : Type} (held : Option Impl → List R) (h : Sound s)
    (p : Option Impl) :
    holdings held (s.create p).objects = held p ++ holdings held s.objects :=
  holdings_fresh held (Keyed.find_eq_none.mpr fun e he => Nat.ne_of_lt (h.fresh e he))

theorem Sound.create (h : Sound s)
    (haliasable : ∀ q ∈ p, q.from_allocator = true → q.alloc_block.aliasable = false) :
    Sound (s.create p) where
  minted := h.minted
  objects := h.objects.insert _
  fresh := by
    intro e he
    obtain rfl | ⟨hold, -⟩ := Keyed.mem_insert.mp he
    · exact Nat.lt_succ_self _
    · exact (h.fresh e hold).trans (Nat.lt_succ_self _)
  obtained_lt := h.obtained_lt
  aliasable := by
    intro e he
    obtain rfl | ⟨hold, -⟩ := Keyed.mem_insert.mp he
    · exact haliasable
    · exact h.aliasable e hold

/-- A new buffer that owns nothing. -/
theorem Linear.create (h : Linear s) (hsound : Sound s) (hblock : block p = [])
    (hcallback : callback p = []) : Linear (s.create p) := by
  have hblocks := hsound.holdings_create block p
  have hcallbacks := hsound.holdings_create callback p
  rw [hblock, List.nil_append] at hblocks
  rw [hcallback, List.nil_append] at hcallbacks
  refine ⟨h.running, h.obtained, ?_, ?_, ?_⟩
  · rw [hblocks]
    exact h.blocks
  · rw [hcallbacks]
    exact h.callbacks
  · rw [hblocks]
    exact h.live

/-- A call that throws has used no id. -/
theorem nextId_allocate_error {a a' : MetalSmartAllocator} {nbytes : ℕ} {mode : StorageMode}
    {e : MNException} (hr : a.allocate dev nbytes mode = some (.error e, a')) :
    a'.nextId = a.nextId := by
  unfold MetalSmartAllocator.allocate at hr
  split_ifs at hr with hzero
  · obtain ⟨-, rfl⟩ := some_mk_inj hr
    rfl
  obtain ⟨sc, hsc, hr⟩ := map_eq_some_iff.mp hr
  dsimp only at hr
  split at hr
  · cases hr
  · split at hr
    · obtain ⟨-, rfl⟩ := Prod.mk.inj hr
      rfl
    · cases hr

/-- **`allocate_pooled`.** -/
theorem Linear.allocate_pooled (h : Linear s) (hsound : Sound s) {size : ℕ} {mode : StorageMode}
    (hs : s.perform dev (.allocate_pooled size mode) = some t) : Sound t ∧ Linear t := by
  simp only [State.perform] at hs
  by_cases hzero : size = 0
  · rw [if_pos hzero] at hs
    obtain rfl := some.inj hs
    exact ⟨hsound, h⟩
  rw [if_neg hzero] at hs
  obtain ⟨⟨r, a⟩, hr, ht⟩ := map_eq_some_iff.mp hs
  cases r with
  | error e =>
    obtain rfl : { s with allocator := a } = t := ht
    obtain ⟨hminted, -, -, hlive⟩ := hsound.minted.allocate_error hr
    have hnext := nextId_allocate_error hr
    refine ⟨⟨hminted, hsound.objects, hsound.fresh, ?_, hsound.aliasable⟩,
      ⟨h.running, h.obtained, h.blocks, h.callbacks, ?_⟩⟩
    · show ∀ id ∈ s.obtained, id < a.nextId
      rw [hnext]
      exact hsound.obtained_lt
    · show a.liveBlocks.map Prod.fst ~ _
      rw [hlive]
      exact h.live
  | ok b =>
    obtain rfl : { s with allocator := a, obtained := b.internalId :: s.obtained }.create
        (some { buffer := b.buffer, size, mode, from_allocator := true, alloc_block := b }) = t := ht
    obtain ⟨hb, hout⟩ := hsound.minted.allocate hr
    -- the id is new
    have hlt : b.internalId < a.nextId :=
      hout.minted.fresh (b.internalId, hb) (hout.live ▸ List.mem_cons_self ..)
    have hnew : b.internalId ∉ s.obtained := by
      intro hmem
      have hold := hsound.obtained_lt _ hmem
      rw [hout.newId] at hold
      exact Nat.lt_irrefl _ hold
    have hsound' : Sound { s with allocator := a, obtained := b.internalId :: s.obtained } := by
      refine ⟨hout.minted, hsound.objects, hsound.fresh, ?_, hsound.aliasable⟩
      intro id hid
      obtain rfl | hold := List.mem_cons.mp hid
      · exact hlt
      · have hid' := hsound.obtained_lt id hold
        rw [← hout.newId] at hid'
        exact hid'.trans hlt
    refine ⟨hsound'.create ?_, ?_⟩
    · intro q hq _
      obtain rfl := mem_some.mp hq
      exact hout.aliasable
    · have hblocks := hsound'.holdings_create block
        (some { buffer := b.buffer, size, mode, from_allocator := true, alloc_block := b })
      have hcallbacks := hsound'.holdings_create callback
        (some { buffer := b.buffer, size, mode, from_allocator := true, alloc_block := b })
      refine ⟨h.running, List.nodup_cons.mpr ⟨hnew, h.obtained⟩, ?_, ?_, ?_⟩
      · rw [hblocks]
        exact (h.blocks.cons _).trans List.perm_middle.symm
      · rw [hcallbacks]
        exact h.callbacks
      · rw [hblocks]
        show a.liveBlocks.map Prod.fst ~ _
        rw [hout.live]
        exact h.live.cons _

/-- **`wrap_external`.** -/
theorem Linear.wrap_external (h : Linear s) (hsound : Sound s) {proc : ProcessMemory}
    {data_ptr size : ℕ} {c : Option Callback} {obj : ObjId}
    (hs : s.perform dev (.wrap_external proc data_ptr size c obj) = some t) :
    Sound t ∧ Linear t := by
  simp only [State.perform] at hs
  cases hwrap : wrapExternal proc data_ptr size with
  | error e =>
    rw [hwrap] at hs
    obtain rfl := some.inj hs
    exact ⟨hsound, h⟩
  | ok r =>
    rw [hwrap] at hs
    obtain rfl := some.inj hs
    have hsound' : Sound { s with wrapped := c.toList ++ s.wrapped } :=
      ⟨hsound.minted, hsound.objects, hsound.fresh, hsound.obtained_lt, hsound.aliasable⟩
    refine ⟨hsound'.create ?_, ?_⟩
    · intro q hq hfrom
      obtain rfl := mem_some.mp hq
      cases hfrom
    · have hblocks := hsound'.holdings_create block
        (some { buffer := some obj, size, mode := .Shared, no_copy := true, release_callback := c })
      have hcallbacks := hsound'.holdings_create callback
        (some { buffer := some obj, size, mode := .Shared, no_copy := true, release_callback := c })
      refine ⟨h.running, h.obtained, ?_, ?_, ?_⟩
      · rw [hblocks]
        exact h.blocks
      · rw [hcallbacks]
        show c.toList ++ s.wrapped ~ s.called ++ (c.toList ++ holdings callback s.objects)
        exact (h.callbacks.append_left _).trans (List.perm_append_comm_assoc ..)
      · rw [hblocks]
        exact h.live

/-! ### Moves -/

theorem Sound.setImpl (h : Sound s)
    (hb : ∃ q, s.impl b = some q)
    (haliasable : ∀ q ∈ p, q.from_allocator = true → q.alloc_block.aliasable = false) :
    Sound (s.setImpl b p) where
  minted := h.minted
  objects := h.objects.insert _
  fresh := by
    obtain ⟨q, hq⟩ := hb
    have hlt := h.fresh _ (Keyed.find_mem (State.find_of_impl hq))
    intro e he
    obtain rfl | ⟨hold, -⟩ := Keyed.mem_insert.mp he
    · exact hlt
    · exact h.fresh e hold
  obtained_lt := h.obtained_lt
  aliasable := by
    intro e he
    obtain rfl | ⟨hold, -⟩ := Keyed.mem_insert.mp he
    · exact haliasable
    · exact h.aliasable e hold

/-- What a buffer has got is fit to be released. -/
theorem Sound.aliasable_of_impl (h : Sound s)
    (hp : s.impl b = some p) :
    ∀ q ∈ p, q.from_allocator = true → q.alloc_block.aliasable = false :=
  h.aliasable _ (Keyed.find_mem (State.find_of_impl hp))

theorem Sound.takeImpl (h : Sound s) (hp : s.impl b = some p) :
    Sound (s.setImpl b none) :=
  h.setImpl ⟨p, hp⟩ fun _ hq => absurd hq (not_mem_none _)

/-- What the buffers own has been moved about, and `p` has got out of reach. -/
theorem Linear.moved (h : Linear s) {objects : List (BufferId × Option Impl)} {next : BufferId}
   
    (hheld : ∀ {R : Type} (held : Option Impl → List R), held none = [] →
      holdings held s.objects ~ held p ++ holdings held objects) :
    Accounts { s with objects := objects, nextObject := next } (block p) (callback p) where
  running := h.running
  obtained := h.obtained
  blocks := h.blocks.trans ((hheld block rfl).append_left _)
  callbacks := h.callbacks.trans ((hheld callback rfl).append_left _)
  live := h.live.trans (hheld block rfl)

/-- **Move construction.** -/
theorem Linear.moveConstruct (h : Linear s) (hsound : Sound s) {other : BufferId}
    (hs : s.perform dev (.moveConstruct other) = some t) : Sound t ∧ Accounts t [] [] := by
  obtain ⟨p, hp, rfl⟩ := map_eq_some_iff.mp hs
  have htaken := hsound.takeImpl hp
  refine ⟨htaken.create (hsound.aliasable_of_impl hp), h.moved (p := none) ?_⟩
  intro R held hnone
  have hcreate := htaken.holdings_create held p
  have hswap := holdings_swap held (v := none) hsound.objects (State.find_of_impl hp)
  rw [hnone, List.nil_append] at hswap
  rw [hnone, List.nil_append]
  exact hswap.trans (.of_eq hcreate.symm)

/-- **Move assignment**: what the target had is lost. -/
theorem Linear.moveAssign (h : Linear s) (hsound : Sound s) {target other : BufferId}
    (hs : s.perform dev (.moveAssign target other) = some t) :
    Sound t ∧ Accounts t (block (replaced s (.moveAssign target other)))
      (callback (replaced s (.moveAssign target other))) := by
  obtain ⟨p, hp, hs⟩ := bind_eq_some_iff.mp hs
  obtain ⟨q, hq, rfl⟩ := map_eq_some_iff.mp hs
  have htaken := hsound.takeImpl hp
  have htarget : (s.setImpl other none).impl target
      = some (replaced s (.moveAssign target other)) := by
    by_cases hsame : target = other
    · -- onto itself: the pointer has just been taken out
      subst hsame
      simp [State.impl, State.setImpl, replaced]
    · have hreplaced : replaced s (.moveAssign target other) = q := by
        simp [replaced, hsame, hq]
      rw [hreplaced]
      unfold State.impl State.setImpl
      rw [Keyed.find_insert_ne hsame, State.find_of_impl hq]
      rfl
  refine ⟨htaken.setImpl ⟨_, htarget⟩ (hsound.aliasable_of_impl hp), h.moved ?_⟩
  intro R held hnone
  exact holdings_transfer held hsound.objects hnone (State.find_of_impl hp)
    (State.find_of_impl htarget)

/-! ### Destruction -/

/-- A live block that is not aliasable goes to its free list. -/
theorem deallocate_ok {a : MetalSmartAllocator} {b : AllocatedBlock} {hb : HeapBlock}
    (hminted : a.Minted) (halias : b.aliasable = false) (hlive : (b.internalId, hb) ∈ a.liveBlocks) :
    ∃ cleared, (a.deallocate b).1 = .ok cleared := by
  have hfind : Keyed.find Prod.fst a.liveBlocks b.internalId = some (b.internalId, hb) :=
    hminted.ids.find_eq_some.mpr ⟨hlive, rfl⟩
  unfold MetalSmartAllocator.deallocate
  rw [hfind]
  simp [halias]

/-- No id is used again, whatever is given back. -/
theorem nextId_deallocate (a : MetalSmartAllocator) (b : AllocatedBlock) :
    (a.deallocate b).2.nextId = a.nextId := by
  unfold MetalSmartAllocator.deallocate
  split
  · rfl
  · dsimp only
    split_ifs
    · split <;> rfl
    · rfl

/-- A block that a buffer owns is live. -/
theorem Linear.live_of_impl (h : Linear s) {q : Impl}
    (hq : s.impl b = some (some q)) (hfrom : q.from_allocator = true) :
    ∃ hb, (q.alloc_block.internalId, hb) ∈ s.allocator.liveBlocks := by
  have howned : q.alloc_block.internalId ∈ holdings block s.objects := by
    refine List.mem_flatMap.mpr ⟨_, Keyed.find_mem (State.find_of_impl hq), ?_⟩
    simp [block, hfrom]
  obtain ⟨entry, hentry, hid⟩ := List.mem_map.mp (h.live.symm.subset howned)
  refine ⟨entry.2, ?_⟩
  rw [← hid]
  exact hentry

/-- The destructor succeeds: the block is given back and the callback has run. -/
theorem Linear.release_eq (h : Linear s) (hsound : Sound s) {q : Impl}
    (hq : s.impl b = some (some q)) :
    s.release q = { s with
      allocator :=
        if q.from_allocator then (s.allocator.deallocate q.alloc_block).2 else s.allocator
      deallocated := block (some q) ++ s.deallocated
      called := callback (some q) ++ s.called } := by
  unfold State.release
  cases hfrom : q.from_allocator with
  | false => simp [h.running, block, callback, hfrom]
  | true =>
    obtain ⟨hb, hlive⟩ := h.live_of_impl hq hfrom
    obtain ⟨cleared, hok⟩ := deallocate_ok hsound.minted
      (hsound.aliasable_of_impl hq q rfl hfrom) hlive
    have hpair : s.allocator.deallocate q.alloc_block
        = (.ok cleared, (s.allocator.deallocate q.alloc_block).2) := Prod.ext hok rfl
    rw [hpair]
    simp [h.running, block, callback, hfrom]

/-- Giving a block back takes its id out of the live ones. -/
theorem Linear.live_release (h : Linear s) (hsound : Sound s) {q : Impl}
    (hq : s.impl b = some (some q)) :
    (if q.from_allocator then (s.allocator.deallocate q.alloc_block).2
      else s.allocator).liveBlocks.map Prod.fst
        ~ holdings block (Keyed.erase Prod.fst s.objects b) := by
  have hheld := h.live.trans (holdings_erase block hsound.objects (State.find_of_impl hq))
  cases hfrom : q.from_allocator with
  | false => simpa [block, hfrom] using hheld
  | true =>
    obtain ⟨hb, hlive⟩ := h.live_of_impl hq hfrom
    obtain ⟨-, -, herase, -⟩ :=
      hsound.minted.deallocate (hsound.aliasable_of_impl hq q rfl hfrom) hlive
    have hfind : Keyed.find Prod.fst s.allocator.liveBlocks q.alloc_block.internalId
        = some (q.alloc_block.internalId, hb) := hsound.minted.ids.find_eq_some.mpr ⟨hlive, rfl⟩
    have hperm := (hsound.minted.ids.perm_cons_erase hfind).map Prod.fst
    rw [if_pos rfl, herase]
    have hcons := hperm.symm.trans hheld
    simp only [block, elim_some, hfrom, if_true, List.map_cons] at hcons
    exact hcons.cons_inv

theorem Sound.release (hsound : Sound s) (h : Linear s) {q : Impl}
    (hq : s.impl b = some (some q)) (deallocated : List ℕ) (called : List Callback) :
    Sound { s with
      objects := Keyed.erase Prod.fst s.objects b
      allocator :=
        if q.from_allocator then (s.allocator.deallocate q.alloc_block).2 else s.allocator
      deallocated := deallocated
      called := called } where
  minted := by
    cases hfrom : q.from_allocator with
    | false => exact hsound.minted
    | true =>
      obtain ⟨hb, hlive⟩ := h.live_of_impl hq hfrom
      exact (hsound.minted.deallocate (hsound.aliasable_of_impl hq q rfl hfrom) hlive).1
  objects := hsound.objects.erase b
  fresh := fun e he => hsound.fresh e (Keyed.mem_erase.mp he).1
  obtained_lt := by
    intro id hid
    have hlt := hsound.obtained_lt id hid
    cases hfrom : q.from_allocator with
    | false => exact hlt
    | true =>
      show id < (s.allocator.deallocate q.alloc_block).2.nextId
      rwa [nextId_deallocate]
  aliasable := fun e he => hsound.aliasable e (Keyed.mem_erase.mp he).1

/-- **Destruction.** -/
theorem Linear.destroy (h : Linear s) (hsound : Sound s)
    (hs : s.perform dev (.destroy b) = some t) : Sound t ∧ Linear t := by
  obtain ⟨p, hp, rfl⟩ := map_eq_some_iff.mp hs
  have hblocks := holdings_erase block hsound.objects (State.find_of_impl hp)
  have hcallbacks := holdings_erase callback hsound.objects (State.find_of_impl hp)
  cases p with
  | none =>
    -- a buffer that has been moved from
    show Sound (if s.terminated then s else s.forget b) ∧
      Linear (if s.terminated then s else s.forget b)
    rw [if_neg (by simp [h.running])]
    exact ⟨⟨hsound.minted, hsound.objects.erase b,
      fun e he => hsound.fresh e (Keyed.mem_erase.mp he).1, hsound.obtained_lt,
      fun e he => hsound.aliasable e (Keyed.mem_erase.mp he).1⟩,
      ⟨h.running, h.obtained, h.blocks.trans (hblocks.append_left _),
      h.callbacks.trans (hcallbacks.append_left _), h.live.trans hblocks⟩⟩
  | some q =>
    show Sound (if (s.release q).terminated then s.release q else (s.release q).forget b) ∧
      Linear (if (s.release q).terminated then s.release q else (s.release q).forget b)
    have hrelease := h.release_eq hsound hp
    have hrunning : (s.release q).terminated = false := by
      rw [hrelease]
      exact h.running
    rw [if_neg (by simp [hrunning]), hrelease]
    refine ⟨hsound.release h hp _ _, h.running, h.obtained, ?_, ?_, h.live_release hsound hp⟩
    · show s.obtained ~ (block (some q) ++ s.deallocated)
        ++ holdings block (Keyed.erase Prod.fst s.objects b)
      rw [List.append_assoc]
      exact (h.blocks.trans (hblocks.append_left _)).trans (List.perm_append_comm_assoc ..)
    · show s.wrapped ~ (callback (some q) ++ s.called)
        ++ holdings callback (Keyed.erase Prod.fst s.objects b)
      rw [List.append_assoc]
      exact (h.callbacks.trans (hcallbacks.append_left _)).trans (List.perm_append_comm_assoc ..)

/-! ### Runs -/

/-- **Step.**  From a linear state, what a step replaces is what it loses, and nothing else is
    lost. -/
theorem Linear.step (h : Linear s) (hsound : Sound s) (hs : s.step dev op = some t) :
    Sound t ∧ Accounts t (block (replaced s op)) (callback (replaced s op)) := by
  unfold State.step at hs
  rw [if_neg (by simp [h.running])] at hs
  cases op with
  | construct device size mode obj =>
    simp only [State.perform] at hs
    cases hnew : newMNBuffer device size with
    | error e =>
      rw [hnew] at hs
      obtain rfl := some.inj hs
      exact ⟨hsound, h.accounts⟩
    | ok m =>
      rw [hnew] at hs
      obtain rfl := some.inj hs
      refine ⟨hsound.create ?_, (h.create hsound rfl rfl).accounts⟩
      intro q hq hfrom
      obtain rfl := mem_some.mp hq
      cases hfrom
  | allocate_pooled size mode =>
    obtain ⟨hsound', hlinear⟩ := h.allocate_pooled hsound hs
    exact ⟨hsound', hlinear.accounts⟩
  | wrap_external proc data_ptr size c obj =>
    obtain ⟨hsound', hlinear⟩ := h.wrap_external hsound hs
    exact ⟨hsound', hlinear.accounts⟩
  | moveConstruct other => exact h.moveConstruct hsound hs
  | moveAssign target other => exact h.moveAssign hsound hs
  | destroy b =>
    obtain ⟨hsound', hlinear⟩ := h.destroy hsound hs
    exact ⟨hsound', hlinear.accounts⟩

/-- A step from a linear state leads to a linear one exactly where it meets the condition. -/
theorem Linear.step_iff (h : Linear s) (hsound : Sound s) (hs : s.step dev op = some t) :
    Linear t ↔ Spares s op :=
  (h.step hsound hs).2.linear_iff

end Steps

/-- Without buffers there are no owners: no block is live, and every callback has run. -/
theorem Linear.gone {s : State} (h : Linear s) (hnone : s.objects = []) :
    s.allocator.liveBlocks = [] ∧ s.obtained ~ s.deallocated ∧ s.wrapped ~ s.called := by
  obtain ⟨-, -, hblocks, hcallbacks, hlive⟩ := h
  rw [hnone, holdings_nil] at hblocks hcallbacks hlive
  rw [List.append_nil] at hblocks hcallbacks
  exact ⟨List.map_eq_nil_iff.mp hlive.eq_nil, hblocks, hcallbacks⟩

/-- What the buffers promise of a state. -/
structure Owned (s : State) : Prop where
  linear : Linear s
  /-- After all buffers are gone. -/
  gone : s.objects = [] →
    s.allocator.liveBlocks = [] ∧ s.obtained ~ s.deallocated ∧ s.wrapped ~ s.called

/-- **Buffers own their resources linearly**, in every state of a run, exactly where no move
    assignment of the run replaces a buffer that still owns a block or a callback. -/
theorem buffers_linear_iff (dev : MTLDevice) {ops : List Op} {final : State}
    (hrun : exec (State.step dev) {} ops = some final) :
    Along (State.step dev) Owned {} ops ↔ GuardedAlong (State.step dev) Spares {} ops := by
  refine along_iff_guardedAlong (I := fun s => Linear s ∧ Sound s)
    (F := fun _ _ => True) ⟨linear_init, sound_init⟩ ?_ ?_ ?_ (guardedAlong_true _ _) hrun
  · rintro s ⟨hlinear, -⟩
    exact ⟨hlinear, hlinear.gone⟩
  · rintro s op t ⟨hlinear, hsound⟩ - hspares hs
    exact ⟨(hlinear.step_iff hsound hs).mpr hspares, (hlinear.step hsound hs).1⟩
  · rintro s op t ⟨hlinear, hsound⟩ - hs howned
    exact (hlinear.step_iff hsound hs).mp howned.linear

/-- A block goes from buffer to buffer; the second assignment is onto the moved-from buffer. -/
def movingOps : List Op :=
  [.allocate_pooled 64 .Shared, .moveConstruct 0, .moveAssign 0 1, .moveAssign 0 0, .destroy 1,
    .destroy 0]

theorem buffers_linear_moving : ∃ final, exec (State.step grantingDevice) {} movingOps
    = some final ∧ Along (State.step grantingDevice) Owned {} movingOps := by
  have hsome : (exec (State.step grantingDevice) {} movingOps).isSome = true := by decide
  obtain ⟨final, hrun⟩ := isSome_iff_exists.mp hsome
  have hguard : GuardedAlong (State.step grantingDevice) Spares {} movingOps := by decide
  exact ⟨final, hrun, (buffers_linear_iff grantingDevice hrun).mpr hguard⟩

/-- One of two pooled buffers is moved onto the other one. -/
def overwritingOps : List Op :=
  [.allocate_pooled 64 .Shared, .allocate_pooled 64 .Shared, .moveAssign 0 1, .destroy 0,
    .destroy 1]

/-- Both buffers are gone, and the first block is still live. -/
theorem overwritten_block_leaks : ∃ final,
    exec (State.step grantingDevice) {} overwritingOps = some final ∧ final.objects = [] ∧
      final.obtained = [2, 1] ∧ final.deallocated = [2] ∧
      final.allocator.liveBlocks.map Prod.fst = [1] := by
  have hsome : (exec (State.step grantingDevice) {} overwritingOps).isSome = true := by decide
  obtain ⟨final, hrun⟩ := isSome_iff_exists.mp hsome
  have hfinal : (exec (State.step grantingDevice) {} overwritingOps).map
      (fun s => (s.objects, s.obtained, s.deallocated, s.allocator.liveBlocks.map Prod.fst))
        = some ([], [2, 1], [2], [1]) := by decide
  rw [hrun, map_some, some.injEq] at hfinal
  simp only [Prod.mk.injEq] at hfinal
  exact ⟨final, hrun, hfinal⟩

end MNBuffer

end MetalNative
