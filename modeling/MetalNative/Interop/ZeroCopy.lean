import MetalNative.Interop.DLPack

namespace MetalNative

namespace ZeroCopy

/-!
# Zero-copy imports

A client that exports tensors with `to_dlpack`, imports them again with `from_dlpack`, calls
deleters, drops tensors and creates others; and that makes tensors of PyTorch's MPS tensors with
`from_torch`.  An `MNBuffer` is counted by the tensors and the export contexts that share it; one
that `wrap_external` has made holds an address, and nothing is called when it goes.

* `Buffer` — what `~MNBuffer` finds.
* `Tensor`, `Managed`, `Storage` — the handles of the client.
* `step` — what the client does, and what PyTorch does with its memory.
-/

/-- What a range of memory belongs to: a block of the allocator, or a storage of PyTorch. -/
inductive Owner where
  | block (b : AllocatedBlock)
  | storage (k : ℕ)
  deriving DecidableEq, Repr

/-- Blocks are told apart by their ids. -/
def Owner.key : Owner → ℕ ⊕ ℕ
  | .block b => .inl b.internalId
  | .storage k => .inr k

/-- Memory that is contiguous: the contents of a Metal buffer, a storage of PyTorch, or, for the
    contents of a `Private` buffer, the memory from address zero on. -/
inductive Region where
  | buffer (b : ObjId)
  | storage (k : ℕ)
  | absolute
  deriving DecidableEq, Repr

/-- An address, as the distance from the beginning of a region. -/
structure Pointer where
  region : Region
  offset : ℕ
  deriving DecidableEq, Repr

/-- `ptr + n`, counted in bytes. -/
def Pointer.add (p : Pointer) (n : ℕ) : Pointer := { p with offset := p.offset + n }

/-- An `MNBuffer` of `allocate_pooled`, or one of `wrap_external` over memory of some owner. -/
inductive Buffer where
  | pooled (b : AllocatedBlock)
  | wrapped (owner : Owner)
  deriving DecidableEq, Repr

namespace Buffer

/-- Whose memory a buffer is. -/
def owner : Buffer → Owner
  | .pooled b => .block b
  | .wrapped o => o

/-- The block that `~MNBuffer` gives back; `wrap_external` was given no `release_callback`. -/
def block : Buffer → Option AllocatedBlock
  | .pooled b => some b
  | .wrapped _ => none

end Buffer

/-- An `MNTensor`: its elements lie in the `extent` bytes from `first` on, and `offset` is what it
    says of their place in its buffer. -/
structure Tensor where
  buffer : Buffer
  first : Pointer
  extent : ℕ
  offset : ℕ
  mode : StorageMode
  contiguous : Bool
  deriving DecidableEq, Repr

namespace Tensor

def owner (t : Tensor) : Owner := t.buffer.owner

/-- The tensor wraps memory that it does not own. -/
def Imported (t : Tensor) : Prop := t.buffer.block = none

instance (t : Tensor) : Decidable t.Imported := inferInstanceAs (Decidable (_ = _))

/-- `raw_data()`. -/
def rawData (t : Tensor) : Pointer :=
  match t.mode with
  | .Private => ⟨.absolute, t.offset⟩
  | .Shared => t.first

/-- The tensor of `MNTensor::empty`. -/
def ofBlock (b : AllocatedBlock) (nbytes : ℕ) : Tensor where
  buffer := .pooled b
  first := ⟨(b.buffer.map Region.buffer).getD .absolute, 0⟩
  extent := nbytes
  offset := 0
  mode := b.mode
  contiguous := true

/-- A tensor over a pointer that has been wrapped; `address` is where the regions begin. -/
def wrap (address : Region → ℕ) (o : Owner) (p : Pointer) (extent : ℕ) : Tensor where
  buffer := .wrapped o
  first := p
  extent := extent
  offset := alignmentOffset (address p.region + p.offset)
  mode := .Shared
  contiguous := true

end Tensor

/-- A `DLManagedTensor`, with the buffer that its `DLPackContext` keeps. -/
structure Managed where
  buffer : Buffer
  data : Pointer
  extent : ℕ
  byteOffset : ℕ
  deriving DecidableEq, Repr

/-- The pointer that `from_dlpack` wraps. -/
def Managed.pointer (m : Managed) : Pointer := m.data.add m.byteOffset

/-- `wrap_external` throws, whatever the pages are: the pointer is null or no bytes are wrapped. -/
def Managed.Rejected (m : Managed) : Prop := m.pointer = ⟨.absolute, 0⟩ ∨ m.extent = 0

instance (m : Managed) : Decidable m.Rejected := inferInstanceAs (Decidable (_ ∨ _))

/-- A storage of PyTorch, and whether a torch tensor still refers to it. -/
structure Storage where
  nbytes : ℕ
  alive : Bool
  deriving DecidableEq, Repr

/-- The client, the allocator and the contents of memory. -/
structure State where
  allocator : MetalSmartAllocator := {}
  tensors : List Tensor := []
  managed : List Managed := []
  storages : List Storage := []
  memory : Region → ℕ → UInt8 := fun _ _ => 0

/-- What can happen next; tensors, capsules and storages are named by their position. -/
inductive Action where
  /-- `MNTensor::empty`. -/
  | empty (nbytes : ℕ) (mode : StorageMode)
  /-- `slice` or `reshape`: a tensor over some of the bytes of another one. -/
  | view (i start extent : ℕ) (contiguous : Bool)
  /-- The elements of a tensor are written. -/
  | write (i : ℕ) (bytes : ℕ → UInt8)
  | toDlpack (i : ℕ)
  /-- `answer`: the pages are readable, and Metal makes a buffer of them. -/
  | fromDlpack (j : ℕ) (answer : Bool)
  | deleter (j : ℕ)
  | drop (i : ℕ)
  /-- PyTorch creates an MPS tensor. -/
  | torchEmpty (nbytes : ℕ)
  /-- `from_torch` of a contiguous tensor over some of the bytes of a storage, the pages of which
      can be wrapped; those of others are copied into a new tensor. -/
  | fromTorch (k start extent : ℕ)
  /-- `from_torch` of another tensor, by way of `tensor.contiguous()`. -/
  | fromTorchStrided (k nbytes : ℕ) (bytes : ℕ → UInt8)
  /-- The last torch tensor over a storage goes. -/
  | torchDrop (k : ℕ)
  /-- The memory of a storage is written, by PyTorch or by whoever has got it since. -/
  | storageWrite (k : ℕ) (bytes : ℕ → UInt8)

/-- The contents of memory after a write of `n` bytes. -/
def fill (memory : Region → ℕ → UInt8) (p : Pointer) (n : ℕ) (bytes : ℕ → UInt8) :
    Region → ℕ → UInt8 :=
  fun r i =>
    if r = p.region ∧ p.offset ≤ i ∧ i < p.offset + n then bytes (i - p.offset) else memory r i

namespace State

/-- The buffers that tensors and export contexts share. -/
def buffers (s : State) : List Buffer :=
  s.tensors.map Tensor.buffer ++ s.managed.map Managed.buffer

/-- The `MNBuffer` of a block is referred to. -/
def Referenced (s : State) (b : AllocatedBlock) : Prop :=
  ∃ c ∈ s.buffers, ∃ other ∈ c.block, other.internalId = b.internalId

instance (s : State) (b : AllocatedBlock) : Decidable (s.Referenced b) :=
  inferInstanceAs (Decidable (∃ c ∈ s.buffers, ∃ other ∈ c.block, other.internalId = b.internalId))

/-- A reference to a buffer has gone: `~MNBuffer` runs with the last one. -/
def release (s : State) (c : Buffer) : State :=
  match c.block with
  | none => s
  | some b =>
    if s.Referenced b then s else { s with allocator := (s.allocator.deallocate b).2 }

end State

/-- One step of the client or of PyTorch. -/
def step (dev : MTLDevice) (address : Region → ℕ) (s : State) : Action → Option State
  | .empty nbytes mode =>
    (s.allocator.allocate dev (max nbytes 1) mode).map fun
      | (.ok b, a) => { s with allocator := a, tensors := s.tensors ++ [.ofBlock b nbytes] }
      | (.error _, a) => { s with allocator := a }
  | .view i start extent contiguous =>
    s.tensors[i]?.bind fun t =>
      if start + extent ≤ t.extent then
        some
          { s with
            tensors := s.tensors ++
              [{ t with
                first := t.first.add start
                extent := extent
                offset := t.offset + start
                contiguous := contiguous }] }
      else none
  | .write i bytes =>
    s.tensors[i]?.map fun t => { s with memory := fill s.memory t.first t.extent bytes }
  | .toDlpack i =>
    s.tensors[i]?.map fun t =>
      if t.contiguous then
        { s with managed := s.managed ++ [⟨t.buffer, t.rawData, t.extent, t.offset⟩] }
      else s
  | .fromDlpack j answer =>
    s.managed[j]?.map fun m =>
      if m.Rejected ∨ answer = false then s
      else
        { s with tensors := s.tensors ++ [.wrap address m.buffer.owner m.pointer m.extent] }
  | .deleter j =>
    s.managed[j]?.map fun m => { s with managed := s.managed.eraseIdx j }.release m.buffer
  | .drop i =>
    s.tensors[i]?.map fun t => { s with tensors := s.tensors.eraseIdx i }.release t.buffer
  | .torchEmpty nbytes => some { s with storages := s.storages ++ [⟨nbytes, true⟩] }
  | .fromTorch k start extent =>
    s.storages[k]?.bind fun st =>
      if st.alive ∧ 0 < st.nbytes ∧ start + extent ≤ st.nbytes then
        some
          { s with
            tensors := s.tensors ++ [.wrap address (.storage k) ⟨.storage k, start⟩ extent] }
      else none
  | .fromTorchStrided k nbytes bytes =>
    s.storages[k]?.bind fun st =>
      if st.alive ∧ 0 < nbytes then
        -- nothing refers to the copy once `from_torch` has returned
        let copy := s.storages.length
        some
          { s with
            storages := s.storages ++ [⟨nbytes, false⟩]
            memory := fill s.memory ⟨.storage copy, 0⟩ nbytes bytes
            tensors := s.tensors ++ [.wrap address (.storage copy) ⟨.storage copy, 0⟩ nbytes] }
      else none
  | .torchDrop k =>
    s.storages[k]?.map fun st =>
      { s with storages := s.storages.set k { st with alive := false } }
  | .storageWrite k bytes =>
    s.storages[k]?.map fun st =>
      { s with memory := fill s.memory ⟨.storage k, 0⟩ st.nbytes bytes }

end ZeroCopy

end MetalNative
