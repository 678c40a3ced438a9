import MetalNative.Dispatch.CommandPipeline
import MetalNative.Memory.Allocator

namespace MetalNative

/-!
# Tensors over pooled blocks

A client that creates tensors, encodes kernels on them and destroys them again.  A tensor owns its
`MNBuffer` together with its views; `~MNBuffer` gives the block back to `MetalSmartAllocator` at
once, wherever the GPU stands.

* `PooledOp` — an operation of the client, `PooledPC` where it stands.
* `PooledClient.drop` — a reference to a block goes, and with the last one the block.
* `PooledClient.step` — a call, a step of the client's thread, or the completion of the oldest
  committed command buffer.
* `PooledClient.releases` — the block that a step gives back.
-/

/-- A GPU operation: the command buffer it is encoded in and the Metal buffers bound to it, read or
    written. -/
structure EncodedKernel where
  commandBuffer : ObjId
  buffers : List ObjId
  deriving DecidableEq, Repr

/-- An operation of the client; tensors are named by their position. -/
inductive PooledOp where
  /-- `MNTensor::empty`; `zeros`, `ones` and `clone` then write the new block on the CPU. -/
  | empty (nbytes : ℕ) (mode : StorageMode)
  /-- Another tensor over the same `MNBuffer`. -/
  | view (i : ℕ)
  /-- A kernel on some tensors, with a new one for its result. -/
  | kernel (operands : List ℕ) (nbytes : ℕ) (mode : StorageMode)
  | destroy (i : ℕ)
  /-- A call of the pipeline, or the end of one of its scopes. -/
  | pipeline (op : Op)
  deriving DecidableEq, Repr

/-- What follows a call of the pipeline. -/
inductive PooledRet where
  | done
  | encode (operands : List AllocatedBlock) (out : AllocatedBlock)
  | result (out : AllocatedBlock)
  deriving DecidableEq, Repr

/-- Where the client's thread stands. -/
inductive PooledPC where
  | idle
  | calling (ret : PooledRet)
  | encode (operands : List AllocatedBlock) (out : AllocatedBlock)
  deriving DecidableEq, Repr

/-- The client's thread with the block of each of its tensors, the allocator and the pipeline, and
    the queue's record of what has been encoded and what has completed. -/
structure PooledClient where
  sys : System
  allocator : MetalSmartAllocator := {}
  tensors : List AllocatedBlock := []
  encoded : List EncodedKernel := []
  completed : List ObjId := []
  pc : PooledPC := .idle

/-- What can happen next. -/
inductive PooledAction where
  | call (op : PooledOp)
  | run (env : Env)
  | complete

/-- The blocks that a suspended operation refers to. -/
def PooledRet.held : PooledRet → List AllocatedBlock
  | .done => []
  | .encode operands out => out :: operands
  | .result out => [out]

/-- The blocks that the thread refers to. -/
def PooledPC.held : PooledPC → List AllocatedBlock
  | .idle => []
  | .calling ret => ret.held
  | .encode operands out => out :: operands

/-- The result that an exception out of the pipeline destroys. -/
def PooledRet.out : PooledRet → Option AllocatedBlock
  | .done => none
  | .encode _ out => some out
  | .result out => some out

namespace PooledClient

variable (dev : MTLDevice)

/-- A tensor refers to the block. -/
def Shared (tensors : List AllocatedBlock) (block : AllocatedBlock) : Prop :=
  ∃ other ∈ tensors, other.internalId = block.internalId

instance (tensors : List AllocatedBlock) (block : AllocatedBlock) :
    Decidable (Shared tensors block) :=
  inferInstanceAs (Decidable (∃ other ∈ tensors, other.internalId = block.internalId))

/-- A reference to a block goes: `~MNBuffer` runs with the last one. -/
def drop (s : PooledClient) (block : AllocatedBlock) : PooledClient :=
  if Shared s.tensors block then s
  else { s with allocator := (s.allocator.deallocate block).2 }

/-- `MNBuffer::allocate_pooled` for a tensor of `nbytes` bytes; no block when it throws. -/
def allocatePooled (s : PooledClient) (nbytes : ℕ) (mode : StorageMode) :
    Option (Option AllocatedBlock × PooledClient) :=
  (s.allocator.allocate dev (max nbytes 1) mode).map fun r =>
    (r.1.toOption, { s with allocator := r.2 })

/-- The thread calls the pipeline. -/
def callPipeline (s : PooledClient) (op : Op) (next : PooledRet) : PooledClient :=
  { s with
    sys := { s.sys with threads := s.sys.threads.map fun th => { th with prog := [op] } }
    pc := .calling next }

/-- The first step of an operation; an operation on a tensor that does not exist is none. -/
def call (s : PooledClient) : PooledOp → Option PooledClient
  | .empty nbytes mode =>
    (s.allocatePooled dev nbytes mode).map fun r =>
      { r.2 with tensors := r.2.tensors ++ r.1.toList }
  | .view i => s.tensors[i]?.map fun block => { s with tensors := s.tensors ++ [block] }
  | .kernel operands nbytes mode =>
    if ∀ i ∈ operands, i < s.tensors.length then
      (s.allocatePooled dev nbytes mode).map fun r =>
        match r.1 with
        | none => r.2
        | some out =>
          r.2.callPipeline .currentBuffer (.encode (operands.filterMap (s.tensors[·]?)) out)
    else none
  | .destroy i =>
    s.tensors[i]?.map fun block => { s with tensors := s.tensors.eraseIdx i }.drop block
  | .pipeline op => some (s.callPipeline op .done)

/-- The thread is between two calls of the pipeline. -/
def returned (s : PooledClient) : Bool := s.sys.threads.all fun th => th.pc = .idle && th.prog = []

/-- `create_buffer` throws out of the call under way. -/
def throws (s : PooledClient) (env : Env) : Bool :=
  s.sys.threads.any fun th =>
    match th.pc with
    | .currentBuffer => !s.sys.pipe.hasActive && !env.createOk
    | .cacLocked => s.sys.pipe.hasActive && !env.createOk
    | .flCommit _ => !env.createOk
    | _ => false

/-- An exception leaves the operation: its result is destroyed. -/
def unwind (s : PooledClient) (next : PooledRet) : PooledClient :=
  match next.out with
  | none => { s with pc := .idle }
  | some out => { s with pc := .idle }.drop out

/-- The call of the pipeline has returned. -/
def resume (s : PooledClient) : PooledRet → PooledClient
  | .done => { s with pc := .idle }
  | .encode operands out => { s with pc := .encode operands out }
  | .result out => { s with tensors := s.tensors ++ [out], pc := .idle }

/-- The next step of the operation under way. -/
def run (env : Env) (s : PooledClient) : Option PooledClient :=
  match s.pc with
  | .idle => none
  | .calling next =>
    if s.returned then some (s.resume next)
    else
      (MetalNative.step s.sys (.run 0 env)).map fun sys =>
        if s.throws env then { s with sys }.unwind next else { s with sys }
  | .encode operands out =>
    match s.sys.pipe.activeBuffer with
    -- messages to `nil`: nothing is encoded
    | none => some (s.callPipeline .commitAndContinue (.result out))
    | some cb =>
      -- Metal stops a program that encodes into a committed buffer
      if cb ∈ s.sys.pipe.committed then none
      else
        some
          ({ s with
            encoded :=
              ⟨cb, (out :: operands).filterMap AllocatedBlock.buffer⟩ :: s.encoded }.callPipeline
            .commitAndContinue (.result out))

/-- The oldest committed command buffer completes. -/
def complete (s : PooledClient) : Option PooledClient :=
  match s.sys.pipe.pending with
  | [] => none
  | cb :: _ =>
    (MetalNative.step s.sys (.complete cb)).map fun sys =>
      { s with sys, completed := cb :: s.completed }

/-- One step of the client's thread or of the GPU. -/
def step (s : PooledClient) : PooledAction → Option PooledClient
  | .call op =>
    match s.pc with
    | .idle => s.call dev op
    | _ => none
  | .run env => s.run env
  | .complete => s.complete

/-- A client with no tensors, whose thread has not called the pipeline yet. -/
def init (bufferCount : ℕ) : PooledClient := { sys := System.init bufferCount [[]] }

/-- The block that a step gives back to the allocator: that of a tensor whose last reference is
    destroyed, or of a result that an exception destroys. -/
def releases (s : PooledClient) : PooledAction → Option AllocatedBlock
  | .call (.destroy i) =>
    s.tensors[i]?.filter fun block => ¬ Shared (s.tensors.eraseIdx i) block
  | .run env =>
    match s.pc with
    | .calling next =>
      if s.returned = false ∧ s.throws env = true then
        next.out.filter fun block => ¬ Shared s.tensors block
      else none
    | _ => none
  | _ => none

end PooledClient

end MetalNative
