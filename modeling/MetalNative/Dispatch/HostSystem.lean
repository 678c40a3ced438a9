import MetalNative.Dispatch.CommandPipeline
import MetalNative.Matmul.HostDispatch

namespace MetalNative

/-!
# One thread of tensor operations over the pipeline

The tensors of a client, the operations that it calls on them and the device queue.  The calls of
`CommandPipeline` inside an operation are those of `System`, with a single thread; what an operation
does between two of them is a step of its own.

* `TensorOp` — an operation of the client, `HostPC` where it stands.
* `Host.run` — the next step of the operation under way.
* `Host.complete` — the queue runs its buffers in the order of their commits.

`MNDevice::synchronize` and `to_shared` create command buffers of their own on the same queue; those
hold no backpressure slot.
-/

/-- A tensor of the client: the Metal buffer behind it and how that is stored.  Its contents play no
part here. -/
structure Handle where
  tensor : MNTensor Unit
  buffer : ObjId
  storageMode : StorageMode

/-- The Metal buffers from which bytes come when all elements of a tensor are read. -/
def Handle.bytes (t : Handle) : List ObjId := if t.tensor.dims.prod = 0 then [] else [t.buffer]

/-- A GPU operation: the command buffer it is encoded in and the Metal buffer it writes. -/
structure Encoded where
  commandBuffer : ObjId
  output : ObjId
  deriving DecidableEq, Repr

/-- An operation of the client; tensors are named by their position in `Host.tensors`. -/
inductive TensorOp where
  /-- A tensor whose bytes the CPU writes, if anyone does. -/
  | empty (tensor : MNTensor Unit) (mode : StorageMode)
  /-- A tensor over the buffer of another one. -/
  | view (i : ℕ) (tensor : MNTensor Unit)
  /-- An operation that encodes a kernel for its result. -/
  | gpuOp (result : MNTensor Unit)
  | matmul (i j : ℕ) (transpose_a transpose_b : Bool)
  | toShared (i : ℕ)
  | tensorToNumpy (i : ℕ)
  | tensorItem (i : ℕ)
  | synchronize
  | setPreferPrivateStorage (enable : Bool)
  /-- A call of the pipeline, or the end of one of its scopes. -/
  | pipeline (op : Op)

/-- What follows a call of the pipeline: nothing, the encoding of a kernel, or the return of the
operation's result.  A result is kept even when `commit_and_continue` has thrown: the tensor is lost
then, and with it only reads. -/
inductive CallRet where
  | done
  | encode (out : Handle)
  | result (out : Handle)

/-- What follows `waitUntilCompleted`. -/
inductive Cont where
  | done
  | toNumpy (t : Handle)
  | item (t : Handle)
  /-- `to_shared`, on the way to numpy when `exported`. -/
  | toShared (t : Handle) (exported : Bool)
  /-- The shared copy of `to_shared` is there. -/
  | copied (out : Handle) (exported : Bool)

/-- Where the client's thread stands. -/
inductive HostPC where
  | idle
  | calling (ret : CallRet)
  | encode (out : Handle)
  /-- Before the barrier of `MNDevice::synchronize`. -/
  | synchronize (next : Cont)
  /-- In `waitUntilCompleted` of a command buffer. -/
  | waiting (commandBuffer : ObjId) (next : Cont)
  /-- Before the blit of `to_shared`. -/
  | blit (t : Handle) (exported : Bool)
  /-- Before the CPU reads bytes of `buffers`; then the operation returns `out`. -/
  | reading (buffers : List ObjId) (out : Option Handle)

/-- The client's thread with its tensors, the pipeline, and the queue's record of what has been
encoded. -/
structure Host where
  sys : System
  /-- Command buffers that the pipeline has not created. -/
  standalone : List ObjId := []
  preferPrivate : Bool := false
  tensors : List Handle := []
  nextBuffer : ObjId := 0
  encoded : List Encoded := []
  pc : HostPC := .idle

/-- What can happen next: the client calls an operation, its thread takes a step, or the oldest
committed command buffer completes. -/
inductive HostAction where
  | call (op : TensorOp)
  | run (env : Env)
  | complete

namespace Host

/-- `MNTensor::empty`: a contiguous tensor in a new Metal buffer; `none` when its size overflows. -/
def empty (s : Host) (dims : List ℕ) (dtype : MNDType) (mode : StorageMode) : Option Handle :=
  if h : (∀ d ∈ dims, d < 2 ^ 63) ∧ dims.prod < 2 ^ 63 then
    some
      { tensor :=
          { buffer := fun _ => (), dims
            strides := MNShape.contiguousStrides (dims.map Nat.cast)
            dtype, dims_lt := h.1, numel_lt := h.2 }
        buffer := s.nextBuffer
        storageMode := mode }
  else none

/-- The storage mode of an operation's result. -/
def outMode (s : Host) : StorageMode := if s.preferPrivate then .Private else .Shared

/-- The operation returns, with a tensor or without. -/
def ret (s : Host) (out : Option Handle) : Host :=
  { s with tensors := s.tensors ++ out.toList, pc := .idle }

/-- The thread calls the pipeline. -/
def callPipeline (s : Host) (op : Op) (next : CallRet) : Host :=
  { s with
    sys := { s.sys with threads := s.sys.threads.map fun th => { th with prog := [op] } }
    pc := .calling next }

/-- A kernel for a new result: first the pipeline's current buffer. -/
def dispatch (s : Host) (out : Handle) : Host :=
  { s with nextBuffer := s.nextBuffer + 1 }.callPipeline .currentBuffer (.encode out)

/-- `[cb commit]` for a command buffer of its own. -/
def commitStandalone (s : Host) (cb : ObjId) (pipe : Pipeline) : Host :=
  { s with
    sys :=
      { s.sys with
        pipe := { pipe with committed := cb :: pipe.committed, pending := pipe.pending ++ [cb] } }
    standalone := cb :: s.standalone }

/-- The operands that `cblas_sgemm` reads: none when the product has no terms. -/
def cpuOperands (a b : Handle) (d : MatmulDims) : List ObjId :=
  if 0 < batchSize a.tensor ∧ 0 < d.M * d.N * d.K then [a.buffer, b.buffer] else []

/-- `matmul` on two tensors: an exception, the CPU path, or a kernel. -/
def matmul (s : Host) (a b : Handle) (transpose_a transpose_b : Bool) : Option Host :=
  match matmulCheck a.tensor b.tensor transpose_a transpose_b with
  | .error _ => some s
  | .ok d =>
    if shouldUseCpuPath a.tensor b.tensor d then
      match s.empty (matmulShape a.tensor d) .Float32 .Shared with
      | none => some s
      | some out =>
        -- a private operand has no bytes for the CPU: `cblas_sgemm` reads through a null pointer
        if a.storageMode = .Private ∨ b.storageMode = .Private then none
        else
          some { s with
            nextBuffer := s.nextBuffer + 1
            pc := .reading (cpuOperands a b d) (some out) }
    else
      match s.empty (matmulShape a.tensor d) a.tensor.dtype s.outMode with
      | none => some s
      | some out => some (s.dispatch out)

/-- The first step of an operation; an operation on a tensor that does not exist is none. -/
def call (s : Host) : TensorOp → Option Host
  | .empty tensor mode =>
    some ({ s with nextBuffer := s.nextBuffer + 1 }.ret (some ⟨tensor, s.nextBuffer, mode⟩))
  | .view i tensor => s.tensors[i]?.map fun t => s.ret (some { t with tensor })
  | .gpuOp result => some (s.dispatch ⟨result, s.nextBuffer, s.outMode⟩)
  | .matmul i j transpose_a transpose_b => do
    let a ← s.tensors[i]?
    let b ← s.tensors[j]?
    s.matmul a b transpose_a transpose_b
  | .toShared i =>
    s.tensors[i]?.map fun t =>
      match t.storageMode with
      | .Shared => s.ret (some t)
      | .Private => { s with pc := .synchronize (.toShared t false) }
  | .tensorToNumpy i => s.tensors[i]?.map fun t => { s with pc := .synchronize (.toNumpy t) }
  | .tensorItem i =>
    s.tensors[i]?.map fun t =>
      if t.tensor.numel = 1 then { s with pc := .synchronize (.item t) } else s
  | .synchronize => some { s with pc := .synchronize .done }
  | .setPreferPrivateStorage enable => some { s with preferPrivate := enable }
  | .pipeline op => some (s.callPipeline op .done)

/-- What follows `waitUntilCompleted`; `tensor_item` reads a private tensor through a null
pointer. -/
def resume (s : Host) : Cont → Option Host
  | .done => some (s.ret none)
  | .toNumpy t =>
    some
      (match t.storageMode with
      | .Private => { s with pc := .synchronize (.toShared t true) }
      | .Shared => { s with pc := .reading t.bytes none })
  | .item t =>
    match t.storageMode with
    | .Private => none
    | .Shared => some { s with pc := .reading t.bytes none }
  | .toShared t exported => some { s with pc := .blit t exported }
  | .copied out exported =>
    some (if exported then { s with pc := .reading out.bytes none } else s.ret (some out))

/-- The thread is between two calls of the pipeline. -/
def returned (s : Host) : Bool := s.sys.threads.all fun th => th.pc = .idle && th.prog = []

/-- The next step of the operation under way. -/
def run (env : Env) (s : Host) : Option Host :=
  match s.pc with
  | .idle => none
  | .calling next =>
    if s.returned then
      match next with
      | .done => some (s.ret none)
      | .encode out => some { s with pc := .encode out }
      | .result out => some (s.ret (some out))
    else (step s.sys (.run 0 env)).map fun sys => { s with sys }
  | .encode out =>
    match s.sys.pipe.activeBuffer with
    -- `current_buffer` has thrown
    | none => some (s.ret none)
    | some cb =>
      -- Metal stops a program that encodes into a committed buffer
      if cb ∈ s.sys.pipe.committed then none
      else
        some
          ({ s with encoded := ⟨cb, out.buffer⟩ :: s.encoded }.callPipeline .commitAndContinue
            (.result out))
  | .synchronize next =>
    match Pipeline.createBuffer env s.sys.pipe with
    -- messages to `nil`: nothing is committed and nothing waited for
    | none => s.resume next
    | some (cb, pipe) => some { s.commitStandalone cb pipe with pc := .waiting cb next }
  | .waiting cb next => if cb ∈ s.sys.pipe.pending then none else s.resume next
  | .blit t exported =>
    -- `MNBuffer` throws for an empty tensor
    if t.tensor.dims.prod = 0 then some (s.ret none)
    else
      match s.empty t.tensor.dims t.tensor.dtype .Shared with
      | none => some (s.ret none)
      | some out =>
        let s := { s with nextBuffer := s.nextBuffer + 1 }
        match Pipeline.createBuffer env s.sys.pipe with
        | none => s.resume (.copied out exported)
        | some (cb, pipe) =>
          some
            { s.commitStandalone cb pipe with
              encoded := ⟨cb, out.buffer⟩ :: s.encoded
              pc := .waiting cb (.copied out exported) }
  | .reading _ out => some (s.ret out)

/-- The oldest committed command buffer completes. -/
def complete (s : Host) : Option Host :=
  match s.sys.pipe.pending with
  | [] => none
  | cb :: rest =>
    if cb ∈ s.standalone then
      some { s with sys := { s.sys with pipe := { s.sys.pipe with pending := rest } } }
    else (step s.sys (.complete cb)).map fun sys => { s with sys }

/-- One step of the client's thread or of the GPU. -/
def step (s : Host) : HostAction → Option Host
  | .call op =>
    match s.pc with
    | .idle => s.call op
    | _ => none
  | .run env => s.run env
  | .complete => s.complete

/-- A client with no tensors, whose thread has not called the pipeline yet. -/
def init (bufferCount : ℕ) : Host := { sys := System.init bufferCount [[]] }

end Host

end MetalNative
