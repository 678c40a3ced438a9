import MetalNative.Core.Error
import MetalNative.Lib.Keyed
import MetalNative.Lib.Run

namespace MetalNative

/-!
# `ICBRecorder`: recording and replaying indirect command buffers

A translation of `icb_recorder.mm`.  Every member function holds the mutex from its first line to
its last, so a call is one step.  A pointer argument is `none` when it is null and is otherwise read
at an index; a Metal object is its identity.

* `ComputeCommand` — what is bound when a dispatch runs, with the setters of an encoder.
* `DispatchCall.requested` — the dispatch that a call of `record_dispatch` asks for.
* `RecordedDispatch`, `buildIcb` — what is kept of a call, and what is encoded into the buffer.
* `ICBRecorder` — the members of `Impl` and the public functions.
* `RecorderSystem.step` — one call, beside a log of what has been recorded under each key.
-/

/-- `ICBShapeKey`. -/
structure ICBShapeKey where
  batch : UInt32 := 0
  num_heads : UInt32 := 0
  seq_len_q : UInt32 := 0
  seq_len_k : UInt32 := 0
  head_dim : UInt32 := 0
  deriving DecidableEq, Repr

/-- `MTLSize`. -/
structure MTLSize where
  width : UInt64
  height : UInt64
  depth : UInt64
  deriving DecidableEq, Repr

/-! ### Compute commands -/

/-- A compute command as it runs: the pipeline, the argument tables and the grid. -/
structure ComputeCommand where
  pipeline : Option ObjId := none
  kernelBuffers : ℕ → Option (ObjId × UInt32) := fun _ => none
  bytes : Option (UInt32 × List UInt8) := none
  threadgroupMemory : ℕ → Option UInt32 := fun _ => none
  threadgroups : Option (MTLSize × MTLSize) := none

/-- `desc.maxKernelBufferBindCount`. -/
def maxKernelBufferBindCount : ℕ := 16

namespace ComputeCommand

/-- `setComputePipelineState`. -/
def setComputePipelineState (cmd : ComputeCommand) (pipeline : ObjId) : ComputeCommand :=
  { cmd with pipeline := some pipeline }

/-- `setKernelBuffer:offset:atIndex:`; the argument table of an indirect command has
    `maxKernelBufferBindCount` entries. -/
def setKernelBuffer (cmd : ComputeCommand) (buffer : ObjId) (offset : UInt32) (index : ℕ) :
    ComputeCommand :=
  if index < maxKernelBufferBindCount then
    { cmd with kernelBuffers := Function.update cmd.kernelBuffers index (some (buffer, offset)) }
  else cmd

/-- `setThreadgroupMemoryLength:atIndex:`. -/
def setThreadgroupMemoryLength (cmd : ComputeCommand) (length : UInt32) (index : ℕ) :
    ComputeCommand :=
  { cmd with threadgroupMemory := Function.update cmd.threadgroupMemory index (some length) }

/-- `concurrentDispatchThreadgroups:threadsPerThreadgroup:`. -/
def concurrentDispatchThreadgroups (cmd : ComputeCommand) (grid_size threadgroup_size : MTLSize) :
    ComputeCommand :=
  { cmd with threadgroups := some (grid_size, threadgroup_size) }

end ComputeCommand

/-- The arguments of `record_dispatch`. -/
structure DispatchCall where
  pipeline : ObjId
  buffers : List (Option ObjId)
  buffer_offsets : Option (ℕ → UInt32)
  buffer_count : UInt32
  bytes_data : Option (ℕ → UInt8)
  bytes_length : UInt32
  bytes_index : UInt32
  grid_size : MTLSize
  threadgroup_size : MTLSize
  threadgroup_memory_lengths : Option (ℕ → UInt32)
  threadgroup_memory_count : UInt32

namespace DispatchCall

/-- How many buffers the call passes. -/
def bufferCount (call : DispatchCall) : ℕ := min call.buffer_count.toNat call.buffers.length

/-- The offset that goes with a buffer. -/
def offset (call : DispatchCall) (i : ℕ) : UInt32 :=
  match call.buffer_offsets with
  | some offsets => offsets i
  | none => 0

/-- The inline bytes of the call, when it has any. -/
def inlineBytes (call : DispatchCall) : Option (List UInt8) :=
  match call.bytes_data with
  | some data =>
    if call.bytes_length > 0 then some ((List.range call.bytes_length.toNat).map data) else none
  | none => none

/-- The lengths of threadgroup memory of the call, when it has any. -/
def threadgroupMemory (call : DispatchCall) : List UInt32 :=
  match call.threadgroup_memory_lengths with
  | some lengths =>
    if call.threadgroup_memory_count > 0 then
      (List.range call.threadgroup_memory_count.toNat).map lengths
    else []
  | none => []

/-- What the call asks for: the dispatch as it would be encoded directly, with every binding that
    the call names. -/
def requested (call : DispatchCall) : ComputeCommand where
  pipeline := some call.pipeline
  kernelBuffers j :=
    if j < call.bufferCount then (call.buffers[j]?).join.map fun buffer => (buffer, call.offset j)
    else none
  bytes := call.inlineBytes.map fun data => (call.bytes_index, data)
  threadgroupMemory j := call.threadgroupMemory[j]?
  threadgroups := some (call.grid_size, call.threadgroup_size)

end DispatchCall

/-- `RecordedDispatch`; `bytes_index` is not set without bytes, and is then 0 here. -/
structure RecordedDispatch where
  pipeline : ObjId
  buffers : List (Option ObjId)
  buffer_offsets : List UInt32
  bytes_data : List UInt8
  bytes_index : UInt32
  grid_size : MTLSize
  threadgroup_size : MTLSize
  threadgroup_memory_lengths : List UInt32
  deriving DecidableEq, Repr

/-- The dispatch that `record_dispatch` fills in. -/
def RecordedDispatch.ofCall (call : DispatchCall) : RecordedDispatch where
  pipeline := call.pipeline
  buffers := call.buffers.take call.bufferCount
  buffer_offsets := (List.range call.bufferCount).map call.offset
  bytes_data := call.inlineBytes.getD []
  bytes_index := if call.inlineBytes.isSome then call.bytes_index else 0
  grid_size := call.grid_size
  threadgroup_size := call.threadgroup_size
  threadgroup_memory_lengths := call.threadgroupMemory

/-! ### Building the indirect command buffer -/

/-- `CachedICB`; the commands are those of `icb`, in the order of their index. -/
structure CachedICB where
  icb : List ComputeCommand
  command_count : UInt32
  key : ICBShapeKey
  pipelines : List ObjId
  buffers : List ObjId

/-- `MAX_COMMANDS`. -/
def MAX_COMMANDS : UInt32 := 32

/-- `MAX_CACHE_SIZE`. -/
def MAX_CACHE_SIZE : ℕ := 64

/-- The loop that sets the buffers, from index `j` on; a `nil` is left out. -/
def setBuffers (offsets : List UInt32) : ℕ → List (Option ObjId) → ComputeCommand → ComputeCommand
  | _, [], cmd => cmd
  | j, none :: buffers, cmd => setBuffers offsets (j + 1) buffers cmd
  | j, some buffer :: buffers, cmd =>
    setBuffers offsets (j + 1) buffers (cmd.setKernelBuffer buffer (offsets.getD j 0) j)

/-- The loop that sets the threadgroup memory, from index `j` on. -/
def setThreadgroupMemory : ℕ → List UInt32 → ComputeCommand → ComputeCommand
  | _, [], cmd => cmd
  | j, length :: lengths, cmd =>
    setThreadgroupMemory (j + 1) lengths (cmd.setThreadgroupMemoryLength length j)

/-- A dispatch encoded into a fresh command.  An indirect command has no `setBytes`, and the loop
    does not read `bytes_data`. -/
def RecordedDispatch.encode (d : RecordedDispatch) : ComputeCommand :=
  let cmd := ComputeCommand.setComputePipelineState {} d.pipeline
  let cmd := setBuffers d.buffer_offsets 0 d.buffers cmd
  let cmd := setThreadgroupMemory 0 d.threadgroup_memory_lengths cmd
  cmd.concurrentDispatchThreadgroups d.grid_size d.threadgroup_size

/-- `build_icb`; `created` says whether the device returns a buffer.  The caller sets the key. -/
def buildIcb (key : ICBShapeKey) (dispatches : List RecordedDispatch) (created : Bool) :
    Option CachedICB :=
  if dispatches = [] then none
  else if created = false then none
  else
    let size := UInt32.ofNat dispatches.length
    let count := if size > MAX_COMMANDS then MAX_COMMANDS else size
    let encoded := dispatches.take count.toNat
    some
      { icb := encoded.map RecordedDispatch.encode
        command_count := count
        key := key
        pipelines := encoded.map RecordedDispatch.pipeline
        buffers := encoded.flatMap fun d => d.buffers.filterMap id }

/-! ### The recorder -/

/-- The members of `ICBRecorder::Impl`. -/
structure ICBRecorder where
  enabled : Bool := false
  cache : List CachedICB := []
  lru_order : List ICBShapeKey := []
  is_recording : Bool := false
  recording_key : ICBShapeKey := {}
  recorded_dispatches : List RecordedDispatch := []

/-- What `replay` puts on the encoder. -/
structure Replayed where
  useResource : List ObjId
  executed : List ComputeCommand

/-- The orders in which the GPU may run what was replayed: `build_icb` sets no barrier on a command,
    so the commands run concurrently. -/
def Replayed.RunsAs (r : Replayed) (commands : List ComputeCommand) : Prop :=
  commands.Perm r.executed

namespace ICBRecorder

/-- `cache.find`. -/
def find (r : ICBRecorder) (key : ICBShapeKey) : Option CachedICB :=
  Keyed.find CachedICB.key r.cache key

/-- The loop of `evict_if_needed`, over the keys from the least recently used one on. -/
def evictLoop : List CachedICB → List ICBShapeKey → List CachedICB × List ICBShapeKey
  | cache, [] => (cache, [])
  | cache, oldest :: rest =>
    if cache.length ≥ MAX_CACHE_SIZE then
      evictLoop (Keyed.erase CachedICB.key cache oldest) rest
    else (cache, oldest :: rest)

/-- `evict_if_needed`. -/
def evictIfNeeded (r : ICBRecorder) : ICBRecorder :=
  let left := evictLoop r.cache r.lru_order.reverse
  { r with cache := left.1, lru_order := left.2.reverse }

/-- `touch`. -/
def touch (r : ICBRecorder) (key : ICBShapeKey) : ICBRecorder :=
  { r with lru_order := key :: r.lru_order.filter fun k => k ≠ key }

/-- `set_enabled`. -/
def setEnabled (r : ICBRecorder) (enable : Bool) : ICBRecorder :=
  if enable then { r with enabled := true }
  else
    { r with
      enabled := false
      cache := []
      lru_order := []
      is_recording := false
      recorded_dispatches := [] }

/-- `has_cached`. -/
def hasCached (r : ICBRecorder) (key : ICBShapeKey) : Bool := (r.find key).isSome

/-- `begin_recording`. -/
def beginRecording (r : ICBRecorder) (key : ICBShapeKey) : Bool × ICBRecorder :=
  if r.enabled = false then (false, r)
  else if (r.find key).isSome then (false, r)
  else
    let r :=
      { r with
        is_recording := true
        recording_key := key
        recorded_dispatches := [] }
    (true, r)

/-- `record_dispatch`. -/
def recordDispatch (r : ICBRecorder) (call : DispatchCall) : ICBRecorder :=
  if r.is_recording = false then r
  else if r.recorded_dispatches.length ≥ MAX_COMMANDS.toNat then r
  else
    { r with
      recorded_dispatches := r.recorded_dispatches ++ [RecordedDispatch.ofCall call] }

/-- `end_recording`. -/
def endRecording (r : ICBRecorder) (created : Bool) : ICBRecorder :=
  if r.is_recording = false then r
  else
    let r := { r with is_recording := false }
    if r.recorded_dispatches = [] then r
    else
      let r :=
        match buildIcb r.recording_key r.recorded_dispatches created with
        | some cached =>
          let r := r.evictIfNeeded
          { r with
            cache := Keyed.insert CachedICB.key r.cache cached
            lru_order := r.recording_key :: r.lru_order }
        | none => r
      { r with recorded_dispatches := [] }

/-- `replay`; without a result it returns false. -/
def replay (r : ICBRecorder) (key : ICBShapeKey) : Option Replayed × ICBRecorder :=
  if r.enabled = false then (none, r)
  else
    match r.find key with
    | none => (none, r)
    | some cached =>
      (some ⟨cached.buffers, cached.icb.take cached.command_count.toNat⟩, r.touch key)

/-- `invalidate_all`. -/
def invalidateAll (r : ICBRecorder) : ICBRecorder := { r with cache := [], lru_order := [] }

/-- `invalidate`. -/
def invalidate (r : ICBRecorder) (key : ICBShapeKey) : ICBRecorder :=
  { r with
    cache := Keyed.erase CachedICB.key r.cache key
    lru_order := r.lru_order.filter fun k => k ≠ key }

end ICBRecorder

/-! ### Runs -/

/-- The calls of the recorder. -/
inductive RecorderCall where
  | setEnabled (enable : Bool)
  | beginRecording (key : ICBShapeKey)
  | recordDispatch (call : DispatchCall)
  | endRecording (created : Bool)
  | replay (key : ICBShapeKey)
  | invalidate (key : ICBShapeKey)
  | invalidateAll

/-- The recorder beside what has been asked of it: the recording in progress with its calls of
    `record_dispatch`, and the calls that were recorded last under each key. -/
structure RecorderSystem where
  recorder : ICBRecorder := {}
  current : Option (ICBShapeKey × List DispatchCall) := none
  recorded : List (ICBShapeKey × List DispatchCall) := []

namespace RecorderSystem

/-- The recorder after a call. -/
def callRecorder (r : ICBRecorder) : RecorderCall → ICBRecorder
  | .setEnabled enable => r.setEnabled enable
  | .beginRecording key => (r.beginRecording key).2
  | .recordDispatch call => r.recordDispatch call
  | .endRecording created => r.endRecording created
  | .replay key => (r.replay key).2
  | .invalidate key => r.invalidate key
  | .invalidateAll => r.invalidateAll

/-- The recording in progress after a call: it starts when `begin_recording` returns true, and
    disabling the recorder abandons it. -/
def nextCurrent (s : RecorderSystem) : RecorderCall → Option (ICBShapeKey × List DispatchCall)
  | .setEnabled enable => if enable then s.current else none
  | .beginRecording key =>
    if (s.recorder.beginRecording key).1 then some (key, []) else s.current
  | .recordDispatch call => s.current.map fun c => (c.1, c.2 ++ [call])
  | .endRecording _ => none
  | _ => s.current

/-- The recordings after a call: `end_recording` completes the one in progress. -/
def nextRecorded (s : RecorderSystem) : RecorderCall → List (ICBShapeKey × List DispatchCall)
  | .endRecording _ =>
    match s.current with
    | some recording => Keyed.insert Prod.fst s.recorded recording
    | none => s.recorded
  | _ => s.recorded

/-- One call. -/
def step (s : RecorderSystem) (a : RecorderCall) : Option RecorderSystem :=
  some ⟨callRecorder s.recorder a, s.nextCurrent a, s.nextRecorded a⟩

end RecorderSystem

end MetalNative
