import MetalNative.Core.Tensor

namespace MetalNative

/-!
# `KVCache`: pre-allocated keys and values for autoregressive generation

A translation of `kv_cache.mm`.  Every call takes the answers of its environment (the budget
controller, Metal, the tensor allocator) as arguments.  Blits of one queue run in the order in
which they were committed, so a call is modelled with the bytes that its blits leave; a blit that
leaves one of its buffers has no meaning, and the call is `none`.
-/

/-- `KVCacheConfig`. -/
structure KVCacheConfig where
  numLayers : ℕ
  numHeads : ℕ
  headDim : ℕ
  maxSeqLen : ℕ
  dtype : MNDType := .Float16
  deriving DecidableEq, Repr

/-- `GrantedBudget`, the fields that the cache reads. -/
structure GrantedBudget where
  bytes : ℕ
  approved : Bool
  deriving DecidableEq, Repr

/-- A tensor as `append` uses it: its buffer and its byte offset. -/
structure TensorView where
  buffer : MTLBuffer
  offset : ℕ

/-- The tensor that `get_key` and `get_value` return. -/
structure CacheTensor where
  shape : MNShape
  dtype : MNDType
  buffer : MTLBuffer

/-- The key and the value buffer of a layer. -/
structure LayerBuffers where
  key : MTLBuffer
  value : MTLBuffer

/-- Metal's answers to the two allocations of a layer. -/
structure LayerAnswer where
  key : Option (ℕ → UInt8)
  value : Option (ℕ → UInt8)

/-- `KVCache::Impl`; the two vectors of buffers always have the same length. -/
structure KVCache where
  config : KVCacheConfig
  layers : List LayerBuffers
  currentSeqLen : ℕ := 0
  actualMaxSeqLen : ℕ

namespace KVCache

/-! ### Sizes -/

/-- `element_size`. -/
def elementSize : MNDType → Except MNException ℕ
  | .Float32 => .ok 4
  | .Float16 => .ok 2
  | .BFloat16 => .ok 2
  | _ => .error ⟨.InvalidArgument, "Unsupported dtype for KV cache"⟩

/-- `num_heads * head_dim * element_size`. -/
def sliceSize (config : KVCacheConfig) (es : ℕ) : ℕ :=
  config.numHeads * config.headDim * es % sizeTRange

/-- `n * num_heads * head_dim * element_size`. -/
def prefixSize (config : KVCacheConfig) (es n : ℕ) : ℕ :=
  n * config.numHeads * config.headDim * es % sizeTRange

/-- The two buffers of a layer, both of which Metal is asked for. -/
def newLayer (size : ℕ) (answer : LayerAnswer) : Option LayerBuffers :=
  match newBufferWithLength size answer.key, newBufferWithLength size answer.value with
  | some key, some value => some ⟨key, value⟩
  | _, _ => none

/-! ### Construction -/

/-- The loop that pre-allocates the buffers. -/
def allocateLayers (size : ℕ) (answers : ℕ → LayerAnswer) :
    ℕ → ℕ → Except MNException (List LayerBuffers)
  | 0, _ => .ok []
  | n + 1, layer =>
    match newLayer size (answers layer) with
    | none => .error ⟨.AllocationFailed,
        "KVCache: failed to allocate buffer for layer " ++ toString layer⟩
    | some bufs => (allocateLayers size answers n (layer + 1)).map fun rest => bufs :: rest

/-- The length that the budget leaves; `none` is a division by zero. -/
def grantedSeqLen (config : KVCacheConfig) (desiredBytes : ℕ) (grant : GrantedBudget) : Option ℕ :=
  if grant.approved = false ∨ grant.bytes < desiredBytes then
    if grant.bytes > 0 then
      let bytesPerToken := desiredBytes / config.maxSeqLen
      if bytesPerToken = 0 then none else some (max (grant.bytes / bytesPerToken) 1)
    else some (min config.maxSeqLen 128)
  else some config.maxSeqLen

/-- The constructor. -/
def construct (config : KVCacheConfig) (grant : GrantedBudget) (answers : ℕ → LayerAnswer) :
    Option (Except MNException KVCache) :=
  if config.numLayers > 0 ∧ config.numHeads > 0 ∧ config.headDim > 0 ∧ config.maxSeqLen > 0 then
    match elementSize config.dtype with
    | .error e => some (.error e)
    | .ok es =>
      let desiredBytes :=
        2 * config.numLayers * prefixSize config es config.maxSeqLen % sizeTRange
      (grantedSeqLen config desiredBytes grant).map fun actualMaxSeqLen =>
        (allocateLayers (prefixSize config es actualMaxSeqLen) answers config.numLayers 0).map
          fun layers => { config, layers, actualMaxSeqLen }
  else
    some (.error ⟨.InvalidArgument, "KVCache: all config dimensions must be > 0"⟩)

/-! ### `append` -/

/-- `append`. -/
def append (c : KVCache) (layer : ℕ) (newKey newValue : TensorView) (position : ℕ) :
    Option (Outcome KVCache Unit) :=
  if ¬ layer < c.config.numLayers then
    some (.error ⟨.InvalidArgument, "KVCache::append: layer index out of bounds"⟩, c)
  else if ¬ position < c.actualMaxSeqLen then
    some (.error ⟨.InvalidArgument, "KVCache::append: position exceeds max_seq_len"⟩, c)
  else
    match elementSize c.config.dtype with
    | .error e => some (.error e, c)
    | .ok es => do
      let bufs ← c.layers[layer]?
      let slice := sliceSize c.config es
      let dstOffset := position * slice % sizeTRange
      let key ← newKey.buffer.copyFromBuffer newKey.offset bufs.key dstOffset slice
      let value ← newValue.buffer.copyFromBuffer newValue.offset bufs.value dstOffset slice
      some (.ok (),
        { c with
          layers := c.layers.set layer ⟨key, value⟩
          currentSeqLen := max c.currentSeqLen (position + 1) })

/-! ### `get_key` and `get_value` -/

/-- `MNTensor::empty`; the answer is what the pooled allocator gives. -/
def emptyTensor (shape : MNShape) (dtype : MNDType) (answer : Except MNException (ℕ → UInt8)) :
    Except MNException CacheTensor :=
  let numel := shape.numel
  if numel > 0 ∧ toSizeT numel > SIZE_MAX / dtypeSize dtype then
    .error ⟨.OutOfMemory, "Tensor allocation would overflow: numel=" ++ toString numel ++
      ", dtype_size=" ++ toString (dtypeSize dtype)⟩
  else
    let nbytes := toSizeT numel * dtypeSize dtype % sizeTRange
    answer.map fun bytes => ⟨shape, dtype, ⟨max nbytes 1, bytes⟩⟩

/-- The shape `[1, num_heads, current_seq_len, head_dim]`. -/
def cacheShape (c : KVCache) : MNShape :=
  [1, toInt64 c.config.numHeads, toInt64 c.currentSeqLen, toInt64 c.config.headDim]

/-- `get_key` and `get_value`: `select` picks the buffer and `name` is the call's name. -/
def getTensor (name : String) (select : LayerBuffers → MTLBuffer) (c : KVCache) (layer : ℕ)
    (answer : Except MNException (ℕ → UInt8)) : Option (Except MNException CacheTensor) :=
  if ¬ layer < c.config.numLayers then
    some (.error ⟨.InvalidArgument, "KVCache::" ++ name ++ ": layer index out of bounds"⟩)
  else
    match emptyTensor c.cacheShape c.config.dtype answer with
    | .error e => some (.error e)
    | .ok result =>
      match elementSize c.config.dtype with
      | .error e => some (.error e)
      | .ok es => do
        let bufs ← c.layers[layer]?
        let copySize := prefixSize c.config es c.currentSeqLen
        let buffer ← (select bufs).copyFromBuffer 0 result.buffer 0 copySize
        some (.ok { result with buffer })

/-- `get_key`. -/
def getKey : KVCache → ℕ → Except MNException (ℕ → UInt8) →
    Option (Except MNException CacheTensor) :=
  getTensor "get_key" LayerBuffers.key

/-- `get_value`. -/
def getValue : KVCache → ℕ → Except MNException (ℕ → UInt8) →
    Option (Except MNException CacheTensor) :=
  getTensor "get_value" LayerBuffers.value

/-! ### `resize` and `reset` -/

/-- A layer's new buffers with the old data; with nothing to copy no blit is encoded. -/
def copyLayer (copySize : ℕ) (old new : LayerBuffers) : Option LayerBuffers :=
  if copySize > 0 then do
    let key ← old.key.copyFromBuffer 0 new.key 0 copySize
    let value ← old.value.copyFromBuffer 0 new.value 0 copySize
    some ⟨key, value⟩
  else some new

/-- The loop of `resize`: the layers are replaced one by one until an allocation fails. -/
def resizeLayers (size copySize : ℕ) (answers : ℕ → LayerAnswer) :
    ℕ → List LayerBuffers → Option (Option MNException × List LayerBuffers)
  | _, [] => some (none, [])
  | layer, old :: rest =>
    match newLayer size (answers layer) with
    | none =>
      some (some ⟨.AllocationFailed, "KVCache::resize: failed to allocate new buffer"⟩,
        old :: rest)
    | some new => do
      let replaced ← copyLayer copySize old new
      let (e, rest) ← resizeLayers size copySize answers (layer + 1) rest
      some (e, replaced :: rest)

/-- `resize`. -/
def resize (c : KVCache) (newMaxSeqLen : ℕ) (answers : ℕ → LayerAnswer) :
    Option (Outcome KVCache Unit) :=
  if newMaxSeqLen ≥ c.actualMaxSeqLen then some (.ok (), c)
  else
    let newMaxSeqLen := max newMaxSeqLen c.currentSeqLen
    match elementSize c.config.dtype with
    | .error e => some (.error e, c)
    | .ok es =>
      let newBufferSize := prefixSize c.config es newMaxSeqLen
      let copySize := prefixSize c.config es c.currentSeqLen
      (resizeLayers newBufferSize copySize answers 0 c.layers).map fun
        | (some e, layers) => (.error e, { c with layers })
        | (none, layers) => (.ok (), { c with layers, actualMaxSeqLen := newMaxSeqLen })

/-- `reset`. -/
def reset (c : KVCache) : KVCache := { c with currentSeqLen := 0 }

end KVCache

end MetalNative
