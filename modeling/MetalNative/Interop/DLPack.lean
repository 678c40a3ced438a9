import MetalNative.Core.View

namespace MetalNative

/-!
# DLPack tensor exchange

`dlpack.cpp` and `MNBuffer::wrap_external` of `buffer.mm`.

* `DLTensor` — the plain tensor of `dlpack_header.h`; `DLTensor.element` is what its fields say is
  found at a multi-index.
* `ProcessMemory` — the memory of the process, and what the kernel and Metal answer about it.
* `wrapExternal`, `toDlpack`, `fromDlpack`.
-/

/-! ### The memory of the process -/

/-- A region of virtual memory, as `mach_vm_region` reports it. -/
structure VmRegion where
  address : ℕ
  size : ℕ
  readable : Bool

/-- The memory of the process.  `mach_vm_region` returns the region at or after an address, so that
    the region ends behind the address. -/
structure ProcessMemory where
  memory : ℕ → UInt8
  machVmRegion : ℕ → Option VmRegion
  region_ends : ∀ a r, machVmRegion a = some r → a < r.address + r.size
  /-- Whether `newBufferWithBytesNoCopy:length:` returns a buffer. -/
  newBufferWithBytesNoCopy : (ptr length : ℕ) → Bool

/-- The loop of `is_range_cpu_readable`.  Every round moves the cursor on, so that `length` rounds
    are enough. -/
def walkRegions (proc : ProcessMemory) (stop : ℕ) : (rounds cursor : ℕ) → Bool
  | 0, _ => true
  | rounds + 1, cursor =>
    if cursor < stop then
      match proc.machVmRegion cursor with
      | none => false
      | some r =>
        if r.address > cursor then false
        else if r.readable then walkRegions proc stop rounds (r.address + r.size)
        else false
    else true

/-- `is_range_cpu_readable`. -/
def isRangeCpuReadable (proc : ProcessMemory) (start length : ℕ) : Bool :=
  if length = 0 then true else walkRegions proc ((start + length) % sizeTRange) length start

/-! ### `wrap_external` -/

/-- The format `%lx`. -/
def formatHex (n : ℕ) : String := String.ofList (Nat.toDigits 16 n)

/-- The pointer, aligned down to a page. -/
def alignedAddr (ptr : ℕ) : ℕ := ptr - ptr % kGPUPageSize

/-- What the pointer is ahead of its page. -/
def alignmentOffset (ptr : ℕ) : ℕ := ptr - alignedAddr ptr

/-- The length from the aligned pointer on, rounded up to a page boundary. -/
def totalLength (ptr size : ℕ) : ℕ := alignToPage (size + alignmentOffset ptr)

/-- `MNBuffer::wrap_external`: a buffer over the pages of the pointer, and the offset of the pointer
    in it. -/
def wrapExternal (proc : ProcessMemory) (dataPtr size : ℕ) : Except MNException (MTLBuffer × ℕ) :=
  if dataPtr = 0 then
    .error ⟨.InvalidArgument, "wrap_external: data_ptr must not be null"⟩
  else if size = 0 then
    .error ⟨.InvalidArgument, "wrap_external: size must be > 0"⟩
  else
    let aligned := alignedAddr dataPtr
    let length := totalLength dataPtr size
    if isRangeCpuReadable proc aligned length = false then
      .error ⟨.AllocationFailed, "wrap_external: memory range at 0x" ++ formatHex dataPtr
        ++ " (size=" ++ toString size ++ " bytes, aligned_length=" ++ toString length
        ++ ") is not fully CPU-accessible. "
        ++ "This typically happens with large MPS tensors whose backing "
        ++ "memory is GPU-only. Use tensor_from_cpu_data() with "
        ++ "t.cpu() as a fallback."⟩
    else if proc.newBufferWithBytesNoCopy aligned length = false then
      .error ⟨.AllocationFailed, "wrap_external: newBufferWithBytesNoCopy failed for pointer 0x"
        ++ formatHex dataPtr ++ " (size=" ++ toString size ++ " bytes). "
        ++ "The pointer may not be in GPU-accessible shared memory."⟩
    else .ok (⟨length, fun i => proc.memory (aligned + i)⟩, alignmentOffset dataPtr)

/-! ### Data types -/

/-- `DLDataTypeCode`. -/
def kDLInt : ℕ := 0
@[inherit_doc kDLInt] def kDLUInt : ℕ := 1
@[inherit_doc kDLInt] def kDLFloat : ℕ := 2
@[inherit_doc kDLInt] def kDLBfloat : ℕ := 4

/-- `DLDataType`. -/
structure DLDataType where
  code : ℕ
  bits : ℕ
  lanes : ℕ
  deriving DecidableEq, Repr

/-- `mndtype_to_dldtype`: there is no code for Booleans, which go out as bytes. -/
def mndtypeToDldtype : MNDType → DLDataType
  | .Float32 => ⟨kDLFloat, 32, 1⟩
  | .Float16 => ⟨kDLFloat, 16, 1⟩
  | .BFloat16 => ⟨kDLBfloat, 16, 1⟩
  | .Int64 => ⟨kDLInt, 64, 1⟩
  | .Int32 => ⟨kDLInt, 32, 1⟩
  | .Int16 => ⟨kDLInt, 16, 1⟩
  | .Int8 => ⟨kDLInt, 8, 1⟩
  | .UInt8 => ⟨kDLUInt, 8, 1⟩
  | .Bool => ⟨kDLUInt, 8, 1⟩

/-- `dldtype_to_mndtype`. -/
def dldtypeToMndtype (d : DLDataType) : Except MNException MNDType :=
  let unsupported : Except MNException MNDType := .error ⟨.InvalidArgument,
    "Unsupported DLDataType: code=" ++ toString d.code ++ ", bits=" ++ toString d.bits⟩
  if d.lanes ≠ 1 then .error ⟨.InvalidArgument, "DLPack vector types not supported"⟩
  else if d.code = kDLFloat then
    if d.bits = 32 then .ok .Float32 else if d.bits = 16 then .ok .Float16 else unsupported
  else if d.code = kDLBfloat then
    if d.bits = 16 then .ok .BFloat16 else unsupported
  else if d.code = kDLInt then
    if d.bits = 64 then .ok .Int64
    else if d.bits = 32 then .ok .Int32
    else if d.bits = 16 then .ok .Int16
    else if d.bits = 8 then .ok .Int8
    else unsupported
  else if d.code = kDLUInt then
    if d.bits = 8 then .ok .UInt8 else unsupported
  else unsupported

/-! ### `DLTensor` -/

/-- `DLDeviceType`. -/
def kDLCPU : ℕ := 1
@[inherit_doc kDLCPU] def kDLCUDAHost : ℕ := 3
@[inherit_doc kDLCPU] def kDLMetal : ℕ := 8

/-- `DLTensor`; the shape has `ndim` dimensions, and the strides, counted in elements, may be
    null. -/
structure DLTensor where
  data : ℕ
  deviceType : ℕ
  dtype : DLDataType
  shape : MNShape
  strides : Option (List ℤ)
  byteOffset : ℕ

/-- The loop that computes row-major strides, with the stride of the next dimension. -/
def rowMajorLoop : MNShape → List ℤ × ℤ
  | [] => ([], 1)
  | d :: shape =>
    let (strides, stride) := rowMajorLoop shape
    (stride :: strides, toInt64 (stride * d))

namespace DLTensor

/-- The strides, row-major ones when they are null. -/
def importStrides (dl : DLTensor) : List ℤ :=
  match dl.strides with
  | some strides => strides
  | none => (rowMajorLoop dl.shape).1

/-- The element that the fields describe: `data + byte_offset + sum(index * stride) * itemsize`. -/
def element (dl : DLTensor) (memory : ℕ → UInt8) (itemsize : ℕ) (idx : List ℕ) : List UInt8 :=
  (List.range itemsize).map fun b =>
    memory ((dl.data + dl.byteOffset + srcOff itemsize idx dl.importStrides + b) % sizeTRange)

end DLTensor

/-! ### Export and import -/

/-- `MNBuffer::data`, for a buffer whose contents are at `base`. -/
def ByteTensor.contents (t : ByteTensor) (base : ℕ) : ℕ :=
  match t.mode with
  | .Private => 0
  | .Shared => base

/-- `DLPackExporter::to_dlpack`. -/
def toDlpack (t : ByteTensor) (base : ℕ) : Except MNException DLTensor :=
  if t.isContiguous then
    .ok
      { data := t.contents base + t.offset
        deviceType := kDLMetal
        dtype := mndtypeToDldtype t.dtype
        shape := t.shape
        strides := some t.strides
        byteOffset := t.offset }
  else .error ⟨.InvalidArgument, "DLPack export requires contiguous tensor"⟩

/-- The loop that multiplies `total_bytes`. -/
def totalBytes (dtype : MNDType) (shape : MNShape) : ℕ :=
  shape.foldl (fun total d => (total * toSizeT d) % sizeTRange) (dtypeSize dtype)

/-- The import of a tensor in CPU memory: a new tensor, and the copy into it. -/
def importCpu (memory : ℕ → UInt8) (dl : DLTensor) (dtype : MNDType)
    (answer : Except MNException (ℕ → UInt8)) : Option (Except MNException ByteTensor) :=
  (ByteTensor.empty dl.shape dtype .Shared answer).map fun r => r.map fun result =>
    { result with
      buffer := result.buffer.store result.offset result.nbytes fun i =>
        memory ((dl.data + dl.byteOffset + i) % sizeTRange) }

/-- `DLPackImporter::from_dlpack`; `answer` is what the allocator does on the CPU path. -/
def fromDlpack (proc : ProcessMemory) (dlTensor : Option DLTensor)
    (answer : Except MNException (ℕ → UInt8)) : Option (Except MNException ByteTensor) :=
  match dlTensor with
  | none => some (.error ⟨.InvalidArgument, "DLManagedTensor is null"⟩)
  | some dl =>
    match dldtypeToMndtype dl.dtype with
    | .error e => some (.error e)
    | .ok dtype =>
      if dl.deviceType = kDLMetal then
        let data := (dl.data + dl.byteOffset) % sizeTRange
        some ((wrapExternal proc data (totalBytes dtype dl.shape)).map fun (buffer, offset) =>
          { buffer
            mode := .Shared
            shape := dl.shape
            strides := dl.importStrides
            dtype
            offset })
      else if dl.deviceType = kDLCPU ∨ dl.deviceType = kDLCUDAHost then
        importCpu proc.memory dl dtype answer
      else
        some (.error ⟨.InvalidArgument,
          "Unsupported DLPack device type: " ++ toString dl.deviceType⟩)

end MetalNative
