import MetalNative.Core.Layout
import MetalNative.Lib.Run
import MetalNative.Memory.Allocator

namespace MetalNative

/-!
# Views of a buffer

`tensor.cpp`: `MNTensor::empty`, `reshape`, `slice` and `clone` on a tensor with the bytes of its
buffer, its strides in elements and its offset in bytes.

* `ByteTensor` — the tensor; `ByteTensor.address` and `ByteTensor.element` are where a multi-index
  points to and what is found there.
* `allocatePooled` — `MNBuffer::allocate_pooled`; what the device answers is a parameter.
* `ViewCall`, `viewStep` — a chain of calls.  `ViewState.origin` follows a multi-index of the
  current tensor back to the tensor that the chain began with.
-/

/-- An `MNTensor`, with the bytes of its buffer. -/
structure ByteTensor where
  buffer : MTLBuffer
  mode : StorageMode
  shape : MNShape
  strides : List ℤ
  dtype : MNDType
  offset : ℕ := 0

/-- `MNBuffer::allocate_pooled`: the allocator hands out a block of the request's size class, with
    whatever bytes it holds.  `none` when the size class is never found. -/
def allocatePooled (size : ℕ) (answer : Except MNException (ℕ → UInt8)) :
    Option (Except MNException MTLBuffer) :=
  if size = 0 then some (.error ⟨.InvalidArgument, "allocate_pooled: size must be > 0"⟩)
  else (nextSizeClass size).map fun sizeClass => answer.map fun bytes => ⟨sizeClass, bytes⟩

namespace ByteTensor

/-! ### Queries -/

/-- `numel()`. -/
def numel (t : ByteTensor) : ℤ := t.shape.numel

/-- The size of an element. -/
def elem (t : ByteTensor) : ℕ := dtypeSize t.dtype

/-- `nbytes()`. -/
def nbytes (t : ByteTensor) : ℕ := (toSizeT t.numel * t.elem) % sizeTRange

/-- `is_contiguous()`. -/
def isContiguous (t : ByteTensor) : Bool := t.shape.isContiguous t.strides

/-- `raw_data()`: the bytes from the tensor's offset on. -/
def rawData (t : ByteTensor) (i : ℕ) : UInt8 := t.buffer.bytes (t.offset + i)

/-- Where the element at a multi-index begins in the buffer. -/
def address (t : ByteTensor) (idx : List ℕ) : ℕ :=
  (t.offset + srcOff t.elem idx t.strides) % sizeTRange

/-- The bytes of the element at a multi-index. -/
def element (t : ByteTensor) (idx : List ℕ) : List UInt8 :=
  (List.range t.elem).map fun b => t.buffer.bytes (t.address idx + b)

/-! ### `empty` -/

/-- `MNTensor::empty`. -/
def empty (shape : MNShape) (dtype : MNDType) (mode : StorageMode)
    (answer : Except MNException (ℕ → UInt8)) : Option (Except MNException ByteTensor) :=
  match emptyTensorCheck shape dtype (.ok ()) with
  | .error e => some (.error e)
  | .ok () =>
    let nbytes := (toSizeT shape.numel * dtypeSize dtype) % sizeTRange
    -- Metal does not allow zero-length buffers
    let alloc := max nbytes 1
    (allocatePooled alloc answer).map fun r => r.map fun buffer =>
      { buffer, mode, shape, strides := shape.contiguousStrides, dtype }

/-! ### `reshape` -/

/-- The loop of `reshape` over the requested dimensions: the place of the one to be inferred and
    the product of the others, an `int64_t`. -/
def scanDims : ℕ → List ℤ → Option ℕ → ℤ → Except MNException (Option ℕ × ℤ)
  | _, [], inferred, known => .ok (inferred, known)
  | i, d :: dims, inferred, known =>
    if d = -1 then
      if inferred = none then scanDims (i + 1) dims (some i) known
      else .error ⟨.InvalidArgument, "reshape: at most one dimension may be -1"⟩
    else if d ≥ 0 then scanDims (i + 1) dims inferred (toInt64 (known * d))
    else .error ⟨.InvalidArgument, "reshape: dimensions must be non-negative (or -1)"⟩

/-- The dimensions that `reshape` resolves the request to. -/
def resolveDims (total : ℤ) (newDims : List ℤ) : Except MNException MNShape :=
  match scanDims 0 newDims none 1 with
  | .error e => .error e
  | .ok (some inferred, known) =>
    if known ≠ 0 ∧ total.tmod known = 0 then .ok (newDims.set inferred (total.tdiv known))
    else .error ⟨.InvalidArgument, "reshape: cannot infer dimension; numel=" ++ toString total
      ++ " is not divisible by " ++ toString known⟩
  | .ok (none, known) =>
    if known = total then .ok newDims
    else .error ⟨.InvalidArgument, "reshape: new shape numel (" ++ toString known
      ++ ") != current numel (" ++ toString total ++ ")"⟩

/-- `reshape`. -/
def reshape (t : ByteTensor) (newDims : MNShape) : Except MNException ByteTensor :=
  if t.isContiguous then
    (resolveDims t.numel newDims).map fun resolved =>
      { t with shape := resolved, strides := resolved.contiguousStrides }
  else .error ⟨.InvalidArgument, "reshape requires a contiguous tensor"⟩

/-! ### `slice` -/

/-- The normalised start of a slice of a dimension. -/
def sliceStart (dimSize start : ℤ) : ℤ :=
  let s := if start < 0 then start + dimSize else start
  max 0 (min s dimSize)

/-- The normalised end of a slice of a dimension. -/
def sliceEnd (dimSize start stop : ℤ) : ℤ :=
  let e := if stop < 0 then stop + dimSize else stop
  max (sliceStart dimSize start) (min e dimSize)

/-- The dimension that a slice is along. -/
def sliceDim (t : ByteTensor) (dim : ℤ) : ℤ := if dim < 0 then dim + t.shape.length else dim

/-- `slice`. -/
def slice (t : ByteTensor) (dim start stop : ℤ) : Except MNException ByteTensor :=
  let d := t.sliceDim dim
  if d ≥ 0 ∧ d < t.shape.length then
    let dimSize := t.shape.getD d.toNat 0
    let s := sliceStart dimSize start
    let e := sliceEnd dimSize start stop
    .ok { t with
      shape := t.shape.set d.toNat (e - s)
      offset := (t.offset + toSizeT s * toSizeT (t.strides.getD d.toNat 0) * t.elem) % sizeTRange }
  else .error ⟨.InvalidArgument, "slice: dimension " ++ toString dim ++ " out of range"⟩

/-! ### `clone` -/

/-- The loop of `clone` over the elements of a tensor that is not contiguous, with `n` elements to
    go; the dimensions are compared as the `int64_t` values that are not negative. -/
def copyElements (t : ByteTensor) : (n flat : ℕ) → List ℕ → MTLBuffer → MTLBuffer
  | 0, _, _, dst => dst
  | n + 1, flat, idx, dst =>
    t.copyElements n (flat + 1) (Strided.advance t.shape.bounds idx).1
      (dst.store (flat * t.elem) t.elem fun b => t.buffer.bytes (t.address idx + b))

/-- The copy into the new buffer. -/
def copyTo (t : ByteTensor) (dst : MTLBuffer) : MTLBuffer :=
  if t.isContiguous then dst.store 0 t.nbytes t.rawData
  else t.copyElements t.numel.toNat 0 (List.replicate t.shape.length 0) dst

/-- `clone`. -/
def clone (t : ByteTensor) (answer : Except MNException (ℕ → UInt8)) :
    Option (Except MNException ByteTensor) :=
  if t.mode = .Shared then
    let alloc := max t.nbytes 1
    (allocatePooled alloc answer).map fun r => r.map fun newBuf =>
      { buffer := t.copyTo newBuf
        mode := .Shared
        shape := t.shape
        strides := t.shape.contiguousStrides
        dtype := t.dtype }
  else some (.error ⟨.InvalidArgument, "clone: cannot clone a Private-mode tensor on the CPU"⟩)

end ByteTensor

/-! ### Chains of calls -/

/-- The calls that make one tensor from another. -/
inductive ViewCall where
  | reshape (newDims : MNShape)
  | slice (dim start stop : ℤ)
  | clone (answer : Except MNException (ℕ → UInt8))

namespace ViewCall

/-- The tensor that a call returns. -/
def result (t : ByteTensor) : ViewCall → Option (Except MNException ByteTensor)
  | .reshape newDims => some (t.reshape newDims)
  | .slice dim start stop => some (t.slice dim start stop)
  | .clone answer => t.clone answer

/-- What a call does to multi-indices: the index in `t` of the element that its result `t'` has at
    `idx`.  A slice shifts one coordinate, `reshape` keeps the row-major order, and a clone keeps
    every index. -/
def source (t t' : ByteTensor) : ViewCall → List ℕ → List ℕ
  | .reshape _ => fun idx =>
    Strided.unravel t.shape.bounds (Strided.position t'.shape.bounds idx)
  | .slice dim start _ => fun idx =>
    let d := (t.sliceDim dim).toNat
    idx.modify d (· + (ByteTensor.sliceStart (t.shape.getD d 0) start).toNat)
  | .clone _ => id

end ViewCall

/-- A chain of calls: its last tensor, and where the elements of that tensor come from. -/
structure ViewState where
  tensor : ByteTensor
  origin : List ℕ → List ℕ

/-- The chain goes on with a call that succeeds. -/
def viewStep (s : ViewState) (call : ViewCall) : Option ViewState :=
  match call.result s.tensor with
  | some (.ok t') => some ⟨t', s.origin ∘ call.source s.tensor t'⟩
  | _ => none

/-- The first state of a chain. -/
def viewInit (t : ByteTensor) : ViewState := ⟨t, id⟩

end MetalNative
