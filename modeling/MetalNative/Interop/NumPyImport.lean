import MetalNative.Core.View

namespace MetalNative

/-!
# Tensors from NumPy arrays

`Tensor.__init__` of `tensor.py`, the constructor of `MNBuffer`, and `tensor_from_numpy` of
`bind_core.cpp`.

* `NdLayout`, `NdArray` — a NumPy array: strides in bytes, of either sign, and the memory it lies
  in.
* `NumPy` — what NumPy decides in `astype` and `reshape`; `NumPy.Documented` is what it promises.
* `tensorFromNumpy` — the copy; `tensorInit` — the constructor in front of it.
-/

/-! ### NumPy arrays -/

/-- A NumPy data type: one of those that a tensor can have (`bfloat16` as an extension type), or any
    other. -/
inductive NpDtype where
  | native (d : MNDType)
  | other (num : ℕ) (itemsize : ℕ+)
  deriving DecidableEq

/-- `dtype.itemsize`. -/
def NpDtype.itemsize : NpDtype → ℕ
  | .native d => dtypeSize d
  | .other _ itemsize => itemsize

/-- How an array lies in memory: the address of its first element and its strides in bytes. -/
structure NdLayout where
  dtype : NpDtype
  shape : List ℕ
  strides : List ℤ
  data : ℤ
  deriving DecidableEq

/-- A NumPy array. -/
structure NdArray extends NdLayout where
  memory : ℤ → UInt8

/-- What the strides add up to at a multi-index. -/
def byteOffset : List ℤ → List ℕ → ℤ
  | s :: strides, i :: idx => i * s + byteOffset strides idx
  | _, _ => 0

/-- The address of an element. -/
def NdLayout.address (l : NdLayout) (idx : List ℕ) : ℤ := l.data + byteOffset l.strides idx

/-- The bytes of an element. -/
def NdArray.element (a : NdArray) (idx : List ℕ) : List UInt8 :=
  (List.range a.dtype.itemsize).map fun b : ℕ => a.memory (a.address idx + (b : ℤ))

/-- The flag `C_CONTIGUOUS`; the strides of dimensions of size `1` do not matter. -/
def CContiguous (itemsize : ℕ) : List ℕ → List ℤ → Prop
  | d :: shape, s :: strides =>
    (d ≠ 1 → s = (itemsize * shape.prod : ℕ)) ∧ CContiguous itemsize shape strides
  | [], [] => True
  | _, _ => False

/-! ### What NumPy decides -/

/-- How an element of one data type is converted to another one. -/
abbrev Conversion := NpDtype → NpDtype → List UInt8 → List UInt8

/-- What NumPy decides: the strides of the copy that `astype` makes, which keeps the order in which
    the elements lie in memory (`order='K'`), the shape that a request for `reshape` resolves to,
    the strides with which it can be had without a copy, and the memory of a copy with given
    elements. -/
structure NumPy where
  keepOrder : NdLayout → NpDtype → List ℤ
  reshapeShape : (size : ℕ) → List ℤ → Option (List ℕ)
  reshapeView : NdLayout → List ℕ → Option (List ℤ)
  fill : NdLayout → (List ℕ → List UInt8) → ℤ → UInt8

namespace NumPy

variable (np : NumPy)

/-- The layout of the copy that `astype` makes. -/
def astypeLayout (l : NdLayout) (d : NpDtype) : NdLayout := ⟨d, l.shape, np.keepOrder l d, 0⟩

/-- The layout of a copy in C order. -/
def cOrderLayout (d : NpDtype) (shape : List ℕ) : NdLayout :=
  ⟨d, shape, (Strided.rowMajorStrides shape).map fun s => ((d.itemsize * s : ℕ) : ℤ), 0⟩

/-- A new array with these elements. -/
def copy (l : NdLayout) (elements : List ℕ → List UInt8) : NdArray :=
  { l with memory := np.fill l elements }

/-- `ndarray.astype`. -/
def astype (convert : Conversion) (a : NdArray) (d : NpDtype) : NdArray :=
  np.copy (np.astypeLayout a.toNdLayout d) fun idx => convert a.dtype d (a.element idx)

/-- `ndarray.reshape`: a view when there is one, and a copy in C order otherwise.  `none` when the
    request does not fit the array. -/
def reshape (a : NdArray) (request : List ℤ) : Option NdArray :=
  (np.reshapeShape a.shape.prod request).map fun shape =>
    match np.reshapeView a.toNdLayout shape with
    | some strides => { a with shape, strides }
    | none =>
      np.copy (cOrderLayout a.dtype shape) fun idx =>
        a.element (Strided.unravel a.shape (Strided.position shape idx))

/-- What NumPy documents. -/
structure Documented : Prop where
  /-- A copy holds the elements it is made from. -/
  astype_fill : ∀ l d elements idx, (∀ i, (elements i).length = d.itemsize) →
    Broadcast.Within l.shape idx → (np.copy (np.astypeLayout l d) elements).element idx =
      elements idx
  cOrder_fill : ∀ d shape elements idx, (∀ i, (elements i).length = d.itemsize) →
    Broadcast.Within shape idx → (np.copy (cOrderLayout d shape) elements).element idx =
      elements idx
  /-- The elements of a copy lie side by side. -/
  keepOrder_dvd : ∀ l d, ∀ s ∈ np.keepOrder l d, (d.itemsize : ℤ) ∣ s
  keepOrder_length : ∀ l d, l.strides.length = l.shape.length →
    (np.keepOrder l d).length = l.shape.length
  /-- `reshape` keeps the number of elements, and every dimension that is not left to it. -/
  reshapeShape_prod : ∀ size request shape, np.reshapeShape size request = some shape →
    shape.prod = size
  reshapeShape_request : ∀ size request shape, np.reshapeShape size request = some shape →
    (∀ d ∈ request, 0 ≤ d) → shape.map Nat.cast = request
  /-- A view shows the elements in C order. -/
  reshapeView_address : ∀ l shape strides, np.reshapeView l shape = some strides →
    strides.length = shape.length ∧ ∀ idx, Broadcast.Within shape idx →
      byteOffset strides idx
        = byteOffset l.strides (Strided.unravel l.shape (Strided.position shape idx))

end NumPy

/-- What a conversion promises: elements of the new size, and no change when there is nothing to
    convert. -/
structure Conversion.Documented (convert : Conversion) : Prop where
  length : ∀ s d bytes, (convert s d bytes).length = d.itemsize
  same : ∀ d bytes, bytes.length = d.itemsize → convert d d bytes = bytes

/-! ### The Metal device -/

/-- The device: the length that it allows, and what `newBufferWithLength` returns. -/
structure BufferDevice where
  maxBufferLength : ℕ
  newBuffer : ℕ → Option (ℕ → UInt8)

/-- The constructor of `MNBuffer`. -/
def newMNBuffer (device : BufferDevice) (size : ℕ) : Except MNException MTLBuffer :=
  if size = 0 then .error ⟨.InvalidArgument, "MNBuffer: size must be > 0"⟩
  else if size > device.maxBufferLength then
    .error ⟨.AllocationFailed, "MNBuffer: requested size (" ++ toString size
      ++ ") exceeds device maximum (" ++ toString device.maxBufferLength ++ ")"⟩
  else match newBufferWithLength size (device.newBuffer size) with
    | some buffer => .ok buffer
    | none => .error ⟨.AllocationFailed, "MNBuffer: MTLDevice newBufferWithLength returned nil "
        ++ "(requested " ++ toString size ++ " bytes)"⟩

/-! ### `tensor_from_numpy` -/

/-- `nbytes` of `tensor_from_numpy`. -/
def importBytes (l : NdLayout) (dtype : MNDType) : ℕ :=
  (l.shape.prod * dtypeSize dtype) % sizeTRange

/-- `tensor_from_numpy`: `memcpy(buf->data(), info.ptr, nbytes)`. -/
def tensorFromNumpy (device : BufferDevice) (array : NdArray) (dtype : MNDType) :
    Except MNException ByteTensor :=
  let nbytes := importBytes array.toNdLayout dtype
  (newMNBuffer device nbytes).map fun buf =>
    let shape : MNShape := array.shape.map Nat.cast
    { buffer := buf.store 0 nbytes fun i => array.memory (array.data + i)
      mode := .Shared
      shape
      strides := shape.contiguousStrides
      dtype }

/-! ### `Tensor.__init__` -/

/-- A Python `Tensor`. -/
structure PyTensor where
  handle : ByteTensor
  shape_ : Option (List ℤ)
  dtype : MNDType

namespace PyTensor

/-- `Tensor.shape`. -/
def shape (t : PyTensor) : List ℤ :=
  match t.shape_ with
  | some shape => shape
  | none => t.handle.shape

/-- `Tensor.size`. -/
def size (t : PyTensor) : ℤ := t.shape.prod

/-- `Tensor.nbytes`. -/
def nbytes (t : PyTensor) : ℤ := t.size * dtypeSize t.dtype

end PyTensor

/-- `numpy_to_dtype`. -/
def numpyToDtype : NpDtype → Option MNDType
  | .native .BFloat16 => none
  | .native d => some d
  | .other _ _ => none

/-- The data type of the tensor. -/
def targetDtype (source : NpDtype) (dtype : Option MNDType) : MNDType :=
  match dtype with
  | some d => d
  | none => (numpyToDtype source).getD .Float32

/-- Whether `astype` is called: for an unknown data type, and for every one that is asked for apart
    from `bfloat16`. -/
def converts (source : NpDtype) : Option MNDType → Bool
  | some d => d ≠ .BFloat16
  | none => numpyToDtype source = none

/-- The array after the conversion. -/
def convertedArray (np : NumPy) (convert : Conversion) (a : NdArray) (dtype : Option MNDType) :
    NdArray :=
  if converts a.dtype dtype then
    np.astype convert a (.native (targetDtype a.dtype dtype))
  else a

/-- The array after the reshaping. -/
def reshapedArray (np : NumPy) (a : NdArray) (shape : Option (List ℤ)) : Option NdArray :=
  match shape with
  | none => some a
  | some request => if a.shape.map Nat.cast ≠ request then np.reshape a request else some a

/-- What `Tensor.__init__` raises. -/
inductive InitError where
  /-- The request does not fit the array. -/
  | ValueError
  | native (e : MNException)

/-- `Tensor.__init__` with data. -/
def tensorInit (np : NumPy) (convert : Conversion) (device : BufferDevice) (data : NdArray)
    (shape : Option (List ℤ)) (dtype : Option MNDType) : Except InitError PyTensor :=
  match reshapedArray np (convertedArray np convert data dtype) shape with
  | none => .error .ValueError
  | some npData =>
    match tensorFromNumpy device npData (targetDtype data.dtype dtype) with
    | .error e => .error (.native e)
    | .ok handle => .ok ⟨handle, shape, targetDtype data.dtype dtype⟩

end MetalNative
