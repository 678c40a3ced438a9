import MetalNative.Core.Error
import MetalNative.Lib.Broadcast

namespace MetalNative

/-!
# Data types, shapes and the bytes of a buffer

* `MNDType`, `dtypeSize` — `dtype.cpp`.
* `MNShape` — `shape.cpp`: dimensions are `int64_t` values.
* `MNTensor` — `tensor.cpp`: a buffer with a shape, strides, a data type and an offset.
* `MTLBuffer` — the contents of a Metal buffer; `copyFromBuffer` is the copy of a blit encoder.
-/

/-- `MNDType`. -/
inductive MNDType where
  | Float32
  | Float16
  | BFloat16
  | Int64
  | Int32
  | Int16
  | Int8
  | UInt8
  | Bool
  deriving DecidableEq, Repr

/-- Number of bytes occupied by a single element of the given type. -/
def dtypeSize : MNDType → ℕ
  | .Float32 => 4
  | .Float16 => 2
  | .BFloat16 => 2
  | .Int64 => 8
  | .Int32 => 4
  | .Int16 => 2
  | .Int8 => 1
  | .UInt8 => 1
  | .Bool => 1

/-- The value of an integer as an `int64_t`. -/
def toInt64 (n : ℤ) : ℤ := n.bmod sizeTRange

/-- Small values keep their value. -/
theorem toInt64_natCast {n : ℕ} (h : n < 2 ^ 63) : toInt64 n = n := by
  unfold toInt64 sizeTRange
  apply Int.bmod_eq_of_le <;> omega

/-- The value of an `int64_t` as a `size_t`. -/
def toSizeT (n : ℤ) : ℕ := (n % sizeTRange).toNat

theorem toSizeT_natCast {n : ℕ} (h : n < sizeTRange) : toSizeT n = n := by
  rw [toSizeT, ← Int.natCast_mod, Int.toNat_natCast, Nat.mod_eq_of_lt h]

/-- The dimensions of an `MNShape`. -/
abbrev MNShape := List Int

namespace MNShape

/-- `numel`: the product of the dimensions in `int64_t`. -/
def numel (shape : MNShape) : ℤ := shape.foldl (fun acc d => toInt64 (acc * d)) 1

/-- `numel` of dimensions that are not negative: their product, as an `int64_t`. -/
theorem numel_map_natCast (dims : List ℕ) :
    numel (dims.map Nat.cast) = toInt64 (dims.prod : ℕ) := by
  have hfold : ∀ (acc : ℤ) (ds : List ℕ),
      toInt64 ((ds.map Nat.cast : List ℤ).foldl (fun acc d => toInt64 (acc * d)) acc)
        = toInt64 (acc * (ds.prod : ℕ)) := by
    intro acc ds
    induction ds generalizing acc with
    | nil => simp
    | cons d ds ih =>
      rw [List.map_cons, List.foldl_cons, ih, List.prod_cons, Nat.cast_mul, ← mul_assoc]
      unfold toInt64
      rw [Int.bmod_mul_bmod]
  rw [numel, ← one_mul ((dims.prod : ℕ) : ℤ), ← hfold]
  -- a loop that has run leaves an `int64_t`, and `1` is one
  cases dims using List.reverseRecOn with
  | nil => decide
  | append_singleton ds d =>
    simp only [List.map_append, List.map_cons, List.map_nil, List.foldl_append, List.foldl_cons,
      List.foldl_nil, toInt64, Int.bmod_bmod]

/-- `to_string`. -/
def toString (shape : MNShape) : String :=
  "[" ++ ", ".intercalate (shape.map fun d => ToString.toString d) ++ "]"

/-- `broadcast_with`: the dimensions are walked through from the trailing one on. -/
def broadcastWith (shape other : MNShape) : Except MNException MNShape :=
  match Broadcast.common shape.reverse other.reverse with
  | some result => .ok result.reverse
  | none => .error ⟨.InvalidArgument,
      "shapes " ++ shape.toString ++ " and " ++ other.toString ++ " are not broadcastable"⟩

/-- The loop of `is_contiguous`, from the trailing dimension on. -/
def stridesMatch (expected : ℤ) : List ℤ → List ℤ → Bool
  | d :: ds, s :: ss =>
    if d ≠ 1 then s = expected && stridesMatch (toInt64 (expected * d)) ds ss
    else stridesMatch expected ds ss
  | _, _ => true

/-- `is_contiguous`. -/
def isContiguous (shape : MNShape) (strides : List ℤ) : Bool :=
  strides.length = shape.length && stridesMatch 1 shape.reverse strides.reverse

/-- `contiguous_strides`, filled in from the trailing dimension on. -/
def contiguousStrides : MNShape → List ℤ
  | [] => []
  | [_] => [1]
  | _ :: d :: ds =>
    match contiguousStrides (d :: ds) with
    | [] => []
    | s :: ss => toInt64 (s * d) :: s :: ss

end MNShape

/-! ### Tensors -/

/-- An `MNTensor`, with the elements of its buffer and its offset counted in elements.  A tensor
that has been allocated has no negative dimension, and its elements can be counted. -/
structure MNTensor (α : Type*) where
  buffer : ℕ → α
  dims : List ℕ
  strides : List ℤ
  dtype : MNDType
  offset : ℕ := 0
  dims_lt : ∀ d ∈ dims, d < 2 ^ 63
  numel_lt : dims.prod < 2 ^ 63

namespace MNTensor

variable {α : Type*}

/-- `shape()`. -/
def shape (t : MNTensor α) : MNShape := t.dims.map Nat.cast

/-- `numel()`. -/
def numel (t : MNTensor α) : ℤ := t.shape.numel

/-- `is_contiguous()`. -/
def isContiguous (t : MNTensor α) : Bool := t.shape.isContiguous t.strides

/-- The elements from the tensor's offset on. -/
def data (t : MNTensor α) (i : ℕ) : α := t.buffer (t.offset + i)

/-- A dimension is a number of elements. -/
theorem shape_getD (t : MNTensor α) (k : ℕ) :
    t.shape.getD k 0 = (t.dims.getD k 0 : ℕ) := by
  simp only [shape, List.getD_eq_getElem?_getD, List.getElem?_map]
  cases t.dims[k]? with
  | none | some => simp

theorem numel_eq (t : MNTensor α) : t.numel = (t.dims.prod : ℕ) := by
  rw [numel, shape, MNShape.numel_map_natCast]
  exact toInt64_natCast t.numel_lt

end MNTensor

/-- The checks of `MNTensor::empty`; `answer` is what the allocator does. -/
def emptyTensorCheck (shape : MNShape) (dtype : MNDType) (answer : Except MNException Unit) :
    Except MNException Unit :=
  if shape.numel > 0 ∧ toSizeT shape.numel > SIZE_MAX / dtypeSize dtype then
    .error ⟨.OutOfMemory, "Tensor allocation would overflow: numel=" ++
      ToString.toString shape.numel
      ++ ", dtype_size=" ++ ToString.toString (dtypeSize dtype)⟩
  else answer

/-! ### Buffers -/

/-- The contents of a Metal buffer; only the first `length` bytes exist. -/
structure MTLBuffer where
  length : ℕ
  bytes : ℕ → UInt8

/-- `newBufferWithLength`: Metal does not allow zero-length buffers and may refuse any other; a new
    buffer holds some bytes. -/
def newBufferWithLength (length : ℕ) (answer : Option (ℕ → UInt8)) : Option MTLBuffer :=
  if length = 0 then none else answer.map fun bytes => ⟨length, bytes⟩

namespace MTLBuffer

/-- The buffer after `size` bytes of `src` have been stored at `destinationOffset`. -/
def store (dst : MTLBuffer) (destinationOffset size : ℕ) (src : ℕ → UInt8) : MTLBuffer :=
  { dst with
    bytes := fun i =>
      if destinationOffset ≤ i ∧ i < destinationOffset + size then src (i - destinationOffset)
      else dst.bytes i }

/-- `copyFromBuffer:sourceOffset:toBuffer:destinationOffset:size:`, the new destination; `none`
    when the copy leaves one of the buffers. -/
def copyFromBuffer (src : MTLBuffer) (sourceOffset : ℕ) (dst : MTLBuffer)
    (destinationOffset size : ℕ) : Option MTLBuffer :=
  if sourceOffset + size ≤ src.length ∧ destinationOffset + size ≤ dst.length then
    some (dst.store destinationOffset size fun i => src.bytes (sourceOffset + i))
  else none

variable {src dst dst' : MTLBuffer} {so d size i : ℕ}

/-- What a copy that stays inside its buffers does. -/
theorem copyFromBuffer_eq_some (h : copyFromBuffer src so dst d size = some dst') :
    so + size ≤ src.length ∧ d + size ≤ dst.length ∧ dst'.length = dst.length ∧
      (∀ i < size, dst'.bytes (d + i) = src.bytes (so + i)) ∧
      ∀ i, (i < d ∨ d + size ≤ i) → dst'.bytes i = dst.bytes i := by
  unfold copyFromBuffer at h
  split_ifs at h with hin
  obtain rfl := Option.some.inj h
  refine ⟨hin.1, hin.2, rfl, fun i hi => ?_, fun i hi => ?_⟩
  · have hpos : d ≤ d + i ∧ d + i < d + size := by omega
    simp [store, hpos]
  · have hneg : ¬ (d ≤ i ∧ i < d + size) := by omega
    simp [store, hneg]

end MTLBuffer

end MetalNative
