import MetalNative.Graph.OperatorKeys

namespace MetalNative

/-!
# `max_pool2d` and `avg_pool2d`: the host code

A translation of the host side of `pooling.mm`, and of the end that all operators that run a graph
share: the graph's result is checked, the output is allocated, the graph is run, and the dictionary
that it returns is checked.

* `GraphAnswers` — what MPSGraph and the allocator answer.
* `runGraph` — the common end.
* `poolOutput` — the size of the output along one dimension.
* `PoolCall` — the two operators; they differ in their names and in the node that they build.
-/

/-- What MPSGraph and the allocator answer to an operator that runs a graph. -/
structure GraphAnswers (α : Type) where
  /-- The tensor at the end of the graph is not `nil`. -/
  graph : Bool := true
  /-- A new buffer, with the elements that it happens to hold. -/
  allocate : MNShape → MNDType → Except MNException (ℕ → α)
  /-- The returned dictionary has an entry for that tensor. -/
  results : Bool := true

/-- The tensor that an operator returns: dense, at the beginning of a buffer of its own. -/
structure NewTensor (α : Type) where
  shape : MNShape
  dtype : MNDType
  data : ℕ → α

/-- `MNTensor::empty`, with the elements of the new buffer. -/
def newTensor {α : Type} (shape : MNShape) (dtype : MNDType) (a : GraphAnswers α) :
    Except MNException (NewTensor α) := do
  emptyTensorCheck shape dtype (.ok ())
  let data ← a.allocate shape dtype
  return ⟨shape, dtype, data⟩

/-- From the built graph on.  The dictionary is looked into, and dropped. -/
def runGraph {α : Type} (name : String) (output_shape : MNShape) (dtype : MNDType)
    (a : GraphAnswers α) : Except MNException (NewTensor α) := do
  if a.graph = false then throw ⟨.InternalError, name ++ ": MPSGraph operation failed"⟩
  let result ← newTensor output_shape dtype a
  if a.results = false then throw ⟨.InternalError, name ++ ": graph execution failed"⟩
  return result

/-! ### Pooling -/

/-- `H_out` and `W_out`: the `int64_t` size is converted to a `size_t` for the sum.  The processors
    that have Metal divide by zero with the quotient `0`. -/
def poolOutput (size : ℕ) (kernel_size stride padding : UInt64) : ℤ :=
  toInt64 ((UInt64.ofNat size + 2 * padding - kernel_size) / stride + 1).toNat

/-- The arguments of `max_pool2d` and `avg_pool2d`. -/
structure PoolCall (α : Type) where
  input : MNTensor α
  kernel_size : List UInt64
  stride : List UInt64
  padding : List UInt64

/-- `to_mps_datatype` of `pooling.mm`. -/
def poolDatatype : MNDType → Except MNException MPSDataType
  | .Float32 => .ok .Float32
  | .Float16 => .ok .Float16
  | .BFloat16 => .ok .BFloat16
  | _ => .error ⟨.InvalidArgument, "pooling: unsupported dtype"⟩

namespace PoolCall

variable {α : Type}

/-- `actual_stride`. -/
def actualStride (c : PoolCall α) : List UInt64 :=
  if c.stride.isEmpty then c.kernel_size else c.stride

/-- `kernel_size[i]`. -/
def kernelAt (c : PoolCall α) (i : ℕ) : UInt64 := c.kernel_size.getD i 0

/-- `actual_stride[i]`. -/
def strideAt (c : PoolCall α) (i : ℕ) : UInt64 := c.actualStride.getD i 0

/-- `padding[i]`. -/
def paddingAt (c : PoolCall α) (i : ℕ) : UInt64 := c.padding.getD i 0

/-- The checks at the start. -/
def check (c : PoolCall α) (name : String) : Except MNException Unit := do
  mnCheck (c.input.ndim = 4) (name ++ ": input must be 4D [N, C, H, W]")
  mnCheck (c.kernel_size.length = 2) (name ++ ": kernel_size must have 2 elements")
  mnCheck (c.padding.length = 2) (name ++ ": padding must have 2 elements")
  mnCheck (c.actualStride.length = 2) (name ++ ": stride must have 2 elements")

/-- The size of the output along spatial dimension `i`. -/
def outputAt (c : PoolCall α) (i : ℕ) : ℤ :=
  poolOutput (c.input.dim (2 + i)) (c.kernelAt i) (c.strideAt i) (c.paddingAt i)

/-- `output_shape`. -/
def outputShape (c : PoolCall α) : MNShape :=
  [c.input.dim 0, c.input.dim 1, c.outputAt 0, c.outputAt 1]

/-- The common text of the two. -/
def pool2d (name : String) (c : PoolCall α) (a : GraphAnswers α) :
    Except MNException (NewTensor α) := do
  c.check name
  let _dataType ← poolDatatype c.input.dtype
  runGraph name c.outputShape c.input.dtype a

/-- `max_pool2d`. -/
def maxPool2d (c : PoolCall α) (a : GraphAnswers α) : Except MNException (NewTensor α) :=
  pool2d "max_pool2d" c a

/-- `avg_pool2d`. -/
def avgPool2d (c : PoolCall α) (a : GraphAnswers α) : Except MNException (NewTensor α) :=
  pool2d "avg_pool2d" c a

end PoolCall

/-! ### What is returned -/

section Results

variable {α : Type} {name : String} {shape : MNShape} {dtype : MNDType} {a : GraphAnswers α}
  {r : NewTensor α}

theorem newTensor_eq_ok :
    newTensor shape dtype a = .ok r ↔
      emptyTensorCheck shape dtype (.ok ()) = .ok () ∧
        ∃ data, a.allocate shape dtype = .ok data ∧ r = ⟨shape, dtype, data⟩ := by
  unfold newTensor
  cases emptyTensorCheck shape dtype (.ok ()) with
  | error e => exact iff_of_false nofun nofun
  | ok u =>
    cases a.allocate shape dtype with
    | error e => exact iff_of_false nofun nofun
    | ok data =>
      constructor
      · intro h
        exact ⟨rfl, data, rfl, (Except.ok.inj h).symm⟩
      · rintro ⟨-, data', hdata, rfl⟩
        obtain rfl := Except.ok.inj hdata
        rfl

/-- **What the common end returns**: a new tensor with whatever its buffer holds. -/
theorem runGraph_eq_ok :
    runGraph name shape dtype a = .ok r ↔
      a.graph = true ∧ a.results = true ∧ newTensor shape dtype a = .ok r := by
  unfold runGraph
  cases a.graph with
  | false => exact iff_of_false nofun nofun
  | true =>
    cases newTensor shape dtype a with
    | error e => exact iff_of_false nofun nofun
    | ok t =>
      cases a.results with
      | false => exact iff_of_false nofun nofun
      | true => exact ⟨fun h => ⟨rfl, rfl, h⟩, fun h => h.2.2⟩

/-- What the two pooling operators return. -/
theorem PoolCall.pool2d_eq_ok {c : PoolCall α} :
    c.pool2d name a = .ok r ↔
      c.check name = .ok () ∧ (∃ dataType, poolDatatype c.input.dtype = .ok dataType) ∧
        a.graph = true ∧ a.results = true ∧ newTensor c.outputShape c.input.dtype a = .ok r := by
  rw [← @runGraph_eq_ok _ name]
  unfold PoolCall.pool2d
  cases c.check name with
  | error e => exact iff_of_false nofun nofun
  | ok u =>
    cases poolDatatype c.input.dtype with
    | error e => exact iff_of_false nofun nofun
    | ok dataType => exact ⟨fun h => ⟨rfl, ⟨dataType, rfl⟩, h⟩, fun h => h.2.2⟩

end Results

end MetalNative
