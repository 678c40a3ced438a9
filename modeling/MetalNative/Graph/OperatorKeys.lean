import MetalNative.Graph.GraphCache
import MetalNative.Matmul.HostDispatch
import MetalNative.Lib.BitFields
import MetalNative.Lib.MemoTable

namespace MetalNative

/-!
# The graphs of `conv2d` and `matmul`, and their keys

A translation of `make_conv2d_key` and `make_matmul_key`, and of what the two operators build when
their key is not in the cache.  A graph is what MPSGraph is told: its placeholders, the descriptor
or the permutations, and the bias.

* `Conv2dCall`, `MatmulCall` — the arguments.
* `key` — the key under which a graph is kept.
* `build` — the graph, or the exception.
-/

/-- `MPSDataType`. -/
inductive MPSDataType where
  | Float32
  | Float16
  | BFloat16
  | Int32
  deriving DecidableEq, Repr

/-- `placeholderWithShape:dataType:`. -/
structure Placeholder where
  shape : List ℕ
  dataType : MPSDataType
  deriving DecidableEq, Repr

/-- The dimensions of a shape, each `static_cast<size_t>`. -/
def sizeTuple (dims : List ℕ) : List UInt64 := dims.map UInt64.ofNat

/-- The dimensions of two shapes with the separator between them. -/
def shapeTuple (first second : List ℕ) : List UInt64 := sizeTuple first ++ 0 :: sizeTuple second

/-! ### `conv2d` -/

/-- The arguments of `conv2d`. -/
structure Conv2dCall (α : Type*) where
  input : MNTensor α
  weight : MNTensor α
  bias : MNTensor α
  stride : List UInt64
  padding : List UInt64
  dilation : List UInt64
  groups : UInt64

/-- The arguments of `descriptorWithStrideInX:` that depend on the call. -/
structure Conv2dDescriptor where
  strideInX : UInt64
  strideInY : UInt64
  dilationRateInX : UInt64
  dilationRateInY : UInt64
  groups : UInt64
  paddingLeft : UInt64
  paddingRight : UInt64
  paddingTop : UInt64
  paddingBottom : UInt64
  deriving DecidableEq, Repr

/-- The placeholder of the bias, and the shape that it is given for the addition. -/
structure BiasNodes where
  placeholder : Placeholder
  reshaped : List ℕ
  deriving DecidableEq, Repr

structure Conv2dGraph where
  input : Placeholder
  weight : Placeholder
  descriptor : Conv2dDescriptor
  bias : Option BiasNodes
  deriving DecidableEq, Repr

namespace Conv2dCall

variable {α : Type*}

/-- `stride[i]`. -/
def strideAt (c : Conv2dCall α) (i : ℕ) : UInt64 := c.stride.getD i 0

/-- `padding[i]`. -/
def paddingAt (c : Conv2dCall α) (i : ℕ) : UInt64 := c.padding.getD i 0

/-- `dilation[i]`. -/
def dilationAt (c : Conv2dCall α) (i : ℕ) : UInt64 := c.dilation.getD i 0

/-- `has_bias`. -/
def hasBias (c : Conv2dCall α) : Bool := c.bias.numel > 0

/-- The checks at the start of `conv2d`. -/
def check (c : Conv2dCall α) : Except MNException Unit := do
  if ¬ c.input.ndim = 4 then
    throw ⟨.InvalidArgument, "conv2d: input must be 4D [N, C_in, H, W]"⟩
  if ¬ c.weight.ndim = 4 then
    throw ⟨.InvalidArgument, "conv2d: weight must be 4D [C_out, C_in/groups, kH, kW]"⟩
  if ¬ c.stride.length = 2 then
    throw ⟨.InvalidArgument, "conv2d: stride must have 2 elements"⟩
  if ¬ c.padding.length = 2 then
    throw ⟨.InvalidArgument, "conv2d: padding must have 2 elements"⟩
  if ¬ c.dilation.length = 2 then
    throw ⟨.InvalidArgument, "conv2d: dilation must have 2 elements"⟩
  if ¬ c.input.dtype = c.weight.dtype then
    throw ⟨.InvalidArgument, "conv2d: input and weight dtypes must match"⟩

/-- `topology_hash` of `make_conv2d_key`. -/
def topologyHash (c : Conv2dCall α) : UInt64 :=
  (0x434F4E5632440000 : UInt64)
    ^^^ ((c.strideAt 0 <<< (32 : UInt64)) ||| (c.strideAt 1 <<< (24 : UInt64)))
    ^^^ ((c.paddingAt 0 <<< (16 : UInt64)) ||| (c.paddingAt 1 <<< (8 : UInt64)))
    ^^^ ((c.dilationAt 0 <<< (4 : UInt64)) ||| c.dilationAt 1)
    ^^^ (c.groups <<< (48 : UInt64))
    ^^^ (if c.hasBias then 1 else 0)

/-- `make_conv2d_key`. -/
def key (c : Conv2dCall α) : GraphCacheKey where
  topology_hash := c.topologyHash
  shape_tuple := shapeTuple c.input.dims c.weight.dims
  dtype := c.input.dtype

/-- `to_mps_datatype` of `conv.mm`. -/
def toMpsDatatype : MNDType → Except MNException MPSDataType
  | .Float32 => .ok .Float32
  | .Float16 => .ok .Float16
  | .BFloat16 => .ok .BFloat16
  | _ => .error ⟨.InvalidArgument, "conv2d: unsupported dtype"⟩

def descriptor (c : Conv2dCall α) : Conv2dDescriptor where
  strideInX := c.strideAt 1
  strideInY := c.strideAt 0
  dilationRateInX := c.dilationAt 1
  dilationRateInY := c.dilationAt 0
  groups := c.groups
  paddingLeft := c.paddingAt 1
  paddingRight := c.paddingAt 1
  paddingTop := c.paddingAt 0
  paddingBottom := c.paddingAt 0

/-- What is added to the graph for the bias. -/
def buildBias (c : Conv2dCall α) : Except MNException (Option BiasNodes) :=
  if c.hasBias then
    if ¬ c.bias.ndim = 1 then .error ⟨.InvalidArgument, "conv2d: bias must be 1D"⟩
    else if ¬ c.bias.dtype = c.input.dtype then
      .error ⟨.InvalidArgument, "conv2d: bias dtype must match input dtype"⟩
    else
      (toMpsDatatype c.bias.dtype).map fun dataType =>
        some ⟨⟨c.bias.dims, dataType⟩, [1, c.bias.dim 0, 1, 1]⟩
  else .ok none

/-- The graph that a miss builds. -/
def build (c : Conv2dCall α) : Except MNException Conv2dGraph := do
  let inputType ← toMpsDatatype c.input.dtype
  let weightType ← toMpsDatatype c.weight.dtype
  let bias ← c.buildBias
  return ⟨⟨c.input.dims, inputType⟩, ⟨c.weight.dims, weightType⟩, c.descriptor, bias⟩

end Conv2dCall

/-! ### `matmul` -/

/-- The arguments of `matmul`. -/
structure MatmulCall (α : Type*) where
  a : MNTensor α
  b : MNTensor α
  transpose_a : Bool
  transpose_b : Bool

structure MatmulGraph where
  a : Placeholder
  b : Placeholder
  permutation_a : Option (List ℕ)
  permutation_b : Option (List ℕ)
  deriving DecidableEq, Repr

namespace MatmulCall

variable {α : Type*}

/-- The call passes the checks and takes the MPSGraph path. -/
def OnGraphPath (c : MatmulCall α) : Prop :=
  ∃ d, matmulCheck c.a c.b c.transpose_a c.transpose_b = .ok d ∧ matmulPath c.a c.b d = .MPSGraph

/-- `make_matmul_key`. -/
def key (c : MatmulCall α) : GraphCacheKey where
  topology_hash := (0x4D41544D554C0000 : UInt64)
    ^^^ ((if c.transpose_a then 1 else 0) ||| (if c.transpose_b then 2 else 0))
  shape_tuple := shapeTuple c.a.dims c.b.dims
  dtype := c.a.dtype

/-- `to_mps_datatype` of `matmul.mm`. -/
def toMpsDatatype : MNDType → Except MNException MPSDataType
  | .Float32 => .ok .Float32
  | .Float16 => .ok .Float16
  | .BFloat16 => .ok .BFloat16
  | .Int32 => .ok .Int32
  | _ => .error ⟨.InvalidArgument, "matmul: unsupported dtype"⟩

/-- `transposeTensor:permutation:`: the last two dimensions change places. -/
def permutation (transpose : Bool) (ndim : ℕ) : Option (List ℕ) :=
  if transpose then some (List.range (ndim - 2) ++ [ndim - 1, ndim - 2]) else none

/-- The graph that a miss builds. -/
def build (c : MatmulCall α) : Except MNException MatmulGraph := do
  let aType ← toMpsDatatype c.a.dtype
  let bType ← toMpsDatatype c.b.dtype
  return ⟨⟨c.a.dims, aType⟩, ⟨c.b.dims, bType⟩, permutation c.transpose_a c.a.ndim,
    permutation c.transpose_b c.b.ndim⟩

end MatmulCall

end MetalNative
