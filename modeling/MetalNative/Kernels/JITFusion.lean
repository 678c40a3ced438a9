import MetalNative.Core.Error

namespace MetalNative

/-!
# Fused element-wise kernels: keys and sources

A translation of the first half of `jit_fusion.mm`: the operations that are fused, the key of a
chain of them, and the source that is generated for a key.

* `FusedOp`, `isUnaryOp`, `fusedOpMslExpr` — the operations and the table of their expressions.
* `FusionKey`, `FusionKey.hash` — a chain with its data type and its number of inputs.
* `generateMsl` — the source, in the order in which the source writes to its stream.
-/

/-- `FusedOp`. -/
inductive FusedOp where
  | Add
  | Sub
  | Mul
  | Div
  | Exp
  | Log
  | Neg
  | Abs
  | Sqrt
  | ReLU
  | GELU
  | SiLU
  | Tanh
  | Sigmoid
  deriving DecidableEq, Repr

/-- `is_unary_op`. -/
def isUnaryOp : FusedOp → Bool
  | .Add | .Sub | .Mul | .Div => false
  | _ => true

/-- `fused_op_msl_expr`. -/
def fusedOpMslExpr : FusedOp → String
  | .Add => "a + b"
  | .Sub => "a - b"
  | .Mul => "a * b"
  | .Div => "a / b"
  | .Exp => "exp(x)"
  | .Log => "log(x)"
  | .Neg => "-x"
  | .Abs => "abs(x)"
  | .Sqrt => "sqrt(x)"
  | .ReLU => "max(x, VEC_ZERO)"
  | .GELU =>
    "x * VEC_HALF * (VEC_ONE + tanh(VEC_GELU_CONST * (x + VEC_GELU_COEFF * x * x * x)))"
  | .SiLU => "x / (VEC_ONE + exp(-x))"
  | .Tanh => "tanh(x)"
  | .Sigmoid => "VEC_ONE / (VEC_ONE + exp(-x))"

/-- The value of the enumerator. -/
def FusedOp.toUInt8 : FusedOp → UInt8
  | .Add => 0
  | .Sub => 1
  | .Mul => 2
  | .Div => 3
  | .Exp => 4
  | .Log => 5
  | .Neg => 6
  | .Abs => 7
  | .Sqrt => 8
  | .ReLU => 9
  | .GELU => 10
  | .SiLU => 11
  | .Tanh => 12
  | .Sigmoid => 13

/-- `FusedDType`. -/
inductive FusedDType where
  | Float32
  | Float16
  deriving DecidableEq, Repr

/-- The value of the enumerator. -/
def FusedDType.toUInt8 : FusedDType → UInt8
  | .Float32 => 0
  | .Float16 => 1

/-- `FusionKey`. -/
structure FusionKey where
  ops : List FusedOp
  dtype : FusedDType
  num_inputs : UInt32
  deriving DecidableEq, Repr

/-- `FusionKeyHash`; the library hashes an integer to itself. -/
def FusionKey.hash (k : FusionKey) : UInt64 :=
  let mix (h val : UInt64) : UInt64 :=
    h ^^^ (val + 0x9e3779b9 + (h <<< (6 : UInt64)) + (h >>> (2 : UInt64)))
  k.ops.foldl (fun h op => mix h op.toUInt8.toUInt64)
    (mix k.dtype.toUInt8.toUInt64 k.num_inputs.toUInt64)

/-- `MAX_CHAIN_LENGTH`. -/
def JITFusionCompiler.MAX_CHAIN_LENGTH : ℕ := 8

/-! ### The source of a kernel -/

/-- `vec_type`. -/
def FusedDType.vecType : FusedDType → String
  | .Float32 => "float4"
  | .Float16 => "half4"

/-- `zero_literal`, `one_literal` and `half_literal`. -/
def FusedDType.zeroLiteral : FusedDType → String
  | .Float32 => "0.0f"
  | .Float16 => "0.0h"

@[inherit_doc FusedDType.zeroLiteral]
def FusedDType.oneLiteral : FusedDType → String
  | .Float32 => "1.0f"
  | .Float16 => "1.0h"

@[inherit_doc FusedDType.zeroLiteral]
def FusedDType.halfLiteral : FusedDType → String
  | .Float32 => "0.5f"
  | .Float16 => "0.5h"

/-- The suffix of the constants of GELU. -/
def FusedDType.suffix : FusedDType → String
  | .Float32 => "f"
  | .Float16 => "h"

/-- The statement of a unary operation; the other operations have none. -/
def unaryStatement : FusedOp → String
  | .Exp => "    v = exp(v);\n"
  | .Log => "    v = log(v);\n"
  | .Neg => "    v = -v;\n"
  | .Abs => "    v = abs(v);\n"
  | .Sqrt => "    v = sqrt(v);\n"
  | .ReLU => "    v = max(v, VEC_ZERO);\n"
  | .GELU => "    v = v * VEC_HALF * (VEC_ONE + tanh(VEC_GELU_CONST * (v + VEC_GELU_COEFF"
      ++ " * v * v * v)));\n"
  | .SiLU => "    v = v / (VEC_ONE + exp(-v));\n"
  | .Tanh => "    v = tanh(v);\n"
  | .Sigmoid => "    v = VEC_ONE / (VEC_ONE + exp(-v));\n"
  | _ => ""

/-- The statement of a binary operation; the other operations have none. -/
def binaryStatement : FusedOp → String
  | .Add => "        v = v + b;\n"
  | .Sub => "        v = v - b;\n"
  | .Mul => "        v = v * b;\n"
  | .Div => "        v = v / b;\n"
  | _ => ""

/-- The name of the kernel. -/
def FusionKey.kernelName (key : FusionKey) : String := "fused_ew_" ++ toString key.hash.toNat

/-- What is written before the signature. -/
def writeMacros (dtype : FusedDType) : String :=
  "#include <metal_stdlib>\n"
    ++ "using namespace metal;\n\n"
    ++ "#define VEC_ZERO " ++ dtype.vecType ++ "(" ++ dtype.zeroLiteral ++ ")\n"
    ++ "#define VEC_ONE " ++ dtype.vecType ++ "(" ++ dtype.oneLiteral ++ ")\n"
    ++ "#define VEC_HALF " ++ dtype.vecType ++ "(" ++ dtype.halfLiteral ++ ")\n"
    ++ "#define VEC_GELU_CONST " ++ dtype.vecType ++ "(0.7978845608" ++ dtype.suffix ++ ")\n"
    ++ "#define VEC_GELU_COEFF " ++ dtype.vecType ++ "(0.044715" ++ dtype.suffix ++ ")\n\n"

/-- The loop over the input buffers; `buffer_idx` and `i` count alike. -/
def writeInputs (vec_type : String) (num_inputs : UInt32) : String :=
  String.join ((List.range num_inputs.toNat).map fun i =>
    "    device const " ++ vec_type ++ "* input" ++ toString i
      ++ " [[buffer(" ++ toString i ++ ")]],\n")

/-- The signature of the kernel, up to the load of the first input. -/
def writeSignature (key : FusionKey) : String :=
  let vec_type := key.dtype.vecType
  let buffer_idx := key.num_inputs
  "kernel void " ++ key.kernelName ++ "(\n"
    ++ writeInputs vec_type key.num_inputs
    ++ "    device " ++ vec_type ++ "* output [[buffer(" ++ toString buffer_idx.toNat ++ ")]],\n"
    ++ "    constant uint& num_vec4s [[buffer(" ++ toString (buffer_idx + 1).toNat ++ ")]],\n"
    ++ "    uint id [[thread_position_in_grid]])\n"
    ++ "\x7b\n"
    ++ "    if (id >= num_vec4s) return;\n\n"
    ++ "    " ++ vec_type ++ " v = input0[id];\n"

/-- The loop over the operations; `none` when an operation finds no input for it. -/
def writeOps (key : FusionKey) : UInt32 → List FusedOp → Option String
  | _, [] => some ""
  | next_input, op :: ops =>
    if isUnaryOp op then (writeOps key next_input ops).map fun rest => unaryStatement op ++ rest
    else if next_input ≥ key.num_inputs then none
    else
      (writeOps key (next_input + 1) ops).map fun rest =>
        "    \x7b\n"
          ++ "        " ++ key.dtype.vecType ++ " b = input" ++ toString next_input.toNat
          ++ "[id];\n"
          ++ binaryStatement op
          ++ "    \x7d\n" ++ rest

/-- The loop that counts the inputs which the operations need. -/
def requiredInputs (ops : List FusedOp) : UInt32 :=
  ops.foldl (fun required_inputs op =>
    if isUnaryOp op then required_inputs else required_inputs + 1) 1

/-- `generate_msl`. -/
def generateMsl (key : FusionKey) : String :=
  if key.ops.isEmpty ∨ key.ops.length > JITFusionCompiler.MAX_CHAIN_LENGTH then ""
  else if key.num_inputs ≠ requiredInputs key.ops then ""
  else
    match writeOps key 1 key.ops with
    | none => ""
    | some statements =>
      writeMacros key.dtype ++ writeSignature key ++ statements
        ++ "    output[id] = v;\n"
        ++ "\x7d\n"

end MetalNative
