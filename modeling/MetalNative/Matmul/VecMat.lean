import MetalNative.Lib.ThreadLoop
import MetalNative.Matmul.HostDispatch

namespace MetalNative

open ThreadLoop

/-!
# The vector-matrix path of `matmul`

A translation of `matmul_vecmat` and of the kernels of `matmul_vecmat_kernel.metal`.  A SIMD group
of 32 lanes computes one output, or two; each lane adds up its terms, four at a time, and `simd_sum`
adds up the lanes.  The scalars are any commutative ring, and a device buffer is a function of the
index.

* `laneTerms`, `laneTermsUnrolled`, `laneTermsRecounted` — the terms that a lane adds up in the
  three forms of the loop, each with its remainder.
* `VecMatKernel.outputs` — the outputs that a SIMD group computes.
* `matmulVecMat` — the kernel that the host chooses, with its grid and arguments.
-/

/-! ### The terms of a lane -/

/-- The elements of one `half4` or `float4` load. -/
def vec4 (k : ℕ) : List ℕ := [k, k + 1, k + 2, k + 3]

/-- `k` after the loop `for (; k < bound; k += step)` that starts at `start`. -/
def loopExit (start step bound : ℕ) : ℕ := start + (stride start step bound).length * step

/-- `if (k < K) for (i = k; i < K && i < k + VEC_SIZE; ++i)`. -/
def remainder (K k : ℕ) : List ℕ := if k < K then stride k 1 (min K (k + 4)) else []

/-- `for (; k + VEC_SIZE <= K; k += stride)` from `k` on, and the elements left over. -/
def vectorLoop (K k : ℕ) : List ℕ :=
  (stride k 128 (K - 3)).flatMap vec4 ++ remainder K (loopExit k 128 (K - 3))

/-- The plain loop of a lane. -/
def laneTerms (K lane : ℕ) : List ℕ := vectorLoop K (lane * 4)

/-- The loop that is unrolled twice, and the plain one behind it. -/
def laneTermsUnrolled (K lane : ℕ) : List ℕ :=
  (stride (lane * 4) 256 (K - 131)).flatMap (fun k => vec4 k ++ vec4 (k + 128))
    ++ vectorLoop K (loopExit (lane * 4) 256 (K - 131))

/-- `base_k + ((K - base_k) / stride) * stride`. -/
def recountStart (K base : ℕ) : ℕ :=
  toUInt (base + (K + uintRange - base) % uintRange / 128 * 128)

/-- The loop whose remainder starts at `k_rem`, a value that it computes anew. -/
def laneTermsRecounted (K lane : ℕ) : List ℕ :=
  (stride (lane * 4) 128 (K - 3)).flatMap vec4 ++ remainder K (recountStart K (lane * 4))

/-! ### The kernels -/

/-- The `uint` arguments of a kernel and the transpose flags. -/
structure VecMatArgs where
  M : ℕ
  N : ℕ
  K : ℕ
  lda : ℕ
  ldb : ℕ
  ldc : ℕ
  transpose_a : Bool
  transpose_b : Bool
  deriving DecidableEq, Repr

/-- The kernels of `matmul_vecmat_kernel.metal`; those of the two data types are alike. -/
inductive VecMatKernel where
  | fp16
  | fp16Multi2
  | fp32
  | batchFp16
  | batchFp32
  deriving DecidableEq, Repr

namespace VecMatKernel

/-- The name in the shader library. -/
def kernelName : VecMatKernel → String
  | fp16 => "matmul_vecmat_fp16"
  | fp16Multi2 => "matmul_vecmat_fp16_multi2"
  | fp32 => "matmul_vecmat_fp32"
  | batchFp16 => "matmul_vecmat_batch_fp16"
  | batchFp32 => "matmul_vecmat_batch_fp32"

/-- The kernel has a row of `A` for each `gid.y`. -/
def isBatch : VecMatKernel → Bool
  | batchFp16 | batchFp32 => true
  | _ => false

/-- The outputs of a SIMD group: `outputs_per_simd`. -/
def outputsPerSimd : VecMatKernel → ℕ
  | fp16Multi2 => 2
  | _ => 1

/-- The kernel's loop is unrolled. -/
def unrolled (kernel : VecMatKernel) (transpose_b : Bool) : Bool := !kernel.isBatch && !transpose_b

/-- The kernel's loop has the remainder of `k_rem`. -/
def recounted (kernel : VecMatKernel) (transpose_b : Bool) : Bool :=
  decide (kernel = fp16Multi2) && transpose_b

/-- The terms that a lane adds up. -/
def terms (kernel : VecMatKernel) (transpose_b : Bool) (K lane : ℕ) : List ℕ :=
  if kernel.unrolled transpose_b then laneTermsUnrolled K lane
  else if kernel.recounted transpose_b then laneTermsRecounted K lane
  else laneTerms K lane

/-- The loops end.  Otherwise `k + VEC_SIZE + stride`, or `k + VEC_SIZE`, wraps around in the last
lane and is never above `K`. -/
def loopsEnd (kernel : VecMatKernel) (transpose_b : Bool) (K : ℕ) : Bool :=
  K + (if kernel.unrolled transpose_b then 256 else 128) < uintRange

/-- The outputs that SIMD group `g` of the threadgroup at `gid.x = x` computes. -/
def outputs (kernel : VecMatKernel) (N x g : ℕ) : List ℕ :=
  match kernel with
  | fp16Multi2 =>
    let out_base := toUInt (x * 16 + g * 2)
    if out_base ≥ N then []
    else if toUInt (out_base + 1) < N then [out_base, toUInt (out_base + 1)]
    else [out_base]
  | _ =>
    let output_idx := toUInt (x * 8 + g)
    if output_idx ≥ N then [] else [output_idx]

/-- The rows that the threadgroup at `gid.y = y` computes. -/
def rows (kernel : VecMatKernel) (M y : ℕ) : List ℕ :=
  if kernel.isBatch then (if y ≥ M then [] else [y]) else [0]

end VecMatKernel

/-- The index in `A` of term `k` of a row: `A + batch_idx * lda`, then `k`. -/
def VecMatArgs.aIndex (args : VecMatArgs) (row k : ℕ) : ℕ := toUInt (row * args.lda) + k

/-- The index in `B` of term `k` of an output: `weight_row[k]`, or `weight_col[k * ldb]`. -/
def VecMatArgs.bIndex (args : VecMatArgs) (out k : ℕ) : ℕ :=
  if !args.transpose_b then toUInt (out * args.ldb) + k else out + toUInt (k * args.ldb)

/-- The index in `C` of an output. -/
def VecMatArgs.cIndex (args : VecMatArgs) (row out : ℕ) : ℕ := toUInt (row * args.ldc + out)

/-! ### The launch -/

/-- A launch of a vector-matrix kernel. -/
structure VecMatRun where
  kernel : VecMatKernel
  args : VecMatArgs
  gridX : ℕ
  gridY : ℕ
  gridZ : ℕ
  deriving DecidableEq, Repr

namespace VecMatRun

/-- All terms of an output, lane after lane. -/
def terms (run : VecMatRun) : List ℕ :=
  (List.range 32).flatMap (run.kernel.terms run.args.transpose_b run.args.K)

/-- The outputs of one row. -/
def rowOutputs (run : VecMatRun) : List ℕ :=
  (List.range run.gridX).flatMap fun x =>
    (List.range 8).flatMap fun g => run.kernel.outputs run.args.N x g

/-- Everything that the grid computes: row and output; `gid.z` is not looked at. -/
def tasks (run : VecMatRun) : List (ℕ × ℕ) :=
  (List.range run.gridZ).flatMap fun _ =>
    (List.range run.gridY).flatMap fun y =>
      (run.kernel.rows run.args.M y).flatMap fun row =>
        run.rowOutputs.map fun out => (row, out)

/-- `simd_sum(partial_sum)` of an output. -/
def result {α : Type*} [CommRing α] (run : VecMatRun) (A B : ℕ → α) (row out : ℕ) : α :=
  (run.terms.map fun k => A (run.args.aIndex row k) * B (run.args.bIndex out k)).sum

/-- The stores to `C`; a group whose loops do not end never gets to its store. -/
def writes {α : Type*} [CommRing α] (run : VecMatRun) (A B : ℕ → α) : List (ℕ × α) :=
  if run.kernel.loopsEnd run.args.transpose_b run.args.K then
    run.tasks.map fun t => (run.args.cIndex t.1 t.2, run.result A B t.1 t.2)
  else []

/-- The indices of `A` that are read. -/
def readsA (run : VecMatRun) : List ℕ :=
  run.tasks.flatMap fun t => run.terms.map fun k => run.args.aIndex t.1 k

/-- The indices of `B` that are read. -/
def readsB (run : VecMatRun) : List ℕ :=
  run.tasks.flatMap fun t => run.terms.map fun k => run.args.bIndex t.2 k

end VecMatRun

variable {α : Type*}

/-- `use_multi2`. -/
def useMulti2 (d : MatmulDims) : Bool := d.M = 1 ∧ d.K ≥ 512

/-- The kernel that `matmul_vecmat` selects. -/
def vecMatKernel (dtype : MNDType) (d : MatmulDims) : VecMatKernel :=
  if d.M > 1 then (if dtype = .Float16 then .batchFp16 else .batchFp32)
  else if useMulti2 d then (if dtype = .Float16 then .fp16Multi2 else .fp32)
  else if dtype = .Float16 then .fp16 else .fp32

/-- `matmul_vecmat`: what is launched.  The buffers are bound at offset zero. -/
def matmulVecMat (a b : MNTensor α) (transpose_a transpose_b : Bool) (d : MatmulDims) :
    VecMatRun where
  kernel := vecMatKernel a.dtype d
  args :=
    { M := toUInt d.M, N := toUInt d.N, K := toUInt d.K
      lda := toUInt a.cols, ldb := toUInt b.cols, ldc := toUInt d.N
      transpose_a, transpose_b }
  gridX := if useMulti2 d then (d.N + 15) / 16 else (d.N + 7) / 8
  gridY := if d.M > 1 then d.M else 1
  gridZ := toSizeT (batchSize a)

end MetalNative
