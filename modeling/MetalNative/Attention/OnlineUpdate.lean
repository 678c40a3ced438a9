import MetalNative.Attention.ScoreTile
import MetalNative.Core.Error
import MetalNative.Lib.OnlineSoftmax

namespace MetalNative

open ExtReal

/-!
# The online softmax of the flash-attention kernels

What the kernels of `attention_kernel.metal` do with one row of a score tile: the running maximum
and sum, the output accumulator and the final division.  The arithmetic is exact, with the special
values of floating point.  The kernels with one or two SIMD groups and the grouped-query kernel take
the scores of a tile one after the other; those with four or eight SIMD groups reduce the tile over
the lanes of a SIMD group first.

* `updateOnlineSoftmax` — one score.
* `RowState.serialTile`, `RowState.parallelTile` — one tile.
* `FlashKernel.rowOutput` — a row of the output.
-/

/-- `OnlineSoftmaxState`. -/
structure OnlineSoftmaxState where
  max_val : ExtReal
  sum_exp : ExtReal

/-- `update_online_softmax`. -/
noncomputable def updateOnlineSoftmax (state : OnlineSoftmaxState) (score : ExtReal) :
    OnlineSoftmaxState :=
  let new_max := max state.max_val score
  let exp_diff := exp (state.max_val - new_max)
  { max_val := new_max
    sum_exp := state.sum_exp * exp_diff + exp (score - new_max) }

/-- The state of one row: its softmax state, and its row of `shared_output` or `output_acc`. -/
structure RowState where
  softmax : OnlineSoftmaxState
  acc : ℕ → ExtReal

namespace RowState

/-- The state before the first tile. -/
noncomputable def init : RowState where
  softmax := { max_val := negInf, sum_exp := real 0 }
  acc := fun _ => real 0

open Classical in
/-- `acc *= rescale_factors[row]` where the row needs it. -/
noncomputable def rescaled (acc : ℕ → ExtReal) (old_max new_max factor : ExtReal) : ℕ → ExtReal :=
  fun d => if old_max < new_max then acc d * factor else acc d

/-- The weights times the rows of the `V` tile, added to the accumulator.  In the grouped-query
kernel the sum is first put into `shared_output`, and then added. -/
noncomputable def accumulate (tile_size k_tile_size : ℕ) (acc : ℕ → ExtReal) (weights : ℕ → ExtReal)
    (V : ℕ → ℕ → ℝ) : ℕ → ExtReal := fun d =>
  acc d + ∑ col ∈ Finset.range tile_size,
    (if col < k_tile_size then weights col else real 0)
      * (if col < k_tile_size then real (V col d) else real 0)

/-- A tile in the kernels that take its scores one after the other. -/
noncomputable def serialTile (tile_size k_tile_size : ℕ) (score : ℕ → ExtReal) (V : ℕ → ℕ → ℝ)
    (st : RowState) : RowState :=
  let softmax := (List.range k_tile_size).foldl
    (fun state k_local => updateOnlineSoftmax state (score k_local)) st.softmax
  let acc := rescaled st.acc st.softmax.max_val softmax.max_val
    (exp (st.softmax.max_val - softmax.max_val))
  { softmax
    acc := accumulate tile_size k_tile_size acc (fun col => exp (score col - softmax.max_val)) V }

/-- `simd_max` over the lanes of a SIMD group. -/
noncomputable def simdMax (value : ℕ → ExtReal) : ExtReal :=
  ((List.range 32).map value).foldr max negInf

/-- `simd_sum` over the lanes of a SIMD group. -/
noncomputable def simdSum (value : ℕ → ExtReal) : ExtReal := ∑ lane ∈ Finset.range 32, value lane

/-- A tile in the kernels that reduce it over the lanes of a SIMD group. -/
noncomputable def parallelTile (tile_size k_tile_size : ℕ) (score : ℕ → ExtReal)
    (V : ℕ → ℕ → ℝ) (st : RowState) : RowState :=
  let my_score := fun lane => if lane < k_tile_size then score lane else negInf
  let tile_max := simdMax my_score
  let tile_sum := simdSum fun lane =>
    if lane < k_tile_size then exp (my_score lane - tile_max) else real 0
  let new_max := max st.softmax.max_val tile_max
  let old_scale := exp (st.softmax.max_val - new_max)
  let tile_scale := exp (tile_max - new_max)
  let acc := rescaled st.acc st.softmax.max_val new_max old_scale
  { softmax :=
      { max_val := new_max
        sum_exp := st.softmax.sum_exp * old_scale + tile_sum * tile_scale }
    acc := accumulate tile_size k_tile_size acc (fun col => exp (my_score col - new_max)) V }

end RowState

namespace FlashKernel

/-- The kernel reduces a tile over the lanes of a SIMD group. -/
def reducesOverLanes : FlashKernel → Bool
  | fourSimdFp16 | fourSimdFp32 | largeFp32 | largeFp16 => true
  | _ => false

/-- `TILE_SIZE`, `TILE_SIZE_24` or `ATTN_LARGE_TILE`. -/
def tileSize (kernel : FlashKernel) : ℕ := kernel.scoreKernel.tileSize

/-- `num_k_tiles`. -/
def numKTiles (kernel : FlashKernel) (seq_len_k : ℕ) : ℕ :=
  toUInt (seq_len_k + kernel.tileSize - 1) / kernel.tileSize

/-- `k_tile_size` of the tile that starts at `k_start`. -/
def kTileSize (kernel : FlashKernel) (seq_len_k k_start : ℕ) : ℕ :=
  min (k_start + kernel.tileSize) seq_len_k - k_start

/-- One turn of the loop over the tiles, for a row of scores. -/
noncomputable def tileStep (kernel : FlashKernel) (seq_len_k : ℕ) (score : ℕ → ExtReal)
    (V : ℕ → ℕ → ℝ) (st : RowState) (k_tile_idx : ℕ) : RowState :=
  let k_start := k_tile_idx * kernel.tileSize
  let k_tile_size := kernel.kTileSize seq_len_k k_start
  let tile := if kernel.reducesOverLanes then RowState.parallelTile else RowState.serialTile
  tile kernel.tileSize k_tile_size (fun col => score (k_start + col))
    (fun col d => V (k_start + col) d) st

/-- The state of a row after some tiles. -/
noncomputable def rowRun (kernel : FlashKernel) (seq_len_k : ℕ) (score : ℕ → ExtReal)
    (V : ℕ → ℕ → ℝ) (tiles : ℕ) : RowState :=
  (List.range tiles).foldl (kernel.tileStep seq_len_k score V) RowState.init

/-- The row of the output: the accumulator divided by `sum_exp`. -/
noncomputable def rowOutput (kernel : FlashKernel) (seq_len_k : ℕ) (score : ℕ → ExtReal)
    (V : ℕ → ℕ → ℝ) (d : ℕ) : ExtReal :=
  let st := kernel.rowRun seq_len_k score V (kernel.numKTiles seq_len_k)
  st.acc d / st.softmax.sum_exp

/-- The side of the tile is 16 or 24, and 16 where a lane has one column. -/
theorem tileSize_cases (kernel : FlashKernel) :
    kernel.tileSize = 16 ∨ kernel.tileSize = 24 ∧ kernel.reducesOverLanes = false := by
  cases kernel <;> decide

end FlashKernel

end MetalNative
