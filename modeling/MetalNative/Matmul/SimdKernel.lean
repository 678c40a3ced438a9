import MetalNative.Lib.SimdGroups
import MetalNative.Lib.WordLoop
import MetalNative.Matmul.SimdTiles

namespace MetalNative

open ThreadLoop SimdMatrix SimdGroups

/-!
# The 32×32 kernels of `matmul`

A translation of the kernels of `matmul_simd_kernel.metal`, which differ in the type of the elements
and in the offset of a batch only.  Four SIMD groups compute the quarters of a tile and hand them
over to their lanes through `shared_float`, which has room for one quarter and is shared by all.

* `SimdKernel.exec`, `SimdKernel.program` — the instructions of the groups.
* `MatmulSimdComputes` — what the kernel is meant to leave, in whatever order the groups run.
* `SimdKernel.exists_quiet_run` — a run in which every tile is written with the quarter of the last
  group.
* `matmul_simd_overwrites` — no sizes at all are computed in every order.
-/

/-- The instructions of a SIMD group; a lane's access is one instruction. -/
inductive SimdInstr where
  | loadA (k_tile idx : ℕ)
  | loadB (k_tile idx : ℕ)
  | multiply (k : ℕ)
  | storeAcc (i j : Fin 2)
  | writeOut (idx : ℕ)
  deriving DecidableEq, Repr

/-- The barriers of the kernel. -/
inductive SimdBarrier where
  | loaded
  | computed
  | stored
  deriving DecidableEq, Repr

/-- The memory of a threadgroup, with the accumulators of its groups, and the result. -/
structure SimdMemory (α : Type*) where
  shared_A : ℕ → α
  shared_B : ℕ → α
  acc : Fin 4 → Fin 2 → Fin 2 → Mat8 α
  shared_float : ℕ → α
  C : ℕ → α

variable {α : Type*}

namespace SimdKernel

/-- `sg_row`. -/
def sg_row (g : Fin 4) : ℕ := g / 2 * 16

/-- `sg_col`. -/
def sg_col (g : Fin 4) : ℕ := g % 2 * 16

/-- The offset of a batch, which only the batched kernels add. -/
def batchOffset (batched : Bool) (batch_idx batch_stride : ℕ) : ℕ :=
  if batched then toUInt (batch_idx * batch_stride) else 0

section Exec

variable [Semiring α] (args : SimdArguments) (batched : Bool) (gid : ThreadgroupId) (A B : ℕ → α)

/-- Element `idx` of the tile of `A` at `k_tile`. -/
def tileA (k_tile idx : ℕ) : α :=
  tileElement A args.transpose_a args.M args.K args.lda
    (batchOffset batched gid.z args.batch_stride_a) (toUInt (gid.y * 32 + idx / 32))
    (toUInt (k_tile + idx % 32))

/-- Element `idx` of the tile of `B` at `k_tile`. -/
def tileB (k_tile idx : ℕ) : α :=
  tileElement B args.transpose_b args.K args.N args.ldb
    (batchOffset batched gid.z args.batch_stride_b) (toUInt (k_tile + idx / 32))
    (toUInt (gid.x * 32 + idx % 32))

/-- What an instruction of group `g` does. -/
def exec (g : Fin 4) : SimdInstr → SimdMemory α → SimdMemory α
  | .loadA k_tile idx, s =>
    let value := tileA args batched gid A k_tile idx
    { s with shared_A := Function.update s.shared_A (idx / 32 * 32 + idx % 32) value }
  | .loadB k_tile idx, s =>
    let value := tileB args batched gid B k_tile idx
    { s with shared_B := Function.update s.shared_B (idx / 32 * 32 + idx % 32) value }
  | .multiply k, s =>
    let a (i : Fin 2) := load s.shared_A ((sg_row g + 8 * i) * 32 + k) 32
    let b (j : Fin 2) := load s.shared_B (k * 32 + (sg_col g + 8 * j)) 32
    { s with acc := Function.update s.acc g fun i j =>
      multiplyAccumulate (a i) (b j) (s.acc g i j) }
  | .storeAcc i j, s =>
    { s with shared_float := store (s.acc g i j) (8 * i * 16 + 8 * j) 16 s.shared_float }
  | .writeOut idx, s =>
    let gr := toUInt (gid.y * 32 + sg_row g + idx / 16)
    let gc := toUInt (gid.x * 32 + sg_col g + idx % 16)
    if gr < args.M ∧ gc < args.N then
      let p := batchOffset batched gid.z args.batch_stride_c + toUInt (gr * args.ldc + gc)
      { s with C := Function.update s.C p (s.shared_float (idx / 16 * 16 + idx % 16)) }
    else s

end Exec

/-- The loads of a group for one `k_tile`. -/
def loads (k_tile : ℕ) (g : Fin 4) : List SimdInstr :=
  (laneLoop (g * 32) 128 (32 * 32)).map (.loadA k_tile)
    ++ (laneLoop (g * 32) 128 (32 * 32)).map (.loadB k_tile)

/-- The products of a group for one `k_tile`. -/
def multiplies (_ : Fin 4) : List SimdInstr := (stride 0 8 32).map .multiply

/-- The stores of a group to `shared_float`. -/
def stores (_ : Fin 4) : List SimdInstr :=
  [.storeAcc 0 0, .storeAcc 0 1, .storeAcc 1 0, .storeAcc 1 1]

/-- The loop of a group that writes its quarter. -/
def writes (_ : Fin 4) : List SimdInstr := (laneLoop 0 32 (16 * 16)).map .writeOut

/-- One turn of the loop over `k_tile`. -/
def turnOf (k_tile : ℕ) (g : Fin 4) : Program SimdInstr SimdBarrier :=
  code (loads k_tile g) ++ .inr .loaded :: (code (multiplies g) ++ [.inr .computed])

/-- The kernel, for the turns that the loop over `k_tile` takes. -/
def program (tiles : List ℕ) (g : Fin 4) : Program SimdInstr SimdBarrier :=
  tiles.flatMap (fun k_tile => turnOf k_tile g)
    ++ (code (stores g) ++ .inr .stored :: code (writes g))

/-- Where element `(i, j)` of a batch stands in `C`. -/
def place (d : MatmulDims) (batch i j : ℕ) : ℕ := batch * (d.M * d.N) + (i * d.N + j)

/-- The elements of `C` in the tile of a threadgroup. -/
def InTile (d : MatmulDims) (gid : ThreadgroupId) (i j : ℕ) : Prop :=
  i < d.M ∧ j < d.N ∧ i / 32 = gid.y ∧ j / 32 = gid.x

/-- The elements of the tile are the entries of the product, and nothing else has changed. -/
structure TileDone [Semiring α] (transpose_a transpose_b : Bool) (d : MatmulDims)
    (gid : ThreadgroupId) (A B C C' : ℕ → α) : Prop where
  computed : ∀ i j, InTile d gid i j →
    C' (place d gid.z i j) = dotProduct transpose_a transpose_b d A B gid.z i j
  nothing_else : ∀ p, (∀ i j, InTile d gid i j → p ≠ place d gid.z i j) → C' p = C p

end SimdKernel

open SimdKernel in
/-- Every threadgroup computes its tile: its loop over `k_tile` ends, and in whatever order its
groups run between the barriers, no group waits forever and the tile is the product at the end. -/
def MatmulSimdComputes (α : Type*) [Semiring α] (transpose_a transpose_b : Bool) (d : MatmulDims)
    (batch_size : ℕ) : Prop :=
  ∀ gid : ThreadgroupId, gid.InGrid 32 d batch_size → ∃ tiles,
    (∃ enough, ∀ fuel ≥ enough, wordFor uintRange (toUInt d.K) 32 fuel 0 = some tiles) ∧
    ∀ (A B : ℕ → α) (s : SimdMemory α),
      Always (exec (simdArguments transpose_a transpose_b d) (decide (batch_size > 1)) gid A B)
        ⟨program tiles, { s with acc := 0 }⟩
        fun t => TileDone transpose_a transpose_b d gid A B s.C t.C

namespace SimdKernel

/-! ### A run that writes zeros -/

section Quiet

variable [Semiring α]

/-- The rows of `A` that the last group multiplies are zero, so are its accumulators and `C`. -/
structure Quiet (s : SimdMemory α) : Prop where
  shared_A : ∀ x, 512 ≤ x → x < 1024 → s.shared_A x = 0
  acc : s.acc 3 = 0
  C : ∀ p, s.C p = 0

variable {args : SimdArguments} {batched : Bool} {gid : ThreadgroupId} {A B : ℕ → α}
  {s : SimdMemory α}

variable {i : SimdInstr}

/-- The loads fill these rows with zeros, when there is nothing else in the matrix. -/
theorem quiet_loads
    (hA : ∀ k_tile x, 512 ≤ x → x < 1024 → tileA args batched gid A k_tile x = 0) {k_tile : ℕ}
    {g : Fin 4} (hi : i ∈ loads k_tile g) (hs : Quiet s) :
    Quiet (exec args batched gid A B g i s) := by
  rcases List.mem_append.mp hi with hload | hload
  · obtain ⟨idx, -, rfl⟩ := List.mem_map.mp hload
    refine ⟨?_, hs.acc, hs.C⟩
    intro x hx hlt
    simp only [exec, Nat.div_add_mod']
    by_cases heq : x = idx
    · rw [heq, Function.update_self]
      exact hA k_tile idx (heq ▸ hx) (heq ▸ hlt)
    · rw [Function.update_of_ne heq]
      exact hs.shared_A x hx hlt
  · obtain ⟨idx, -, rfl⟩ := List.mem_map.mp hload
    exact ⟨hs.shared_A, hs.acc, hs.C⟩

/-- The last group adds up zeros. -/
theorem quiet_multiplies {g : Fin 4} (hi : i ∈ multiplies g) (hs : Quiet s) :
    Quiet (exec args batched gid A B g i s) := by
  obtain ⟨k, hk, rfl⟩ := List.mem_map.mp hi
  obtain ⟨t, rfl, ht⟩ := (mem_stride (by decide)).mp hk
  refine ⟨hs.shared_A, ?_, hs.C⟩
  simp only [exec]
  by_cases hg : g = 3
  · subst hg
    rw [Function.update_self]
    ext i j r c
    rw [hs.acc, multiplyAccumulate, Matrix.add_apply, Matrix.mul_apply]
    have hsg : sg_row 3 = 16 := rfl
    have hzero : ∀ l : Fin 8,
        load s.shared_A ((sg_row 3 + 8 * i) * 32 + (0 + t * 8)) 32 r l = 0 := by
      intro l
      rw [load_apply, hsg]
      exact hs.shared_A _ (by omega) (by omega)
    rw [Finset.sum_eq_zero fun l _ => by rw [hzero l, zero_mul], zero_add]
  · rw [Function.update_of_ne (Ne.symm hg)]
    exact hs.acc

/-- The stores touch neither the tiles nor the accumulators nor `C`. -/
theorem quiet_stores {g : Fin 4} (hi : i ∈ stores g)
    (hs : Quiet s) : Quiet (exec args batched gid A B g i s) := by
  simp only [stores, List.mem_cons, List.not_mem_nil, or_false] at hi
  rcases hi with rfl | rfl | rfl | rfl
  all_goals exact ⟨hs.shared_A, hs.acc, hs.C⟩

/-- **The last group's zeros are what is left in `shared_float`**, when it stores last. -/
theorem shared_float_zero (hs : Quiet s) {x : ℕ} (hx : x < 256) :
    (runTurns (exec args batched gid A B) stores [0, 1, 2, 3] s).shared_float x = 0 := by
  have hbefore : Quiet (runTurns (exec args batched gid A B) stores [0, 1, 2] s) :=
    runTurns_invariant (fun _ _ _ hi _ hs => quiet_stores hi hs) hs
  rw [show ([0, 1, 2, 3] : List (Fin 4)) = [0, 1, 2] ++ [3] from rfl, runTurns_append,
    runTurns_cons, runTurns_nil]
  refine runGroup_cell (P := Quiet) (fun s => s.shared_float x)
    (fun i hi s hs => quiet_stores hi hs) ?_ ?_ hbefore
  · -- a stored zero keeps a zero
    intro i hi s hs hcell
    simp only [stores, List.mem_cons, List.not_mem_nil, or_false] at hi
    have hkeep : ∀ i' j' : Fin 2,
        (exec args batched gid A B 3 (.storeAcc i' j') s).shared_float x = 0 := by
      intro i' j'
      simp only [exec, hs.acc]
      exact storeAll_of_mem (fun _ _ _ => rfl) (Or.inr hcell)
    rcases hi with rfl | rfl | rfl | rfl
    all_goals exact hkeep _ _
  · -- the block with the cell
    refine ⟨.storeAcc ⟨x / 16 / 8, by omega⟩ ⟨x % 16 / 8, by omega⟩, ?_, ?_⟩
    · have hblocks : ∀ i' j' : Fin 2, SimdInstr.storeAcc i' j' ∈ stores 3 := by decide
      exact hblocks _ _
    · intro s hs
      have hcell := store_at (s.acc 3 ⟨x / 16 / 8, by omega⟩ ⟨x % 16 / 8, by omega⟩)
        (q := 8 * (x / 16 / 8)) (show 8 * (x % 16 / 8) + 8 ≤ 16 by omega) s.shared_float
        ⟨x / 16 % 8, by omega⟩ ⟨x % 16 % 8, by omega⟩
      have hx' : (8 * (x / 16 / 8) + x / 16 % 8) * 16 + (8 * (x % 16 / 8) + x % 16 % 8) = x := by
        omega
      simp only [hx'] at hcell
      simp only [exec]
      rw [hcell, hs.acc]
      rfl

/-- A memory from which zeros are written. -/
structure Blank (s : SimdMemory α) : Prop where
  shared_float : ∀ x < 256, s.shared_float x = 0
  C : ∀ p, s.C p = 0

/-- The groups write zeros. -/
theorem blank_writes {g : Fin 4} (hi : i ∈ writes g) (hs : Blank s) :
    Blank (exec args batched gid A B g i s) := by
  obtain ⟨idx, hidx, rfl⟩ := List.mem_map.mp hi
  have hlt := lt_of_mem_laneLoop (by decide) (by decide) (by decide) (by decide) hidx
  simp only [exec]
  split_ifs with hin
  · refine ⟨hs.shared_float, ?_⟩
    intro p
    simp only [Nat.div_add_mod', Function.update_apply]
    split_ifs
    · exact hs.shared_float idx hlt
    · exact hs.C p
  · exact hs

/-! ### Put together -/

theorem groups_nodup : ([0, 1, 2, 3] : List (Fin 4)).Nodup := by decide

theorem groups_all (g : Fin 4) : g ∈ ([0, 1, 2, 3] : List (Fin 4)) := by
  revert g
  decide

/-- The loop over `k_tile`, the groups in order. -/
theorem exists_quiet_loop
    (hA : ∀ k_tile x, 512 ≤ x → x < 1024 → tileA args batched gid A k_tile x = 0)
    (tiles : List ℕ)
    (later : Fin 4 → Program SimdInstr SimdBarrier) (hs : Quiet s) :
    ∃ t, Quiet t ∧ Reaches (exec args batched gid A B)
      ⟨fun g => tiles.flatMap (fun k_tile => turnOf k_tile g) ++ later g, s⟩ ⟨later, t⟩ := by
  induction tiles generalizing s with
  | nil => exact ⟨s, hs, .refl⟩
  | cons k_tile rest ih =>
    have hload := reaches_barrier groups_nodup groups_all (exec args batched gid A B)
      (loads k_tile) SimdBarrier.loaded
      (fun g => code (multiplies g) ++ .inr .computed
        :: (rest.flatMap (fun k_tile => turnOf k_tile g) ++ later g)) s
    have hquiet : Quiet
        (runTurns (exec args batched gid A B) (loads k_tile) [0, 1, 2, 3] s) :=
      runTurns_invariant (fun _ _ _ hi _ hs => quiet_loads hA hi hs) hs
    have hmultiply := reaches_barrier groups_nodup groups_all (exec args batched gid A B)
      multiplies SimdBarrier.computed
      (fun g => rest.flatMap (fun k_tile => turnOf k_tile g) ++ later g)
      (runTurns (exec args batched gid A B) (loads k_tile) [0, 1, 2, 3] s)
    have hquiet' : Quiet (runTurns (exec args batched gid A B) multiplies [0, 1, 2, 3]
        (runTurns (exec args batched gid A B) (loads k_tile) [0, 1, 2, 3] s)) :=
      runTurns_invariant (fun _ _ _ hi _ hs => quiet_multiplies hi hs) hquiet
    obtain ⟨t, ht, hrest⟩ := ih hquiet'
    refine ⟨t, ht, ?_⟩
    have hprogram : (fun g => (k_tile :: rest).flatMap (fun k_tile => turnOf k_tile g) ++ later g)
        = fun g => code (loads k_tile g) ++ .inr .loaded :: (code (multiplies g) ++ .inr .computed
          :: (rest.flatMap (fun k_tile => turnOf k_tile g) ++ later g)) := by
      ext g : 1
      simp [turnOf]
    rw [hprogram]
    exact hload.trans (hmultiply.trans hrest)

/-- **The overwriting run.** Where the last group adds up zeros, a tile can be written with zeros:
all groups store to the same cells, the last one last. -/
theorem exists_quiet_run
    (hA : ∀ k_tile x, 512 ≤ x → x < 1024 → tileA args batched gid A k_tile x = 0)
    (tiles : List ℕ)
    (hs : Quiet s) :
    ∃ t, (∀ p, t.C p = 0) ∧
      Reaches (exec args batched gid A B) ⟨program tiles, s⟩ ⟨fun _ => [], t⟩ := by
  obtain ⟨t, ht, hloop⟩ := exists_quiet_loop hA tiles
    (fun g => code (stores g) ++ .inr .stored :: code (writes g)) hs
  have hstore := reaches_barrier groups_nodup groups_all (exec args batched gid A B) stores
    SimdBarrier.stored (fun g => code (writes g)) t
  have hwrite := reaches_turns groups_nodup groups_all (exec args batched gid A B) writes
    (fun _ => ([] : Program SimdInstr SimdBarrier))
    (runTurns (exec args batched gid A B) stores [0, 1, 2, 3] t)
  simp only [List.append_nil] at hwrite
  have hquiet : Quiet (runTurns (exec args batched gid A B) stores [0, 1, 2, 3] t) :=
    runTurns_invariant (fun _ _ _ hi _ hs => quiet_stores hi hs) ht
  have hblank : Blank (runTurns (exec args batched gid A B) stores [0, 1, 2, 3] t) :=
    ⟨fun x hx => shared_float_zero ht hx, hquiet.C⟩
  have hdone : Blank (runTurns (exec args batched gid A B) writes [0, 1, 2, 3]
      (runTurns (exec args batched gid A B) stores [0, 1, 2, 3] t)) :=
    runTurns_invariant (fun _ _ _ hi _ hs => blank_writes hi hs) hblank
  exact ⟨_, hdone.C, hloop.trans (hstore.trans hwrite)⟩

end Quiet

/-! ### No sizes are computed in every order -/

section Refutation

variable [Semiring α] [Nontrivial α] {transpose_a transpose_b : Bool} {d : MatmulDims}
  {batch_size : ℕ}

/-- The memory before the kernel, with zeros everywhere. -/
def zeroMemory (α : Type*) [Zero α] : SimdMemory α := ⟨0, 0, 0, 0, 0⟩

omit [Nontrivial α] in
theorem quiet_zeroMemory : Quiet ({ zeroMemory α with acc := 0 } : SimdMemory α) :=
  ⟨fun _ _ _ => rfl, rfl, fun _ => rfl⟩

/-- The first batch has no offset. -/
theorem batchOffset_zero (batched : Bool) (batch_stride : ℕ) :
    batchOffset batched 0 batch_stride = 0 := by
  cases batched with
  | false => rfl
  | true => simp [batchOffset, toUInt]

/-- A first matrix whose tile around an element `(i, j)` is zero from row 16 on refutes the kernel,
when that element is not zero. -/
theorem not_computes_of_zero {A B : ℕ → α} {i j : ℕ} (hi : i < d.M) (hj : j < d.N)
    (hbatch : 1 ≤ batch_size)
    (hA : ∀ k_tile x, 512 ≤ x → x < 1024 → tileA (simdArguments transpose_a transpose_b d)
      (decide (batch_size > 1)) ⟨j / 32, i / 32, 0⟩ A k_tile x = 0)
    (hdot : dotProduct transpose_a transpose_b d A B 0 i j = 1) :
    ¬ MatmulSimdComputes α transpose_a transpose_b d batch_size := by
  intro hcomputes
  obtain ⟨tiles, -, halways⟩ := hcomputes ⟨j / 32, i / 32, 0⟩
    (inGrid_of_lt (by decide) hi hj hbatch)
  obtain ⟨t, hC, hrun⟩ := exists_quiet_run hA tiles (quiet_zeroMemory (α := α))
  have hdone := (halways A B (zeroMemory α)).ends_good t hrun
  have hentry := hdone.computed i j ⟨hi, hj, rfl, rfl⟩
  rw [hC, hdot] at hentry
  exact zero_ne_one hentry

/-- A first matrix whose elements all have 32-bit indices. -/
theorem not_computes_of_fits (hM : 1 ≤ d.M) (hN : 1 ≤ d.N) (hK : 1 ≤ d.K)
    (hbatch : 1 ≤ batch_size) (hfit : d.M * d.K ≤ uintRange) :
    ¬ MatmulSimdComputes α transpose_a transpose_b d batch_size := by
  -- the only entries are the first ones, and the rows of the last group start at 16
  refine not_computes_of_zero (A := Pi.single (matrixIndex transpose_a d.M d.K 0 0) 1)
    (B := Pi.single (matrixIndex transpose_b d.K d.N 0 0) 1) (i := 0) (j := 0) hM hN hbatch ?_ ?_
  · intro k_tile x hx hlt
    simp only [tileA, batchOffset_zero, simdArguments]
    apply tileElement_single hfit hM hK
    rintro ⟨hrow, -⟩
    rw [toUInt_of_lt (by unfold uintRange; omega)] at hrow
    omega
  · apply dotProduct_eq_one hK
    intro l hl
    rw [opA_single hM hK hl]
    by_cases hl0 : l = 0
    · rw [if_pos hl0, hl0, opB_single hK hN hK, if_pos rfl, one_mul]
    · rw [if_neg hl0, zero_mul]

/-- A first matrix with an element behind the 32-bit indices: it is never loaded. -/
theorem not_computes_of_behind (hM : 1 ≤ d.M) (hN : 1 ≤ d.N) (hK : 1 ≤ d.K)
    (hbatch : 1 ≤ batch_size) (hlarge : uintRange < d.M * d.K) :
    ¬ MatmulSimdComputes α transpose_a transpose_b d batch_size := by
  have hlast : matrixIndex transpose_a d.M d.K (d.M - 1) (d.K - 1) = d.M * d.K - 1 :=
    matrixIndex_last hM hK
  refine not_computes_of_zero
    (A := Pi.single (matrixIndex transpose_a d.M d.K (d.M - 1) (d.K - 1)) 1)
    (B := fun _ => 1) (i := d.M - 1) (j := 0) (by omega) hN hbatch ?_ ?_
  · intro k_tile x _ _
    simp only [tileA, batchOffset_zero]
    exact tileElement_behind (by omega)
  · apply dotProduct_eq_one (k := d.K - 1) (by omega)
    intro l hl
    rw [opA_single (by omega) (by omega) hl, opB, mul_one]

end Refutation

end SimdKernel

/-- **The 32×32 kernels overwrite their results**: for no sizes do they compute the product in every
order of the SIMD groups. -/
theorem matmul_simd_overwrites (α : Type*) [Semiring α] [Nontrivial α]
    (transpose_a transpose_b : Bool) (d : MatmulDims) (batch_size : ℕ) (hM : 1 ≤ d.M)
    (hN : 1 ≤ d.N) (hK : 1 ≤ d.K) (hbatch : 1 ≤ batch_size) :
    ¬ MatmulSimdComputes α transpose_a transpose_b d batch_size := by
  by_cases hfit : d.M * d.K ≤ uintRange
  · exact SimdKernel.not_computes_of_fits hM hN hK hbatch hfit
  · exact SimdKernel.not_computes_of_behind hM hN hK hbatch (by omega)

/-- One tile of one batch. -/
theorem matmul_simd_overwrites_tile : ¬ MatmulSimdComputes ℚ false false ⟨32, 32, 32⟩ 1 :=
  matmul_simd_overwrites ℚ false false ⟨32, 32, 32⟩ 1 (by decide) (by decide) (by decide)
    (by decide)

/-- A tile with its second matrix transposed, of two batches. -/
theorem matmul_simd_fails : ¬ MatmulSimdComputes ℚ false true ⟨16, 16, 8⟩ 2 :=
  SimdKernel.not_computes_of_fits (by decide) (by decide) (by decide) (by decide) (by decide)

end MetalNative
