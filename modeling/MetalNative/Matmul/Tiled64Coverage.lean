import MetalNative.Matmul.Tiled64

namespace MetalNative

open ThreadLoop SimdMatrix SimdGroups List Tiled64Barrier

/-!
# What the 64×64 kernels write

For none of the sizes, element types and batches that `matmul` selects these kernels for do they
cover the result.

* `Tiled64Run.reaches_last` — a run up to the last turn of the loop over the tiles.
* `Tiled64Run.exists_overwritten_run` — fp16: a group that has ended the loop stores its
  accumulators into the tiles that another one still multiplies.
* `Tiled64Run.exists_stuck_run`, `Tiled64Run.exists_shared_run` — bf16: the groups stand at
  different barriers, or all of them store to one `temp_out`.
* `Tiled64Run.mem_writtenBy_first` — the batches of the fp32 kernel, and the lower rows of a group
  of bf16, are written twice.
* `matmul_tiled64_not_covered` — the result.
-/

namespace Tiled64Run

section Loop

variable {α : Type*} [Semiring α] {run : Tiled64Run} {words : FloatWords α} {gid : ThreadgroupId}
  {A B : ℕ → α}

/-- From turn `j` to the last one. -/
theorem reaches_from {order : List (Fin 8)} (hnodup : order.Nodup) (hall : ∀ g, g ∈ order)
    (I : ℕ → Tiled64Memory α → Prop) {n : ℕ}
    (hstep : ∀ t m, t < n → I t m → I (t + 1) (runTurns (run.exec words gid A B)
      (fun g => loads (t + 1) g ++ multiplies t g) order m))
    (later : Fin 8 → Program Tiled64Instr Tiled64Barrier) :
    ∀ len j m, j + len = n → I j m → ∃ m', I n m' ∧ Reaches (run.exec words gid A B)
      ⟨fun g => (range' j (len + 1)).flatMap (fun tile => turnOf (n + 1) tile g) ++ later g, m⟩
      ⟨fun g => code (multiplies n g) ++ later g, m'⟩ := by
  intro len
  induction len with
  | zero =>
    intro j m hj hI
    obtain rfl : j = n := by omega
    refine ⟨m, hI, ?_⟩
    have hprogram : (fun g => (range' j (0 + 1)).flatMap
          (fun tile => turnOf (j + 1) tile g) ++ later g)
        = fun g => code (multiplies j g) ++ later g := by
      ext g : 1
      simp [turnOf]
    rw [hprogram]
  | succ len ih =>
    intro j m hj hI
    have hturn := reaches_barrier hnodup hall (run.exec words gid A B)
      (fun g => loads (j + 1) g ++ multiplies j g) nextTile
      (fun g => (range' (j + 1) (len + 1)).flatMap (fun tile => turnOf (n + 1) tile g)
        ++ later g) m
    obtain ⟨m', hI', hrest⟩ := ih (j + 1) _ (by omega) (hstep j m (by omega) hI)
    refine ⟨m', hI', ?_⟩
    have hprogram : (fun g => (range' j (len + 1 + 1)).flatMap
          (fun tile => turnOf (n + 1) tile g) ++ later g)
        = fun g => code (loads (j + 1) g ++ multiplies j g) ++ .inr .nextTile
          :: ((range' (j + 1) (len + 1)).flatMap (fun tile => turnOf (n + 1) tile g)
            ++ later g) := by
      ext g : 1
      have hlt : j + 1 < n + 1 := by omega
      rw [range'_succ, flatMap_cons, turnOf, if_pos hlt, append_assoc,
        append_assoc, singleton_append]
    rw [hprogram]
    exact hturn.trans hrest

/-- **A run up to the last turn** of the loop over the tiles, with what its turns preserve. -/
theorem reaches_last {order : List (Fin 8)} (hnodup : order.Nodup) (hall : ∀ g, g ∈ order)
    (I : ℕ → Tiled64Memory α → Prop) {n : ℕ} (hn : run.num_k_tiles = n + 1) {s : Tiled64Memory α}
    (hfirst : I 0 (runTurns (run.exec words gid A B) (loads 0) order s))
    (hstep : ∀ t m, t < n → I t m → I (t + 1) (runTurns (run.exec words gid A B)
      (fun g => loads (t + 1) g ++ multiplies t g) order m)) :
    ∃ m, I n m ∧ Reaches (run.exec words gid A B) ⟨run.program gid, s⟩
      ⟨fun g => code (multiplies n g) ++ run.epilogue gid g, m⟩ := by
  obtain ⟨m, hI, hloop⟩ := reaches_from hnodup hall I hstep (run.epilogue gid) n 0 _
    (Nat.zero_add n) hfirst
  refine ⟨m, hI, ?_⟩
  have hload := reaches_barrier hnodup hall (run.exec words gid A B) (loads 0)
    firstTile (fun g => (range (n + 1)).flatMap
      (fun tile => turnOf (n + 1) tile g) ++ run.epilogue gid g) s
  have hprogram : run.program gid = fun g => code (loads 0 g) ++ .inr .firstTile
      :: ((range (n + 1)).flatMap (fun tile => turnOf (n + 1) tile g)
        ++ run.epilogue gid g) := by
    ext g : 1
    rw [program, hn]
  rw [hprogram]
  refine hload.trans ?_
  simpa [range_eq_range'] using hloop

end Loop

/-! ### Matrices with a single entry -/

/-- The launch for matrices of `d`, on elements of its own type. -/
structure Launched (run : Tiled64Run) (transpose_a transpose_b : Bool) (d : MatmulDims) : Prop where
  args : run.args = simdArguments transpose_a transpose_b d
  narrow : run.wide = false
  M_pos : 1 ≤ d.M
  N_pos : 1 ≤ d.N
  K_pos : 1 ≤ d.K
  M_le : d.M ≤ 512
  N_le : d.N ≤ 512
  K_le : d.K ≤ 512

/-- `A`, with a one at the end of its first row. -/
def singleA (α : Type*) [Semiring α] (transpose_a : Bool) (d : MatmulDims) : ℕ → α :=
  Pi.single (matrixIndex transpose_a d.M d.K 0 (d.K - 1)) 1

/-- `B`, with a one at the end of its first column. -/
def singleB (α : Type*) [Semiring α] (transpose_b : Bool) (d : MatmulDims) : ℕ → α :=
  Pi.single (matrixIndex transpose_b d.K d.N (d.K - 1) 0) 1

/-- The last tile. -/
def lastTile (d : MatmulDims) : ℕ := (d.K - 1) / 32

/-- The column of the entry in the last tile of `A`, and its row in that of `B`. -/
def lastIndex (d : MatmulDims) : ℕ := (d.K - 1) % 32

/-- The cell of `shared_A_buf` with the entry. -/
def cellA (d : MatmulDims) : ℕ := lastTile d % 2 * 2048 + lastIndex d

/-- The cell of `shared_B_buf` with the entry. -/
def cellB (d : MatmulDims) : ℕ := lastTile d % 2 * 2048 + lastIndex d * 64

theorem lastIndex_lt (d : MatmulDims) : lastIndex d < 32 := Nat.mod_lt _ (by decide)

/-- The first threadgroup. -/
def firstGroup : ThreadgroupId := ⟨0, 0, 0⟩

section Single

variable {α : Type*} [Semiring α] {run : Tiled64Run} {words : FloatWords α}
  {transpose_a transpose_b : Bool} {d : MatmulDims}

theorem Launched.num_k_tiles (h : run.Launched transpose_a transpose_b d) :
    run.num_k_tiles = lastTile d + 1 := by
  have hK := h.K_pos
  have hle := h.K_le
  have hargs : run.args.K = d.K := by
    rw [h.args]
    exact toUInt_of_lt (by unfold uintRange; omega)
  rw [Tiled64Run.num_k_tiles, hargs, toUInt_of_lt (by unfold uintRange; omega), lastTile]
  omega

theorem Launched.batchOffset_zero (run : Tiled64Run) (batch_stride : ℕ) :
    run.batchOffset 0 batch_stride = 0 := by
  unfold batchOffset
  split
  · rw [Nat.zero_mul]
    rfl
  · rfl

/-- The entry of the product. -/
theorem Launched.dotProduct_single (h : run.Launched transpose_a transpose_b d) :
    dotProduct transpose_a transpose_b d (singleA α transpose_a d) (singleB α transpose_b d) 0 0 0
      = 1 := by
  have hK := h.K_pos
  apply dotProduct_eq_one (k := d.K - 1) (by omega)
  intro l hl
  rw [singleA, singleB, opA_single h.M_pos (by omega) hl, opB_single (by omega) h.N_pos hl]
  by_cases heq : l = d.K - 1
  · rw [if_pos heq, one_mul]
  · rw [if_neg heq, zero_mul]

/-- Only the last tile of `A` has an element that is not zero. -/
theorem Launched.tileA_zero (h : run.Launched transpose_a transpose_b d) {tile idx : ℕ}
    (htile : tile ≤ lastTile d) (hidx : idx < 2048)
    (hne : ¬ (tile = lastTile d ∧ idx = lastIndex d)) :
    run.tileA words firstGroup (singleA α transpose_a d) tile idx = 0 := by
  have hK := h.K_pos
  have hle := h.K_le
  have hread : run.readDevice words (singleA α transpose_a d) = singleA α transpose_a d := by
    ext p
    simp [readDevice, h.narrow]
  have hfit : d.M * d.K ≤ uintRange :=
    le_trans (Nat.mul_le_mul h.M_le h.K_le) (by decide)
  unfold lastTile at htile
  rw [tileA, hread, h.args, firstGroup, Launched.batchOffset_zero, singleA]
  apply tileElement_single hfit h.M_pos (by omega)
  rintro ⟨hrow, hcol⟩
  simp only [Nat.zero_mul, Nat.zero_add] at hrow hcol
  rw [toUInt_of_lt (by unfold uintRange; omega)] at hrow hcol
  apply hne
  unfold lastTile lastIndex
  omega

/-- Only the last tile of `B` has an element that is not zero. -/
theorem Launched.tileB_zero (h : run.Launched transpose_a transpose_b d) {tile idx : ℕ}
    (htile : tile ≤ lastTile d) (hidx : idx < 2048)
    (hne : ¬ (tile = lastTile d ∧ idx = lastIndex d * 64)) :
    run.tileB words firstGroup (singleB α transpose_b d) tile idx = 0 := by
  have hK := h.K_pos
  have hle := h.K_le
  have hread : run.readDevice words (singleB α transpose_b d) = singleB α transpose_b d := by
    ext p
    simp [readDevice, h.narrow]
  have hfit : d.K * d.N ≤ uintRange :=
    le_trans (Nat.mul_le_mul h.K_le h.N_le) (by decide)
  unfold lastTile at htile
  rw [tileB, hread, h.args, firstGroup, Launched.batchOffset_zero, singleB]
  apply tileElement_single hfit (by omega) h.N_pos
  rintro ⟨hrow, hcol⟩
  simp only [Nat.zero_mul, Nat.zero_add] at hrow hcol
  rw [toUInt_of_lt (by unfold uintRange; omega)] at hrow hcol
  apply hne
  unfold lastTile lastIndex
  omega

/-! ### The loop over the tiles -/

/-- Up to tile `t` the tiles hold at most the two entries, and nothing has been added up. -/
structure Idle (d : MatmulDims) (t : ℕ) (s : Tiled64Memory α) : Prop where
  shared_A : ∀ x, ¬ (t = lastTile d ∧ x = cellA d) → s.shared_A_buf x = 0
  shared_B : ∀ x, ¬ (t = lastTile d ∧ x = cellB d) → s.shared_B_buf x = 0
  acc : s.acc = 0
  C : ∀ p, s.C p = 0

/-- Before the last tile all is zero. -/
theorem Idle.succ {t : ℕ} {s : Tiled64Memory α} (h : Idle d t s) (ht : t < lastTile d) :
    Idle d (t + 1) s := by
  have hne : t ≠ lastTile d := Nat.ne_of_lt ht
  exact ⟨fun x _ => h.shared_A x fun hx => hne hx.1, fun x _ => h.shared_B x fun hx => hne hx.1,
    h.acc, h.C⟩

variable {i : Tiled64Instr} {g : Fin 8}

/-- The next tile is loaded. -/
theorem Launched.idle_loads (h : run.Launched transpose_a transpose_b d) {tile : ℕ}
    (htile : tile ≤ lastTile d) (hi : i ∈ loads tile g)
    {s : Tiled64Memory α} (hs : Idle d tile s) :
    Idle d tile (run.exec words firstGroup (singleA α transpose_a d) (singleB α transpose_b d)
      g i s) := by
  rcases mem_append.mp hi with hload | hload
  · obtain ⟨idx, hidx, rfl⟩ := mem_map.mp hload
    have hlt := lt_of_mem_laneLoop (by decide) (Dvd.intro_left _ rfl) (by decide) (by decide) hidx
    refine ⟨?_, hs.shared_B, hs.acc, hs.C⟩
    intro x hx
    simp only [exec, Nat.div_add_mod']
    by_cases heq : x = tile % 2 * (64 * 32) + idx
    · rw [heq, Function.update_self]
      apply h.tileA_zero htile (by omega)
      rintro ⟨rfl, rfl⟩
      exact hx ⟨rfl, by rw [heq, cellA]⟩
    · rw [Function.update_of_ne heq]
      exact hs.shared_A x hx
  · obtain ⟨idx, hidx, rfl⟩ := mem_map.mp hload
    have hlt := lt_of_mem_laneLoop (by decide) (Dvd.intro_left _ rfl) (by decide) (by decide) hidx
    refine ⟨hs.shared_A, ?_, hs.acc, hs.C⟩
    intro x hx
    simp only [exec, Nat.div_add_mod']
    by_cases heq : x = tile % 2 * (32 * 64) + idx
    · rw [heq, Function.update_self]
      apply h.tileB_zero htile (by omega)
      rintro ⟨rfl, rfl⟩
      exact hx ⟨rfl, by rw [heq, cellB]⟩
    · rw [Function.update_of_ne heq]
      exact hs.shared_B x hx

/-- Zeros added to an accumulator. -/
theorem multiplyAccumulate_zero {a b : Mat8 α} (h : ∀ r l c, a r l * b l c = 0) :
    multiplyAccumulate a b 0 = 0 := by
  ext r c
  rw [multiplyAccumulate, Matrix.add_apply, Matrix.mul_apply,
    Finset.sum_eq_zero fun l _ => h r l c]
  exact zero_add _

variable {gid : ThreadgroupId} {A B : ℕ → α}

/-- The products of a tile add up zeros, as long as its `B` is zero. -/
theorem acc_multiply_zero {s : Tiled64Memory α} (hacc : s.acc = 0)
    {tile k : ℕ} (hk : k ≤ 24)
    (hB : ∀ x, tile % 2 * 2048 ≤ x → x < tile % 2 * 2048 + 2048 → s.shared_B_buf x = 0) :
    (run.exec words gid A B g (.multiply tile k) s).acc = 0 := by
  have hsg : sg_col g ≤ 32 := by
    unfold sg_col
    omega
  have hblock : ∀ i j : Fin 4, multiplyAccumulate
      (load s.shared_A_buf (tile % 2 * (64 * 32) + (sg_row g + i * 8) * 32 + k) 32)
      (load s.shared_B_buf (tile % 2 * (32 * 64) + k * 64 + (sg_col g + j * 8)) 64)
      (s.acc g i j) = 0 := by
    intro i j
    rw [hacc]
    apply multiplyAccumulate_zero
    intro r l c
    rw [load_apply, load_apply, hB _ (by omega) (by omega), mul_zero]
  simp only [exec, hblock]
  rw [hacc]
  exact Function.update_eq_self g 0

/-- The loop of the products. -/
theorem le_of_mem_multiplies {tile : ℕ}
    (hi : i ∈ multiplies tile g) : ∃ k, k ≤ 24 ∧ i = .multiply tile k := by
  obtain ⟨k, hk, rfl⟩ := mem_map.mp hi
  obtain ⟨t, rfl, ht⟩ := (mem_stride (by decide)).mp hk
  exact ⟨0 + t * 8, by omega, rfl⟩

/-- The tile before the last ones is multiplied. -/
theorem idle_multiplies {tile : ℕ}
    (hi : i ∈ multiplies tile g) {s : Tiled64Memory α}
    (hs : Idle d (tile + 1) s) : Idle d (tile + 1) (run.exec words gid A B g i s) := by
  obtain ⟨k, hk, rfl⟩ := le_of_mem_multiplies hi
  refine ⟨hs.shared_A, hs.shared_B, ?_, hs.C⟩
  apply acc_multiply_zero hs.acc hk
  intro x hx hlt
  apply hs.shared_B
  -- the entry of `B` is in the other buffer
  rintro ⟨hlast, rfl⟩
  have := lastIndex_lt d
  unfold cellB at hx hlt
  omega

/-- The groups, one after the other. -/
theorem idle_run (words : FloatWords α) (h : run.Launched transpose_a transpose_b d)
    {s : Tiled64Memory α}
    (hs : Idle d 0 s) :
    ∃ m, Idle d (lastTile d) m ∧
      Reaches (run.exec words firstGroup (singleA α transpose_a d) (singleB α transpose_b d))
        ⟨run.program firstGroup, s⟩
        ⟨fun g => code (multiplies (lastTile d) g) ++ run.epilogue firstGroup g, m⟩ := by
  refine reaches_last (nodup_finRange 8) (mem_finRange) (fun t => Idle d t)
    h.num_k_tiles ?_ ?_
  · exact runTurns_invariant (fun _ _ _ hi _ hs => h.idle_loads (Nat.zero_le _) hi hs) hs
  · intro t m ht hm
    refine runTurns_invariant (fun g _ i hi s hs => ?_) (hm.succ ht)
    rcases mem_append.mp hi with hload | hmul
    · exact h.idle_loads ht hload hs
    · exact idle_multiplies hmul hs

/-! ### fp16: the scratch memory lies in the tiles -/

/-- A stored block of zeros keeps zeros. -/
theorem storeFloats_zero {base stride x : ℕ} {mem : ℕ → α} (h : mem x = 0) :
    storeFloats words 0 base stride mem x = 0 := by
  apply storeAll_of_mem _ (Or.inr h)
  rintro ⟨rc, half⟩ - -
  cases half with
  | false => exact words.low_zero
  | true => exact words.high_zero

/-- A stored block of zeros leaves zeros. -/
theorem storeFloats_zero_at {base stride x : ℕ} (r c : Fin 8) (half : Bool)
    (hx : 2 * (base + r * stride + c) + (if half then 1 else 0) = x) (mem : ℕ → α) :
    storeFloats words 0 base stride mem x = 0 := by
  apply storeAll_of_mem _ (Or.inl ⟨((r, c), half), by cases half <;> simp, hx⟩)
  rintro ⟨rc, half⟩ - -
  cases half with
  | false => exact words.low_zero
  | true => exact words.high_zero

/-- The entry of `B` is gone before it has been multiplied. -/
structure Drained (d : MatmulDims) (s : Tiled64Memory α) : Prop where
  shared_A : ∀ x, x ≠ cellA d → s.shared_A_buf x = 0
  shared_B : ∀ x, s.shared_B_buf x = 0
  acc : s.acc = 0
  C : ∀ p, s.C p = 0

/-- The last turn of a group and its stores to the scratch memory. -/
def lastTurn (d : MatmulDims) (g : Fin 8) : List Tiled64Instr :=
  multiplies (lastTile d) g ++ scratchStores g

theorem mem_lastTurn (hi : i ∈ lastTurn d g) :
    (∃ k, k ≤ 24 ∧ i = .multiply (lastTile d) k) ∨ ∃ i' j', i = .storeScratch i' j' := by
  rcases mem_append.mp hi with hmul | hstore
  · exact Or.inl (le_of_mem_multiplies hmul)
  · obtain ⟨ij, -, rfl⟩ := mem_map.mp hstore
    exact Or.inr ⟨ij.1, ij.2, rfl⟩

/-- A group without sums stores zeros. -/
theorem exec_storeScratch (i j : Fin 4)
    {s : Tiled64Memory α} (hacc : s.acc = 0) :
    run.exec words gid A B g (.storeScratch i j) s
      = if g < 4 then
          { s with shared_A_buf :=
              storeFloats words 0 (sg_scratch g + i * 8 * 32 + j * 8) 32 s.shared_A_buf }
        else
          { s with shared_B_buf :=
              storeFloats words 0 (sg_scratch g + i * 8 * 32 + j * 8) 32 s.shared_B_buf } := by
  have hblock : s.acc g i j = 0 := by
    rw [hacc]
    rfl
  simp only [exec, hblock]

/-- The first group to end is one of those whose rows of `A` are zero. -/
theorem idle_lastTurn (hg : 4 ≤ g)
    (hi : i ∈ lastTurn d g) {s : Tiled64Memory α}
    (hs : Idle d (lastTile d) s) : Idle d (lastTile d) (run.exec words gid A B g i s) := by
  have hκ := lastIndex_lt d
  have hge : 4 ≤ (g : ℕ) := hg
  rcases mem_lastTurn hi with ⟨k, hk, rfl⟩ | ⟨i', j', rfl⟩
  · refine ⟨hs.shared_A, hs.shared_B, ?_, hs.C⟩
    have hrow : 32 ≤ sg_row g := by
      unfold sg_row
      omega
    have hblock : ∀ i j : Fin 4, multiplyAccumulate
        (load s.shared_A_buf (lastTile d % 2 * (64 * 32) + (sg_row g + i * 8) * 32 + k) 32)
        (load s.shared_B_buf (lastTile d % 2 * (32 * 64) + k * 64 + (sg_col g + j * 8)) 64)
        (s.acc g i j) = 0 := by
      intro i j
      rw [hs.acc]
      apply multiplyAccumulate_zero
      intro r l c
      have hcell : lastTile d % 2 * (64 * 32) + (sg_row g + i * 8) * 32 + k + r * 32 + l
          ≠ cellA d := by
        unfold cellA
        omega
      rw [load_apply, hs.shared_A _ fun hx => hcell hx.2, zero_mul]
    simp only [exec, hblock]
    rw [hs.acc]
    exact Function.update_eq_self g 0
  · have hnot : ¬ g < 4 := not_lt.mpr hg
    rw [exec_storeScratch i' j' hs.acc, if_neg hnot]
    refine ⟨hs.shared_A, fun x hx => ?_, hs.acc, hs.C⟩
    dsimp only
    exact storeFloats_zero (hs.shared_B x hx)

/-- Then the others add up zeros and store zeros. -/
theorem drained_lastTurn
    (hi : i ∈ lastTurn d g) {s : Tiled64Memory α} (hs : Drained d s) :
    Drained d (run.exec words gid A B g i s) := by
  rcases mem_lastTurn hi with ⟨k, hk, rfl⟩ | ⟨i', j', rfl⟩
  · exact ⟨hs.shared_A, hs.shared_B, acc_multiply_zero hs.acc hk fun x _ _ => hs.shared_B x, hs.C⟩
  · rw [exec_storeScratch i' j' hs.acc]
    split_ifs with hg
    · refine ⟨fun x hx => ?_, hs.shared_B, hs.acc, hs.C⟩
      dsimp only
      exact storeFloats_zero (hs.shared_A x hx)
    · refine ⟨hs.shared_A, fun x => ?_, hs.acc, hs.C⟩
      dsimp only
      exact storeFloats_zero (hs.shared_B x)

theorem coverGroup_lt (d : MatmulDims) : lastTile d % 2 * 2 < 8 := by omega

theorem earlyGroup_lt (d : MatmulDims) : 4 + lastTile d % 2 * 2 < 8 := by omega

/-- The group that ends first: its scratch memory is the last tile of `B`. -/
def earlyGroup (d : MatmulDims) : Fin 8 := ⟨4 + lastTile d % 2 * 2, earlyGroup_lt d⟩

/-- The group whose scratch memory is the last tile of `A`. -/
def coverGroup (d : MatmulDims) : Fin 8 := ⟨lastTile d % 2 * 2, coverGroup_lt d⟩

/-- The other groups. -/
def lateGroups (d : MatmulDims) : List (Fin 8) :=
  (List.finRange 8).filter fun g => g ≠ earlyGroup d

theorem coverGroup_low (d : MatmulDims) : coverGroup d < 4 := by
  rw [Fin.lt_def]
  show lastTile d % 2 * 2 < 4
  omega

theorem earlyGroup_order (d : MatmulDims) :
    (earlyGroup d :: lateGroups d).Nodup ∧ (∀ g, g ∈ earlyGroup d :: lateGroups d) ∧
      4 ≤ earlyGroup d ∧ coverGroup d ∈ lateGroups d := by
  have hearly : 4 ≤ earlyGroup d := by
    rw [Fin.le_def]
    show 4 ≤ 4 + lastTile d % 2 * 2
    omega
  have hmem : ∀ g, g ∈ lateGroups d ↔ g ≠ earlyGroup d := by simp [lateGroups]
  refine ⟨nodup_cons.mpr ⟨?_, (nodup_finRange 8).filter _⟩, fun g => ?_, hearly, ?_⟩
  · rw [hmem]
    simp
  · rw [mem_cons, hmem]
    exact eq_or_ne g (earlyGroup d)
  · rw [hmem]
    exact ((coverGroup_low d).trans_le hearly).ne

/-- The scratch memory of both begins where the last tile does. -/
theorem sg_scratch_coverGroup (d : MatmulDims) :
    sg_scratch (coverGroup d) = lastTile d % 2 * 1024 := by
  have hval : (coverGroup d).val = lastTile d % 2 * 2 := rfl
  rw [sg_scratch, if_pos (coverGroup_low d), hval]
  omega

theorem sg_scratch_earlyGroup (d : MatmulDims) :
    sg_scratch (earlyGroup d) = lastTile d % 2 * 1024 := by
  have hval : (earlyGroup d).val = 4 + lastTile d % 2 * 2 := rfl
  obtain ⟨-, -, hearly, -⟩ := earlyGroup_order d
  have hsub : (earlyGroup d - 4).val = lastTile d % 2 * 2 := by
    rw [Fin.sub_val_of_le hearly, hval]
    exact Nat.add_sub_cancel_left 4 _
  rw [sg_scratch, if_neg (not_lt.mpr hearly)]
  omega

/-- All pairs of blocks. -/
theorem mem_blocks (ij : Fin 4 × Fin 4) : ij ∈ blocks :=
  mem_product.mpr ⟨mem_finRange _, mem_finRange _⟩

/-- **The early group** stores over the entry of `B`. -/
theorem drained_early {s : Tiled64Memory α}
    (hs : Idle d (lastTile d) s) :
    Drained d (runGroup (run.exec words gid A B) (earlyGroup d) (lastTurn d (earlyGroup d)) s) := by
  obtain ⟨-, -, hearly, -⟩ := earlyGroup_order d
  have hκ := lastIndex_lt d
  have hidle : Idle d (lastTile d)
      (runGroup (run.exec words gid A B) (earlyGroup d) (lastTurn d (earlyGroup d)) s) :=
    runGroup_invariant (fun i hi s hs => idle_lastTurn hearly hi hs) hs
  have hnot : ¬ earlyGroup d < 4 := not_lt.mpr hearly
  have hcell : (runGroup (run.exec words gid A B) (earlyGroup d) (lastTurn d (earlyGroup d))
      s).shared_B_buf (cellB d) = 0 := by
    refine runGroup_cell (P := Idle d (lastTile d)) (fun s => s.shared_B_buf (cellB d))
      (fun i hi s hs => idle_lastTurn hearly hi hs) ?_ ?_ hs
    · intro i hi s hs hzero
      rcases mem_lastTurn hi with ⟨k, hk, rfl⟩ | ⟨i', j', rfl⟩
      · exact hzero
      · simp only [exec_storeScratch i' j' hs.acc, if_neg hnot]
        exact storeFloats_zero hzero
    · refine ⟨.storeScratch ⟨lastIndex d / 8, by omega⟩ 0, ?_, ?_⟩
      · exact mem_append_right _
          (mem_map.mpr ⟨(⟨lastIndex d / 8, by omega⟩, 0), mem_blocks _, rfl⟩)
      · intro s hs
        simp only [exec_storeScratch _ _ hs.acc, if_neg hnot]
        apply storeFloats_zero_at ⟨lastIndex d % 8, by omega⟩ 0 false
        rw [sg_scratch_earlyGroup, cellB]
        simp
        omega
  refine ⟨fun x hx => hidle.shared_A x fun h => hx h.2, fun x => ?_, hidle.acc, hidle.C⟩
  by_cases hx : x = cellB d
  · rw [hx]
    exact hcell
  · exact hidle.shared_B x fun h => hx h.2

/-- Both buffers are zero when all groups have stored. -/
structure Clean (s : Tiled64Memory α) : Prop where
  shared_A : ∀ x, s.shared_A_buf x = 0
  shared_B : ∀ x, s.shared_B_buf x = 0
  C : ∀ p, s.C p = 0

theorem clean_late {s : Tiled64Memory α} (hs : Drained d s) :
    Clean (runTurns (run.exec words gid A B) (lastTurn d) (lateGroups d) s) := by
  obtain ⟨-, -, -, hcover⟩ := earlyGroup_order d
  have hκ := lastIndex_lt d
  have hdrained : Drained d (runTurns (run.exec words gid A B) (lastTurn d) (lateGroups d) s) :=
    runTurns_invariant (fun _ _ _ hi _ hs => drained_lastTurn hi hs) hs
  have hcell : (runTurns (run.exec words gid A B) (lastTurn d) (lateGroups d) s).shared_A_buf
      (cellA d) = 0 := by
    refine runTurns_cell (P := Drained d) (fun s => s.shared_A_buf (cellA d))
      (fun _ _ _ hi _ hs => drained_lastTurn hi hs) ?_ hcover ?_ hs
    · intro g _ i hi s hs hzero
      rcases mem_lastTurn hi with ⟨k, hk, rfl⟩ | ⟨i', j', rfl⟩
      · exact hzero
      · simp only [exec_storeScratch i' j' hs.acc]
        split_ifs
        · dsimp only
          exact storeFloats_zero hzero
        · exact hzero
    · refine ⟨.storeScratch 0 ⟨lastIndex d / 2 / 8, by omega⟩, ?_, ?_⟩
      · exact mem_append_right _
          (mem_map.mpr ⟨(0, ⟨lastIndex d / 2 / 8, by omega⟩), mem_blocks _, rfl⟩)
      · intro s hs
        simp only [exec_storeScratch _ _ hs.acc, if_pos (coverGroup_low d)]
        apply storeFloats_zero_at 0 ⟨lastIndex d / 2 % 8, by omega⟩
          (decide (lastIndex d % 2 = 1))
        rw [sg_scratch_coverGroup, cellA]
        simp
        split_ifs <;> omega
  refine ⟨fun x => ?_, hdrained.shared_B, hdrained.C⟩
  by_cases hx : x = cellA d
  · rw [hx]
    exact hcell
  · exact hdrained.shared_A x hx

/-- Zeros are converted to zeros. -/
theorem clean_converts
    (hi : i ∈ converts g) {s : Tiled64Memory α} (hs : Clean s) :
    Clean (run.exec words gid A B g i s) := by
  obtain ⟨t, -, rfl⟩ := mem_map.mp hi
  simp only [exec]
  cases run.convertTarget gid g t with
  | none => exact hs
  | some p =>
    refine ⟨hs.shared_A, hs.shared_B, fun x => ?_⟩
    simp only [Option.elim_some, Function.update_apply]
    split_ifs
    · rw [hs.shared_A, hs.shared_A, words.join_zero]
    · rw [hs.shared_B, hs.shared_B, words.join_zero]
    · exact hs.C x

/-- **The overwritten tile.** A group that has ended its last turn stores its accumulators over the
tile of `B` that the others still multiply: the tile of `C` is written with zeros. -/
theorem exists_overwritten_run (h : run.Launched transpose_a transpose_b d)
    (hkernel : run.kernel = .fp16 ∨ run.kernel = .batched_fp16) {s : Tiled64Memory α}
    (hs : Idle d 0 s) :
    ∃ t : Tiled64Memory α, (∀ p, t.C p = 0) ∧
      Reaches (run.exec words firstGroup (singleA α transpose_a d) (singleB α transpose_b d))
        ⟨run.program firstGroup, s⟩ ⟨fun _ => [], t⟩ := by
  obtain ⟨hnodup, hall, -, -⟩ := earlyGroup_order d
  obtain ⟨m, hidle, hloop⟩ := idle_run words h hs
  have hprogram : (fun g => code (multiplies (lastTile d) g) ++ run.epilogue firstGroup g)
      = fun g => code (lastTurn d g) ++ .inr .scratch :: code (converts g) := by
    ext g : 1
    rcases hkernel with hk | hk <;> simp [epilogue, hk, lastTurn, code]
  rw [hprogram] at hloop
  have hlast := reaches_barrier hnodup hall
    (run.exec words firstGroup (singleA α transpose_a d) (singleB α transpose_b d)) (lastTurn d)
    scratch (fun g => code (converts g)) m
  have hclean : Clean (runTurns
      (run.exec words firstGroup (singleA α transpose_a d) (singleB α transpose_b d)) (lastTurn d)
      (earlyGroup d :: lateGroups d) m) := by
    rw [runTurns_cons]
    exact clean_late (drained_early hidle)
  have hconvert := reaches_turns hnodup hall
    (run.exec words firstGroup (singleA α transpose_a d) (singleB α transpose_b d)) converts
    (fun _ => ([] : Program Tiled64Instr Tiled64Barrier)) (runTurns
      (run.exec words firstGroup (singleA α transpose_a d) (singleB α transpose_b d)) (lastTurn d)
      (earlyGroup d :: lateGroups d) m)
  simp only [append_nil] at hconvert
  have hdone : Clean (runTurns
      (run.exec words firstGroup (singleA α transpose_a d) (singleB α transpose_b d)) converts
      (earlyGroup d :: lateGroups d) _) :=
    runTurns_invariant (fun _ _ _ hi _ hs => clean_converts hi hs) hclean
  exact ⟨_, hdone.C, hloop.trans (hlast.trans hconvert)⟩

/-! ### bf16: one `temp_out` for all groups -/

/-- Only the first block of the first group has a sum that is not zero. -/
structure Edged (d : MatmulDims) (s : Tiled64Memory α) : Prop where
  shared_A : ∀ x, x ≠ cellA d → s.shared_A_buf x = 0
  shared_B : ∀ x, x ≠ cellB d → s.shared_B_buf x = 0
  acc : ∀ (g : Fin 8) (i j : Fin 4), 8 ≤ sg_row g + i * 8 ∨ 8 ≤ sg_col g + j * 8 →
    s.acc g i j = 0
  C : ∀ p, s.C p = 0

theorem Idle.edged {t : ℕ} {s : Tiled64Memory α} (hs : Idle d t s) : Edged d s := by
  refine ⟨fun x hx => hs.shared_A x fun h => hx h.2, fun x hx => hs.shared_B x fun h => hx h.2,
    fun g i j _ => ?_, hs.C⟩
  rw [hs.acc]
  rfl

/-- The last products. -/
theorem edged_multiply {k : ℕ} (hk : k ≤ 24)
    {s : Tiled64Memory α} (hs : Edged d s) :
    Edged d (run.exec words gid A B g (.multiply (lastTile d) k) s) := by
  have hκ := lastIndex_lt d
  refine ⟨hs.shared_A, hs.shared_B, ?_, hs.C⟩
  intro g' i j hout
  simp only [exec]
  by_cases hg : g' = g
  · subst hg
    have hcol : sg_col g' ≤ 32 := by
      unfold sg_col
      omega
    rw [Function.update_self, hs.acc g' i j hout]
    apply multiplyAccumulate_zero
    intro r l c
    rw [load_apply, load_apply]
    rcases hout with hrow | hright
    · -- rows of `A` below the entry
      have hcell : lastTile d % 2 * (64 * 32) + (sg_row g' + i * 8) * 32 + k + r * 32 + l
          ≠ cellA d := by
        unfold cellA
        omega
      rw [hs.shared_A _ hcell, zero_mul]
    · -- columns of `B` beside the entry
      have hcell : lastTile d % 2 * (32 * 64) + k * 64 + (sg_col g' + j * 8) + l * 64 + c
          ≠ cellB d := by
        unfold cellB
        omega
      rw [hs.shared_B _ hcell, mul_zero]
  · rw [Function.update_of_ne hg]
    exact hs.acc g' i j hout

/-- A store to `temp_out` in the branch of the edge. -/
theorem exec_storeTemp {i j : Fin 4}
    (hedge : run.wholeBlock gid g i j = false) (s : Tiled64Memory α) :
    run.exec words gid A B g (.storeTemp i j) s
      = { s with temp_edge := store (s.acc g i j) 0 8 s.temp_edge } := by
  simp only [exec, hedge, Bool.false_eq_true, if_false]

/-- A block of zeros in `temp_out`. -/
theorem store_temp_zero (mem : ℕ → α) {x : ℕ} (hx : x < 64) :
    store (0 : Mat8 α) 0 8 mem x = 0 := by
  have hcell := store_at (0 : Mat8 α) (q := 0) (show 0 + 8 ≤ 8 by decide) mem
    ⟨x / 8, by omega⟩ ⟨x % 8, by omega⟩
  have hx' : (0 + x / 8) * 8 + (0 + x % 8) = x := by omega
  simp only [Nat.zero_mul, Nat.add_zero, hx'] at hcell
  rw [hcell]
  rfl

/-- `temp_out` is zero when all groups have stored. -/
structure Wiped (d : MatmulDims) (s : Tiled64Memory α) : Prop extends Edged d s where
  temp_edge : ∀ x < 64, s.temp_edge x = 0

/-- The last turn of a group and its first store to `temp_out`. -/
def firstTurn (d : MatmulDims) (g : Fin 8) : List Tiled64Instr :=
  multiplies (lastTile d) g ++ [.storeTemp 0 0]

/-- **The last group's zeros are what is left in `temp_out`**, when it stores last. -/
theorem wiped_first
    (hedge : ∀ g i j, run.wholeBlock gid g i j = false) {s : Tiled64Memory α} (hs : Edged d s) :
    Wiped d (runTurns (run.exec words gid A B) (firstTurn d) ([0, 1, 2, 3, 4, 5, 6] ++ [7]) s) := by
  have hstep : ∀ g, ∀ i ∈ firstTurn d g, ∀ s, Edged d s →
      Edged d (run.exec words gid A B g i s) := by
    intro g i hi s hs
    rcases mem_append.mp hi with hmul | hstore
    · obtain ⟨k, hk, rfl⟩ := le_of_mem_multiplies hmul
      exact edged_multiply hk hs
    · obtain rfl := mem_singleton.mp hstore
      rw [exec_storeTemp (hedge g 0 0)]
      exact ⟨hs.shared_A, hs.shared_B, hs.acc, hs.C⟩
  have hbefore : Edged d
      (runTurns (run.exec words gid A B) (firstTurn d) [0, 1, 2, 3, 4, 5, 6] s) :=
    runTurns_invariant (fun g _ => hstep g) hs
  rw [runTurns_append, runTurns_cons, runTurns_nil]
  refine ⟨runGroup_invariant (hstep 7) hbefore, ?_⟩
  intro x hx
  have hzero : ∀ s, Edged d s → (run.exec words gid A B 7 (.storeTemp 0 0) s).temp_edge x = 0 := by
    intro s hs
    rw [exec_storeTemp (hedge 7 0 0)]
    dsimp only
    rw [hs.acc 7 0 0 (Or.inl (by decide))]
    exact store_temp_zero _ hx
  refine runGroup_cell (P := Edged d) (fun s => s.temp_edge x) (hstep 7) ?_
    ⟨.storeTemp 0 0, mem_append_right _ (mem_singleton_self _), hzero⟩ hbefore
  intro i hi s hs hcell
  rcases mem_append.mp hi with hmul | hstore
  · obtain ⟨k, -, rfl⟩ := le_of_mem_multiplies hmul
    exact hcell
  · obtain rfl := mem_singleton.mp hstore
    exact hzero s hs

/-- Zeros are written, and zeros are stored for the next block. -/
theorem wiped_next (ij : Fin 4 × Fin 4) (hnarrow : run.wide = false)
    (hedge : ∀ g i j, run.wholeBlock gid g i j = false)
    (hi : i ∈ tempWrites ij ∨ ∃ i' j' : Fin 4, i = .storeTemp i' j' ∧
      (8 ≤ (i' : ℕ) * 8 ∨ 8 ≤ (j' : ℕ) * 8)) {s : Tiled64Memory α} (hs : Wiped d s) :
    Wiped d (run.exec words gid A B g i s) := by
  rcases hi with hwrite | ⟨i', j', rfl, hout⟩
  · obtain ⟨t, ht, rfl⟩ := mem_map.mp hwrite
    have hlt := lt_of_mem_laneLoop (by decide) (by decide) (by decide) (by decide) ht
    simp only [exec, hedge, Bool.false_eq_true, if_false, Nat.div_add_mod']
    cases run.tempTarget gid g ij.1 ij.2 t with
    | none => exact hs
    | some p =>
      refine ⟨⟨hs.shared_A, hs.shared_B, hs.acc, fun x => ?_⟩, hs.temp_edge⟩
      simp only [Option.elim_some, writeDevice, hnarrow, Bool.false_eq_true, if_false,
        Function.update_apply]
      split_ifs
      · exact hs.temp_edge t hlt
      · exact hs.C x
  · rw [exec_storeTemp (hedge g i' j')]
    refine ⟨⟨hs.shared_A, hs.shared_B, hs.acc, hs.C⟩, fun x hx => ?_⟩
    dsimp only
    rw [hs.acc g i' j' (by omega)]
    exact store_temp_zero _ hx

/-- The groups in order, the last one apart. -/
theorem inOrder_nodup : ([0, 1, 2, 3, 4, 5, 6] ++ [7] : List (Fin 8)).Nodup := by decide

theorem inOrder_all (g : Fin 8) : g ∈ ([0, 1, 2, 3, 4, 5, 6] ++ [7] : List (Fin 8)) := by
  revert g
  decide

/-- The blocks behind the first one. -/
theorem reaches_blocks (words : FloatWords α) (hnarrow : run.wide = false)
   
    (hedge : ∀ g i j, run.wholeBlock gid g i j = false) (rest : List (Fin 4 × Fin 4))
    (hrest : ∀ ij ∈ rest, 8 ≤ (ij.1 : ℕ) * 8 ∨ 8 ≤ (ij.2 : ℕ) * 8) (ij : Fin 4 × Fin 4)
    {s : Tiled64Memory α} (hs : Wiped d s) :
    ∃ t : Tiled64Memory α, (∀ p, t.C p = 0) ∧ Reaches (run.exec words gid A B)
      ⟨fun g => code (tempWrites ij) ++ rest.flatMap (run.throughTemp gid g), s⟩
      ⟨fun _ => [], t⟩ := by
  induction rest generalizing ij s with
  | nil =>
    have hwrite := reaches_turns inOrder_nodup inOrder_all (run.exec words gid A B)
      (fun _ => tempWrites ij) (fun _ => ([] : Program Tiled64Instr Tiled64Barrier)) s
    have hdone : Wiped d (runTurns (run.exec words gid A B) (fun _ => tempWrites ij)
        ([0, 1, 2, 3, 4, 5, 6] ++ [7]) s) :=
      runTurns_invariant (fun _ _ _ hi _ hs => wiped_next ij hnarrow hedge (Or.inl hi) hs) hs
    exact ⟨_, hdone.C, hwrite⟩
  | cons next rest ih =>
    have hturn := reaches_barrier inOrder_nodup inOrder_all (run.exec words gid A B)
      (fun _ => tempWrites ij ++ [.storeTemp next.1 next.2]) edge
      (fun g => code (tempWrites next) ++ rest.flatMap (run.throughTemp gid g)) s
    have hnext : Wiped d (runTurns (run.exec words gid A B)
        (fun _ => tempWrites ij ++ [.storeTemp next.1 next.2])
          ([0, 1, 2, 3, 4, 5, 6] ++ [7]) s) := by
      refine runTurns_invariant (fun g _ i hi s hs => ?_) hs
      rcases mem_append.mp hi with hwrite | hstore
      · exact wiped_next ij hnarrow hedge (Or.inl hwrite) hs
      · refine wiped_next ij hnarrow hedge (Or.inr ⟨next.1, next.2, ?_, ?_⟩) hs
        · exact mem_singleton.mp hstore
        · exact hrest next (mem_cons_self ..)
    obtain ⟨t, hC, hothers⟩ := ih (fun x hx => hrest x (mem_cons_of_mem _ hx)) next hnext
    refine ⟨t, hC, ?_⟩
    have hprogram : (fun g => code (tempWrites ij)
          ++ (next :: rest).flatMap (run.throughTemp gid g))
        = fun g => code (tempWrites ij ++ [.storeTemp next.1 next.2]) ++ .inr .edge
          :: (code (tempWrites next) ++ rest.flatMap (run.throughTemp gid g)) := by
      ext g : 1
      simp [throughTemp, hedge, code]
    rw [hprogram]
    exact hturn.trans hothers

/-- The first block and the others. -/
theorem blocks_eq : ∃ rest, blocks = (0, 0) :: rest ∧
    ∀ ij ∈ rest, 8 ≤ (ij.1 : ℕ) * 8 ∨ 8 ≤ (ij.2 : ℕ) * 8 :=
  ⟨blocks.tail, rfl, by decide⟩

/-- What follows the last turn of the bf16 kernel. -/
theorem last_program (hkernel : run.kernel = .bf16) {rest : List (Fin 4 × Fin 4)}
    (hrest : blocks = (0, 0) :: rest) (gid : ThreadgroupId) :
    (fun g => code (multiplies (lastTile d) g) ++ run.epilogue gid g)
      = fun g => code (firstTurn d g)
        ++ .inr (if run.wholeBlock gid g 0 0 then block else .edge)
          :: (code (tempWrites (0, 0)) ++ rest.flatMap (run.throughTemp gid g)) := by
  ext g : 1
  simp [epilogue, hkernel, hrest, firstTurn, throughTemp, code]

/-- **The shared `temp_out`.** Where no block is whole all groups store to the same cells, and the
tile of `C` is written with the zeros of the last one. -/
theorem exists_shared_run (h : run.Launched transpose_a transpose_b d)
    (hkernel : run.kernel = .bf16) (hedge : ∀ g i j, run.wholeBlock firstGroup g i j = false)
    {s : Tiled64Memory α} (hs : Idle d 0 s) :
    ∃ t : Tiled64Memory α, (∀ p, t.C p = 0) ∧
      Reaches (run.exec words firstGroup (singleA α transpose_a d) (singleB α transpose_b d))
        ⟨run.program firstGroup, s⟩ ⟨fun _ => [], t⟩ := by
  obtain ⟨m, hidle, hloop⟩ := idle_run words h hs
  obtain ⟨rest, hblocks, hout⟩ := blocks_eq
  rw [last_program hkernel hblocks] at hloop
  simp only [hedge, Bool.false_eq_true, if_false] at hloop
  have hfirst := reaches_barrier inOrder_nodup inOrder_all
    (run.exec words firstGroup (singleA α transpose_a d) (singleB α transpose_b d)) (firstTurn d)
    edge
    (fun g => code (tempWrites (0, 0)) ++ rest.flatMap (run.throughTemp firstGroup g)) m
  obtain ⟨t, hC, hothers⟩ := reaches_blocks words (A := singleA α transpose_a d)
    (B := singleB α transpose_b d) h.narrow hedge rest hout (0, 0)
    (wiped_first hedge hidle.edged)
  exact ⟨t, hC, hloop.trans (hfirst.trans hothers)⟩

/-- **The barriers.** Where the first group has a whole block and another one has not, they stand at
the barriers of different branches. -/
theorem exists_stuck_run (words : FloatWords α) (h : run.Launched transpose_a transpose_b d)
    (hkernel : run.kernel = .bf16) (hwhole : run.wholeBlock firstGroup 0 0 0 = true)
    (hedge : run.wholeBlock firstGroup 2 0 0 = false) {s : Tiled64Memory α} (hs : Idle d 0 s) :
    ∃ c : Config (Fin 8) Tiled64Instr Tiled64Barrier (Tiled64Memory α),
      Reaches (run.exec words firstGroup (singleA α transpose_a d) (singleB α transpose_b d))
        ⟨run.program firstGroup, s⟩ c ∧
      ¬ ((∀ g, c.rest g = []) ∨
        ∃ c', Step (run.exec words firstGroup (singleA α transpose_a d)
          (singleB α transpose_b d)) c c') := by
  obtain ⟨m, -, hloop⟩ := idle_run words h hs
  obtain ⟨rest, hblocks, -⟩ := blocks_eq
  rw [last_program hkernel hblocks] at hloop
  have hfirst := reaches_turns inOrder_nodup inOrder_all
    (run.exec words firstGroup (singleA α transpose_a d) (singleB α transpose_b d)) (firstTurn d)
    (fun g => .inr (if run.wholeBlock firstGroup g 0 0 then block else .edge)
      :: (code (tempWrites (0, 0)) ++ rest.flatMap (run.throughTemp firstGroup g))) m
  refine ⟨_, hloop.trans hfirst, ?_⟩
  rintro (hended | ⟨c', hstep⟩)
  · exact absurd (hended 0) (cons_ne_nil _ _)
  · cases hstep with
    | instruction hi => exact absurd (cons.inj hi).1 Sum.inr_ne_inl
    | barrier hb =>
      have hfirst := Sum.inr.inj (cons.inj (hb 0)).1
      have hthird := Sum.inr.inj (cons.inj (hb 2)).1
      rw [hwhole, if_pos rfl] at hfirst
      rw [hedge, if_neg Bool.false_ne_true, ← hfirst] at hthird
      exact absurd hthird (by decide)

end Single

/-! ### The elements that are written -/

section Written

variable {run : Tiled64Run} {gid : ThreadgroupId} {g : Fin 8}

/-- What an instruction behind the loop writes. -/
theorem mem_writtenBy {i : Tiled64Instr} {p : ℕ} (hi : .inl i ∈ run.epilogue gid g)
    (hp : p ∈ run.targets gid g i) : p ∈ run.writtenBy gid g := by
  rw [writtenBy, mem_flatMap]
  refine ⟨.inl i, ?_, hp⟩
  rw [program]
  exact mem_append_right _ (mem_cons_of_mem _ (mem_append_right _ hi))

/-- The first element of a block that goes through `temp_out`. -/
theorem mem_throughTemp (ij : Fin 4 × Fin 4) :
    .inl (.writeTemp ij.1 ij.2 0) ∈ run.throughTemp gid g ij := by
  have hfirst : 0 ∈ laneLoop 0 32 64 := by decide
  exact mem_append_right _ (mem_cons_of_mem _
    (mem_map_of_mem (mem_map_of_mem hfirst)))

/-- What the bf16 kernel writes of a block. -/
theorem mem_writtenBy_bf16 (hkernel : run.kernel = .bf16) (hnarrow : run.wide = false)
    {i j : Fin 4} {p : ℕ} (hp : run.tempTarget gid g i j 0 = some p) :
    p ∈ run.writtenBy gid g := by
  refine mem_writtenBy (i := .writeTemp i j 0) ?_ ?_
  · simp only [epilogue, hkernel]
    exact mem_flatMap.mpr ⟨(i, j), mem_blocks _, mem_throughTemp (i, j)⟩
  · simp [targets, hp, devicePlaces, hnarrow]

/-- **Every batch writes the first element** of the fp32 kernel, which adds no offset. -/
theorem mem_writtenBy_fp32 (hkernel : run.kernel = .fp32) (hM : 0 < run.args.M)
    (hN : 0 < run.args.N) (z : ℕ) : 0 ∈ run.writtenBy ⟨0, 0, z⟩ 0 := by
  have hplace : 0 ∈ run.devicePlaces 0 := by
    unfold devicePlaces
    split_ifs <;> simp
  have hrow : blockRow ⟨0, 0, z⟩ 0 0 = 0 := rfl
  have hcol : blockCol ⟨0, 0, z⟩ 0 0 = 0 := rfl
  have hzero : toUInt 0 = 0 := rfl
  by_cases hwhole : run.wholeBlock ⟨0, 0, z⟩ 0 0 0 = true
  · refine mem_writtenBy (i := .storeBlock 0 0) ?_ ?_
    · simp only [epilogue, hkernel]
      refine mem_flatMap.mpr ⟨(0, 0), mem_blocks _, ?_⟩
      simp only [hwhole, if_true]
      exact mem_map_of_mem (mem_singleton_self _)
    · refine mem_flatMap.mpr ⟨(0, 0, 0), ?_, hplace⟩
      refine mem_map.mpr ⟨(0, 0), by decide, ?_⟩
      simp [hrow, hcol, hzero]
  · refine mem_writtenBy (i := .writeTemp 0 0 0) ?_ ?_
    · simp only [epilogue, hkernel]
      refine mem_flatMap.mpr ⟨(0, 0), mem_blocks _, ?_⟩
      simp only [hwhole, Bool.false_eq_true, if_false]
      exact mem_throughTemp (0, 0)
    · have htarget : run.tempTarget ⟨0, 0, z⟩ 0 0 0 0 = some 0 := by
        simp [tempTarget, hrow, hcol, hzero, hM, hN]
      simp [targets, htarget, hplace]

end Written

/-! ### The refutations -/

section Refutation

variable {α : Type*} [Semiring α] {run : Tiled64Run} {words : FloatWords α}
  {transpose_a transpose_b : Bool} {d : MatmulDims} {batch_size : ℕ}

/-- The memory before the kernel, with zeros everywhere. -/
def zeroMemory (α : Type*) [Zero α] : Tiled64Memory α := ⟨0, 0, 0, 0, 0, 0⟩

theorem idle_zeroMemory : Idle d 0 ({ zeroMemory α with acc := 0 } : Tiled64Memory α) :=
  ⟨fun _ _ => rfl, fun _ _ => rfl, rfl, fun _ => rfl⟩

theorem Launched.firstGroup_inGrid (h : run.Launched transpose_a transpose_b d)
    (hbatch : 1 ≤ batch_size) : firstGroup.InGrid 64 d batch_size :=
  inGrid_of_lt (i := 0) (j := 0) (by decide : 0 < 64) h.M_pos h.N_pos hbatch

theorem Launched.args_M (h : run.Launched transpose_a transpose_b d) : run.args.M = d.M := by
  have := h.M_le
  rw [h.args]
  exact toUInt_of_lt (by unfold uintRange; omega)

theorem Launched.args_N (h : run.Launched transpose_a transpose_b d) : run.args.N = d.N := by
  have := h.N_le
  rw [h.args]
  exact toUInt_of_lt (by unfold uintRange; omega)

/-- Which blocks of the first tile are whole. -/
theorem Launched.wholeBlock_eq (h : run.Launched transpose_a transpose_b d) (g : Fin 8)
    (i j : Fin 4) : run.wholeBlock firstGroup g i j
      = decide (sg_row g + i * 8 + 7 < d.M ∧ sg_col g + j * 8 + 7 < d.N) := by
  have hrow : sg_row g ≤ 48 := by
    unfold sg_row
    omega
  have hcol : sg_col g ≤ 32 := by
    unfold sg_col
    omega
  have hgr : blockRow firstGroup g i = sg_row g + i * 8 := by
    rw [blockRow, firstGroup, Nat.zero_mul, Nat.zero_add]
    exact toUInt_of_lt (by unfold uintRange; omega)
  have hgc : blockCol firstGroup g j = sg_col g + j * 8 := by
    rw [blockCol, firstGroup, Nat.zero_mul, Nat.zero_add]
    exact toUInt_of_lt (by unfold uintRange; omega)
  rw [wholeBlock, hgr, hgc, h.args_M, h.args_N,
    toUInt_of_lt (by unfold uintRange; omega), toUInt_of_lt (by unfold uintRange; omega)]

/-- A tile written with zeros has a wrong element, when the product has an entry there. -/
theorem Launched.not_covers_of_zero [Nontrivial α] (h : run.Launched transpose_a transpose_b d)
    (hbatch : 1 ≤ batch_size) (hwritten : 0 ∈ run.writtenBy firstGroup 0)
    (hrun : ∃ t : Tiled64Memory α, (∀ p, t.C p = 0) ∧
      Reaches (run.exec words firstGroup (singleA α transpose_a d) (singleB α transpose_b d))
        ⟨run.program firstGroup, { zeroMemory α with acc := 0 }⟩ ⟨fun _ => [], t⟩) :
    ¬ Tiled64Covers words run transpose_a transpose_b d batch_size := by
  intro hcovers
  obtain ⟨t, hC, hreach⟩ := hrun
  obtain ⟨batch, i, j, -, -, -, hplace, hvalue⟩ :=
    (hcovers.writes firstGroup (h.firstGroup_inGrid hbatch) _ _ (zeroMemory α)).ends_good t hreach
      0 0 hwritten
  have hsize : 0 < d.M * d.N := Nat.mul_pos h.M_pos h.N_pos
  unfold matmulPlace at hplace
  have hb : batch = 0 := by
    rcases Nat.eq_zero_or_pos batch with hb | hb
    · exact hb
    · have := Nat.mul_pos hb hsize
      omega
  have hi : i = 0 := by
    rcases Nat.eq_zero_or_pos i with hi | hi
    · exact hi
    · have := Nat.mul_pos hi h.N_pos
      omega
  have hj : j = 0 := by omega
  rw [hb, hi, hj, hC, h.dotProduct_single] at hvalue
  exact zero_ne_one hvalue

/-- fp16, in one batch or in many. -/
theorem Launched.not_covers_fp16 [Nontrivial α] (h : run.Launched transpose_a transpose_b d)
    (hbatch : 1 ≤ batch_size) (hkernel : run.kernel = .fp16 ∨ run.kernel = .batched_fp16) :
    ¬ Tiled64Covers words run transpose_a transpose_b d batch_size := by
  refine h.not_covers_of_zero hbatch ?_ (exists_overwritten_run h hkernel idle_zeroMemory)
  have htarget : run.convertTarget firstGroup 0 0 = some 0 := by
    have hzero : toUInt 0 = 0 := rfl
    have hrow : sg_row 0 = 0 := rfl
    have hcol : sg_col 0 = 0 := rfl
    have hM := h.M_pos
    have hN := h.N_pos
    have hoffset := batchOffset_zero run run.args.batch_stride_c
    simp only [convertTarget, firstGroup, hrow, hcol, Nat.zero_mul, Nat.zero_add, Nat.zero_div,
      Nat.zero_mod, hzero, h.args_M, h.args_N, hoffset]
    rw [if_pos ⟨hM, hN⟩]
  refine mem_writtenBy (i := .convert 0) ?_ (by simp [targets, htarget])
  have hmem : Sum.inl (Tiled64Instr.convert 0)
      ∈ code (scratchStores 0) ++ .inr scratch :: code (converts 0) := by
    have hfirst : 0 ∈ laneLoop 0 32 (16 * 32) := by decide
    exact mem_append_right _ (mem_cons_of_mem _
      (mem_map_of_mem (mem_map_of_mem hfirst)))
  rcases hkernel with hk | hk <;> simpa only [epilogue, hk] using hmem

/-- bf16, in one batch. -/
theorem Launched.not_covers_bf16 [Nontrivial α] (h : run.Launched transpose_a transpose_b d)
    (hbatch : 1 ≤ batch_size) (hkernel : run.kernel = .bf16) :
    ¬ Tiled64Covers words run transpose_a transpose_b d batch_size := by
  have hM := h.M_pos
  have hN := h.N_pos
  have hzero : toUInt 0 = 0 := rfl
  by_cases htall : 16 < d.M
  · -- row 16 is the third row of blocks of group 0 and the first of group 2
    intro hcovers
    have hwritten : ∀ (g : Fin 8) (i : Fin 4), blockRow firstGroup g i = 16 →
        blockCol firstGroup g 0 = 0 →
        toUInt (16 * run.args.ldc) ∈ run.writtenBy firstGroup g := by
      intro g i hrow hcol
      apply mem_writtenBy_bf16 hkernel h.narrow (i := i) (j := 0)
      have h16 : toUInt 16 = 16 := rfl
      simp only [tempTarget, hrow, hcol, Nat.zero_div, Nat.zero_mod, Nat.add_zero, h16, hzero,
        h.args_M, h.args_N]
      rw [if_pos (Or.inr ⟨htall, hN⟩)]
    have hgrid := h.firstGroup_inGrid hbatch
    exact hcovers.disjoint firstGroup firstGroup hgrid hgrid 0 2 (by decide) _
      (hwritten 0 2 rfl rfl) (hwritten 2 0 rfl rfl)
  · by_cases hwhole : 8 ≤ d.M ∧ 8 ≤ d.N
    · -- group 0 has a whole block, group 2 is outside of the matrix
      intro hcovers
      have h0 : run.wholeBlock firstGroup 0 0 0 = true := by
        rw [h.wholeBlock_eq, decide_eq_true_eq]
        have hrow : sg_row 0 = 0 := rfl
        have hcol : sg_col 0 = 0 := rfl
        rw [hrow, hcol]
        simp only [Fin.val_zero]
        omega
      have h2 : run.wholeBlock firstGroup 2 0 0 = false := by
        rw [h.wholeBlock_eq, decide_eq_false_iff_not]
        have hrow : sg_row 2 = 16 := rfl
        rw [hrow]
        omega
      obtain ⟨c, hreach, hstuck⟩ := exists_stuck_run words h hkernel h0 h2
        idle_zeroMemory
      exact hstuck ((hcovers.writes firstGroup (h.firstGroup_inGrid hbatch) _ _
        (zeroMemory α)).never_stuck c hreach)
    · have hedge : ∀ g i j, run.wholeBlock firstGroup g i j = false := by
        intro g i j
        rw [h.wholeBlock_eq, decide_eq_false_iff_not]
        omega
      refine h.not_covers_of_zero hbatch ?_ (exists_shared_run h hkernel hedge idle_zeroMemory)
      apply mem_writtenBy_bf16 hkernel h.narrow (i := 0) (j := 0)
      have hrow : blockRow firstGroup 0 0 = 0 := rfl
      have hcol : blockCol firstGroup 0 0 = 0 := rfl
      simp only [tempTarget, hrow, hcol, Nat.zero_div, Nat.zero_mod, Nat.add_zero, hzero,
        h.args_M, h.args_N, Nat.zero_mul]
      rw [if_pos (Or.inr ⟨hM, hN⟩)]

/-- The fp32 kernel, which knows no batches, on many. -/
theorem not_covers_fp32 (hkernel : run.kernel = .fp32) (hM : 0 < run.args.M)
    (hN : 0 < run.args.N) (hMd : 1 ≤ d.M) (hNd : 1 ≤ d.N) (hbatch : 1 < batch_size) :
    ¬ Tiled64Covers words run transpose_a transpose_b d batch_size := by
  intro hcovers
  have hgrid : ∀ z, z < batch_size → (ThreadgroupId.mk 0 0 z).InGrid 64 d batch_size := by
    intro z hz
    obtain ⟨hx, hy, -⟩ := inGrid_of_lt (i := 0) (j := 0) (by decide : 0 < 64) hMd hNd
      (Nat.zero_lt_of_lt hbatch)
    exact ⟨hx, hy, hz⟩
  exact hcovers.disjoint ⟨0, 0, 0⟩ ⟨0, 0, 1⟩ (hgrid 0 (by omega)) (hgrid 1 hbatch) 0 0 (by decide)
    0 (mem_writtenBy_fp32 hkernel hM hN 0) (mem_writtenBy_fp32 hkernel hM hN 1)

end Refutation

end Tiled64Run

/-- **The 64×64 kernels do not cover the result**, for none of the matrices that `matmul` calls them
with. -/
theorem matmul_tiled64_not_covered {α β : Type*} [Semiring α] [Nontrivial α]
    (words : FloatWords α) (a b : MNTensor β) (transpose_a transpose_b : Bool) (d : MatmulDims)
    (hcheck : matmulCheck a b transpose_a transpose_b = .ok d)
    (hpath : matmulPath a b d = .Tiled64) (hM : 1 ≤ d.M) (hN : 1 ≤ d.N) (hK : 1 ≤ d.K)
    (hbatch : 1 ≤ a.matrices) :
    ¬ Tiled64Covers words (tiled64Run a b transpose_a transpose_b d) transpose_a transpose_b d
      a.matrices := by
  have hchecked := matmulCheck_eq_ok hcheck
  have hchosen := matmulPath_tiled64 hpath
  have hMle := hchosen.M_le
  have hNle := hchosen.N_le
  have hsize : 0 < a.matrixSize := by
    rw [MNTensor.matrixSize, hchecked.rows_a, hchecked.cols_a]
    cases transpose_a
    · exact Nat.mul_pos hM hK
    · exact Nat.mul_pos hK hM
  have hcount : batchSize a = a.matrices := batchSize_eq a hchecked.ndim_a hsize
  have hargs : (tiled64Run a b transpose_a transpose_b d).args
      = simdArguments transpose_a transpose_b d := hostArguments_eq hchecked
  have hlaunched : ∀ kernel, tiled64Kernel a.dtype (batchSize a) = kernel → kernel ≠ .fp32 →
      (tiled64Run a b transpose_a transpose_b d).Launched transpose_a transpose_b d := by
    intro kernel hkernel hne
    refine ⟨hargs, ?_, hM, hN, hK, hchosen.M_le, hchosen.N_le, hchosen.K_le⟩
    simp [tiled64Run, hkernel, hne]
  rcases hchosen.dtype with hdtype | hdtype
  · -- fp16: both kernels
    by_cases hmany : batchSize a > 1
    · have hkernel : tiled64Kernel a.dtype (batchSize a) = .batched_fp16 := by
        simp [tiled64Kernel, hmany, hdtype]
      exact (hlaunched _ hkernel (by decide)).not_covers_fp16 hbatch (Or.inr hkernel)
    · have hkernel : tiled64Kernel a.dtype (batchSize a) = .fp16 := by
        simp [tiled64Kernel, hmany, hdtype]
      exact (hlaunched _ hkernel (by decide)).not_covers_fp16 hbatch (Or.inl hkernel)
  · by_cases hmany : batchSize a > 1
    · -- batches of bf16 go to the fp32 kernel
      have hkernel : tiled64Kernel a.dtype (batchSize a) = .fp32 := by
        simp [tiled64Kernel, hmany, hdtype]
      apply Tiled64Run.not_covers_fp32 hkernel _ _ hM hN (by omega)
      · have hfit : toUInt d.M = d.M := toUInt_of_lt (by unfold uintRange; omega)
        rw [hargs, simdArguments, hfit]
        exact hM
      · have hfit : toUInt d.N = d.N := toUInt_of_lt (by unfold uintRange; omega)
        rw [hargs, simdArguments, hfit]
        exact hN
    · have hkernel : tiled64Kernel a.dtype (batchSize a) = .bf16 := by
        simp [tiled64Kernel, hmany, hdtype]
      exact (hlaunched _ hkernel (by decide)).not_covers_bf16 hbatch hkernel

/-- Words for a `float` of which only the lower one matters. -/
def lowWords : FloatWords ℚ where
  low := id
  high := fun _ => 0
  join := fun l _ => l
  join_split := fun _ => rfl
  low_zero := rfl
  high_zero := rfl

theorem contiguousMatrix_dims_lt (rows cols : Fin 512) :
    ∀ x ∈ [rows.val, cols.val], x < 2 ^ 63 := by
  simp only [mem_cons, not_mem_nil, or_false]
  omega

theorem contiguousMatrix_numel_lt (rows cols : Fin 512) :
    [rows.val, cols.val].prod < 2 ^ 63 := by
  have := Nat.mul_le_mul (Nat.le_of_lt rows.isLt) (Nat.le_of_lt cols.isLt)
  simp only [prod_cons, prod_nil, Nat.mul_one]
  omega

/-- A contiguous matrix. -/
def contiguousMatrix (rows cols : Fin 512) (dtype : MNDType) : MNTensor Unit where
  buffer := fun _ => ()
  dims := [rows, cols]
  strides := [cols, 1]
  dtype := dtype
  dims_lt := contiguousMatrix_dims_lt rows cols
  numel_lt := contiguousMatrix_numel_lt rows cols

/-- A bf16 product of 200 rows: the lower rows of a group are written by another one as well. -/
theorem matmul_tiled64_not_covered_tall :
    ¬ Tiled64Covers lowWords (tiled64Run (contiguousMatrix 200 8 .BFloat16)
      (contiguousMatrix 8 8 .BFloat16) false false ⟨200, 8, 8⟩) false false ⟨200, 8, 8⟩ 1 :=
  matmul_tiled64_not_covered lowWords (contiguousMatrix 200 8 .BFloat16)
    (contiguousMatrix 8 8 .BFloat16) false false ⟨200, 8, 8⟩ (by decide) (by decide) (by decide)
    (by decide) (by decide) (by decide)

/-- A half-precision product of 8 by 8 elements with 200 terms each. -/
theorem matmul_tiled64_fails :
    ¬ Tiled64Covers lowWords (tiled64Run (contiguousMatrix 8 200 .Float16)
      (contiguousMatrix 200 8 .Float16) false false ⟨8, 8, 200⟩) false false ⟨8, 8, 200⟩ 1 :=
  Tiled64Run.Launched.not_covers_fp16 ⟨by decide, by decide, by decide, by decide, by decide,
    by decide, by decide, by decide⟩ (by decide) (Or.inl (by decide))

end MetalNative
