import MetalNative.Matmul.DequantMatmul

namespace MetalNative

open Broadcast (Within)
open Strided (linear position)
open ThreadLoop SimdMatrix DequantKernel DeviceTensor List Finset

/-!
# When `dequant_matmul` is dequantisation and product

* `Small` — the calls for which a tiled kernel is launched and no index of `A` and `C` wraps
  around; `mem_stores` and `output_eq` say what is stored.
* `multiplies_of_supported` — the calls that are supported compute the product.
* `supported_of_multiplies` — no others do: contents that are zero but for one cell tell where a
  kernel reads.
* `dequant_matmul_product` — both together.
-/

variable {α : Type*} {call : DequantCall α} {d : MatmulDims}

/-! ### Places -/

namespace DeviceTensor

variable {β : Type*} {t : DeviceTensor β} {R C : ℕ}

theorem within_pair {i j : ℕ} : Within [R, C] [i, j] ↔ i < R ∧ j < C := by
  simp [Within]

theorem position_pair (R C i j : ℕ) : position [R, C] [i, j] = i * C + j := by
  simp [position]

/-- The elements of a matrix are row-major when its rows follow each other. -/
theorem rowMajor_iff (hdims : t.dims = [R, C]) :
    t.RowMajor ↔ ∀ i < R, ∀ j < C, t.place [i, j] = i * C + j := by
  unfold RowMajor
  rw [hdims]
  constructor
  · intro h i hi j hj
    rw [h _ (within_pair.mpr ⟨hi, hj⟩), position_pair]
  · intro h idx hidx
    obtain ⟨i, j, rfl⟩ : ∃ i j, idx = [i, j] :=
      length_eq_two.mp (Strided.Within.length_eq hidx)
    obtain ⟨hi, hj⟩ := within_pair.mp hidx
    rw [h i hi j hj, position_pair]

theorem place_lt (hdims : t.dims = [R, C]) {i j : ℕ} (hi : i < R) (hj : j < C) :
    t.place [i, j] < t.length :=
  t.inside _ (by rw [hdims]; exact within_pair.mpr ⟨hi, hj⟩)

theorem place_inj (hdims : t.dims = [R, C]) {i j i' j' : ℕ} (hi : i < R) (hj : j < C)
    (hi' : i' < R) (hj' : j' < C) (h : t.place [i, j] = t.place [i', j']) : i = i' ∧ j = j' := by
  have heq := t.inj _ _ (by rw [hdims]; exact within_pair.mpr ⟨hi, hj⟩)
    (by rw [hdims]; exact within_pair.mpr ⟨hi', hj'⟩) h
  simpa using heq

theorem linear_dense (hC : C < 2 ^ 16) (i j : ℕ) :
    linear ([(C : ℤ), 1].map toSizeT) [i, j] = i * C + j := by
  have hC' : toSizeT (C : ℤ) = C := by
    rw [toSizeT_natCast]
    unfold sizeTRange
    omega
  have h1 : toSizeT 1 = 1 := by decide
  simp [linear, hC', h1]

/-- A place is linear in the row and in the column. -/
theorem place_pair (t : DeviceTensor β) (i j : ℕ) :
    t.place [i, j] = i * t.place [1, 0] + j * t.place [0, 1] := by
  unfold place
  generalize t.strides.map toSizeT = ss
  rcases ss with _ | ⟨s, _ | ⟨s', ss⟩⟩
  · simp [linear]
  · simp [linear]
  · simp [linear]

/-- Where each row lies in as many cells as it has elements, the elements are in order. -/
theorem place_of_rows (hdims : t.dims = [R, C])
    (h : ∀ i < R, ∀ j < C, i * C ≤ t.place [i, j] ∧ t.place [i, j] < i * C + C) :
    ∀ i < R, ∀ j < C, t.place [i, j] = i * C + j := by
  intro i hi j hj
  have hR : 0 < R := by omega
  rcases Nat.lt_or_ge 1 C with hC | hC
  · -- neighbours in a row are neighbours in memory
    have hcolumn : t.place [0, 1] = 1 := by
      have hlast := (h 0 hR (C - 1) (by omega)).2
      rw [place_pair, Nat.zero_mul, Nat.zero_add] at hlast
      have hne : t.place [0, 1] ≠ 0 := by
        intro hzero
        have horigin : t.place [0, 0] = 0 := by
          rw [place_pair]
          omega
        have := place_inj hdims hR (by omega) hR hC (horigin.trans hzero.symm)
        omega
      by_contra hone
      have htwo : 2 ≤ t.place [0, 1] := by omega
      have hmul := Nat.mul_le_mul_left (C - 1) htwo
      omega
    rcases Nat.eq_zero_or_pos i with rfl | hpos
    · rw [place_pair, hcolumn]
      omega
    · have hrow : t.place [1, 0] = C := by
        have hfirst := (h 1 (by omega) 0 (by omega)).1
        have hlast := (h 1 (by omega) (C - 1) (by omega)).2
        rw [place_pair t 1 (C - 1), hcolumn] at hlast
        omega
      rw [place_pair, hrow, hcolumn, Nat.mul_one]
  · have hone : C = 1 := by omega
    have hj0 : j = 0 := by omega
    have hplace := h i hi j hj
    rw [hone] at hplace ⊢
    omega

/-- Where the places are those of `uint` indices, none of them has wrapped around. -/
theorem place_of_wrapped (hC : C < uintRange)
    (h : ∀ i < R, ∀ j < C, t.place [i, j] = toUInt (i * C + j)) :
    (∀ i < R, ∀ j < C, t.place [i, j] = i * C + j) ∧ R * C ≤ uintRange := by
  have hplace : ∀ i < R, ∀ j < C, t.place [i, j] = i * C + j := by
    intro i hi j hj
    rw [place_pair]
    have hrow : i * t.place [1, 0] = i * C := by
      rcases Nat.eq_zero_or_pos i with rfl | hpos
      · simp
      · rw [h 1 (by omega) 0 (by omega), Nat.one_mul, Nat.add_zero, toUInt_of_lt hC]
    have hcolumn : j * t.place [0, 1] = j := by
      rcases Nat.eq_zero_or_pos j with rfl | hpos
      · simp
      · rw [h 0 (by omega) 1 (by omega), Nat.zero_mul, Nat.zero_add, toUInt_of_lt (by omega),
          Nat.mul_one]
    rw [hrow, hcolumn]
  refine ⟨hplace, ?_⟩
  by_contra hlarge
  have hpos : 0 < R * C := by omega
  have hR : 0 < R := Nat.pos_of_mul_pos_right hpos
  have hC' : 0 < C := Nat.pos_of_mul_pos_left hpos
  have hlast := hplace (R - 1) (by omega) (C - 1) (by omega)
  have hlt : t.place [R - 1, C - 1] < uintRange := by
    rw [h _ (by omega) _ (by omega)]
    exact toUInt_lt _
  obtain ⟨R', rfl⟩ := Nat.exists_eq_succ_of_ne_zero (Nat.ne_of_gt hR)
  rw [Nat.succ_mul] at hlarge
  simp only [Nat.succ_eq_add_one, Nat.add_sub_cancel] at hlast hlt
  omega

end DeviceTensor

/-! ### What is launched -/

/-- Some threadgroup is launched. -/
theorem DequantCall.grid_pos (call : DequantCall α) (hM : 0 < d.M) (hN : 0 < d.N) :
    0 < (call.launch d).gridX ∧ 0 < (call.launch d).gridY := by
  unfold launch
  constructor
  · show 0 < (d.N + TILE_N - 1) / TILE_N
    unfold TILE_N
    omega
  · show 0 < if decide (d.M ≤ 8) = true then d.M else (d.M + TILE_M - 1) / TILE_M
    unfold TILE_M
    split_ifs
    · exact hM
    · omega

/-- A tiled kernel is launched, and no index of `A` and `C` wraps around. -/
structure DequantCall.Small (call : DequantCall α) (d : MatmulDims) : Prop where
  tiled : 8 < d.M
  rows : d.M < uintRange
  activations : d.M * d.K ≤ uintRange
  outputs : d.M * d.N ≤ uintRange

namespace DequantCall.Small

theorem N_le (h : call.Small d) : 9 * d.N ≤ uintRange :=
  le_trans (Nat.mul_le_mul_right _ h.tiled) h.outputs

theorem K_le (h : call.Small d) : 9 * d.K ≤ uintRange :=
  le_trans (Nat.mul_le_mul_right _ h.tiled) h.activations

theorem vecmat_eq (h : call.Small d) : (call.launch d).kernel.vecmat = false := by
  have hM : ¬ d.M ≤ 8 := Nat.not_le.mpr h.tiled
  simp [launch, hM]

/-- The arguments are the sizes. -/
theorem args_eq (h : call.Small d) : (call.launch d).args =
    ⟨d.M, d.N, d.K, call.group_size, d.K, d.N⟩ := by
  have hrange : uintRange = 4294967296 := rfl
  have hN := h.N_le
  have hK := h.K_le
  have hM := h.rows
  simp only [launch, toUInt_of_lt hM, toUInt_of_lt (show d.N < uintRange by omega),
    toUInt_of_lt (show d.K < uintRange by omega)]

theorem fits (h : call.Small d) (hchecked : DequantChecked call d) :
    (call.launch d).args.Fits := by
  have hrange : uintRange = 4294967296 := rfl
  have hN := h.N_le
  have hK := h.K_le
  rw [h.args_eq]
  refine ⟨?_, ?_, ?_⟩
  · show d.N < uintRange
    omega
  · show d.K + 32 ≤ uintRange
    omega
  · show 2 ∣ call.group_size
    rcases hchecked.group_size with hg | hg | hg <;> rw [hg] <;> decide

theorem numGroupsPerK_eq (h : call.Small d) (hchecked : DequantChecked call d) :
    (call.launch d).args.numGroupsPerK = call.groups d.K := by
  have hrange : uintRange = 4294967296 := rfl
  have hK := h.K_le
  rw [h.args_eq]
  show toUInt (d.K + call.group_size - 1) / call.group_size = _
  have hg := hchecked.group_size
  rw [toUInt_of_lt (by omega)]
  rfl

/-- A threadgroup of the grid begins inside the result. -/
theorem grid (h : call.Small d) {x y : ℕ} (hx : x < (call.launch d).gridX)
    (hy : y < (call.launch d).gridY) : x * TILE_N < d.N ∧ y * TILE_M < d.M := by
  have hM : ¬ d.M ≤ 8 := Nat.not_le.mpr h.tiled
  simp only [launch, hM, decide_false, Bool.false_eq_true, if_false] at hx hy
  unfold TILE_N at hx ⊢
  unfold TILE_M at hy ⊢
  omega

variable [CommRing α]

/-- **The stores**: each output once, with its sum. -/
theorem mem_stores (h : call.Small d) (hchecked : DequantChecked call d)
    (ops : DequantOperands α) (σ : (call.launch d).Schedules α) {m n : ℕ} (hm : m < d.M)
    (hn : n < d.N) {v : α} :
    (m * d.N + n, v) ∈ (call.launch d).stores ops σ ↔
      v = (call.launch d).kernel.output (call.launch d).args ops m n := by
  have hargs := h.args_eq
  have hfits := h.fits hchecked
  have hM' : (call.launch d).args.M < uintRange := by
    rw [hargs]
    exact h.rows
  have hcell : ∀ row col, row < d.M → col < d.N →
      (call.launch d).args.cIndex row col = row * d.N + col := by
    intro row col hrow hcol
    rw [hargs]
    exact toUInt_of_lt (Nat.lt_of_lt_of_le (rowMajor_lt hrow hcol) h.outputs)
  unfold DequantLaunch.stores
  simp only [List.mem_flatMap, List.mem_range]
  constructor
  · rintro ⟨y, hy, x, hx, hw⟩
    obtain ⟨hx', hy'⟩ := h.grid hx hy
    rw [mem_writes_tiled hfits hM' h.vecmat_eq ops _ (by rw [hargs]; exact hx')
      (by rw [hargs]; exact hy')] at hw
    obtain ⟨row, col, hrow, hcol, -, -, heq⟩ := hw
    rw [hargs] at hrow hcol
    rw [hcell row col hrow hcol, Prod.mk.injEq] at heq
    obtain ⟨rfl, rfl⟩ := (rowMajor_inj hn hcol).mp heq.1
    exact heq.2
  · rintro rfl
    have hM8 : ¬ d.M ≤ 8 := Nat.not_le.mpr h.tiled
    refine ⟨m / TILE_M, ?_, n / TILE_N, ?_, ?_⟩
    · simp only [launch, hM8, decide_false, Bool.false_eq_true, if_false]
      unfold TILE_M
      omega
    · simp only [launch]
      unfold TILE_N
      omega
    · have hx : n / TILE_N * TILE_N < (call.launch d).args.N := by
        rw [hargs]
        exact Nat.lt_of_le_of_lt (Nat.div_mul_le_self n TILE_N) hn
      have hy : m / TILE_M * TILE_M < (call.launch d).args.M := by
        rw [hargs]
        exact Nat.lt_of_le_of_lt (Nat.div_mul_le_self m TILE_M) hm
      rw [mem_writes_tiled hfits hM' h.vecmat_eq ops _ hx hy]
      refine ⟨m, n, by rw [hargs]; exact hm, by rw [hargs]; exact hn, rfl, rfl, ?_⟩
      rw [hcell m n hm hn]

/-- The sum for an output, over the memory that the kernel reads. -/
theorem output_eq (h : call.Small d) (ops : DequantOperands α) {m : ℕ} (hm : m < d.M) (n : ℕ) :
    (call.launch d).kernel.output (call.launch d).args ops m n
      = ∑ k ∈ range d.K, ops.A (m * d.K + k) *
          ((storedCode call.quant_type
              (ops.B_packed ((call.launch d).args.bIndex call.quant_type n k)) k : α)
            * ops.scales ((call.launch d).args.groupIndex n k)
            - ops.zeros ((call.launch d).args.groupIndex n k)) := by
  have hK : (call.launch d).args.K = d.K := by rw [h.args_eq]
  unfold output
  rw [hK]
  refine sum_congr rfl fun k hk => ?_
  have haIndex : (call.launch d).args.aIndex m k = m * d.K + k := by
    rw [h.args_eq]
    exact toUInt_of_lt
      (Nat.lt_of_lt_of_le (rowMajor_lt hm (Finset.mem_range.mp hk)) h.activations)
  simp only [activation, h.vecmat_eq, Bool.false_eq_true, if_false, haIndex]
  rfl

end DequantCall.Small

/-! ### Calls that compute the product -/

/-- Every weight is in a group. -/
theorem DequantChecked.group_lt (hchecked : DequantChecked call d) {k : ℕ} (hk : k < d.K) :
    k / call.group_size < call.groups d.K := by
  unfold DequantCall.groups
  rcases hchecked.group_size with hg | hg | hg <;> rw [hg] <;> omega

/-- The operands lie row by row, and no index into them wraps around. -/
structure DequantCall.Readable (call : DequantCall α) (d : MatmulDims) : Prop where
  even : call.quant_type = .INT4 → 2 ∣ d.K
  N_lt : d.N < uintRange
  K_le : d.K + 128 ≤ uintRange
  weights : d.N * call.columns d.K ≤ uintRange
  activations_rowMajor : call.activations.RowMajor
  weights_rowMajor : call.weights_packed.RowMajor
  scales_rowMajor : call.scales.RowMajor
  zeros_rowMajor : call.zeros.RowMajor

namespace DequantCall.Readable

variable (h : call.Readable d)

include h

theorem K_eq : (call.launch d).args.K = d.K := by
  have hK := h.K_le
  exact toUInt_of_lt (by omega)

theorem fits (hchecked : DequantChecked call d) : (call.launch d).args.Fits := by
  have hK := h.K_le
  refine ⟨?_, ?_, ?_⟩
  · show toUInt d.N < uintRange
    exact toUInt_lt _
  · rw [h.K_eq]
    unfold TILE_K
    omega
  · show 2 ∣ call.group_size
    rcases hchecked.group_size with hg | hg | hg <;> rw [hg] <;> decide

theorem codeColumn_lt {k : ℕ} (hk : k < d.K) : call.codeColumn k < call.columns d.K := by
  have heven := h.even
  unfold codeColumn columns
  cases hquant : call.quant_type with
  | INT4 =>
    obtain ⟨K', hK'⟩ := heven hquant
    simp only
    omega
  | INT8 => exact hk

/-- The byte of a weight is the one of the accepted layout. -/
theorem bIndex_eq {n k : ℕ} (hn : n < d.N) (hk : k < d.K) :
    (call.launch d).args.bIndex call.quant_type n k = n * call.columns d.K + call.codeColumn k := by
  have hK := h.K_le
  have hlt := Nat.lt_of_lt_of_le (rowMajor_lt hn (h.codeColumn_lt hk)) h.weights
  have heven := h.even
  unfold DequantArgs.bIndex
  rw [h.K_eq]
  unfold codeColumn columns at hlt ⊢
  cases hquant : call.quant_type with
  | INT4 =>
    obtain ⟨K', hK'⟩ := heven hquant
    simp only [hquant] at hlt ⊢
    have hrow : (d.K + 1) / 2 = d.K / 2 := by omega
    rw [toUInt_of_lt (show d.K + 1 < uintRange by omega), hrow, toUInt_of_lt hlt]
  | INT8 =>
    simp only [hquant] at hlt ⊢
    exact toUInt_of_lt hlt

/-- There are no more groups than columns. -/
theorem groups_le (hchecked : DequantChecked call d) (hK : 0 < d.K) :
    call.groups d.K ≤ call.columns d.K := by
  have heven := h.even
  unfold groups columns
  have hg := hchecked.group_size
  cases hquant : call.quant_type with
  | INT4 =>
    obtain ⟨K', hK'⟩ := heven hquant
    simp only
    rcases hg with hg | hg | hg <;> rw [hg] <;> omega
  | INT8 =>
    simp only
    rcases hg with hg | hg | hg <;> rw [hg] <;> omega

theorem groupIndex_eq (hchecked : DequantChecked call d) {n k : ℕ} (hn : n < d.N) (hk : k < d.K) :
    (call.launch d).args.groupIndex n k = n * call.groups d.K + k / call.group_size := by
  have hK := h.K_le
  have hle := Nat.mul_le_mul_left d.N (h.groups_le hchecked (by omega))
  have hlt := rowMajor_lt hn (hchecked.group_lt hk)
  have hgroup : (call.launch d).args.group_size = call.group_size := rfl
  have hgroups : (call.launch d).args.numGroupsPerK = call.groups d.K := by
    have hg := hchecked.group_size
    unfold DequantArgs.numGroupsPerK
    rw [h.K_eq, hgroup, toUInt_of_lt (by omega)]
    rfl
  unfold DequantArgs.groupIndex
  rw [hgroups, hgroup]
  exact toUInt_of_lt (Nat.lt_of_lt_of_le hlt (le_trans hle h.weights))

/-- What a kernel adds up is the product. -/
theorem isProduct [CommRing α] (hchecked : DequantChecked call d) (hshaped : call.Shaped d)
    (ops : DequantOperands α) {m n : ℕ} (hm : m < d.M) (hn : n < d.N) :
    call.IsProduct d ops m n
      (∑ k ∈ range d.K, ops.A (m * d.K + k) *
        (call.launch d).args.weight call.quant_type ops n k) := by
  refine ⟨fun k => storedCode call.quant_type
    (ops.B_packed (call.weights_packed.place [n, call.codeColumn k])) k, fun k hk => ?_, ?_⟩
  · exact if_pos (h.codeColumn_lt hk)
  · refine sum_congr rfl fun k hk => ?_
    have hk' : k < d.K := Finset.mem_range.mp hk
    unfold DequantArgs.weight
    beta_reduce
    rw [h.bIndex_eq hn hk', h.groupIndex_eq hchecked hn hk',
      (rowMajor_iff hchecked.activations).mp h.activations_rowMajor m hm k hk',
      (rowMajor_iff hshaped.weights).mp h.weights_rowMajor n hn _
        (h.codeColumn_lt hk'),
      (rowMajor_iff hshaped.scales).mp h.scales_rowMajor n hn _
        (hchecked.group_lt hk'),
      (rowMajor_iff hshaped.zeros).mp h.zeros_rowMajor n hn _
        (hchecked.group_lt hk')]

/-- **The vector-matrix kernels** store the product for row 0, and nothing for other rows. -/
theorem vecmat_stores [CommRing α] (hchecked : DequantChecked call d) (hshaped : call.Shaped d)
    (hM : d.M ≤ 8) (ops : DequantOperands α) (σ : (call.launch d).Schedules α) :
    (∀ w ∈ (call.launch d).stores ops σ, w.1 < d.N ∧ call.IsProduct d ops 0 w.1 w.2) ∧
      ∀ n < d.N, ∃ v, (n, v) ∈ (call.launch d).stores ops σ := by
  have hN : (call.launch d).args.N = d.N := toUInt_of_lt h.N_lt
  have hvec : (call.launch d).kernel.vecmat = true := by simp [launch, hM]
  have hfits := h.fits hchecked
  have houtput : ∀ n, (call.launch d).kernel.output (call.launch d).args ops 0 n
      = ∑ k ∈ range d.K, ops.A (0 * d.K + k) *
          (call.launch d).args.weight call.quant_type ops n k := by
    intro n
    unfold output
    rw [h.K_eq]
    refine sum_congr rfl fun k _ => ?_
    simp only [activation, hvec, if_true, Nat.zero_mul, Nat.zero_add]
    rfl
  constructor
  · intro w hw
    obtain ⟨y, -, hw⟩ := mem_flatMap.mp hw
    obtain ⟨x, hx, hw⟩ := mem_flatMap.mp hw
    have hx' : x * TILE_N < (call.launch d).args.N := by
      have hgrid := List.mem_range.mp hx
      rw [hN]
      simp only [launch] at hgrid
      unfold TILE_N at hgrid ⊢
      omega
    obtain ⟨col, hcol, -, rfl⟩ := (mem_writes_vecmat hfits hvec ops _ hx' y).mp hw
    rw [hN] at hcol
    refine ⟨hcol, ?_⟩
    rw [houtput]
    exact h.isProduct hchecked hshaped ops hshaped.M_pos hcol
  · intro n hn
    have hx : n / TILE_N * TILE_N < (call.launch d).args.N := by
      rw [hN]
      exact Nat.lt_of_le_of_lt (Nat.div_mul_le_self n TILE_N) hn
    have hstore := (mem_writes_vecmat hfits hvec ops (σ (n / TILE_N) 0) hx 0).mpr
      ⟨n, by rw [hN]; exact hn, rfl, rfl⟩
    refine ⟨_, mem_flatMap.mpr ⟨0, ?_, mem_flatMap.mpr ⟨n / TILE_N, ?_, hstore⟩⟩⟩
    · exact List.mem_range.mpr (call.grid_pos hshaped.M_pos hshaped.N_pos).2
    · rw [List.mem_range]
      simp only [launch]
      unfold TILE_N
      omega

end DequantCall.Readable

namespace DequantCall.Supported

variable (h : call.Supported d)

include h

theorem small : call.Small d := ⟨h.tiled, h.rows, h.activations, h.outputs⟩

theorem readable : call.Readable d := by
  have hrange : uintRange = 4294967296 := rfl
  have hN := h.small.N_le
  have hK := h.small.K_le
  exact ⟨h.even, by omega, by omega, h.weights, h.activations_rowMajor, h.weights_rowMajor,
    h.scales_rowMajor, h.zeros_rowMajor⟩

/-- The memories are large enough. -/
theorem inside (hchecked : DequantChecked call d) (hshaped : call.Shaped d) :
    (call.launch d).kernel.Inside (call.launch d).args (call.size d) := by
  have hargs := h.small.args_eq
  have hvec := h.small.vecmat_eq
  have hM : ¬ d.M ≤ 8 := Nat.not_le.mpr h.tiled
  have hgroups : ∀ n < d.N, ∀ k < d.K, (call.launch d).args.groupIndex n k
      = n * call.groups d.K + k / call.group_size := fun n hn k hk =>
        h.readable.groupIndex_eq hchecked hn hk
  refine ⟨by rw [hargs], by rw [hargs], ?_, ?_, ?_, ?_, ?_, ?_, ?_, ?_⟩
  · -- the last activation
    rw [hargs]
    show d.M * d.K ≤ call.activations.length
    have hplace := (rowMajor_iff hchecked.activations).mp h.activations_rowMajor
      (d.M - 1) (Nat.sub_lt hshaped.M_pos one_pos) (d.K - 1) (Nat.sub_lt hshaped.K_pos one_pos)
    have hlt := place_lt hchecked.activations (Nat.sub_lt hshaped.M_pos one_pos)
      (Nat.sub_lt hshaped.K_pos one_pos)
    have hM := hshaped.M_pos
    have hK := hshaped.K_pos
    obtain ⟨M', hM'⟩ := Nat.exists_eq_succ_of_ne_zero (Nat.ne_of_gt hM)
    rw [hplace] at hlt
    rw [hM', Nat.succ_mul]
    rw [hM'] at hlt
    simp only [Nat.succ_eq_add_one, Nat.add_sub_cancel] at hlt
    omega
  · intro n hn k hk
    rw [hargs] at hn hk
    show (call.launch d).args.bIndex call.quant_type n k < call.weights_packed.length
    have hplace := (rowMajor_iff hshaped.weights).mp h.weights_rowMajor n hn _
      (h.readable.codeColumn_lt hk)
    rw [h.readable.bIndex_eq hn hk, ← hplace]
    exact place_lt hshaped.weights hn (h.readable.codeColumn_lt hk)
  · rw [hargs]
    exact le_refl _
  · intro n hn k hk
    rw [hargs] at hn hk
    have hplace := (rowMajor_iff hshaped.scales).mp h.scales_rowMajor n hn _
      (hchecked.group_lt hk)
    rw [hgroups n hn k hk, ← hplace]
    exact place_lt hshaped.scales hn (hchecked.group_lt hk)
  · intro n hn k hk
    rw [hargs] at hn hk
    have hplace := (rowMajor_iff hshaped.zeros).mp h.zeros_rowMajor n hn _
      (hchecked.group_lt hk)
    rw [hgroups n hn k hk, ← hplace]
    exact place_lt hshaped.zeros hn (hchecked.group_lt hk)
  · show TILE_M * TILE_K ≤ (call.launch d).sharedABytes / 2
    simp [launch, hM]
  · show TILE_K * TILE_N ≤ (call.launch d).sharedBBytes / 2
    simp [launch, TILE_K, TILE_N]
  · show 32 * 32 ≤ if (call.launch d).kernel.vecmat then 4 * 128 else 32 * 32
    simp [hvec]

/-- **A supported call** computes the product. -/
theorem multiplies [CommRing α] (hchecked : DequantChecked call d) (hshaped : call.Shaped d) :
    call.Multiplies d := by
  intro ops σ
  have hargs := h.small.args_eq
  constructor
  · intro x hx y hy a ha
    obtain ⟨hx', hy'⟩ := h.small.grid hx hy
    refine accesses_inside (h.readable.fits hchecked) ?_ h.small.vecmat_eq
      (h.inside hchecked hshaped) (by rw [hargs]; exact hx') (by rw [hargs]; exact hy') ha
    rw [hargs]
    exact h.rows
  · intro m hm n hn
    have hproduct : call.IsProduct d ops m n
        ((call.launch d).kernel.output (call.launch d).args ops m n) := by
      rw [h.small.output_eq ops hm]
      exact h.readable.isProduct hchecked hshaped ops hm hn
    refine ⟨⟨_, (h.small.mem_stores hchecked ops σ hm hn).mpr rfl⟩, fun v hv => ?_⟩
    rw [(h.small.mem_stores hchecked ops σ hm hn).mp hv]
    exact hproduct

end DequantCall.Supported

/-! ### What a kernel cannot see -/

namespace DequantKernel

variable {kern : DequantKernel} {args : DequantArgs} [CommRing α]

/-- Indices are below `2 ^ 32`: activations behind them are not read. -/
theorem writes_congr {A A' : ℕ → α} (hA : ∀ i < uintRange, A i = A' i) (B : ℕ → UInt8)
    (scales zeros : ℕ → α) (σ : DequantSchedule kern α) (x y : ℕ) :
    kern.writes args ⟨A, B, scales, zeros⟩ σ x y =
      kern.writes args ⟨A', B, scales, zeros⟩ σ x y := by
  have hvalue : aValue kern args ⟨A, B, scales, zeros⟩ =
      aValue kern args ⟨A', B, scales, zeros⟩ := by
    ext row_base k_tile idx
    have hrow : ∀ k, A (toUInt k) = A' (toUInt k) := fun k => hA _ (toUInt_lt k)
    simp only [aValue, DequantArgs.aIndex, hrow]
  have hstores : ∀ quant, bStores quant args ⟨A, B, scales, zeros⟩
      = bStores quant args ⟨A', B, scales, zeros⟩ := by
    intro quant
    cases quant <;> rfl
  unfold writes tileLoop tileStep
  rw [hvalue, hstores]

/-- Without a row nothing is read. -/
theorem writes_of_K (hK : args.K = 0) (ops ops' : DequantOperands α) (σ : DequantSchedule kern α)
    (x y : ℕ) : kern.writes args ops σ x y = kern.writes args ops' σ x y := by
  have htiles : stride 0 TILE_K args.K = [] := by
    rw [hK]
    decide
  unfold writes tileLoop
  rw [htiles]
  rfl

/-- Without rows nothing is stored. -/
theorem writes_of_M (htiled : kern.vecmat = false) (hM : args.M = 0) (ops : DequantOperands α)
    (σ : DequantSchedule kern α) (x y : ℕ) : kern.writes args ops σ x y = [] := by
  unfold writes tiledWrites
  simp [htiled, hM]

/-- No output behind the indices is stored. -/
theorem lt_of_mem_writes {ops : DequantOperands α} {σ : DequantSchedule kern α} {x y : ℕ}
    {w : ℕ × α} (hw : w ∈ kern.writes args ops σ x y) : w.1 < uintRange := by
  simp only [writes] at hw
  split_ifs at hw with hends hvec
  · obtain ⟨sg, -, hw⟩ := mem_flatMap.mp hw
    obtain ⟨i, -, hw⟩ := mem_flatMap.mp hw
    simp only at hw
    split_ifs at hw
    · rw [List.mem_singleton.mp hw]
      exact toUInt_lt _
    · cases hw
  · obtain ⟨sg, -, hw⟩ := mem_flatMap.mp hw
    obtain ⟨idx, -, hw⟩ := mem_flatMap.mp hw
    simp only at hw
    split_ifs at hw
    · rw [List.mem_singleton.mp hw]
      exact toUInt_lt _
    · cases hw
  · cases hw

end DequantKernel

/-! ### Contents that tell -/

section Marks

variable [CommRing α]

/-- Contents that are zero but for one cell. -/
def markedCell (p i : ℕ) : α := if i = p then 1 else 0

/-- A byte whose codes are zero. -/
def zeroByte : QuantType → UInt8
  | .INT4 => 0x88
  | .INT8 => 0

/-- A byte whose codes are one. -/
def oneByte : QuantType → UInt8
  | .INT4 => 0x99
  | .INT8 => 1

theorem storedCode_zeroByte (quant : QuantType) (k : ℕ) :
    storedCode quant (zeroByte quant) k = 0 := by
  cases quant with
  | INT4 =>
    unfold storedCode
    split_ifs <;> rfl
  | INT8 => rfl

theorem storedCode_oneByte (quant : QuantType) (k : ℕ) :
    storedCode quant (oneByte quant) k = 1 := by
  cases quant with
  | INT4 =>
    unfold storedCode
    split_ifs <;> rfl
  | INT8 => rfl

/-- Contents for which every weight is one. -/
def unitWeights (A : ℕ → α) : DequantOperands α := ⟨A, fun _ => 0, fun _ => 0, fun _ => -1⟩

theorem isProduct_unitWeights {A : ℕ → α} {m n : ℕ} {v : α}
    (h : call.IsProduct d (unitWeights A) m n v) :
    v = ∑ k ∈ range d.K, A (call.activations.place [m, k]) := by
  obtain ⟨c, -, rfl⟩ := h
  simp [unitWeights]

/-- Each element of a row is in one place. -/
theorem sum_markedCell (hchecked : DequantChecked call d) {m k₀ : ℕ} (hm : m < d.M)
    (hk₀ : k₀ < d.K) (f : ℕ → α) :
    ∑ k ∈ range d.K,
        markedCell (call.activations.place [m, k₀]) (call.activations.place [m, k]) * f k
      = f k₀ := by
  rw [sum_eq_single k₀]
  · simp [markedCell]
  · intro k hk hne
    have hplace : call.activations.place [m, k] ≠ call.activations.place [m, k₀] := by
      intro heq
      exact hne (place_inj hchecked.activations hm (Finset.mem_range.mp hk) hm hk₀
        heq).2
    simp [markedCell, hplace]
  · intro hout
    exact absurd (Finset.mem_range.mpr hk₀) hout

namespace DequantCall.Multiplies

variable [Nontrivial α] (h : call.Multiplies d)

include h

/-- Every activation makes a difference. -/
theorem sees (hchecked : DequantChecked call d) {m n k₀ : ℕ} (hm : m < d.M) (hn : n < d.N)
    (hk₀ : k₀ < d.K) (σ : (call.launch d).Schedules α) :
    (call.launch d).stores (unitWeights (markedCell (call.activations.place [m, k₀]))) σ
      ≠ (call.launch d).stores (unitWeights fun _ => 0) σ := by
  intro hsame
  obtain ⟨⟨v, hv⟩, hone⟩ :=
    (h (unitWeights (markedCell (call.activations.place [m, k₀]))) σ).2 m hm n hn
  have hv1 := isProduct_unitWeights (hone v hv)
  have hsum := sum_markedCell hchecked hm hk₀ fun _ => (1 : α)
  simp only [mul_one] at hsum
  rw [hsum] at hv1
  rw [hsame] at hv
  have hv0 := isProduct_unitWeights (((h (unitWeights fun _ => 0) σ).2 m hm n hn).2 v hv)
  rw [sum_const_zero] at hv0
  exact zero_ne_one (hv0.symm.trans hv1)

/-- A vector-matrix kernel reads behind its threadgroup memory. -/
theorem tiled (hchecked : DequantChecked call d) (hshaped : call.Shaped d) : 8 < d.M := by
  by_contra hM
  have hM' : d.M ≤ 8 := Nat.not_lt.mp hM
  let σ : (call.launch d).Schedules α := fun _ _ => .inOrder _ _
  have hvec : (call.launch d).kernel.vecmat = true := by simp [launch, hM']
  rcases Nat.eq_zero_or_pos (call.launch d).args.K with hK | hK
  · -- the loop over the tiles does not run
    refine h.sees hchecked hshaped.M_pos hshaped.N_pos hshaped.K_pos σ ?_
    unfold DequantLaunch.stores
    simp only [writes_of_K hK _ (unitWeights fun _ => (0 : α))]
  · obtain ⟨hx, hy⟩ := call.grid_pos hshaped.M_pos hshaped.N_pos
    have hread := (h (unitWeights fun _ => 0) σ).1 0 hx 0 hy _
      (accesses_vecmat hvec hK 0 0)
    have hsize : call.size d .shared_A = TILE_K := by
      show (call.launch d).sharedABytes / 2 = _
      simp [launch, hM']
    exact absurd hread (by rw [hsize]; exact Nat.lt_irrefl _)

omit [Nontrivial α] in
/-- Behind the indices of `C` nothing is stored. -/
theorem outputs (hshaped : call.Shaped d) : d.M * d.N ≤ uintRange := by
  by_contra hlarge
  let σ : (call.launch d).Schedules α := fun _ _ => .inOrder _ _
  have hM := hshaped.M_pos
  have hN := hshaped.N_pos
  obtain ⟨⟨v, hv⟩, -⟩ := (h (unitWeights fun _ => 0) σ).2 (d.M - 1) (Nat.sub_lt hM one_pos)
    (d.N - 1) (Nat.sub_lt hN one_pos)
  obtain ⟨y, -, hv⟩ := mem_flatMap.mp hv
  obtain ⟨x, -, hv⟩ := mem_flatMap.mp hv
  have hlt := lt_of_mem_writes hv
  obtain ⟨M, hM'⟩ := Nat.exists_eq_succ_of_ne_zero (Nat.ne_of_gt hM)
  rw [hM', Nat.succ_mul] at hlarge
  rw [hM'] at hlt
  simp only [Nat.succ_eq_add_one, Nat.add_sub_cancel] at hlt
  omega

/-- `2 ^ 32` rows are none for the kernel. -/
theorem rows (hchecked : DequantChecked call d) (hshaped : call.Shaped d) : d.M < uintRange := by
  by_contra hlarge
  have hN := hshaped.N_pos
  have hM : d.M = uintRange := by
    have hle := h.outputs hshaped
    have hmul := Nat.le_mul_of_pos_right d.M hN
    omega
  have htiled : (call.launch d).kernel.vecmat = false := by
    have hM8 : ¬ d.M ≤ 8 := Nat.not_le.mpr (h.tiled hchecked hshaped)
    simp [launch, hM8]
  have hzero : (call.launch d).args.M = 0 := by
    show toUInt d.M = 0
    rw [hM]
    decide
  let σ : (call.launch d).Schedules α := fun _ _ => .inOrder _ _
  obtain ⟨⟨v, hv⟩, -⟩ := (h (unitWeights fun _ => 0) σ).2 0 hshaped.M_pos 0 hN
  obtain ⟨y, -, hv⟩ := mem_flatMap.mp hv
  obtain ⟨x, -, hv⟩ := mem_flatMap.mp hv
  rw [writes_of_M htiled hzero] at hv
  cases hv

/-- Behind the indices of `A` nothing is read. -/
theorem activations (hchecked : DequantChecked call d) (hshaped : call.Shaped d) :
    d.M * d.K ≤ uintRange := by
  by_contra hlarge
  have hprod : call.activations.dims.prod = d.M * d.K := by
    rw [hchecked.activations]
    simp
  have hpos : 0 < call.activations.dims.prod := by
    rw [hprod]
    exact Nat.mul_pos hshaped.M_pos hshaped.K_pos
  obtain ⟨idx, hidx, hle⟩ := Strided.exists_le_linear hpos call.activations.inj
  rw [hprod] at hle
  rw [hchecked.activations] at hidx
  obtain ⟨m, k, rfl⟩ : ∃ m k, idx = [m, k] :=
    length_eq_two.mp (Strided.Within.length_eq hidx)
  obtain ⟨hm, hk⟩ := within_pair.mp hidx
  let σ : (call.launch d).Schedules α := fun _ _ => .inOrder _ _
  refine h.sees hchecked hm hshaped.N_pos hk σ ?_
  have hcells : ∀ i < uintRange,
      markedCell (call.activations.place [m, k]) i = (fun _ => (0 : α)) i := by
    intro i hi
    have hplace : uintRange ≤ call.activations.place [m, k] := by
      show uintRange ≤ linear _ _
      omega
    exact if_neg (by omega)
  unfold DequantLaunch.stores
  simp only [unitWeights, writes_congr hcells]

theorem small (hchecked : DequantChecked call d) (hshaped : call.Shaped d) : call.Small d :=
  ⟨h.tiled hchecked hshaped, h.rows hchecked hshaped, h.activations hchecked hshaped,
    h.outputs hshaped⟩

/-- What a kernel adds up is the product. -/
theorem sum_eq (hchecked : DequantChecked call d) (hshaped : call.Shaped d)
    (ops : DequantOperands α) {m n : ℕ} (hm : m < d.M) (hn : n < d.N) :
    call.IsProduct d ops m n
      (∑ k ∈ range d.K, ops.A (m * d.K + k) *
        ((storedCode call.quant_type
            (ops.B_packed ((call.launch d).args.bIndex call.quant_type n k)) k : α)
          * ops.scales ((call.launch d).args.groupIndex n k)
          - ops.zeros ((call.launch d).args.groupIndex n k))) := by
  have hsmall := h.small hchecked hshaped
  let σ : (call.launch d).Schedules α := fun _ _ => .inOrder _ _
  have hproduct := (h ops σ).2 m hm n hn
  rw [← hsmall.output_eq ops hm n]
  exact hproduct.2 _ ((hsmall.mem_stores hchecked ops σ hm hn).mpr rfl)

/-- The last code of an odd INT4 row is not in the layout. -/
theorem even (hchecked : DequantChecked call d) (hshaped : call.Shaped d)
    (hquant : call.quant_type = .INT4) : 2 ∣ d.K := by
  obtain ⟨c, hc, -⟩ := h.sum_eq hchecked hshaped (unitWeights fun _ => 0) hshaped.M_pos
    hshaped.N_pos
  have hlast := hc (d.K - 1) (Nat.sub_lt hshaped.K_pos one_pos)
  unfold code codeColumn columns at hlast
  simp only [hquant] at hlast
  split_ifs at hlast with hlt
  omega

/-- The activations lie row by row. -/
theorem activations_rowMajor (hchecked : DequantChecked call d) (hshaped : call.Shaped d) :
    call.activations.RowMajor := by
  rw [rowMajor_iff hchecked.activations]
  refine place_of_rows hchecked.activations fun m hm k₀ hk₀ => ?_
  -- with all weights one, the kernel finds the marked activation in its row
  have hsum := isProduct_unitWeights (h.sum_eq hchecked hshaped
    (unitWeights (markedCell (call.activations.place [m, k₀]))) hm hshaped.N_pos)
  have hone := sum_markedCell hchecked hm hk₀ fun _ => (1 : α)
  simp only [mul_one] at hone
  rw [hone] at hsum
  by_contra hout
  have hzero : ∀ k ∈ Finset.range d.K,
      (markedCell (call.activations.place [m, k₀]) (m * d.K + k) : α) = 0 := by
    intro k hk
    have hk' : k < d.K := Finset.mem_range.mp hk
    exact if_neg (by omega)
  simp only [unitWeights] at hsum
  rw [Finset.sum_eq_zero fun k hk => by rw [hzero k hk, zero_mul]] at hsum
  exact zero_ne_one hsum

/-- The dequantised weights are those that the kernel computes. -/
theorem weight_eq (hchecked : DequantChecked call d) (hshaped : call.Shaped d) (B : ℕ → UInt8)
    (scales zeros : ℕ → α) {n k : ℕ} (hn : n < d.N) (hk : k < d.K) :
    (storedCode call.quant_type (B ((call.launch d).args.bIndex call.quant_type n k)) k : α)
          * scales ((call.launch d).args.groupIndex n k)
        - zeros ((call.launch d).args.groupIndex n k)
      = (storedCode call.quant_type
            (B (call.weights_packed.place [n, call.codeColumn k])) k : α)
          * scales (call.scales.place [n, k / call.group_size])
        - zeros (call.zeros.place [n, k / call.group_size]) := by
  have hM := hshaped.M_pos
  have hrow := (rowMajor_iff hchecked.activations).mp
    (h.activations_rowMajor hchecked hshaped) 0 hM
  obtain ⟨c, hc, hsum⟩ := h.sum_eq hchecked hshaped
    ⟨markedCell (call.activations.place [0, k]), B, scales, zeros⟩ hM hn
  have hcode : c k = storedCode call.quant_type
      (B (call.weights_packed.place [n, call.codeColumn k])) k := by
    have hk' := hc k hk
    unfold code at hk'
    split_ifs at hk'
    exact (Option.some.inj hk').symm
  -- both sums are their terms for `k`
  have hkernel := sum_markedCell hchecked hM hk fun k =>
    (storedCode call.quant_type (B ((call.launch d).args.bIndex call.quant_type n k)) k : α)
        * scales ((call.launch d).args.groupIndex n k)
      - zeros ((call.launch d).args.groupIndex n k)
  have hspec := sum_markedCell hchecked hM hk fun k =>
    (c k : α) * scales (call.scales.place [n, k / call.group_size])
      - zeros (call.zeros.place [n, k / call.group_size])
  rw [← hcode, ← hspec, ← hsum, ← hkernel]
  refine sum_congr rfl fun k' hk' => ?_
  rw [hrow k' (Finset.mem_range.mp hk')]

/-- The byte of a weight is the one of the accepted layout. -/
theorem bIndex_eq (hchecked : DequantChecked call d) (hshaped : call.Shaped d) {n k : ℕ}
    (hn : n < d.N) (hk : k < d.K) :
    (call.launch d).args.bIndex call.quant_type n k
      = call.weights_packed.place [n, call.codeColumn k] := by
  by_contra hne
  -- codes that are zero but for the byte of the layout
  have hweight := h.weight_eq hchecked hshaped
    (fun i => if i = call.weights_packed.place [n, call.codeColumn k]
      then oneByte call.quant_type else zeroByte call.quant_type)
    (fun _ => 1) (fun _ => 0) hn hk
  simp only [if_neg hne, if_true, storedCode_zeroByte, storedCode_oneByte] at hweight
  simp at hweight

theorem scaleIndex_eq (hchecked : DequantChecked call d) (hshaped : call.Shaped d) {n k : ℕ}
    (hn : n < d.N) (hk : k < d.K) :
    (call.launch d).args.groupIndex n k = call.scales.place [n, k / call.group_size] := by
  by_contra hne
  have hweight := h.weight_eq hchecked hshaped (fun _ => oneByte call.quant_type)
    (markedCell (call.scales.place [n, k / call.group_size])) (fun _ => 0) hn hk
  simp only [markedCell, if_neg hne, if_true, storedCode_oneByte] at hweight
  simp at hweight

theorem zeroIndex_eq (hchecked : DequantChecked call d) (hshaped : call.Shaped d) {n k : ℕ}
    (hn : n < d.N) (hk : k < d.K) :
    (call.launch d).args.groupIndex n k = call.zeros.place [n, k / call.group_size] := by
  by_contra hne
  have hweight := h.weight_eq hchecked hshaped (fun _ => 0) (fun _ => 0)
    (markedCell (call.zeros.place [n, k / call.group_size])) hn hk
  simp only [markedCell, if_neg hne, if_true] at hweight
  simp at hweight

/-- The weights lie row by row, and their indices do not wrap around. -/
theorem weights_place (hchecked : DequantChecked call d) (hshaped : call.Shaped d) :
    (∀ n < d.N, ∀ c < call.columns d.K,
        call.weights_packed.place [n, c] = n * call.columns d.K + c) ∧
      d.N * call.columns d.K ≤ uintRange := by
  have hrange : uintRange = 4294967296 := rfl
  have hsmall := h.small hchecked hshaped
  have hK := hsmall.K_le
  have heven := h.even hchecked hshaped
  have hargsK : (call.launch d).args.K = d.K := by rw [hsmall.args_eq]
  apply place_of_wrapped
  · unfold columns
    cases call.quant_type with
    | INT4 | INT8 =>
      simp only
      omega
  · intro n hn c hc
    have hindex := fun k hk => h.bIndex_eq hchecked hshaped (n := n) (k := k) hn hk
    unfold columns at hc
    unfold codeColumn DequantArgs.bIndex at hindex
    unfold columns
    cases hquant : call.quant_type with
    | INT4 =>
      simp only [hquant] at hc hindex ⊢
      obtain ⟨K', hK'⟩ := heven hquant
      have hcode := hindex (c * 2) (by omega)
      rw [hargsK, toUInt_of_lt (show d.K + 1 < uintRange by omega),
        show (d.K + 1) / 2 = d.K / 2 by omega, Nat.mul_div_cancel _ two_pos] at hcode
      exact hcode.symm
    | INT8 =>
      simp only [hquant] at hc hindex ⊢
      have hcode := hindex c hc
      rw [hargsK] at hcode
      exact hcode.symm

/-- A tensor with the groups of each row lies row by row when the kernel finds them. -/
theorem groups_rowMajor (hchecked : DequantChecked call d) (hshaped : call.Shaped d)
    {t : DeviceTensor α} (hdims : t.dims = [d.N, call.groups d.K])
    (hplace : ∀ n < d.N, ∀ k < d.K,
      (call.launch d).args.groupIndex n k = t.place [n, k / call.group_size]) : t.RowMajor := by
  have hrange : uintRange = 4294967296 := rfl
  have hsmall := h.small hchecked hshaped
  have hK := hsmall.K_le
  have hg := hchecked.group_size
  rw [rowMajor_iff hdims]
  refine (place_of_wrapped ?_ fun n hn j hj => ?_).1
  · unfold groups
    rcases hg with hg | hg | hg <;> rw [hg] <;> omega
  · have hfirst : j * call.group_size < d.K := by
      unfold groups at hj
      rcases hg with hg | hg | hg <;> rw [hg] at hj ⊢ <;> omega
    have hpos : 0 < call.group_size := by
      rcases hg with hg | hg | hg <;> rw [hg] <;> decide
    have hindex := hplace n hn _ hfirst
    rw [Nat.mul_div_cancel _ hpos] at hindex
    rw [← hindex, DequantArgs.groupIndex, hsmall.numGroupsPerK_eq hchecked]
    have hgroup : (call.launch d).args.group_size = call.group_size := rfl
    rw [hgroup, Nat.mul_div_cancel _ hpos]

/-- **Calls that compute the product** are supported. -/
theorem supported (hchecked : DequantChecked call d) (hshaped : call.Shaped d) :
    call.Supported d where
  tiled := h.tiled hchecked hshaped
  even := h.even hchecked hshaped
  rows := h.rows hchecked hshaped
  activations := h.activations hchecked hshaped
  outputs := h.outputs hshaped
  weights := (h.weights_place hchecked hshaped).2
  activations_rowMajor := h.activations_rowMajor hchecked hshaped
  weights_rowMajor :=
    (rowMajor_iff hshaped.weights).mpr (h.weights_place hchecked hshaped).1
  scales_rowMajor := h.groups_rowMajor hchecked hshaped hshaped.scales
    fun _ hn _ hk => h.scaleIndex_eq hchecked hshaped hn hk
  zeros_rowMajor := h.groups_rowMajor hchecked hshaped hshaped.zeros
    fun _ hn _ hk => h.zeroIndex_eq hchecked hshaped hn hk

end DequantCall.Multiplies

end Marks

/-! ### The calls that compute the product -/

/-- A matrix whose rows follow each other in a buffer of its own. -/
def DeviceTensor.dense {β : Type*} (R C : ℕ) (dtype : MNDType) (data : ℕ → β) (hR : R < 2 ^ 16)
    (hC : C < 2 ^ 16) : DeviceTensor β where
  buffer := data
  dims := [R, C]
  strides := [(C : ℤ), 1]
  dtype
  dims_lt := by
    intro c hc
    simp only [List.mem_cons, List.not_mem_nil, or_false] at hc
    omega
  numel_lt := by
    have hmul : R * C ≤ 2 ^ 16 * 2 ^ 16 := Nat.mul_le_mul (by omega) (by omega)
    simp only [List.prod_cons, List.prod_nil, Nat.mul_one]
    omega
  length := R * C
  inside := by
    intro idx hidx
    obtain ⟨i, j, rfl⟩ : ∃ i j, idx = [i, j] :=
      List.length_eq_two.mp (Strided.Within.length_eq hidx)
    obtain ⟨hi, hj⟩ := within_pair.mp hidx
    rw [linear_dense hC]
    exact rowMajor_lt hi hj
  inj := by
    intro idx idx' hidx hidx' h
    obtain ⟨i, j, rfl⟩ : ∃ i j, idx = [i, j] :=
      List.length_eq_two.mp (Strided.Within.length_eq hidx)
    obtain ⟨i', j', rfl⟩ : ∃ i j, idx' = [i, j] :=
      List.length_eq_two.mp (Strided.Within.length_eq hidx')
    rw [linear_dense hC, linear_dense hC] at h
    obtain ⟨rfl, rfl⟩ := (rowMajor_inj (within_pair.mp hidx).2 (within_pair.mp hidx').2).mp h
    rfl

/-- The elements of a dense matrix are in order. -/
theorem DeviceTensor.dense_rowMajor {β : Type*} {R C : ℕ} {dtype : MNDType} {data : ℕ → β}
    (hR : R < 2 ^ 16) (hC : C < 2 ^ 16) : (dense R C dtype data hR hC).RowMajor :=
  (rowMajor_iff rfl).mpr fun i _ j _ => linear_dense hC i j

/-- A call with dense operands in groups of 32. -/
def denseCall (quant : QuantType) (M N K : ℕ) (hM : M < 2 ^ 16) (hN : N < 2 ^ 16)
    (hK : K < 2 ^ 16) : DequantCall ℤ where
  activations := .dense M K .Float16 (fun _ => 0) hM hK
  weights_packed := .dense N (match quant with | .INT4 => K / 2 | .INT8 => K) .UInt8 (fun _ => 0) hN
    (by cases quant <;> simp only <;> omega)
  scales := .dense N ((K + 32 - 1) / 32) .Float16 (fun _ => 0) hN (by omega)
  zeros := .dense N ((K + 32 - 1) / 32) .Float16 (fun _ => 0) hN (by omega)
  group_size := 32
  quant_type := quant

end MetalNative
