import MetalNative.Matmul.DequantKernels

namespace MetalNative

open ThreadLoop SimdMatrix List

/-!
# What the dequantising kernels compute

* `sharedA_apply`, `sharedB_apply` — the tiles that the loads leave; what an INT4 load does not
  store stays as it was.
* `tileStep_acc`, `tileLoop_acc` — what one tile adds to an accumulator, and all tiles.
* `mem_writes`, `writes_of_lt` — the stores to `C`, and that every output is among them.
-/

/-- The code of a weight: a byte, or the lower or upper half of one less 8. -/
def storedCode (quant : QuantType) (byte : UInt8) (k : ℕ) : ℤ :=
  match quant with
  | .INT4 =>
    if k % 2 = 0 then ((byte &&& 0x0F).toNat : ℤ) - 8
    else (((byte >>> 4) &&& 0x0F).toNat : ℤ) - 8
  | .INT8 => byte.toInt8.toInt

variable {α : Type*} [CommRing α]

/-- The weight that a kernel multiplies with. -/
def DequantArgs.weight (args : DequantArgs) (quant : QuantType) (ops : DequantOperands α)
    (n k : ℕ) : α :=
  (storedCode quant (ops.B_packed (args.bIndex quant n k)) k : α) * ops.scales (args.groupIndex n k)
    - ops.zeros (args.groupIndex n k)

/-- The activation that a kernel multiplies with. -/
def DequantKernel.activation (kern : DequantKernel) (args : DequantArgs) (ops : DequantOperands α)
    (row k : ℕ) : α :=
  if kern.vecmat then ops.A k else ops.A (args.aIndex row k)

/-- The sum for an output. -/
def DequantKernel.output (kern : DequantKernel) (args : DequantArgs) (ops : DequantOperands α)
    (row n : ℕ) : α :=
  ∑ k ∈ Finset.range args.K,
    kern.activation args ops row k * args.weight kern.quant ops n k

/-! ### The tile of activations -/

theorem aCell_eq (kern : DequantKernel) (idx : ℕ) : aCell kern idx = idx := by
  unfold aCell
  split_ifs
  · rfl
  · exact Nat.div_add_mod' idx TILE_K

/-- `shared_A` after the first load. -/
theorem sharedA_apply {kern : DequantKernel} (args : DequantArgs) (ops : DequantOperands α)
    (o : LoopOrder 128 kern.aItems) (row_base k_tile : ℕ) (shared_A : ℕ → α) {a : ℕ}
    (ha : a < kern.aItems) :
    storeAll o.items (aCell kern) (aValue kern args ops row_base k_tile) shared_A a
      = aValue kern args ops row_base k_tile a := by
  apply storeAll_of_mem
  · intro idx _ hidx
    rw [← hidx, aCell_eq]
  · exact .inl ⟨a, o.mem_items.mpr ((mem_allStrides (by decide)).mpr ha), aCell_eq kern a⟩

variable {args : DequantArgs}

/-- Row `r` of the tile, where it is a row of the operand. -/
theorem aValue_apply {kern : DequantKernel} (ops : DequantOperands α)
    {row_base k_tile r c : ℕ} (hc : c < TILE_K) (hrow : row_base + r < uintRange)
    (hcol : k_tile + c < uintRange) (hr : if kern.vecmat then r = 0 else row_base + r < args.M) :
    aValue kern args ops row_base k_tile (r * TILE_K + c)
      = if k_tile + c < args.K then kern.activation args ops (row_base + r) (k_tile + c)
        else 0 := by
  unfold aValue DequantKernel.activation
  by_cases hvec : kern.vecmat = true
  · rw [if_pos hvec] at hr
    simp only [hvec, if_true, hr, Nat.zero_mul, Nat.zero_add, toUInt_of_lt hcol]
  · rw [if_neg hvec] at hr
    simp only [hvec, rowMajor_div hc, rowMajor_mod hc, toUInt_of_lt hcol, toUInt_of_lt hrow, hr,
      true_and]
    rfl

/-! ### The tile of weights -/

/-- A group has an even number of weights, so the two weights of a byte are in one group. -/
theorem groupIndex_succ (heven : 2 ∣ args.group_size) {k : ℕ}
    (hk : k % 2 = 0) (n : ℕ) : args.groupIndex n (k + 1) = args.groupIndex n k := by
  obtain ⟨g, hg⟩ := heven
  unfold DequantArgs.groupIndex
  rw [hg, ← Nat.div_div_eq_div_mul, ← Nat.div_div_eq_div_mul,
    show (k + 1) / 2 = k / 2 by omega]

theorem bIndex_succ (args : DequantArgs) {k : ℕ} (hk : k % 2 = 0) (n : ℕ) :
    args.bIndex .INT4 n (k + 1) = args.bIndex .INT4 n k := by
  unfold DequantArgs.bIndex
  rw [show (k + 1) / 2 = k / 2 by omega]

/-- The two halves of a byte are the weights at two neighbouring places. -/
theorem unpackInt4Pair_eq (ops : DequantOperands α)
    (heven : 2 ∣ args.group_size) {k : ℕ} (hk : k % 2 = 0) (n : ℕ) :
    unpackInt4Pair (ops.B_packed (args.bIndex .INT4 n k)) (ops.scales (args.groupIndex n k))
        (ops.zeros (args.groupIndex n k))
      = (args.weight .INT4 ops n k, args.weight .INT4 ops n (k + 1)) := by
  have hodd : ¬ (k + 1) % 2 = 0 := by omega
  simp only [unpackInt4Pair, DequantArgs.weight, storedCode, hk, hodd, if_true, if_false,
    groupIndex_succ heven hk, bIndex_succ args hk]

/-- The places that an iteration of an INT4 load stores to, and what it stores of a weight of the
    operand. -/
theorem mem_int4Stores (ops : DequantOperands α) {col_base k_tile p : ℕ}
    (heven : 2 ∣ args.group_size) (htile : k_tile % 2 = 0) (hp : p < 1024) {x : ℕ × α}
    (hx : x ∈ int4Stores args ops col_base k_tile p) :
    ∃ e < 2, x.1 = (p % 16 * 2 + e) * TILE_N + p / 16 ∧
      (col_base + p / 16 < args.N → args.N < uintRange →
        k_tile + (p % 16 * 2 + e) < args.K → args.K < uintRange →
        x.2 = args.weight .INT4 ops (col_base + p / 16) (k_tile + (p % 16 * 2 + e))) := by
  -- where a weight is one of the operand, so is the first one of its byte
  have hvalid : ∀ e, col_base + p / 16 < args.N → args.N < uintRange →
      k_tile + (p % 16 * 2 + e) < args.K → args.K < uintRange →
      toUInt (col_base + p / 16) < args.N ∧ toUInt (k_tile + p % 16 * 2) < args.K := by
    intro e hn hN hk hK
    rw [toUInt_of_lt (by omega), toUInt_of_lt (by omega)]
    omega
  have hpair : ∀ e, col_base + p / 16 < args.N → args.N < uintRange →
      k_tile + (p % 16 * 2 + e) < args.K → args.K < uintRange →
      unpackInt4Pair
          (ops.B_packed (args.bIndex .INT4 (toUInt (col_base + p / 16))
            (toUInt (k_tile + p % 16 * 2))))
          (ops.scales (args.groupIndex (toUInt (col_base + p / 16))
            (toUInt (k_tile + p % 16 * 2))))
          (ops.zeros (args.groupIndex (toUInt (col_base + p / 16))
            (toUInt (k_tile + p % 16 * 2))))
        = (args.weight .INT4 ops (col_base + p / 16) (k_tile + p % 16 * 2),
            args.weight .INT4 ops (col_base + p / 16) (k_tile + p % 16 * 2 + 1)) := by
    intro e hn hN hk hK
    rw [toUInt_of_lt (show col_base + p / 16 < uintRange by omega),
      toUInt_of_lt (show k_tile + p % 16 * 2 < uintRange by omega)]
    exact unpackInt4Pair_eq ops heven (by omega) _
  unfold int4Stores TILE_K at hx
  simp only [Nat.reduceDiv] at hx
  by_cases hin : toUInt (col_base + p / 16) < args.N ∧ toUInt (k_tile + p % 16 * 2) < args.K
  · rw [if_pos hin] at hx
    rcases mem_cons.mp hx with rfl | hx
    · refine ⟨0, by decide, rfl, fun hn hN hk hK => ?_⟩
      exact congrArg Prod.fst (hpair 0 hn hN hk hK)
    · split_ifs at hx
      · obtain rfl := mem_singleton.mp hx
        refine ⟨1, by decide, rfl, fun hn hN hk hK => ?_⟩
        exact congrArg Prod.snd (hpair 1 hn hN hk hK)
      · cases hx
  · -- zeros, where the first weight is none of the operand
    have hn : p / 16 < TILE_N := by
      unfold TILE_N
      omega
    rw [if_neg hin, if_pos ⟨hn, by omega⟩, if_pos ⟨hn, by omega⟩] at hx
    rcases mem_cons.mp hx with rfl | hx
    · exact ⟨0, by decide, rfl, fun hn hN hk hK => absurd (hvalid 0 hn hN hk hK) hin⟩
    · obtain rfl := mem_singleton.mp hx
      exact ⟨1, by decide, rfl, fun hn hN hk hK => absurd (hvalid 1 hn hN hk hK) hin⟩

/-- A weight of the operand is stored. -/
theorem int4Stores_of_lt (ops : DequantOperands α) {col_base k_tile p e : ℕ}
    (he : e < 2) (hn : col_base + p / 16 < args.N) (hN : args.N < uintRange)
    (hk : k_tile + (p % 16 * 2 + e) < args.K) (hK : args.K < uintRange) :
    ∃ x ∈ int4Stores args ops col_base k_tile p, x.1 = (p % 16 * 2 + e) * TILE_N + p / 16 := by
  have hn' : toUInt (col_base + p / 16) = col_base + p / 16 := toUInt_of_lt (by omega)
  have hk' : toUInt (k_tile + p % 16 * 2) = k_tile + p % 16 * 2 := toUInt_of_lt (by omega)
  unfold int4Stores TILE_K
  simp only [Nat.reduceDiv, hn', hk']
  rw [if_pos ⟨hn, by omega⟩]
  obtain rfl | rfl : e = 0 ∨ e = 1 := by omega
  · exact ⟨_, mem_cons_self .., rfl⟩
  · rw [toUInt_of_lt (show k_tile + p % 16 * 2 + 1 < uintRange by omega),
      if_pos ⟨by omega, by omega⟩]
    exact ⟨_, mem_cons_of_mem _ (mem_singleton_self _), rfl⟩

/-- `shared_B` after the second load, at the weights of the operand. -/
theorem sharedB_apply {quant : QuantType} (ops : DequantOperands α)
    (o : LoopOrder 128 quant.bItems) {col_base k_tile k n : ℕ} (shared_B : ℕ → α)
    (heven : 2 ∣ args.group_size) (htile : k_tile % 2 = 0) (hk : k < TILE_K) (hn : n < TILE_N)
    (hkK : k_tile + k < args.K) (hK : args.K < uintRange) (hnN : col_base + n < args.N)
    (hN : args.N < uintRange) :
    storeAll (o.items.flatMap (bStores quant args ops col_base k_tile)) Prod.fst Prod.snd shared_B
        (k * TILE_N + n)
      = args.weight quant ops (col_base + n) (k_tile + k) := by
  have hN64 : TILE_N = 64 := rfl
  have hK32 : TILE_K = 32 := rfl
  cases quant with
  | INT4 =>
    apply storeAll_of_mem
    · intro x hx hcell
      obtain ⟨p, hp, hx⟩ := mem_flatMap.mp hx
      have hp' : p < 1024 := (mem_allStrides (by decide)).mp (o.mem_items.mp hp)
      obtain ⟨e, he, hplace, hvalue⟩ := mem_int4Stores ops heven htile hp' hx
      -- the place says which weight it is
      rw [hplace] at hcell
      obtain ⟨rfl, rfl⟩ := (rowMajor_inj (by omega) hn).mp hcell
      exact hvalue hnN hN hkK hK
    · have hdiv : (n * 16 + k / 2) / 16 = n := by omega
      have hmod : (n * 16 + k / 2) % 16 * 2 + k % 2 = k := by omega
      obtain ⟨x, hx, hplace⟩ := int4Stores_of_lt ops (p := n * 16 + k / 2) (Nat.mod_lt k two_pos)
        (by rwa [hdiv]) hN (by rwa [hmod]) hK
      rw [hdiv, hmod] at hplace
      have hitem : n * 16 + k / 2 ∈ o.items := by
        rw [o.mem_items, mem_allStrides (by decide)]
        show n * 16 + k / 2 < 1024
        omega
      exact .inl ⟨x, mem_flatMap.mpr ⟨_, hitem, hx⟩, hplace⟩
  | INT8 =>
    have hstores : ∀ idx, (bStores .INT8 args ops col_base k_tile idx).map Prod.fst = [idx] := by
      intro idx
      have hidx : idx / TILE_N * TILE_N + idx % TILE_N = idx := Nat.div_add_mod' idx TILE_N
      simp only [bStores, int8Stores]
      split_ifs <;> simp [hidx]
    have hvalid : int8Stores args ops col_base k_tile (k * TILE_N + n)
        = [(k * TILE_N + n, args.weight .INT8 ops (col_base + n) (k_tile + k))] := by
      have hk' : toUInt (k_tile + k) = k_tile + k := toUInt_of_lt (by omega)
      have hn' : toUInt (col_base + n) = col_base + n := toUInt_of_lt (by omega)
      simp only [int8Stores, rowMajor_div hn, rowMajor_mod hn, hk', hn']
      rw [if_pos ⟨hkK, hnN⟩]
      rfl
    apply storeAll_of_mem
    · intro x hx hcell
      obtain ⟨idx, -, hx⟩ := mem_flatMap.mp hx
      have hplace : x.1 = idx := by
        have hmem := mem_map_of_mem (f := Prod.fst) hx
        rw [hstores] at hmem
        exact mem_singleton.mp hmem
      rw [← hplace, hcell, bStores, hvalid] at hx
      rw [mem_singleton.mp hx]
    · have hitem : k * TILE_N + n ∈ o.items := by
        rw [o.mem_items, mem_allStrides (by decide)]
        show k * 64 + n < 2048
        omega
      refine .inl ⟨(k * TILE_N + n, args.weight .INT8 ops (col_base + n) (k_tile + k)),
        mem_flatMap.mpr ⟨_, hitem, ?_⟩, rfl⟩
      rw [bStores, hvalid]
      exact mem_singleton_self _

/-! ### The accumulators -/

namespace DequantKernel

variable {kern : DequantKernel} {args : DequantArgs}

/-- The loop over `k` of a tile adds a product of 32 terms. -/
theorem accumulate_apply (shared_A shared_B : ℕ → α) (g i j : ℕ) (acc : Mat8 α) (u v : Fin 8) :
    kern.accumulate shared_A shared_B g i j acc u v
      = acc u v + ∑ c ∈ Finset.range TILE_K,
          shared_A ((kern.sgRow g + i * 8 + u) * TILE_K + c)
            * shared_B (c * TILE_N + (kern.sgCol g + j * 8 + v)) := by
  have hK : TILE_K = 8 * 4 := rfl
  unfold accumulate
  conv_lhs => rw [hK, stride_zero_mul 8 4 (by decide)]
  rw [foldl_map, SimdMatrix.accumulate_apply, sum_map_range, sum_range_eight_mul hK]
  congr 1
  refine Finset.sum_congr rfl fun t _ => Finset.sum_congr rfl fun l _ => ?_
  simp only [load_apply, aBase, bBase]
  unfold TILE_K
  congr 2
  · ring
  · ring

end DequantKernel

/-- The indices of a tile do not wrap around. -/
structure DequantArgs.Fits (args : DequantArgs) : Prop where
  N_lt : args.N < uintRange
  K_le : args.K + TILE_K ≤ uintRange
  groups : 2 ∣ args.group_size

theorem DequantArgs.Fits.K_lt (h : args.Fits) : args.K < uintRange := by
  have hK := h.K_le
  unfold TILE_K at hK
  omega

namespace DequantKernel

variable {kern : DequantKernel} {args : DequantArgs}

/-- Row `r` of a tile is one that outputs are computed for. -/
def HasRow (kern : DequantKernel) (args : DequantArgs) (row_base r : ℕ) : Prop :=
  row_base + r < uintRange ∧
    if kern.vecmat then r = 0 else r < TILE_M ∧ row_base + r < args.M

/-- One tile adds the terms of its part of `K`. -/
theorem tileStep_acc (hfits : args.Fits) (ops : DequantOperands α) (σ : DequantSchedule kern α)
    {row_base col_base k_tile g i j : ℕ} (s : TileState α) (u v : Fin 8)
    (htile : k_tile % 2 = 0) (hk : k_tile + TILE_K ≤ uintRange)
    (hr : kern.HasRow args row_base (kern.sgRow g + i * 8 + u))
    (hn : kern.sgCol g + j * 8 + v < TILE_N)
    (hnN : col_base + (kern.sgCol g + j * 8 + v) < args.N) :
    (kern.tileStep args ops σ row_base col_base s k_tile).acc g i j u v
      = s.acc g i j u v + ∑ c ∈ Finset.range TILE_K,
          if k_tile + c < args.K then
            kern.activation args ops (row_base + (kern.sgRow g + i * 8 + u)) (k_tile + c)
              * args.weight kern.quant ops (col_base + (kern.sgCol g + j * 8 + v)) (k_tile + c)
          else 0 := by
  show kern.accumulate _ _ g i j (s.acc g i j) u v = _
  rw [accumulate_apply]
  congr 1
  refine Finset.sum_congr rfl fun c hc => ?_
  have hc' : c < TILE_K := Finset.mem_range.mp hc
  have hcell : (kern.sgRow g + i * 8 + u) * TILE_K + c < kern.aItems := by
    obtain ⟨-, hr⟩ := hr
    unfold aItems
    split_ifs at hr ⊢
    · rw [hr]
      omega
    · exact rowMajor_lt hr.1 hc'
  have hvalid : if kern.vecmat then kern.sgRow g + i * 8 + (u : ℕ) = 0
      else row_base + (kern.sgRow g + i * 8 + u) < args.M := by
    obtain ⟨-, hr⟩ := hr
    split_ifs at hr ⊢
    · exact hr
    · exact hr.2
  rw [sharedA_apply args ops (σ.loadA k_tile) row_base k_tile s.shared_A hcell,
    aValue_apply ops hc' hr.1 (by omega) hvalid]
  by_cases hK : k_tile + c < args.K
  · rw [if_pos hK, if_pos hK, sharedB_apply ops (σ.loadB k_tile) s.shared_B hfits.groups htile hc'
      hn hK hfits.K_lt hnN hfits.N_lt]
  · -- behind the end of the row an activation is zero, whatever the weight is
    rw [if_neg hK, if_neg hK, zero_mul]

/-- **The loop over the tiles** leaves the sums of the outputs. -/
theorem tileLoop_acc (hfits : args.Fits) (ops : DequantOperands α) (σ : DequantSchedule kern α)
    {row_base col_base g i j : ℕ} (u v : Fin 8)
    (hr : kern.HasRow args row_base (kern.sgRow g + i * 8 + u))
    (hn : kern.sgCol g + j * 8 + v < TILE_N)
    (hnN : col_base + (kern.sgCol g + j * 8 + v) < args.N) :
    (kern.tileLoop args ops σ row_base col_base).acc g i j u v
      = kern.output args ops (row_base + (kern.sgRow g + i * 8 + u))
          (col_base + (kern.sgCol g + j * 8 + v)) := by
  let term : ℕ → α := fun k =>
    if k < args.K then
      kern.activation args ops (row_base + (kern.sgRow g + i * 8 + u)) k
        * args.weight kern.quant ops (col_base + (kern.sgCol g + j * 8 + v)) k
    else 0
  -- the invariant of the loop: the terms of the tiles that are done
  have hrun : ∀ (tiles : List ℕ) (s : TileState α),
      (∀ k_tile ∈ tiles, k_tile % 2 = 0 ∧ k_tile + TILE_K ≤ uintRange) →
      (tiles.foldl (kern.tileStep args ops σ row_base col_base) s).acc g i j u v
        = s.acc g i j u v
          + (tiles.map fun k_tile => ∑ c ∈ Finset.range TILE_K, term (k_tile + c)).sum := by
    intro tiles
    induction tiles with
    | nil => simp
    | cons k_tile tiles ih =>
      intro s htiles
      obtain ⟨heven, hle⟩ := htiles k_tile (mem_cons_self ..)
      rw [foldl_cons, ih _ fun t ht => htiles t (mem_cons_of_mem _ ht),
        tileStep_acc hfits ops σ s u v heven hle hr hn hnN, map_cons, sum_cons, add_assoc]
  have hK := hfits.K_le
  have htiles : ∀ k_tile ∈ stride 0 TILE_K args.K,
      k_tile % 2 = 0 ∧ k_tile + TILE_K ≤ uintRange := by
    intro k_tile hmem
    obtain ⟨t, ht, hlt⟩ := (mem_stride (by decide)).mp hmem
    unfold TILE_K at ht hK ⊢
    omega
  have hlen : args.K ≤ TILE_K * (stride 0 TILE_K args.K).length := by
    simp only [stride, length_map, length_range]
    unfold TILE_K
    omega
  unfold tileLoop
  rw [hrun _ _ htiles, sum_map_stride, output]
  calc (0 : Mat8 α) u v + ∑ t ∈ Finset.range (stride 0 TILE_K args.K).length,
          ∑ c ∈ Finset.range TILE_K, term (0 + t * TILE_K + c)
      _ = ∑ t ∈ Finset.range (stride 0 TILE_K args.K).length,
          ∑ c ∈ Finset.range TILE_K, term (TILE_K * t + c) := by
        simp [Nat.mul_comm]
      _ = ∑ k ∈ Finset.range (TILE_K * (stride 0 TILE_K args.K).length), term k :=
        (sum_range_mul ..).symm
      _ = ∑ k ∈ Finset.range args.K, term k :=
        sum_range_of_zero (fun k hk => if_neg (Nat.not_lt.mpr hk)) hlen
      _ = _ := Finset.sum_congr rfl fun k hk => if_pos (Finset.mem_range.mp hk)

/-! ### The stores to `C` -/

omit [CommRing α] in
/-- `shared_out` of a tiled kernel. -/
theorem tiledOut_apply (acc : ℕ → ℕ → Mat8 α) (shared_out : ℕ → α) {r c : ℕ} (hr : r < 32)
    (hc : c < 32) :
    tiledOut acc shared_out (r * 32 + c)
      = acc (r / 8) (c / 8) ⟨r % 8, Nat.mod_lt _ (by decide)⟩
        ⟨c % 8, Nat.mod_lt _ (by decide)⟩ := by
  have hcell := storeBlocks_apply (fun o => acc (o.1 / 8) (o.2 / 8)) (m := 4) (le_refl 32)
    (fun o ho => ho) shared_out (a := r / 8) (b := c / 8) ⟨r % 8, Nat.mod_lt _ (by decide)⟩
    ⟨c % 8, Nat.mod_lt _ (by decide)⟩ (by omega)
  have hblock : (8 * (r / 8), 8 * (c / 8)) ∈ blockGrid 4 :=
    mem_blockGrid.mpr ⟨r / 8, by omega, c / 8, by omega, rfl⟩
  rw [if_pos hblock] at hcell
  simp only [Nat.div_add_mod, Nat.mul_div_cancel_left _ (show 0 < 8 by decide)] at hcell
  exact hcell

omit [CommRing α] in
/-- Row 0 of `my_out` of a vector-matrix kernel. -/
theorem vecmatOut_apply (acc : ℕ → ℕ → Mat8 α) (my_out : ℕ → α) {c : ℕ} (hc : c < 16) :
    vecmatOut acc my_out c = acc 0 (c / 8) 0 ⟨c % 8, Nat.mod_lt _ (by decide)⟩ := by
  unfold vecmatOut
  have hmod : c % 8 < 8 := Nat.mod_lt _ (by decide)
  by_cases hfirst : c < 8
  · have hoff : store (acc 0 1) (0 * 16 + 8) 16 (store (acc 0 0) (0 * 16 + 0) 16 my_out)
        (0 * 16 + c) = store (acc 0 0) (0 * 16 + 0) 16 my_out (0 * 16 + c) :=
      store_off _ (by decide) _ hc (by omega)
    have hat : store (acc 0 0) (0 * 16 + 0) 16 my_out ((0 + ((0 : Fin 8) : ℕ)) * 16 + (0 + c % 8))
        = acc 0 0 0 ⟨c % 8, hmod⟩ := store_at _ (by decide) _ _ ⟨c % 8, hmod⟩
    rw [show (0 + ((0 : Fin 8) : ℕ)) * 16 + (0 + c % 8) = 0 * 16 + c by simp; omega, ← hoff] at hat
    rw [show c / 8 = 0 by omega, ← hat]
    simp
  · have hat : store (acc 0 1) (0 * 16 + 8) 16 (store (acc 0 0) (0 * 16 + 0) 16 my_out)
        ((0 + ((0 : Fin 8) : ℕ)) * 16 + (8 + c % 8)) = acc 0 1 0 ⟨c % 8, hmod⟩ :=
      store_at _ (by decide) _ _ ⟨c % 8, hmod⟩
    rw [show (0 + ((0 : Fin 8) : ℕ)) * 16 + (8 + c % 8) = c by simp; omega] at hat
    rw [show c / 8 = 1 by omega, ← hat]

/-- What a tiled kernel leaves in a cell of `shared_out`. -/
theorem tiledOut_output (hfits : args.Fits) (hM : args.M < uintRange) (htiled : kern.vecmat = false)
    (ops : DequantOperands α) (σ : DequantSchedule kern α) {row_base col_base sg r c : ℕ}
    (shared_out : ℕ → α) (hsg : sg < 4) (hr : r < 32) (hc : c < 32)
    (hrow : row_base + kern.sgRow sg + r < args.M) (hcol : col_base + kern.sgCol sg + c < args.N) :
    tiledOut ((kern.tileLoop args ops σ row_base col_base).acc sg) shared_out (r * 32 + c)
      = kern.output args ops (row_base + kern.sgRow sg + r) (col_base + kern.sgCol sg + c) := by
  have hrblock : kern.sgRow sg + r / 8 * 8 + r % 8 = kern.sgRow sg + r := by omega
  have hcblock : kern.sgCol sg + c / 8 * 8 + c % 8 = kern.sgCol sg + c := by omega
  have hsgRow : kern.sgRow sg = sg / 2 * 32 := by simp [sgRow, htiled]
  have hsgCol : kern.sgCol sg = sg % 2 * 32 := by simp [sgCol, htiled]
  have hM64 : TILE_M = 64 := rfl
  have hN64 : TILE_N = 64 := rfl
  rw [tiledOut_apply _ _ hr hc, tileLoop_acc hfits ops σ]
  · simp only [hrblock, hcblock, Nat.add_assoc]
  · simp only [hrblock, HasRow, htiled]
    exact ⟨by omega, by omega, by omega⟩
  · simp only [hcblock]
    omega
  · simp only [hcblock]
    omega

/-- What a vector-matrix kernel leaves in row 0 of `my_out`. -/
theorem vecmatOut_output (hfits : args.Fits) (hvec : kern.vecmat = true) (ops : DequantOperands α)
    (σ : DequantSchedule kern α) {row_base col_base sg c : ℕ} (my_out : ℕ → α) (hsg : sg < 4)
    (hrow : row_base < uintRange) (hc : c < 16) (hcol : col_base + kern.sgCol sg + c < args.N) :
    vecmatOut ((kern.tileLoop args ops σ row_base col_base).acc sg) my_out c
      = kern.output args ops 0 (col_base + kern.sgCol sg + c) := by
  have hcblock : kern.sgCol sg + c / 8 * 8 + c % 8 = kern.sgCol sg + c := by omega
  have hsgRow : kern.sgRow sg = 0 := by simp [sgRow, hvec]
  have hsgCol : kern.sgCol sg = sg % 4 * 16 := by simp [sgCol, hvec]
  have hN64 : TILE_N = 64 := rfl
  -- the row is not looked at
  have hrows : ∀ row col, kern.output args ops row col = kern.output args ops 0 col := by
    intro row col
    simp [output, activation, hvec]
  rw [vecmatOut_apply _ _ hc, tileLoop_acc hfits ops σ, hrows]
  · simp only [hcblock, Nat.add_assoc]
  · simp only [hsgRow, HasRow, hvec]
    exact ⟨by simpa using hrow, by simp⟩
  · simp only [hcblock]
    omega
  · simp only [hcblock]
    omega

theorem loopEnds_of_fits (hfits : args.Fits) : loopEnds args = true := by
  simpa [loopEnds] using hfits.K_le

/-- **The stores of a tiled kernel**: the outputs of its tile, each with its sum. -/
theorem mem_writes_tiled (hfits : args.Fits) (hM : args.M < uintRange)
    (htiled : kern.vecmat = false) (ops : DequantOperands α) (σ : DequantSchedule kern α)
    {x y : ℕ} (hx : x * TILE_N < args.N) (hy : y * TILE_M < args.M) {w : ℕ × α} :
    w ∈ kern.writes args ops σ x y ↔ ∃ row col, row < args.M ∧ col < args.N ∧
      row / TILE_M = y ∧ col / TILE_N = x ∧
      w = (args.cIndex row col, kern.output args ops row col) := by
  unfold TILE_M at hy ⊢
  unfold TILE_N at hx ⊢
  have hN := hfits.N_lt
  have hrange : uintRange = 4294967296 := rfl
  have hrow : toUInt (y * TILE_M) = y * 64 := toUInt_of_lt (by unfold TILE_M; omega)
  have hcol : toUInt (x * TILE_N) = x * 64 := toUInt_of_lt (by unfold TILE_N; omega)
  have hsgRow : ∀ g, kern.sgRow g = g / 2 * 32 := fun g => by simp [sgRow, htiled]
  have hsgCol : ∀ g, kern.sgCol g = g % 2 * 32 := fun g => by simp [sgCol, htiled]
  have hunfold : kern.writes args ops σ x y = kern.tiledWrites args σ (y * 64) (x * 64)
      (kern.tileLoop args ops σ (y * 64) (x * 64)) := by
    simp [writes, loopEnds_of_fits hfits, htiled, hrow, hcol]
  rw [hunfold]
  unfold tiledWrites
  simp only [mem_flatMap, mem_range, mem_allStrides (show 0 < 32 by decide)]
  constructor
  · rintro ⟨sg, hsg, idx, hidx, hw⟩
    rw [toUInt_of_lt (show y * 64 + kern.sgRow sg + idx / 32 < uintRange by
        rw [hsgRow]; omega),
      toUInt_of_lt (show x * 64 + kern.sgCol sg + idx % 32 < uintRange by
        rw [hsgCol]; omega)] at hw
    split_ifs at hw with hin
    · obtain rfl := mem_singleton.mp hw
      refine ⟨_, _, hin.1, hin.2, ?_, ?_, ?_⟩
      · rw [hsgRow]
        omega
      · rw [hsgCol]
        omega
      · rw [tiledOut_output hfits hM htiled ops σ _ hsg (by omega) (by omega) hin.1 hin.2]
    · cases hw
  · rintro ⟨row, col, hrowM, hcolN, hrowy, hcolx, rfl⟩
    -- the SIMD group of the quadrant, and the place in its square
    refine ⟨row % 64 / 32 * 2 + col % 64 / 32, by omega, row % 32 * 32 + col % 32, by omega, ?_⟩
    have hr : y * 64 + kern.sgRow (row % 64 / 32 * 2 + col % 64 / 32)
        + (row % 32 * 32 + col % 32) / 32 = row := by
      rw [hsgRow]
      omega
    have hc : x * 64 + kern.sgCol (row % 64 / 32 * 2 + col % 64 / 32)
        + (row % 32 * 32 + col % 32) % 32 = col := by
      rw [hsgCol]
      omega
    rw [tiledOut_output hfits hM htiled ops σ _ (by omega) (by omega) (by omega) (by omega)
      (by omega), hr, hc, toUInt_of_lt (show row < uintRange by omega),
      toUInt_of_lt (show col < uintRange by omega), if_pos ⟨hrowM, hcolN⟩]
    exact mem_singleton_self _

/-- **The stores of a vector-matrix kernel**: the outputs of row 0, wherever the threadgroup is. -/
theorem mem_writes_vecmat (hfits : args.Fits) (hvec : kern.vecmat = true)
    (ops : DequantOperands α) (σ : DequantSchedule kern α) {x : ℕ} (hx : x * TILE_N < args.N)
    (y : ℕ) {w : ℕ × α} :
    w ∈ kern.writes args ops σ x y ↔ ∃ col < args.N, col / TILE_N = x ∧
      w = (col, kern.output args ops 0 col) := by
  unfold TILE_N at hx ⊢
  have hN := hfits.N_lt
  have hrange : uintRange = 4294967296 := rfl
  have hcol : toUInt (x * TILE_N) = x * 64 := toUInt_of_lt (by unfold TILE_N; omega)
  have hsgCol : ∀ g, kern.sgCol g = g % 4 * 16 := fun g => by simp [sgCol, hvec]
  have hrow : toUInt (y * TILE_M) < uintRange := toUInt_lt _
  have hunfold : kern.writes args ops σ x y = kern.vecmatWrites args σ (x * 64)
      (kern.tileLoop args ops σ (toUInt (y * TILE_M)) (x * 64)) := by
    simp [writes, loopEnds_of_fits hfits, hvec, hcol]
  rw [hunfold]
  unfold vecmatWrites
  simp only [mem_flatMap, mem_range, mem_allStrides (show 0 < 32 by decide)]
  constructor
  · rintro ⟨sg, hsg, i, hi, hw⟩
    rw [toUInt_of_lt (show x * 64 + kern.sgCol sg + i < uintRange by
      rw [hsgCol]; omega)] at hw
    split_ifs at hw with hin
    · obtain rfl := mem_singleton.mp hw
      refine ⟨_, hin, ?_, ?_⟩
      · rw [hsgCol]
        omega
      · rw [vecmatOut_output hfits hvec ops σ _ hsg hrow hi hin]
    · cases hw
  · rintro ⟨col, hcolN, hcolx, rfl⟩
    refine ⟨col % 64 / 16, by omega, col % 16, by omega, ?_⟩
    have hc : x * 64 + kern.sgCol (col % 64 / 16) + col % 16 = col := by
      rw [hsgCol]
      omega
    rw [vecmatOut_output hfits hvec ops σ _ (by omega) hrow (by omega) (by omega), hc,
      toUInt_of_lt (show col < uintRange by omega), if_pos hcolN]
    exact mem_singleton_self _

/-! ### The accesses -/

/-- The cells of a block inside a row-major array. -/
theorem lt_of_mem_blockCells {base stride size c : ℕ} (h : base + 7 * stride + 8 ≤ size)
    (hc : c ∈ blockCells base stride) : c < size := by
  simp only [blockCells, mem_flatMap, mem_map, mem_range] at hc
  obtain ⟨i, hi, j, hj, rfl⟩ := hc
  have hrow : i * stride ≤ 7 * stride := Nat.mul_le_mul_right stride (by omega)
  omega

theorem toUInt_le (n : ℕ) : toUInt n ≤ n := Nat.mod_le n uintRange

/-- The places that an iteration of an INT4 load stores to. -/
theorem int4Stores_places (args : DequantArgs) (ops : DequantOperands α) {col_base k_tile p : ℕ}
    {x : ℕ × α} (hx : x ∈ int4Stores args ops col_base k_tile p) :
    ∃ e < 2, x.1 = (p % 16 * 2 + e) * TILE_N + p / 16 := by
  unfold int4Stores TILE_K at hx
  simp only [Nat.reduceDiv] at hx
  by_cases hin : toUInt (col_base + p / 16) < args.N ∧ toUInt (k_tile + p % 16 * 2) < args.K
  · rw [if_pos hin] at hx
    rcases mem_cons.mp hx with rfl | hx
    · exact ⟨0, by decide, rfl⟩
    · split_ifs at hx
      · exact ⟨1, by decide, congrArg Prod.fst (mem_singleton.mp hx)⟩
      · cases hx
  · rw [if_neg hin] at hx
    rcases mem_append.mp hx with hx | hx
    · split_ifs at hx
      · exact ⟨0, by decide, congrArg Prod.fst (mem_singleton.mp hx)⟩
      · cases hx
    · split_ifs at hx
      · exact ⟨1, by decide, congrArg Prod.fst (mem_singleton.mp hx)⟩
      · cases hx

/-- The second load stores to cells of `shared_B`. -/
theorem bStores_lt (quant : QuantType) (args : DequantArgs) (ops : DequantOperands α)
    {col_base k_tile item : ℕ} (hitem : item < quant.bItems) {x : ℕ × α}
    (hx : x ∈ bStores quant args ops col_base k_tile item) : x.1 < TILE_K * TILE_N := by
  cases quant with
  | INT4 =>
    have hitem' : item < 1024 := hitem
    obtain ⟨e, he, hplace⟩ := int4Stores_places args ops hx
    rw [hplace]
    unfold TILE_K TILE_N
    omega
  | INT8 =>
    have hplace : x.1 = item / TILE_N * TILE_N + item % TILE_N := by
      simp only [bStores, int8Stores] at hx
      split_ifs at hx
      · rw [mem_singleton.mp hx]
      · rw [mem_singleton.mp hx]
    rw [hplace, Nat.div_add_mod']
    exact hitem

/-- The sizes of the buffers and the threadgroup memories are large enough for a tiled kernel. -/
structure Inside (kern : DequantKernel) (args : DequantArgs) (size : DequantMemory → ℕ) : Prop where
  lda : args.lda = args.K
  ldc : args.ldc = args.N
  A : args.M * args.K ≤ size .A
  B_packed : ∀ n < args.N, ∀ k < args.K, args.bIndex kern.quant n k < size .B_packed
  C : args.M * args.N ≤ size .C
  scales : ∀ n < args.N, ∀ k < args.K, args.groupIndex n k < size .scales
  zeros : ∀ n < args.N, ∀ k < args.K, args.groupIndex n k < size .zeros
  shared_A : TILE_M * TILE_K ≤ size .shared_A
  shared_B : TILE_K * TILE_N ≤ size .shared_B
  shared_out : 32 * 32 ≤ size .shared_out

/-- The accesses of a tile stay inside. -/
theorem tileAccesses_inside {size : DequantMemory → ℕ} (htiled : kern.vecmat = false)
    (hinside : kern.Inside args size) {row_base col_base k_tile : ℕ} {a : DequantMemory × ℕ}
    (ha : a ∈ kern.tileAccesses args row_base col_base k_tile) : a.2 < size a.1 := by
  have hA := hinside.shared_A
  have hB := hinside.shared_B
  unfold tileAccesses at ha
  rcases mem_append.mp ha with ha | ha
  · rcases mem_append.mp ha with ha | ha
    · -- the first load
      obtain ⟨idx, hidx, ha⟩ := mem_flatMap.mp ha
      rw [mem_allStrides (by decide)] at hidx
      simp only [aItems, htiled, Bool.false_eq_true, if_false] at hidx
      simp only [aAccesses, htiled, Bool.false_eq_true, if_false, aCell_eq, mem_cons] at ha
      rcases ha with rfl | ha
      · exact Nat.lt_of_lt_of_le hidx hA
      · split_ifs at ha with hin
        · obtain rfl := mem_singleton.mp ha
          show args.aIndex _ _ < size .A
          have hlt := rowMajor_lt hin.1 hin.2
          rw [← hinside.lda] at hlt
          refine Nat.lt_of_le_of_lt (toUInt_le _) (Nat.lt_of_lt_of_le hlt ?_)
          rw [hinside.lda]
          exact hinside.A
        · cases ha
    · -- the second load
      obtain ⟨item, hitem, ha⟩ := mem_flatMap.mp ha
      rw [mem_allStrides (by decide)] at hitem
      simp only [bAccesses] at ha
      rcases mem_append.mp ha with ha | ha
      · obtain ⟨x, hx, rfl⟩ := mem_map.mp ha
        exact Nat.lt_of_lt_of_le (bStores_lt _ args _ hitem hx) hB
      · split_ifs at ha with hin
        · rcases mem_cons.mp ha with rfl | ha
          · exact hinside.B_packed _ hin.1 _ hin.2
          · rcases mem_cons.mp ha with rfl | ha
            · exact hinside.scales _ hin.1 _ hin.2
            · obtain rfl := mem_singleton.mp ha
              exact hinside.zeros _ hin.1 _ hin.2
        · cases ha
  · -- the matrices
    obtain ⟨g, hg, ha⟩ := mem_flatMap.mp ha
    have hg' : g < 4 := mem_range.mp hg
    obtain ⟨k, hk, ha⟩ := mem_flatMap.mp ha
    obtain ⟨t, rfl, hkt⟩ := (mem_stride (by decide)).mp hk
    have hgRow : kern.sgRow g = g / 2 * 32 := by simp [sgRow, htiled]
    have hgCol : kern.sgCol g = g % 2 * 32 := by simp [sgCol, htiled]
    unfold TILE_M TILE_K at hA
    unfold TILE_K TILE_N at hB
    unfold TILE_K at hkt
    rcases mem_append.mp ha with ha | ha
    · obtain ⟨i, hi, ha⟩ := mem_flatMap.mp ha
      obtain ⟨c, hc, rfl⟩ := mem_map.mp ha
      have hi' : i < 4 := by simpa [blockRows, htiled] using mem_range.mp hi
      refine lt_of_mem_blockCells ?_ hc
      show kern.aBase g i (0 + t * 8) + 7 * TILE_K + 8 ≤ size .shared_A
      rw [aBase, hgRow]
      unfold TILE_K
      omega
    · obtain ⟨j, hj, ha⟩ := mem_flatMap.mp ha
      obtain ⟨c, hc, rfl⟩ := mem_map.mp ha
      have hj' : j < 4 := by simpa [blockCols, htiled] using mem_range.mp hj
      refine lt_of_mem_blockCells ?_ hc
      show kern.bBase g j (0 + t * 8) + 7 * TILE_N + 8 ≤ size .shared_B
      rw [bBase, hgCol]
      unfold TILE_N
      omega

/-- **Every access of a tiled kernel stays inside.** -/
theorem accesses_inside {size : DequantMemory → ℕ} (hfits : args.Fits) (hM : args.M < uintRange)
    (htiled : kern.vecmat = false) (hinside : kern.Inside args size) {x y : ℕ}
    (hx : x * TILE_N < args.N) (hy : y * TILE_M < args.M) {a : DequantMemory × ℕ}
    (ha : a ∈ kern.accesses args x y) : a.2 < size a.1 := by
  unfold accesses at ha
  rcases mem_append.mp ha with ha | ha
  · rcases mem_append.mp ha with ha | ha
    · obtain ⟨k_tile, -, ha⟩ := mem_flatMap.mp ha
      exact tileAccesses_inside htiled hinside ha
    · -- the exchange of the blocks
      obtain ⟨sg, hsg, ha⟩ := mem_flatMap.mp ha
      simp only [outAccesses, htiled, Bool.false_eq_true, if_false] at ha
      obtain ⟨c, hc, rfl⟩ := mem_map.mp ha
      have hout := hinside.shared_out
      rcases mem_append.mp hc with hc | hc
      · obtain ⟨o, ho, hc⟩ := mem_flatMap.mp hc
        obtain ⟨i, hi, j, hj, rfl⟩ := mem_blockGrid.mp ho
        exact lt_of_mem_blockCells (by simp only; omega) hc
      · obtain ⟨idx, hidx, rfl⟩ := mem_map.mp hc
        rw [mem_allStrides (by decide)] at hidx
        rw [Nat.div_add_mod']
        exact Nat.lt_of_lt_of_le hidx hout
  · obtain ⟨w, hw, rfl⟩ := mem_map.mp ha
    obtain ⟨row, col, hrow, hcol, -, -, rfl⟩ :=
      (mem_writes_tiled hfits hM htiled zeroOperands _ hx hy).mp hw
    have hlt := rowMajor_lt hrow hcol
    show args.cIndex row col < size .C
    refine Nat.lt_of_le_of_lt (toUInt_le _) (Nat.lt_of_lt_of_le ?_ hinside.C)
    rwa [hinside.ldc]

/-- **A vector-matrix kernel** loads rows behind the only one of `shared_A`. -/
theorem accesses_vecmat (hvec : kern.vecmat = true) (hK : 0 < args.K) (x y : ℕ) :
    (.shared_A, TILE_K) ∈ kern.accesses args x y := by
  have htile : 0 ∈ stride 0 TILE_K args.K := (mem_stride (by decide)).mpr ⟨0, rfl, hK⟩
  have hload : (DequantMemory.shared_A, TILE_K) ∈ kern.loadAccesses 0 := by
    have hrows : kern.blockRows = 1 := by simp [blockRows, hvec]
    have hbase : kern.aBase 0 0 0 = 0 := by simp [aBase, sgRow, hvec]
    refine mem_flatMap.mpr ⟨0, by decide, mem_append_left _ ?_⟩
    rw [hrows]
    refine mem_flatMap.mpr ⟨0, by decide, ?_⟩
    rw [hbase]
    decide
  refine mem_append_left _ (mem_append_left _ (mem_flatMap.mpr ⟨0, htile, ?_⟩))
  exact mem_append_right _ (mem_flatMap.mpr ⟨0, by decide, hload⟩)

end DequantKernel

end MetalNative
