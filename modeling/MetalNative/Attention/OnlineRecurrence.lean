import MetalNative.Attention.OnlineUpdate

namespace MetalNative

open ExtReal OnlineSoftmax List RowState FlashKernel

/-!
# The online softmax against the softmax of the row

The scores of a row are finite or minus infinity, `s`; the keys that a row has seen so far are a
list.

* `OnlineSoftmaxState.of` — the state for a list of keys; `foldl_update_of` — one key after the
  other leads to it.
* `RowState.Holds` — the state of a row for a list of keys; `RowState.Holds.serialTile` and
  `RowState.Holds.parallelTile` — a tile keeps it.
* `RowState.serialTile_of_bot`, `RowState.parallelTile_of_bot` — a first key, or a tile, without a
  finite score makes the sum a value that is not a number.
* `flash_row_output` — when the output is the softmax of the row times `V`.
-/

/-! ### The softmax state -/

namespace OnlineSoftmaxState

/-- The state for a list of keys. -/
noncomputable def of (s : ℕ → WithBot ℝ) (l : List ℕ) : OnlineSoftmaxState where
  max_val := ofBot (rowMax s l)
  sum_exp := real (expSum s (fun _ => 1) l (rowMax s l))

end OnlineSoftmaxState

variable {s : ℕ → WithBot ℝ}

/-- **One more key.** -/
theorem update_of {l : List ℕ} {k : ℕ} (h : rowMax s (l ++ [k]) ≠ ⊥) :
    updateOnlineSoftmax (.of s l) (ofBot (s k)) = .of s (l ++ [k]) := by
  have hmax : max (ofBot (rowMax s l)) (ofBot (s k)) = ofBot (rowMax s (l ++ [k])) := by
    rw [max_ofBot, rowMax_append, rowMax_singleton]
  have hle : rowMax s l ≤ rowMax s (l ++ [k]) := by
    rw [rowMax_append]
    exact le_sup_left
  simp only [updateOnlineSoftmax, OnlineSoftmaxState.of, hmax]
  rw [rescale_eq s _ l hle h, exp_sub_ofBot h, real_add, expSum_append, expSum_singleton, mul_one]

/-- A key without a finite score, where there was none before. -/
theorem update_of_bot {l : List ℕ} {k : ℕ} (h : rowMax s (l ++ [k]) = ⊥) :
    (updateOnlineSoftmax (.of s l) (ofBot (s k))).sum_exp = nan := by
  rw [rowMax_append, rowMax_singleton, sup_eq_bot_iff] at h
  simp only [updateOnlineSoftmax, OnlineSoftmaxState.of, h.1, h.2, max_ofBot, sup_idem,
    exp_bot_sub_bot, add_nan]

/-- A sum that is not a number stays so. -/
theorem update_of_nan {state : OnlineSoftmaxState} (h : state.sum_exp = nan) (score : ExtReal) :
    (updateOnlineSoftmax state score).sum_exp = nan := by
  simp [updateOnlineSoftmax, h]

/-- **One key after the other.** -/
theorem foldl_update_of (keys : List ℕ) {l : List ℕ} (h : rowMax s l ≠ ⊥) :
    keys.foldl (fun state k => updateOnlineSoftmax state (ofBot (s k))) (.of s l)
      = .of s (l ++ keys) := by
  induction keys generalizing l with
  | nil => rw [foldl_nil, append_nil]
  | cons k keys ih =>
    have hk : rowMax s (l ++ [k]) ≠ ⊥ := by
      rw [rowMax_append]
      exact ne_bot_of_le_ne_bot h le_sup_left
    rw [foldl_cons, update_of hk, ih hk, append_assoc, singleton_append]

theorem foldl_update_of_nan (keys : List ℕ) {state : OnlineSoftmaxState}
    (h : state.sum_exp = nan) (score : ℕ → ExtReal) :
    (keys.foldl (fun state k => updateOnlineSoftmax state (score k)) state).sum_exp = nan := by
  induction keys generalizing state with
  | nil => exact h
  | cons k keys ih => exact ih (update_of_nan h (score k))

/-! ### The state of a row -/

namespace RowState

/-- The state of a row that has seen the keys of a list. -/
structure Holds (s : ℕ → WithBot ℝ) (V : ℕ → ℕ → ℝ) (l : List ℕ) (st : RowState) : Prop where
  softmax : st.softmax = .of s l
  acc : ∀ d, st.acc d = real (expSum s (fun k => V k d) l (rowMax s l))

/-- The keys of the tile that starts at `start`. -/
def tileKeys (start n : ℕ) : List ℕ := (List.range n).map (start + ·)

theorem holds_init (s : ℕ → WithBot ℝ) (V : ℕ → ℕ → ℝ) : Holds s V [] init where
  softmax := by simp [init, OnlineSoftmaxState.of]
  acc := by simp [init]

variable {V : ℕ → ℕ → ℝ} {l : List ℕ} {st : RowState}

/-- The accumulator for the new maximum: rescaled, or the maximum has not changed. -/
theorem rescaled_eq {M : WithBot ℝ} (hst : Holds s V l st) (hle : rowMax s l ≤ M) (hM : M ≠ ⊥)
    (d : ℕ) :
    rescaled st.acc (ofBot (rowMax s l)) (ofBot M) (exp (ofBot (rowMax s l) - ofBot M)) d
      = real (expSum s (fun k => V k d) l M) := by
  unfold rescaled
  rw [hst.acc d, ofBot_lt]
  by_cases hlt : rowMax s l < M
  · rw [if_pos hlt, rescale_eq s _ l hle hM]
  · rw [if_neg hlt, eq_of_le_of_not_lt hle hlt]

variable {tile_size n start : ℕ}

/-- **The weights of the tile times its values.** -/
theorem accumulate_eq {M : WithBot ℝ} (hM : M ≠ ⊥) (hn : n ≤ tile_size)
    {acc : ℕ → ExtReal} {weights : ℕ → ExtReal} {d : ℕ}
    (hacc : acc d = real (expSum s (fun k => V k d) l M))
    (hweights : ∀ col < n, weights col = exp (ofBot (s (start + col)) - ofBot M)) :
    accumulate tile_size n acc weights (fun col d => V (start + col) d) d
      = real (expSum s (fun k => V k d) (l ++ tileKeys start n) M) := by
  have hterm : ∀ col, (if col < n then weights col else real 0)
        * (if col < n then real (V (start + col) d) else real 0)
      = real (if col < n then weight (s (start + col)) M * V (start + col) d else 0) := by
    intro col
    by_cases hcol : col < n
    · simp only [hcol, if_true]
      rw [hweights col hcol, exp_sub_ofBot hM, real_mul]
    · simp [hcol]
  -- the columns behind the last key add nothing
  have hsum : ∑ col ∈ Finset.range tile_size,
        (if col < n then weight (s (start + col)) M * V (start + col) d else 0)
      = expSum s (fun k => V k d) (tileKeys start n) M := by
    rw [← Finset.sum_subset (Finset.range_mono hn)]
    · rw [expSum, tileKeys, map_map]
      apply Finset.sum_congr rfl
      intro col hcol
      rw [if_pos (Finset.mem_range.mp hcol)]
      simp
    · intro col _ hout
      exact if_neg (by simpa using hout)
  unfold accumulate
  rw [hacc]
  simp only [hterm]
  rw [sum_real, hsum, real_add, expSum_append]

/-! ### A tile, one score after the other -/

/-- **A tile of the serial kernels** keeps the state, when there was a finite score before or the
first key of the row has one. -/
theorem Holds.serialTile (hst : Holds s V l st) (hn : n ≤ tile_size)
    (hfinite : rowMax s l ≠ ⊥ ∨ l = [] ∧ 0 < n ∧ s start ≠ ⊥) :
    Holds s V (l ++ tileKeys start n)
      (st.serialTile tile_size n (fun col => ofBot (s (start + col)))
        fun col d => V (start + col) d) := by
  have hfold : (range n).foldl
        (fun state k_local => updateOnlineSoftmax state (ofBot (s (start + k_local)))) st.softmax
      = .of s (l ++ tileKeys start n) := by
    have hmap : (range n).foldl
          (fun state k_local => updateOnlineSoftmax state (ofBot (s (start + k_local)))) (.of s l)
        = (tileKeys start n).foldl (fun state k => updateOnlineSoftmax state (ofBot (s k)))
            (.of s l) := by rw [tileKeys, foldl_map]
    rw [hst.softmax, hmap]
    rcases hfinite with hl | ⟨rfl, hpos, hs⟩
    · exact foldl_update_of _ hl
    · obtain ⟨m, rfl⟩ := Nat.exists_eq_succ_of_ne_zero (by omega : n ≠ 0)
      have hone : rowMax s ([] ++ [start]) ≠ ⊥ := by
        rw [nil_append, rowMax_singleton]
        exact hs
      have hcons : tileKeys start (m + 1) = start :: (range m).map (start + ·.succ) := by
        rw [tileKeys, range_succ_eq_map, map_cons, map_map, Nat.add_zero]
        rfl
      rw [hcons, foldl_cons, update_of hone]
      exact foldl_update_of _ hone
  have hM : rowMax s (l ++ tileKeys start n) ≠ ⊥ := by
    rw [rowMax_append]
    rcases hfinite with hl | ⟨rfl, hpos, hs⟩
    · exact ne_bot_of_le_ne_bot hl le_sup_left
    · have hmem : start ∈ tileKeys start n :=
        mem_map.mpr ⟨0, mem_range.mpr hpos, Nat.add_zero start⟩
      exact ne_bot_of_le_ne_bot hs (le_trans (le_rowMax s hmem) le_sup_right)
  have hle : rowMax s l ≤ rowMax s (l ++ tileKeys start n) := by
    rw [rowMax_append]
    exact le_sup_left
  have hmax : st.softmax.max_val = ofBot (rowMax s l) := by
    rw [hst.softmax]
    rfl
  unfold RowState.serialTile
  simp only [hfold, hmax]
  refine ⟨rfl, ?_⟩
  intro d
  exact accumulate_eq hM hn (rescaled_eq hst hle hM d) fun _ _ => rfl

variable {tile_size n : ℕ}

/-- The first tile of a row whose first key has no finite score. -/
theorem serialTile_of_bot (hst : Holds s V [] st) (hpos : 0 < n)
    (hs : s 0 = ⊥) (W : ℕ → ℕ → ℝ) :
    (st.serialTile tile_size n (fun col => ofBot (s (0 + col))) W).softmax.sum_exp = nan := by
  obtain ⟨m, rfl⟩ := Nat.exists_eq_succ_of_ne_zero (by omega : n ≠ 0)
  have hbot : rowMax s ([] ++ [0 + 0]) = ⊥ := by
    rw [nil_append, rowMax_singleton]
    exact hs
  simp only [serialTile, range_succ_eq_map, foldl_cons, hst.softmax]
  exact foldl_update_of_nan _ (update_of_bot hbot) _

theorem serialTile_of_nan (h : st.softmax.sum_exp = nan)
    (score : ℕ → ExtReal) (W : ℕ → ℕ → ℝ) :
    (st.serialTile tile_size n score W).softmax.sum_exp = nan :=
  foldl_update_of_nan _ h score

/-! ### A tile, reduced over the lanes -/

theorem simdMax_ofBot (f : ℕ → WithBot ℝ) :
    simdMax (fun lane => ofBot (f lane)) = ofBot (rowMax f (range 32)) := by
  have hfold : ∀ lanes : List ℕ,
      (lanes.map fun lane => ofBot (f lane)).foldr max negInf = ofBot (rowMax f lanes) := by
    intro lanes
    induction lanes with
    | nil => simp
    | cons lane lanes ih => rw [map_cons, foldr_cons, ih, max_ofBot, rowMax_cons]
  exact hfold _

/-- The scores of the lanes. -/
def laneScore (s : ℕ → WithBot ℝ) (start n lane : ℕ) : WithBot ℝ :=
  if lane < n then s (start + lane) else ⊥

theorem rowMax_laneScore {start n : ℕ} (hn : n ≤ 32) :
    rowMax (laneScore s start n) (range 32) = rowMax s (tileKeys start n) := by
  obtain ⟨m, hm⟩ := Nat.exists_eq_add_of_le hn
  have hin : rowMax (laneScore s start n) (range n) = rowMax s (tileKeys start n) := by
    unfold rowMax tileKeys
    rw [map_map]
    congr 1
    apply map_congr_left
    intro lane hlane
    exact if_pos (mem_range.mp hlane)
  have hout : rowMax (laneScore s start n) ((range m).map (n + ·)) = ⊥ := by
    rw [rowMax_eq_bot]
    intro lane hlane
    obtain ⟨j, -, rfl⟩ := mem_map.mp hlane
    exact if_neg (by omega)
  rw [hm, range_add, rowMax_append, hin, hout, sup_bot_eq]

/-- `tile_max`. -/
theorem simdMax_tile {start n : ℕ} (hn : n ≤ 32) :
    simdMax (fun lane => if lane < n then ofBot (s (start + lane)) else negInf)
      = ofBot (rowMax s (tileKeys start n)) := by
  rw [← rowMax_laneScore hn, ← simdMax_ofBot]
  congr 1
  ext lane
  unfold laneScore
  by_cases hlane : lane < n
  · simp [hlane]
  · simp [hlane]

/-- `tile_sum` of a tile with a finite score. -/
theorem simdSum_tile {start n : ℕ} (hn : n ≤ 32) {M : WithBot ℝ} (hM : M ≠ ⊥) :
    simdSum (fun lane => if lane < n then
        exp ((if lane < n then ofBot (s (start + lane)) else negInf) - ofBot M) else real 0)
      = real (expSum s (fun _ => 1) (tileKeys start n) M) := by
  have hterm : ∀ lane, (if lane < n then
        exp ((if lane < n then ofBot (s (start + lane)) else negInf) - ofBot M) else real 0)
      = real (if lane < n then weight (s (start + lane)) M else 0) := by
    intro lane
    by_cases hlane : lane < n
    · simp only [hlane, if_true]
      exact exp_sub_ofBot hM
    · simp [hlane]
  unfold simdSum
  simp only [hterm]
  rw [sum_real, ← Finset.sum_subset (Finset.range_mono hn), expSum, tileKeys, map_map]
  · congr 1
    apply Finset.sum_congr rfl
    intro lane hlane
    rw [if_pos (Finset.mem_range.mp hlane)]
    simp
  · intro lane _ hout
    exact if_neg (by simpa using hout)

/-- **A tile of the parallel kernels** keeps the state when it has a finite score. -/
theorem Holds.parallelTile (hst : Holds s V l st) (hn : n ≤ tile_size)
    (hlanes : tile_size ≤ 32) (hfinite : rowMax s (tileKeys start n) ≠ ⊥) :
    Holds s V (l ++ tileKeys start n)
      (st.parallelTile tile_size n (fun col => ofBot (s (start + col)))
        fun col d => V (start + col) d) := by
  have hM : rowMax s (l ++ tileKeys start n) ≠ ⊥ := by
    rw [rowMax_append]
    exact ne_bot_of_le_ne_bot hfinite le_sup_right
  have hle : rowMax s l ≤ rowMax s (l ++ tileKeys start n) := by
    rw [rowMax_append]
    exact le_sup_left
  have hle' : rowMax s (tileKeys start n) ≤ rowMax s (l ++ tileKeys start n) := by
    rw [rowMax_append]
    exact le_sup_right
  have hmax : st.softmax.max_val = ofBot (rowMax s l) := by
    rw [hst.softmax]
    rfl
  have hsum : st.softmax.sum_exp = real (expSum s (fun _ => 1) l (rowMax s l)) := by
    rw [hst.softmax]
    rfl
  have hnew : max (ofBot (rowMax s l)) (ofBot (rowMax s (tileKeys start n)))
      = ofBot (rowMax s (l ++ tileKeys start n)) := by rw [max_ofBot, rowMax_append]
  unfold RowState.parallelTile
  simp only [simdMax_tile (le_trans hn hlanes), simdSum_tile (le_trans hn hlanes) hfinite, hmax,
    hsum, hnew]
  refine ⟨?_, ?_⟩
  · rw [rescale_eq s _ l hle hM, rescale_eq s _ _ hle' hM, real_add, ← expSum_append]
    rfl
  · intro d
    apply accumulate_eq hM hn (rescaled_eq hst hle hM d)
    intro col hcol
    rw [if_pos hcol]

/-- A tile without a finite score. -/
theorem parallelTile_of_bot (hpos : 0 < n) (hn : n ≤ 32)
    (hbot : rowMax s (tileKeys start n) = ⊥) (st : RowState) (W : ℕ → ℕ → ℝ) :
    (st.parallelTile tile_size n (fun col => ofBot (s (start + col))) W).softmax.sum_exp
      = nan := by
  have hfirst : s (start + 0) = ⊥ :=
    rowMax_eq_bot.mp hbot _ (mem_map.mpr ⟨0, mem_range.mpr hpos, rfl⟩)
  have hnan : simdSum (fun lane => if lane < n then
      exp ((if lane < n then ofBot (s (start + lane)) else negInf) - ofBot ⊥) else real 0)
      = nan := by
    have hmem : (0 : ℕ) ∈ Finset.range 32 := by simp
    apply sum_eq_nan hmem
    simp only [hpos, if_true]
    rw [hfirst, exp_bot_sub_bot]
  simp only [parallelTile, simdMax_tile hn, hbot, hnan, nan_mul, add_nan]

theorem parallelTile_of_nan (h : st.softmax.sum_exp = nan)
    (score : ℕ → ExtReal) (W : ℕ → ℕ → ℝ) :
    (st.parallelTile tile_size n score W).softmax.sum_exp = nan := by
  simp [parallelTile, h]

end RowState

/-! ### All tiles -/

namespace FlashKernel

/-- What a row has to be for the recurrence: the sum of the tile and the row does not wrap around,
and there is a finite score where the first maximum is taken: at the first key, or in every tile. -/
def Regular (kernel : FlashKernel) (seq_len_k : ℕ) (s : ℕ → WithBot ℝ) : Prop :=
  seq_len_k + kernel.tileSize ≤ uintRange ∧
    if kernel.reducesOverLanes then
      ∀ t, t * kernel.tileSize < seq_len_k → ∃ col < kernel.tileSize,
        t * kernel.tileSize + col < seq_len_k ∧ s (t * kernel.tileSize + col) ≠ ⊥
    else s 0 ≠ ⊥

theorem tileSize_pos (kernel : FlashKernel) : 0 < kernel.tileSize := by
  rcases kernel.tileSize_cases with h | h <;> omega

theorem tileSize_le (kernel : FlashKernel) : kernel.tileSize ≤ 32 := by
  rcases kernel.tileSize_cases with h | h <;> omega

variable (kernel : FlashKernel) {n t : ℕ}

theorem kTileSize_le (k_start : ℕ) : kernel.kTileSize n k_start ≤ kernel.tileSize := by
  unfold kTileSize
  omega

theorem kTileSize_pos (h : t * kernel.tileSize < n) :
    0 < kernel.kTileSize n (t * kernel.tileSize) := by
  have := kernel.tileSize_pos
  unfold kTileSize
  omega

/-- The keys before a tile and those of the tile. -/
theorem range_append_tileKeys (h : t * kernel.tileSize ≤ n) :
    range (min (t * kernel.tileSize) n)
        ++ tileKeys (t * kernel.tileSize) (kernel.kTileSize n (t * kernel.tileSize))
      = range (min ((t + 1) * kernel.tileSize) n) := by
  have hmin : min (t * kernel.tileSize) n = t * kernel.tileSize := min_eq_left h
  have hnext : min ((t + 1) * kernel.tileSize) n
      = t * kernel.tileSize + kernel.kTileSize n (t * kernel.tileSize) := by
    unfold kTileSize
    rw [Nat.add_one_mul]
    omega
  rw [hmin, hnext, range_add, tileKeys]

/-- The tiles cover the row when nothing wraps around. -/
theorem numKTiles_spec (h : n + kernel.tileSize ≤ uintRange) :
    (∀ t, t < kernel.numKTiles n ↔ t * kernel.tileSize < n)
      ∧ min (kernel.numKTiles n * kernel.tileSize) n = n := by
  have hpos := kernel.tileSize_pos
  have hword : toUInt (n + kernel.tileSize - 1) = n + kernel.tileSize - 1 :=
    toUInt_of_lt (by omega)
  have hiff : ∀ t, t < kernel.numKTiles n ↔ t * kernel.tileSize < n := by
    intro t
    rw [numKTiles, hword, Nat.lt_iff_add_one_le, Nat.le_div_iff_mul_le hpos, Nat.add_one_mul]
    omega
  refine ⟨hiff, ?_⟩
  have hlast := (hiff (kernel.numKTiles n)).not.mp (lt_irrefl _)
  omega

/-- No tile at all when the sum wraps around. -/
theorem numKTiles_of_wrap (hn : n < uintRange) (h : ¬ n + kernel.tileSize ≤ uintRange) :
    kernel.numKTiles n = 0 := by
  have hpos := kernel.tileSize_pos
  have hle := kernel.tileSize_le
  have hmod : toUInt (n + kernel.tileSize - 1) = n + kernel.tileSize - 1 - uintRange := by
    rw [toUInt, Nat.mod_eq_sub_mod (by omega), Nat.mod_eq_of_lt]
    have : 32 < uintRange := by decide
    omega
  rw [numKTiles, hmod]
  exact Nat.div_eq_of_lt (by omega)

variable {kernel} {s : ℕ → WithBot ℝ} {V : ℕ → ℕ → ℝ}

theorem rowRun_succ (score : ℕ → ExtReal) (t : ℕ) :
    kernel.rowRun n score V (t + 1)
      = kernel.tileStep n score V (kernel.rowRun n score V t) t := by
  rw [rowRun, range_succ, foldl_append]
  rfl

/-- **The state after some tiles** of a regular row. -/
theorem holds_rowRun (hreg : kernel.Regular n s) :
    ∀ t, (∀ i < t, i * kernel.tileSize < n) →
      Holds s V (range (min (t * kernel.tileSize) n))
        (kernel.rowRun n (fun k => ofBot (s k)) V t) := by
  intro t
  induction t with
  | zero =>
    intro _
    rw [Nat.zero_mul, Nat.zero_min]
    exact holds_init s V
  | succ t ih =>
    intro htiles
    have hin := htiles t (Nat.lt_succ_self t)
    have hst := ih fun i hi => htiles i (by omega)
    rw [rowRun_succ, ← kernel.range_append_tileKeys hin.le, tileStep]
    by_cases hlanes : kernel.reducesOverLanes = true
    · -- the tile has a finite score
      rw [if_pos hlanes]
      apply hst.parallelTile (kernel.kTileSize_le _) kernel.tileSize_le
      have hall := hreg.2
      rw [if_pos hlanes] at hall
      obtain ⟨col, hcol, hlt, hs⟩ := hall t hin
      have hmem : t * kernel.tileSize + col ∈ tileKeys (t * kernel.tileSize)
          (kernel.kTileSize n (t * kernel.tileSize)) := by
        refine mem_map.mpr ⟨col, mem_range.mpr ?_, rfl⟩
        unfold kTileSize
        omega
      exact ne_bot_of_le_ne_bot hs (le_rowMax s hmem)
    · -- the row has had one since its first key
      rw [if_neg hlanes]
      have hfirst := hreg.2
      rw [if_neg hlanes] at hfirst
      apply hst.serialTile (kernel.kTileSize_le _)
      by_cases ht : t = 0
      · right
        subst ht
        refine ⟨?_, kernel.kTileSize_pos hin, ?_⟩
        · rw [Nat.zero_mul, Nat.zero_min, range_zero]
        · rw [Nat.zero_mul]
          exact hfirst
      · left
        have hmul : 0 < t * kernel.tileSize :=
          Nat.mul_pos (by omega) kernel.tileSize_pos
        have hmem : 0 ∈ range (min (t * kernel.tileSize) n) := by
          rw [mem_range]
          omega
        exact ne_bot_of_le_ne_bot hfirst (le_rowMax s hmem)

/-- A sum that is not a number stays so. -/
theorem tileStep_of_nan {st : RowState} (h : st.softmax.sum_exp = nan) (score : ℕ → ExtReal)
    (t : ℕ) : (kernel.tileStep n score V st t).softmax.sum_exp = nan := by
  unfold tileStep
  by_cases hlanes : kernel.reducesOverLanes = true
  · rw [if_pos hlanes]
    exact parallelTile_of_nan h _ _
  · rw [if_neg hlanes]
    exact serialTile_of_nan h _ _

theorem rowRun_of_nan (score : ℕ → ExtReal) {t : ℕ}
    (h : (kernel.rowRun n score V t).softmax.sum_exp = nan) :
    ∀ t' ≥ t, (kernel.rowRun n score V t').softmax.sum_exp = nan := by
  intro t' ht
  induction t', ht using Nat.le_induction with
  | base => exact h
  | succ t' _ ih =>
    rw [rowRun_succ]
    exact tileStep_of_nan ih score t'

/-- **A row that is not regular** ends with a sum that is not a number, unless the loop over the
tiles has no turn. -/
theorem rowRun_of_not_regular (hfit : n + kernel.tileSize ≤ uintRange) (hpos : 0 < n)
    (hreg : ¬ kernel.Regular n s) :
    (kernel.rowRun n (fun k => ofBot (s k)) V (kernel.numKTiles n)).softmax.sum_exp = nan := by
  obtain ⟨hiff, -⟩ := kernel.numKTiles_spec hfit
  rw [Regular, not_and] at hreg
  have hbad := hreg hfit
  by_cases hlanes : kernel.reducesOverLanes = true
  · rw [if_pos hlanes] at hbad
    push Not at hbad
    obtain ⟨t, ht, hbot⟩ := hbad
    apply rowRun_of_nan (t := t + 1)
    · rw [rowRun_succ, tileStep, if_pos hlanes]
      apply parallelTile_of_bot (kernel.kTileSize_pos ht)
        (le_trans (kernel.kTileSize_le _) kernel.tileSize_le)
      rw [rowMax_eq_bot]
      intro k hk
      obtain ⟨col, hcol, rfl⟩ := mem_map.mp hk
      have hlt := mem_range.mp hcol
      unfold kTileSize at hlt
      exact hbot col (by omega) (by omega)
    · exact (hiff t).mpr ht
  · rw [if_neg hlanes, not_not] at hbad
    apply rowRun_of_nan (t := 0 + 1)
    · have hfirst : 0 * kernel.tileSize < n := by omega
      rw [rowRun_succ, tileStep, if_neg hlanes, Nat.zero_mul]
      exact serialTile_of_bot (holds_init s V)
        (by simpa using kernel.kTileSize_pos hfirst) hbad _
    · exact (hiff 0).mpr (by omega)

end FlashKernel

/-- **The output of a row.** For every row with a finite score the kernels compute the values
weighted by the softmax of the row exactly when the row is regular. -/
theorem flash_row_output (kernel : FlashKernel) {seq_len_k : ℕ} (hlen : seq_len_k < uintRange)
    (s : ℕ → WithBot ℝ) (V : ℕ → ℕ → ℝ) (hfinite : ∃ k < seq_len_k, s k ≠ ⊥) (d : ℕ) :
    kernel.rowOutput seq_len_k (fun k => ofBot (s k)) V d
        = real (((List.range seq_len_k).map fun k =>
            rowSoftmax s (List.range seq_len_k) k * V k d).sum)
      ↔ kernel.Regular seq_len_k s := by
  obtain ⟨k, hk, hs⟩ := hfinite
  have hrow : rowMax s (range seq_len_k) ≠ ⊥ :=
    ne_bot_of_le_ne_bot hs (le_rowMax s (mem_range.mpr hk))
  constructor
  · intro hout
    by_contra hreg
    by_cases hfit : seq_len_k + kernel.tileSize ≤ uintRange
    · rw [rowOutput, rowRun_of_not_regular hfit (by omega) hreg,
        div_nan] at hout
      cases hout
    · -- no tile: zero divided by zero
      rw [rowOutput, kernel.numKTiles_of_wrap hlen hfit] at hout
      have hzero : (real 0 : ExtReal) / real 0 = nan := by
        show (if (0 : ℝ) = 0 then signedInf 0 else _) = nan
        rw [if_pos rfl, signedInf, if_pos rfl]
      rw [show (kernel.rowRun seq_len_k (fun k => ofBot (s k)) V 0) = init from rfl,
        init, hzero] at hout
      cases hout
  · intro hreg
    obtain ⟨hiff, hall⟩ := kernel.numKTiles_spec hreg.1
    have hst := holds_rowRun hreg (kernel.numKTiles seq_len_k)
      (fun i hi => (hiff i).mp hi) (V := V)
    rw [hall] at hst
    have hsum := one_le_expSum hrow
    rw [rowOutput, hst.acc d, hst.softmax, OnlineSoftmaxState.of,
      real_div (by linarith), sum_rowSoftmax_mul s (fun k => V k d)]

/-- A row whose first key is masked is not computed, although its second one is not. -/
theorem flash_row_output_fails :
    ∃ s : ℕ → WithBot ℝ, s 1 ≠ ⊥ ∧
      FlashKernel.simdKernel.rowOutput 2 (fun k => ofBot (s k)) (fun _ _ => 1) 0
        ≠ real (((List.range 2).map fun k => rowSoftmax s (List.range 2) k * 1).sum) := by
  refine ⟨fun k => if k = 0 then ⊥ else 0, by simp, ?_⟩
  have hreg : ¬ simdKernel.Regular 2 fun k => if k = 0 then ⊥ else 0 := by
    simp [Regular, reducesOverLanes]
  rw [rowOutput,
    rowRun_of_not_regular (by decide) (by decide) hreg, div_nan]
  intro h
  cases h

/-- A row of 18 keys, the last one masked, in a kernel that reduces a tile over the lanes. -/
theorem flash_row_output_masked_tail :
    ∃ s : ℕ → WithBot ℝ, s 17 = ⊥ ∧
      FlashKernel.largeFp32.rowOutput 18 (fun k => ofBot (s k)) (fun k _ => k) 0
        = real (((List.range 18).map fun k => rowSoftmax s (List.range 18) k * (k : ℝ)).sum) := by
  refine ⟨fun k => if k = 17 then ⊥ else 0, by simp, ?_⟩
  apply (flash_row_output .largeFp32 (by decide) _ (fun k _ => (k : ℝ)) ⟨0, by decide, by simp⟩
    0).mpr
  refine ⟨by decide, ?_⟩
  rw [if_pos (by decide)]
  have hsize : largeFp32.tileSize = 16 := by decide
  rw [hsize]
  intro t ht
  refine ⟨0, by decide, by omega, ?_⟩
  show (if t * 16 + 0 = 17 then ⊥ else 0) ≠ (⊥ : WithBot ℝ)
  rw [if_neg (by omega)]
  simp

end MetalNative
