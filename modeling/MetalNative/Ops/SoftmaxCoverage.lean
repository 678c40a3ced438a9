import MetalNative.Ops.Softmax

namespace MetalNative

open ExtReal OnlineSoftmax ThreadLoop List SoftmaxRun

/-!
# The rows that softmax covers

Which elements of the output the threads of a launch write, and what.

* `onlineStats_eq`, `onlineVec4Stats_eq` — the maximum and the sum of the kernels with one thread
  for a row; those of the large kernels are in `globalStats_eq`.
* `SoftmaxRun.Covers` — a launch whose threads go through every element of every row;
  `SoftmaxRun.Covers.computes` — then the softmax is written.
* `SoftmaxRun.not_computes` — an element that no thread writes.
* `softmax_covers` — the calls for which the softmax is computed.
-/

/-! ### The maximum and the sum of a row -/

section stats

variable {s : ℕ → WithBot ℝ}

theorem runningMax_ofBot (s : ℕ → WithBot ℝ) (l : List ℕ) :
    runningMax (fun i => ofBot (s i)) l = ofBot (rowMax s l) := by
  have hloop : ∀ m : WithBot ℝ,
      l.foldl (fun max_val i => max max_val (ofBot (s i))) (ofBot m) = ofBot (m ⊔ rowMax s l) := by
    induction l with
    | nil => simp
    | cons i l ih =>
      intro m
      rw [foldl_cons, max_ofBot, ih, rowMax_cons, sup_assoc]
  have hbot := hloop ⊥
  rw [bot_sup_eq] at hbot
  exact hbot

theorem runningSum_ofBot {m : WithBot ℝ} (hm : m ≠ ⊥) (l : List ℕ) :
    runningSum (fun i => ofBot (s i)) (ofBot m) l = real (expSum s (fun _ => 1) l m) := by
  have hloop : ∀ a : ℝ, l.foldl (fun sum_exp i => sum_exp + exp (ofBot (s i) - ofBot m)) (real a)
      = real (a + expSum s (fun _ => 1) l m) := by
    induction l with
    | nil => simp
    | cons i l ih =>
      intro a
      rw [foldl_cons, exp_sub_ofBot hm, real_add, ih]
      congr 1
      simp only [expSum, map_cons, sum_cons]
      ring
  have hzero := hloop 0
  rw [zero_add] at hzero
  exact hzero

/-- **One thread for a row.** -/
theorem onlineStats_eq {n : ℕ} (h : rowMax s (range n) ≠ ⊥) :
    onlineStats (fun i => ofBot (s i)) n = stats s (range n) := by
  simp only [onlineStats, runningMax_ofBot, runningSum_ofBot h, stats]

/-- The elements with one remainder, of all vectors. -/
theorem rowMax_vectors (s : ℕ → WithBot ℝ) (m : ℕ) :
    (rowMax (fun i => s (4 * i + 0)) (range m) ⊔ rowMax (fun i => s (4 * i + 1))
      (range m))
        ⊔ (rowMax (fun i => s (4 * i + 2)) (range m)
          ⊔ rowMax (fun i => s (4 * i + 3)) (range m))
      = rowMax s (range (4 * m)) := by
  induction m with
  | zero => simp
  | succ m ih =>
    have hfour : range (4 * (m + 1))
        = range (4 * m) ++ [4 * m + 0, 4 * m + 1, 4 * m + 2, 4 * m + 3] := by
      rw [Nat.mul_succ, range_add]
      rfl
    rw [hfour, rowMax_append, ← ih]
    simp only [range_succ, rowMax_append, rowMax_cons, rowMax_nil, sup_bot_eq]
    ac_rfl

/-- **One thread for a row**, with vectors of four elements. -/
theorem onlineVec4Stats_eq {n : ℕ} (hvec : n % 4 = 0) (h : rowMax s (range n) ≠ ⊥) :
    onlineVec4Stats (fun i => ofBot (s i)) n = stats s (range n) := by
  have hn : 4 * (n / 4) = n := by omega
  have hmax : max (max (runningMax (fun i => ofBot (s (4 * i + 0))) (range (n / 4)))
        (runningMax (fun i => ofBot (s (4 * i + 1))) (range (n / 4))))
      (max (runningMax (fun i => ofBot (s (4 * i + 2))) (range (n / 4)))
        (runningMax (fun i => ofBot (s (4 * i + 3))) (range (n / 4))))
      = ofBot (rowMax s (range n)) := by
    rw [runningMax_ofBot fun i => s (4 * i + 0), runningMax_ofBot fun i => s (4 * i + 1),
      runningMax_ofBot fun i => s (4 * i + 2), runningMax_ofBot fun i => s (4 * i + 3)]
    simp only [max_ofBot]
    rw [rowMax_vectors s (n / 4), hn]
  have hsum : ∀ m : ℕ, (range m).foldl (fun sum_exp i => sum_exp
        + (exp (ofBot (s (4 * i + 0)) - ofBot (rowMax s (range n)))
          + exp (ofBot (s (4 * i + 1)) - ofBot (rowMax s (range n)))
          + exp (ofBot (s (4 * i + 2)) - ofBot (rowMax s (range n)))
          + exp (ofBot (s (4 * i + 3)) - ofBot (rowMax s (range n))))) (real 0)
      = real (expSum s (fun _ => 1) (range (4 * m)) (rowMax s (range n))) := by
    intro m
    induction m with
    | zero => simp
    | succ m ih =>
      have hfour : range (4 * (m + 1))
          = range (4 * m) ++ [4 * m + 0, 4 * m + 1, 4 * m + 2, 4 * m + 3] := by
        rw [Nat.mul_succ, range_add]
        rfl
      rw [range_succ, foldl_append, ih, hfour, expSum_append]
      simp only [foldl_cons, foldl_nil, exp_sub_ofBot h, real_add, expSum,
        map_cons, map_nil, sum_cons, sum_nil, mul_one]
      congr 1
      ring
  simp only [onlineVec4Stats, hmax]
  rw [hsum, hn, stats]

end stats

/-! ### A launch that covers its rows -/

namespace SoftmaxRun

/-- Every element of the output is written, and each time with the softmax of its row. -/
def Computes (run : SoftmaxRun) (x : ℕ → ℝ) : Prop :=
  ∀ o < run.sizes.outer_size, ∀ r < run.sizes.reduce_size, ∀ i < run.sizes.inner_size,
    (∃ v, ((o * run.sizes.reduce_size + r) * run.sizes.inner_size + i, v) ∈ run.writes x) ∧
    ∀ v, ((o * run.sizes.reduce_size + r) * run.sizes.inner_size + i, v) ∈ run.writes x →
      ∃ M, IsRowMax (run.sizes.row x o i) run.sizes.reduce_size M ∧
        v = real (Real.exp (run.sizes.row x o i r - M)
          / ∑ r' ∈ Finset.range run.sizes.reduce_size, Real.exp (run.sizes.row x o i r' - M))

/-- The threads go through every element of every row, at its index, and the maximum and the sum
are those of the row as it is read. -/
structure Covers (run : SoftmaxRun) (x : ℕ → ℝ) : Prop where
  rows : ∀ p : ℕ × ℕ, p ∈ run.rows ↔ p.1 < run.sizes.outer_size ∧ p.2 < run.sizes.inner_size
  elements : ∀ p ∈ run.rows, ∀ r, r ∈ run.elements p ↔ r < run.sizes.reduce_size
  address : ∀ p ∈ run.rows, ∀ r < run.sizes.reduce_size,
    run.address p r = (p.1 * run.sizes.reduce_size + r) * run.sizes.inner_size + p.2
  stats : ∀ p ∈ run.rows, run.rowStats x p
    = stats (fun r => (x (run.address p r) : WithBot ℝ)) (List.range run.sizes.reduce_size)

variable {run : SoftmaxRun}

theorem mem_writes {x : ℕ → ℝ} {idx : ℕ} {v : ExtReal} :
    (idx, v) ∈ run.writes x ↔ ∃ p ∈ run.rows, ∃ r ∈ run.elements p,
      run.address p r = idx ∧ normalized (run.rowStats x p) (run.inputRow x p) r = v := by
  simp only [writes, mem_flatMap, mem_map, Prod.mk.injEq]

/-- **The softmax is written.** -/
theorem Covers.computes {x : ℕ → ℝ} (hrun : run.Covers x) : run.Computes x := by
  intro o ho r hr i hi
  have hmem : (o, i) ∈ run.rows := (hrun.rows (o, i)).mpr ⟨ho, hi⟩
  refine ⟨⟨_, mem_writes.mpr ⟨(o, i), hmem, r, (hrun.elements _ hmem r).mpr hr,
    hrun.address _ hmem r hr, rfl⟩⟩, ?_⟩
  intro v hv
  obtain ⟨p, hp, r', hr', haddr, hv⟩ := mem_writes.mp hv
  have hlt := (hrun.elements p hp r').mp hr'
  have hin := (hrun.rows p).mp hp
  rw [hrun.address p hp r' hlt] at haddr
  obtain ⟨ho', rfl, hi'⟩ := run.sizes.index_inj hlt hin.2 hr hi haddr
  obtain rfl : p = (o, i) := Prod.ext ho' hi'
  -- the row as it is read is the row of the input
  have hrow : ∀ k < run.sizes.reduce_size, x (run.address (o, i) k) = run.sizes.row x o i k :=
    fun k hk => congrArg x (hrun.address _ hp k hk)
  obtain ⟨M, ⟨⟨k, hk, hM⟩, hle⟩, hstats⟩ :=
    stats_range (fun k => x (run.address (o, i) k)) (n := run.sizes.reduce_size) (by omega)
  have hsum : ∑ k ∈ Finset.range run.sizes.reduce_size,
        Real.exp (x (run.address (o, i) k) - M)
      = ∑ k ∈ Finset.range run.sizes.reduce_size, Real.exp (run.sizes.row x o i k - M) := by
    apply Finset.sum_congr rfl
    intro k hk
    rw [hrow k (Finset.mem_range.mp hk)]
  have hpos : (∑ k ∈ Finset.range run.sizes.reduce_size,
      Real.exp (run.sizes.row x o i k - M)) ≠ 0 := by
    apply ne_of_gt
    apply Finset.sum_pos
    · intro k _
      exact Real.exp_pos _
    · exact ⟨r', Finset.mem_range.mpr hr⟩
  refine ⟨M, ⟨⟨k, hk, (hrow k hk).symm.trans hM⟩, ?_⟩, ?_⟩
  · intro k hk
    rw [← hrow k hk]
    exact hle k hk
  · rw [← hv, hrun.stats _ hp, hstats, hsum]
    simp only [normalized, inputRow]
    rw [real_div hpos, real_sub, exp_real, real_mul, mul_one_div, hrow r' hr]

/-- **An element that no thread writes.** -/
theorem not_computes {x : ℕ → ℝ} {o r i : ℕ} (ho : o < run.sizes.outer_size)
    (hr : r < run.sizes.reduce_size) (hi : i < run.sizes.inner_size)
    (hnot : ∀ p ∈ run.rows, ∀ r' ∈ run.elements p,
      run.address p r' ≠ (o * run.sizes.reduce_size + r) * run.sizes.inner_size + i) :
    ¬ run.Computes x := by
  intro hcomputes
  obtain ⟨v, hv⟩ := (hcomputes o ho r hr i hi).1
  obtain ⟨p, hp, r', hr', haddr, -⟩ := mem_writes.mp hv
  exact hnot p hp r' hr' haddr

/-! ### The rows of the launches -/

/-- The rows of a kernel with a thread for each row, in a grid of two dimensions. -/
theorem mem_rows_grid
    (h : run.kernel.family = .online ∨ run.kernel.family = .simdCooperative) (p : ℕ × ℕ) :
    p ∈ run.rows ↔ (p.1 < run.gridY ∧ p.2 < run.gridX)
      ∧ p.1 < run.sizes.outer_size ∧ p.2 < run.sizes.inner_size := by
  have hrows : run.rows = (range run.gridY).flatMap fun y =>
      (range run.gridX).flatMap fun x =>
        if x ≥ run.sizes.inner_size ∨ y ≥ run.sizes.outer_size then [] else [(y, x)] := by
    rcases h with h | h
    · simp only [rows, h]
    · simp only [rows, h]
  rw [hrows]
  simp only [mem_flatMap, mem_range]
  constructor
  · rintro ⟨y, hy, x, hx, hmem⟩
    by_cases hout : x ≥ run.sizes.inner_size ∨ y ≥ run.sizes.outer_size
    · rw [if_pos hout] at hmem
      simp at hmem
    · rw [if_neg hout, mem_singleton] at hmem
      subst hmem
      omega
  · rintro ⟨⟨hy, hx⟩, ho, hi⟩
    refine ⟨p.1, hy, p.2, hx, ?_⟩
    rw [if_neg (by omega)]
    simp

/-- The rows of a kernel with a thread for each row, in a grid of one dimension. -/
theorem mem_rows_line
    (h : run.kernel.family = .onlineVec4 ∨ run.kernel.family = .simdCooperativeVec4)
    (hgrid : run.gridX = run.sizes.outer_size) (p : ℕ × ℕ) :
    p ∈ run.rows ↔ p.1 < run.sizes.outer_size ∧ p.2 < 1 := by
  have hrows : run.rows = (range run.sizes.outer_size).flatMap fun gid =>
      if gid ≥ run.sizes.outer_size then [] else [(gid, 0)] := by
    rcases h with h | h
    · simp only [rows, h, hgrid]
    · simp only [rows, h, hgrid]
  rw [hrows, flatMap_range_below]
  simp only [mem_map, mem_range, min_self]
  constructor
  · rintro ⟨gid, hgid, rfl⟩
    exact ⟨hgid, Nat.one_pos⟩
  · rintro ⟨ho, hi⟩
    exact ⟨p.1, ho, Prod.ext rfl (by omega)⟩

/-- The rows of a kernel with a threadgroup for each row. -/
theorem mem_rows_large {num_outputs : ℕ} (h : run.kernel.family = .large)
    (hnum : toUInt (run.sizes.outer_size * run.sizes.inner_size) = num_outputs)
    (hgrid : run.gridX / run.groupX = num_outputs) (p : ℕ × ℕ) :
    p ∈ run.rows ↔ ∃ tg_idx < num_outputs,
      (tg_idx / run.sizes.inner_size, tg_idx % run.sizes.inner_size) = p := by
  have hrows : run.rows = (range num_outputs).flatMap fun tg_idx =>
      if tg_idx ≥ num_outputs then []
      else [(tg_idx / run.sizes.inner_size, tg_idx % run.sizes.inner_size)] := by
    simp only [rows, h, hnum, hgrid]
  rw [hrows, flatMap_range_below]
  simp only [mem_map, mem_range, min_self]

theorem mem_rows_largeVec4 (h : run.kernel.family = .largeVec4)
    (hgrid : run.gridX / run.groupX = run.sizes.outer_size) (p : ℕ × ℕ) :
    p ∈ run.rows ↔ p.1 < run.sizes.outer_size ∧ p.2 < 1 := by
  have hrows : run.rows = (range run.sizes.outer_size).flatMap fun tg_idx =>
      if tg_idx ≥ run.sizes.outer_size then [] else [(tg_idx, 0)] := by
    simp only [rows, h, hgrid]
  rw [hrows, flatMap_range_below]
  simp only [mem_map, mem_range, min_self]
  constructor
  · rintro ⟨tg_idx, htg, rfl⟩
    exact ⟨htg, Nat.one_pos⟩
  · rintro ⟨ho, hi⟩
    exact ⟨p.1, ho, Prod.ext rfl (by omega)⟩

/-! ### The launches that cover their rows -/

/-- The indices of a scalar kernel do not wrap around. -/
theorem address_of_le (hscalar : run.isVec4 = false)
    (hfit : run.sizes.outer_size * run.sizes.reduce_size * run.sizes.inner_size ≤ uintRange)
    {p : ℕ × ℕ} (hp : p.1 < run.sizes.outer_size ∧ p.2 < run.sizes.inner_size) {r : ℕ}
    (hr : r < run.sizes.reduce_size) :
    run.address p r = (p.1 * run.sizes.reduce_size + r) * run.sizes.inner_size + p.2 := by
  rw [address, hscalar, if_neg (by decide)]
  exact toUInt_of_lt (lt_of_lt_of_le (run.sizes.index_lt hp.1 hr hp.2) hfit)

/-- The start of the last row does not wrap around in a vector kernel. -/
theorem address_vec4_of_lt (hvec : run.isVec4 = true)
    (hinner : run.sizes.inner_size = 1)
    (hfit : (run.sizes.outer_size - 1) * run.sizes.reduce_size < uintRange) {p : ℕ × ℕ}
    (hp : p.1 < run.sizes.outer_size ∧ p.2 < 1) (r : ℕ) :
    run.address p r = (p.1 * run.sizes.reduce_size + r) * run.sizes.inner_size + p.2 := by
  have hle : p.1 * run.sizes.reduce_size ≤ (run.sizes.outer_size - 1) * run.sizes.reduce_size :=
    Nat.mul_le_mul_right _ (by omega)
  rw [address, hvec, if_pos rfl, toUInt_of_lt (by omega), hinner]
  omega

/-- A finite row has a largest element. -/
theorem rowMax_coe_ne_bot (y : ℕ → ℝ) {n : ℕ} (hn : 0 < n) :
    rowMax (fun r => (y r : WithBot ℝ)) (range n) ≠ ⊥ := fun h =>
  WithBot.coe_ne_bot (rowMax_eq_bot.mp h 0 (mem_range.mpr hn))

theorem covers_online (hfamily : run.kernel.family = .online)
    (hgridX : run.sizes.inner_size ≤ run.gridX) (hgridY : run.sizes.outer_size ≤ run.gridY)
    (hreduce : 1 ≤ run.sizes.reduce_size)
    (hfit : run.sizes.outer_size * run.sizes.reduce_size * run.sizes.inner_size ≤ uintRange)
    (x : ℕ → ℝ) : run.Covers x where
  rows := by
    intro p
    rw [mem_rows_grid (Or.inl hfamily)]
    omega
  elements := by
    intro p _ r
    simp only [elements, hfamily, mem_range]
  address := by
    intro p hp r hr
    have hscalar : run.isVec4 = false := by simp only [isVec4, hfamily]
    exact address_of_le hscalar hfit ((mem_rows_grid (Or.inl hfamily) p).mp hp).2 hr
  stats := by
    intro p _
    simp only [rowStats, hfamily]
    exact onlineStats_eq (rowMax_coe_ne_bot (fun r => x (run.address p r)) hreduce)

theorem covers_onlineVec4 (hfamily : run.kernel.family = .onlineVec4)
    (hgrid : run.gridX = run.sizes.outer_size) (hinner : run.sizes.inner_size = 1)
    (hreduce : 1 ≤ run.sizes.reduce_size) (hvec : run.sizes.reduce_size % 4 = 0)
    (hfit : (run.sizes.outer_size - 1) * run.sizes.reduce_size < uintRange) (x : ℕ → ℝ) :
    run.Covers x where
  rows := by
    intro p
    rw [mem_rows_line (Or.inl hfamily) hgrid, hinner]
  elements := by
    intro p _ r
    have hn : 4 * (run.sizes.reduce_size / 4) = run.sizes.reduce_size := by omega
    simp only [elements, hfamily, flatMap_vecElements, hn, mem_range]
  address := by
    intro p hp r _
    have hvec4 : run.isVec4 = true := by simp only [isVec4, hfamily]
    exact address_vec4_of_lt hvec4 hinner hfit ((mem_rows_line (Or.inl hfamily) hgrid p).mp hp) r
  stats := by
    intro p _
    simp only [rowStats, hfamily]
    exact onlineVec4Stats_eq hvec (rowMax_coe_ne_bot (fun r => x (run.address p r)) hreduce)

/-- The elements of the threads of a large kernel. -/
theorem mem_elements_large
    (hfamily : run.kernel.family = .large ∨ run.kernel.family = .largeVec4)
    (hvec : run.isVec4 = true → run.sizes.reduce_size % 4 = 0) (p : ℕ × ℕ) (r : ℕ) :
    r ∈ run.elements p ↔ r < run.sizes.reduce_size := by
  have hmem := (largeElements_perm hvec).mem_iff (a := r)
  rw [mem_range] at hmem
  rw [← hmem]
  rcases hfamily with h | h
  · simp only [elements, h]
  · simp only [elements, h]

theorem rowStats_large
    (hfamily : run.kernel.family = .large ∨ run.kernel.family = .largeVec4)
    (hlong : 2048 ≤ run.sizes.reduce_size)
    (hvec : run.isVec4 = true → run.sizes.reduce_size % 4 = 0) (x : ℕ → ℝ) (p : ℕ × ℕ) :
    run.rowStats x p
      = OnlineSoftmax.stats (fun r => (x (run.address p r) : WithBot ℝ))
        (range run.sizes.reduce_size) := by
  have hglobal := globalStats_eq (fun r => WithBot.coe_ne_bot (a := x (run.address p r)))
    (fun tid => largeElements_ne_nil hlong) (largeElements_perm hvec)
  rcases hfamily with h | h
  · simp only [rowStats, h]
    exact hglobal
  · simp only [rowStats, h]
    exact hglobal

theorem covers_large (hfamily : run.kernel.family = .large)
    (hgrid : run.gridX / run.groupX = run.sizes.outer_size * run.sizes.inner_size)
    (hlong : 2048 ≤ run.sizes.reduce_size)
    (hfit : run.sizes.outer_size * run.sizes.reduce_size * run.sizes.inner_size ≤ uintRange)
    (x : ℕ → ℝ) : run.Covers x := by
  have hscalar : run.isVec4 = false := by simp only [isVec4, hfamily]
  have hnum : toUInt (run.sizes.outer_size * run.sizes.inner_size)
      = run.sizes.outer_size * run.sizes.inner_size := by
    apply toUInt_of_lt
    have hle := Nat.mul_le_mul_right (run.sizes.outer_size * run.sizes.inner_size) hlong
    have hcomm : run.sizes.reduce_size * (run.sizes.outer_size * run.sizes.inner_size)
        = run.sizes.outer_size * run.sizes.reduce_size * run.sizes.inner_size := by ring
    unfold uintRange at hfit ⊢
    omega
  have hrows : ∀ p : ℕ × ℕ, p ∈ run.rows
      ↔ p.1 < run.sizes.outer_size ∧ p.2 < run.sizes.inner_size := by
    intro p
    rw [mem_rows_large hfamily hnum hgrid]
    constructor
    · rintro ⟨tg_idx, htg, rfl⟩
      have hinner : 0 < run.sizes.inner_size := by
        by_contra hzero
        rw [Nat.eq_zero_of_not_pos hzero, Nat.mul_zero] at htg
        omega
      exact ⟨(Nat.div_lt_iff_lt_mul hinner).mpr htg, Nat.mod_lt _ hinner⟩
    · rintro ⟨ho, hi⟩
      have hpos : 0 < run.sizes.inner_size := by omega
      refine ⟨run.sizes.inner_size * p.1 + p.2, ?_, ?_⟩
      · have := Nat.mul_le_mul_right run.sizes.inner_size (Nat.succ_le_of_lt ho)
        rw [Nat.succ_mul, Nat.mul_comm p.1] at this
        omega
      · rw [Nat.mul_add_div hpos, Nat.div_eq_of_lt hi, Nat.mul_add_mod, Nat.mod_eq_of_lt hi,
          Nat.add_zero]
  have hvec : run.isVec4 = true → run.sizes.reduce_size % 4 = 0 := by
    rw [hscalar]
    simp
  exact
    { rows := hrows
      elements := fun p _ => mem_elements_large (Or.inl hfamily) hvec p
      address := fun p hp r hr => address_of_le hscalar hfit ((hrows p).mp hp) hr
      stats := fun p _ => rowStats_large (Or.inl hfamily) hlong hvec x p }

theorem covers_largeVec4 (hfamily : run.kernel.family = .largeVec4)
    (hgrid : run.gridX / run.groupX = run.sizes.outer_size) (hinner : run.sizes.inner_size = 1)
    (hlong : 2048 ≤ run.sizes.reduce_size) (hvec : run.sizes.reduce_size % 4 = 0)
    (hfit : (run.sizes.outer_size - 1) * run.sizes.reduce_size < uintRange) (x : ℕ → ℝ) :
    run.Covers x where
  rows := by
    intro p
    rw [mem_rows_largeVec4 hfamily hgrid, hinner]
  elements := fun p _ => mem_elements_large (Or.inr hfamily) (fun _ => hvec) p
  address := by
    intro p hp r _
    have hvec4 : run.isVec4 = true := by simp only [isVec4, hfamily]
    exact address_vec4_of_lt hvec4 hinner hfit ((mem_rows_largeVec4 hfamily hgrid p).mp hp) r
  stats := fun p _ => rowStats_large (Or.inr hfamily) hlong (fun _ => hvec) x p

/-! ### The elements that are not written -/

/-- A scalar kernel does not reach an index behind the words. -/
theorem not_computes_of_wrap (hscalar : run.isVec4 = false)
    (ho : 0 < run.sizes.outer_size) (hr : 0 < run.sizes.reduce_size)
    (hi : 0 < run.sizes.inner_size)
    (hwrap : uintRange < run.sizes.outer_size * run.sizes.reduce_size * run.sizes.inner_size)
    (x : ℕ → ℝ) : ¬ run.Computes x := by
  apply not_computes (o := run.sizes.outer_size - 1) (r := run.sizes.reduce_size - 1)
    (i := run.sizes.inner_size - 1) (by omega) (by omega) (by omega)
  intro p _ r _
  have hidx := run.sizes.index_last ho hr hi
  have hlt : run.address p r < uintRange := by
    rw [address, hscalar, if_neg (by decide)]
    exact toUInt_lt _
  omega

/-- A vector kernel does not reach the end of a row whose start is behind the words. -/
theorem not_computes_vec4_of_wrap (hvec : run.isVec4 = true)
    (hinner : run.sizes.inner_size = 1) (hr : 0 < run.sizes.reduce_size)
    (helements : ∀ p ∈ run.rows, ∀ r ∈ run.elements p, r < run.sizes.reduce_size)
    (hwrap : uintRange ≤ (run.sizes.outer_size - 1) * run.sizes.reduce_size) (x : ℕ → ℝ) :
    ¬ run.Computes x := by
  have ho : 0 < run.sizes.outer_size := by
    by_contra hzero
    have : run.sizes.outer_size = 0 := by omega
    rw [this, Nat.zero_sub, Nat.zero_mul] at hwrap
    exact absurd hwrap (by decide)
  apply not_computes (o := run.sizes.outer_size - 1) (r := run.sizes.reduce_size - 1) (i := 0)
    (by omega) (by omega) (by omega)
  intro p hp r hr'
  have hlt := helements p hp r hr'
  have hstart : toUInt (p.1 * run.sizes.reduce_size) < uintRange := toUInt_lt _
  rw [address, hvec, if_pos rfl, hinner]
  omega

/-- A grid of one row of threads does not reach the second row of the input. -/
theorem not_computes_of_gridY (hfamily : run.kernel.family = .online)
    (hgridY : run.gridY = 1) (ho : 1 < run.sizes.outer_size) (hr : 0 < run.sizes.reduce_size)
    (hi : 0 < run.sizes.inner_size) (x : ℕ → ℝ) : ¬ run.Computes x := by
  apply not_computes (o := 1) (r := 0) (i := 0) ho hr hi
  intro p hp r hr'
  obtain ⟨⟨hy, -⟩, -, hx⟩ := (mem_rows_grid (Or.inl hfamily) p).mp hp
  have hzero : p.1 = 0 := by omega
  have hlt : r < run.sizes.reduce_size := by
    simpa only [elements, hfamily, mem_range] using hr'
  have hscalar : run.isVec4 = false := by simp only [isVec4, hfamily]
  have hrow := Nat.mul_le_mul_right run.sizes.inner_size (Nat.succ_le_of_lt hlt)
  rw [Nat.succ_mul] at hrow
  have hle : run.address p r ≤ (0 * run.sizes.reduce_size + r) * run.sizes.inner_size + p.2 := by
    rw [address, hscalar, if_neg (by decide), hzero]
    exact Nat.mod_le _ _
  rw [Nat.zero_mul, Nat.zero_add] at hle
  simp only [Nat.one_mul, Nat.add_zero]
  omega

/-- In a SIMD-cooperative kernel each row has one thread, which takes every 32nd element. -/
theorem not_computes_cooperative
    (hfamily : run.kernel.family = .simdCooperative) (ho : 0 < run.sizes.outer_size)
    (hr : 32 ≤ run.sizes.reduce_size) (hi : 0 < run.sizes.inner_size) (x : ℕ → ℝ) :
    ¬ run.Computes x := by
  have hscalar : run.isVec4 = false := by simp only [isVec4, hfamily]
  by_cases hfit :
      run.sizes.outer_size * run.sizes.reduce_size * run.sizes.inner_size ≤ uintRange
  · apply not_computes (o := 0) (r := 1) (i := 0) ho (by omega) hi
    intro p hp r hr' haddr
    obtain ⟨-, hin⟩ := (mem_rows_grid (Or.inr hfamily) p).mp hp
    simp only [elements, hfamily, laneElements, position, hscalar, Bool.false_eq_true,
      if_false] at hr'
    obtain ⟨hlane, hlt⟩ := (mem_stride_iff_mod (Nat.mod_lt _ (by decide))).mp hr'
    rw [address_of_le hscalar hfit hin hlt] at haddr
    obtain ⟨-, rfl, hzero⟩ := run.sizes.index_inj hlt hin.2 (by omega) hi haddr
    rw [hzero] at hlane
    omega
  · exact not_computes_of_wrap hscalar ho (by omega) hi (by omega) x

theorem not_computes_cooperativeVec4
    (hfamily : run.kernel.family = .simdCooperativeVec4)
    (hgrid : run.gridX = run.sizes.outer_size) (ho : 0 < run.sizes.outer_size)
    (hr : 128 ≤ run.sizes.reduce_size) (hinner : run.sizes.inner_size = 1) (x : ℕ → ℝ) :
    ¬ run.Computes x := by
  have hvec : run.isVec4 = true := by simp only [isVec4, hfamily]
  -- the vector of an element belongs to the lane of the thread
  have helements : ∀ p : ℕ × ℕ, ∀ r ∈ run.elements p,
      r < run.sizes.reduce_size ∧ r / 4 % 32 = p.1 % 32 := by
    intro p r hr'
    simp only [elements, hfamily, laneElements, position, hvec, if_true, mem_flatMap] at hr'
    obtain ⟨i, hi, hmem⟩ := hr'
    obtain ⟨hlane, hlt⟩ := (mem_stride_iff_mod (Nat.mod_lt _ (by decide))).mp hi
    obtain ⟨j, hj, rfl⟩ := mem_map.mp hmem
    have := mem_range.mp hj
    omega
  by_cases hfit : (run.sizes.outer_size - 1) * run.sizes.reduce_size < uintRange
  · apply not_computes (o := 0) (r := 4) (i := 0) ho (by omega) (by omega)
    intro p hp r hr' haddr
    have hin := (mem_rows_line (Or.inr hfamily) hgrid p).mp hp
    obtain ⟨hlt, hlane⟩ := helements p r hr'
    rw [address_vec4_of_lt hvec hinner hfit hin] at haddr
    obtain ⟨hzero, rfl, -⟩ := run.sizes.index_inj hlt (by omega) (by omega) (by omega) haddr
    rw [hzero] at hlane
    omega
  · exact not_computes_vec4_of_wrap hvec hinner (by omega)
      (fun p _ r hr' => (helements p r hr').1) (by omega) x

end SoftmaxRun

/-! ### The calls -/

/-- The launch of a kernel ends and computes the softmax. -/
def SoftmaxRun.Succeeds (run : SoftmaxRun) (x : ℕ → ℝ) : Prop :=
  (∃ enough, ∀ fuel ≥ enough, run.ended fuel = true) ∧ run.Computes x

/-- What a call is to do: it selects a kernel, whose launch ends and computes the softmax. -/
def SoftmaxComputes (input : MNTensor ℝ) (dim : ℤ) : Prop :=
  ∃ run, softmax input dim = .ok run ∧ run.Succeeds input.data

/-- The sizes that the kernels for `Float32` and `Float16` cover. -/
def FloatCovered (sizes : ReductionSizes) : Prop :=
  if useVec4 sizes then
    (128 ≤ sizes.reduce_size → useLarge sizes)
      ∧ (sizes.outer_size - 1) * sizes.reduce_size < uintRange
  else
    (32 ≤ sizes.reduce_size → useLarge sizes)
      ∧ sizes.outer_size * sizes.reduce_size * sizes.inner_size ≤ uintRange
      ∧ (useLarge sizes → sizes.reduce_size + 256 ≤ uintRange)

/-- The sizes that the kernel for `BFloat16` covers: in a grid that is meant for another kernel it
only sees the first row. -/
def BFloat16Covered (sizes : ReductionSizes) : Prop :=
  (useLarge sizes ∨ useVec4 sizes → sizes.outer_size = 1)
    ∧ sizes.outer_size * sizes.reduce_size * sizes.inner_size ≤ uintRange

/-- The calls for which a kernel is selected and covers the output. -/
def SoftmaxSupported (dtype : MNDType) (sizes : ReductionSizes) : Prop :=
  ¬ (dtype = .BFloat16 ∧ useVec4 sizes ∧ 128 ≤ sizes.reduce_size ∧ ¬ useLarge sizes) ∧
  (sizes.outer_size = 0 ∨ sizes.inner_size = 0 ∨
    if dtype = .BFloat16 then BFloat16Covered sizes else FloatCovered sizes)

/-- The family of the kernel for `Float32` and `Float16`. -/
def floatFamily (sizes : ReductionSizes) : SoftmaxFamily :=
  if useLarge sizes && useVec4 sizes then .largeVec4
  else if useLarge sizes then .large
  else if useVec4 sizes && sizes.reduce_size ≥ 128 then .simdCooperativeVec4
  else if useVec4 sizes then .onlineVec4
  else if sizes.reduce_size ≥ 32 then .simdCooperative
  else .online

theorem softmaxKernel_float {dtype : MNDType} (hdtype : dtype = .Float32 ∨ dtype = .Float16)
    (sizes : ReductionSizes) :
    ∃ kernel, softmaxKernel dtype sizes = .ok kernel ∧ kernel.family = floatFamily sizes := by
  unfold softmaxKernel floatFamily
  rcases hdtype with rfl | rfl
  · split_ifs <;> exact ⟨_, rfl, rfl⟩
  · split_ifs <;> exact ⟨_, rfl, rfl⟩

theorem softmaxKernel_bf16 (sizes : ReductionSizes) :
    (∃ kernel, softmaxKernel .BFloat16 sizes = .ok kernel)
        ↔ ¬ (useVec4 sizes ∧ 128 ≤ sizes.reduce_size ∧ ¬ useLarge sizes) := by
  unfold softmaxKernel dtypeKernel
  by_cases hlarge : useLarge sizes = true
  · by_cases hvec : useVec4 sizes = true
    · simp [hlarge, hvec]
    · simp [hlarge, hvec]
  · by_cases hvec : useVec4 sizes = true
    · by_cases hlong : 128 ≤ sizes.reduce_size
      · simp [hlarge, hvec, hlong]
      · simp [hlarge, hvec, hlong]
    · simp only [hlarge, hvec]
      by_cases hlong : 32 ≤ sizes.reduce_size
      · simp [hlong]
      · simp [hlong]

variable {sizes : ReductionSizes}

theorem softmaxKernel_bf16_eq {kernel : SoftmaxKernel}
    (h : softmaxKernel .BFloat16 sizes = .ok kernel) : kernel.family = .online := by
  unfold softmaxKernel dtypeKernel at h
  split_ifs at h
  all_goals
    obtain rfl := Except.ok.inj h
    rfl

/-- The loops of a kernel that is not a large one end. -/
theorem SoftmaxRun.ended_of_not_large {run : SoftmaxRun}
    (h : run.kernel.family ≠ .large ∧ run.kernel.family ≠ .largeVec4) (fuel : ℕ) :
    run.ended fuel = true := by
  unfold ended
  cases hfamily : run.kernel.family
  case large => exact absurd hfamily h.1
  case largeVec4 => exact absurd hfamily h.2
  all_goals simp

/-- The loops of a large kernel end when nothing wraps around. -/
theorem SoftmaxRun.ended_of_fits {run : SoftmaxRun} (hn : run.sizes.reduce_size < uintRange)
    (h : run.isVec4 = true ∨ run.sizes.reduce_size + 256 ≤ uintRange) :
    ∃ enough, ∀ fuel ≥ enough, run.ended fuel = true := by
  refine ⟨run.sizes.reduce_size + 1, ?_⟩
  intro fuel hfuel
  have hall : (range 256).all (fun tid =>
      (threadElements run.isVec4 run.sizes.reduce_size fuel tid).isSome) = true := by
    rw [all_eq_true]
    intro tid htid
    rw [threadElements_eq hn h (mem_range.mp htid) hfuel]
    rfl
  unfold ended
  cases run.kernel.family <;> simp only [hall, Bool.or_true]

section launches

variable {sizes : ReductionSizes} {kernel : SoftmaxKernel}

/-- A threadgroup for each row. -/
theorem succeeds_large (hfamily : kernel.family = .large) (houter : 0 < sizes.outer_size)
    (hinner : 0 < sizes.inner_size) (hlong : 2048 ≤ sizes.reduce_size)
    (hfit : sizes.reduce_size < uintRange) (x : ℕ → ℝ) :
    Succeeds ⟨kernel, sizes, toUInt (sizes.outer_size * sizes.inner_size) * 256, 1,
      256⟩ x
      ↔ sizes.outer_size * sizes.reduce_size * sizes.inner_size ≤ uintRange
        ∧ sizes.reduce_size + 256 ≤ uintRange := by
  have hscalar : ∀ gridX, isVec4 ⟨kernel, sizes, gridX, 1, 256⟩ = false := by
    intro gridX
    simp only [isVec4, hfamily]
  constructor
  · rintro ⟨⟨enough, henough⟩, hcomputes⟩
    refine ⟨?_, ?_⟩
    · by_contra hwrap
      exact absurd hcomputes (not_computes_of_wrap (hscalar _) houter
        (lt_of_lt_of_le (by decide) hlong) hinner (not_le.mp hwrap) x)
    · by_contra hwrap
      have hended := henough enough (le_refl _)
      simp only [ended, hfamily, Bool.or_eq_true] at hended
      rcases hended with hempty | hall
      · -- no threadgroup at all
        obtain ⟨v, hv⟩ :=
          (hcomputes 0 houter 0 (lt_of_lt_of_le (by decide) hlong) 0 hinner).1
        obtain ⟨p, hp, -⟩ := mem_writes.mp hv
        rw [List.isEmpty_iff] at hempty
        rw [hempty] at hp
        simp at hp
      · have hzero := all_eq_true.mp hall 0 (by simp)
        rw [hscalar, threadElements_none hwrap] at hzero
        simp at hzero
  · rintro ⟨htotal, hloop⟩
    have hnum : sizes.outer_size * sizes.inner_size < uintRange := by
      have hle := Nat.mul_le_mul_right (sizes.outer_size * sizes.inner_size) hlong
      have hcomm : sizes.reduce_size * (sizes.outer_size * sizes.inner_size)
          = sizes.outer_size * sizes.reduce_size * sizes.inner_size := by ring
      unfold uintRange at htotal ⊢
      omega
    have hgrid : toUInt (sizes.outer_size * sizes.inner_size) * 256 / 256
        = sizes.outer_size * sizes.inner_size := by
      rw [Nat.mul_div_cancel _ (by decide), toUInt_of_lt hnum]
    exact ⟨ended_of_fits hfit (Or.inr hloop),
      (covers_large hfamily hgrid hlong htotal x).computes⟩

/-- A threadgroup for each row, with vectors of four elements. -/
theorem succeeds_largeVec4 (hfamily : kernel.family = .largeVec4) (hinner : sizes.inner_size = 1)
    (hvec : sizes.reduce_size % 4 = 0) (hlong : 2048 ≤ sizes.reduce_size)
    (hfit : sizes.outer_size < uintRange ∧ sizes.reduce_size < uintRange) (x : ℕ → ℝ) :
    Succeeds ⟨kernel, sizes, toUInt (sizes.outer_size * sizes.inner_size) * 256, 1,
      256⟩ x
      ↔ (sizes.outer_size - 1) * sizes.reduce_size < uintRange := by
  have hisVec4 : ∀ gridX, isVec4 ⟨kernel, sizes, gridX, 1, 256⟩ = true := by
    intro gridX
    simp only [isVec4, hfamily]
  have hgrid : toUInt (sizes.outer_size * sizes.inner_size) * 256 / 256 = sizes.outer_size := by
    rw [Nat.mul_div_cancel _ (by decide), hinner, Nat.mul_one, toUInt_of_lt hfit.1]
  constructor
  · rintro ⟨-, hcomputes⟩
    by_contra hwrap
    refine absurd hcomputes (not_computes_vec4_of_wrap (hisVec4 _) hinner
      (lt_of_lt_of_le (by decide) hlong) ?_ (not_lt.mp hwrap) x)
    intro p _ r hr
    exact (mem_elements_large (Or.inr hfamily) (fun _ => hvec) p r).mp hr
  · intro hstart
    exact ⟨ended_of_fits hfit.2 (Or.inl (hisVec4 _)),
      (covers_largeVec4 hfamily hgrid hinner hlong hvec hstart x).computes⟩

/-- A thread for each row, in a grid of two dimensions. -/
theorem succeeds_online (hfamily : kernel.family = .online) (houter : 0 < sizes.outer_size)
    (hinner : 0 < sizes.inner_size) (hreduce : 1 ≤ sizes.reduce_size) {gridX gridY groupX : ℕ}
    (hgridX : sizes.inner_size ≤ gridX) (hgridY : sizes.outer_size ≤ gridY) (x : ℕ → ℝ) :
    Succeeds ⟨kernel, sizes, gridX, gridY, groupX⟩ x
      ↔ sizes.outer_size * sizes.reduce_size * sizes.inner_size ≤ uintRange := by
  have hscalar : isVec4 ⟨kernel, sizes, gridX, gridY, groupX⟩ = false := by
    simp only [isVec4, hfamily]
  constructor
  · rintro ⟨-, hcomputes⟩
    by_contra hwrap
    exact not_computes_of_wrap hscalar houter hreduce hinner (not_le.mp hwrap) x
      hcomputes
  · intro htotal
    refine ⟨⟨0, fun fuel _ => ended_of_not_large ?_ fuel⟩,
      (covers_online hfamily hgridX hgridY hreduce htotal x).computes⟩
    simp [hfamily]

/-- A thread for each row, with vectors of four elements. -/
theorem succeeds_onlineVec4 (hfamily : kernel.family = .onlineVec4)
    (hinner : sizes.inner_size = 1) (hvec : sizes.reduce_size % 4 = 0)
    (hreduce : 1 ≤ sizes.reduce_size) (x : ℕ → ℝ) :
    Succeeds ⟨kernel, sizes, sizes.outer_size, 1, 32⟩ x
      ↔ (sizes.outer_size - 1) * sizes.reduce_size < uintRange := by
  have hisVec4 : isVec4 ⟨kernel, sizes, sizes.outer_size, 1, 32⟩ = true := by
    simp only [isVec4, hfamily]
  constructor
  · rintro ⟨-, hcomputes⟩
    by_contra hwrap
    refine not_computes_vec4_of_wrap hisVec4 hinner hreduce ?_ (not_lt.mp hwrap) x
      hcomputes
    intro p _ r hr
    have hn : 4 * (sizes.reduce_size / 4) = sizes.reduce_size := by omega
    simpa only [elements, hfamily, flatMap_vecElements, hn, mem_range] using hr
  · intro hstart
    refine ⟨⟨0, fun fuel _ => ended_of_not_large ?_ fuel⟩,
      (covers_onlineVec4 hfamily rfl hinner hreduce hvec hstart x).computes⟩
    simp [hfamily]

variable (houter : 0 < sizes.outer_size) (hinner : 0 < sizes.inner_size)
  (hreduce : 1 ≤ sizes.reduce_size)

include houter hinner hreduce

/-- **The kernels for `Float32` and `Float16`.** -/
theorem succeeds_float (hfamily : kernel.family = floatFamily sizes)
    (hfit : sizes.outer_size < uintRange ∧ sizes.reduce_size < uintRange) (x : ℕ → ℝ) :
    (softmaxLaunch sizes kernel).Succeeds x ↔ FloatCovered sizes := by
  unfold FloatCovered softmaxLaunch
  unfold floatFamily at hfamily
  by_cases hvec : useVec4 sizes = true
  · have hvec4 : sizes.inner_size = 1 ∧ sizes.reduce_size % 4 = 0 := by
      simpa [useVec4] using hvec
    rw [if_pos hvec]
    by_cases hlarge : useLarge sizes = true
    · have hlong : 2048 ≤ sizes.reduce_size := by simpa [useLarge] using hlarge
      simp only [hvec, hlarge, Bool.and_true, if_true, implies_true, true_and] at hfamily ⊢
      exact succeeds_largeVec4 hfamily hvec4.1 hvec4.2 hlong hfit x
    · simp only [hvec, hlarge, Bool.false_and, Bool.true_and, if_true, Bool.false_eq_true,
        if_false, decide_eq_true_eq, imp_false] at hfamily ⊢
      by_cases hlong : 128 ≤ sizes.reduce_size
      · rw [if_pos hlong] at hfamily
        have hnot : ¬ SoftmaxRun.Computes ⟨kernel, sizes, sizes.outer_size, 1, 32⟩ x :=
          not_computes_cooperativeVec4 hfamily rfl houter hlong hvec4.1 x
        exact iff_of_false (fun h => hnot h.2) fun h => h.1 hlong
      · rw [if_neg hlong] at hfamily
        rw [succeeds_onlineVec4 hfamily hvec4.1 hvec4.2 hreduce x, and_iff_right hlong]
  · rw [if_neg hvec]
    by_cases hlarge : useLarge sizes = true
    · have hlong : 2048 ≤ sizes.reduce_size := by simpa [useLarge] using hlarge
      simp only [hvec, hlarge, Bool.and_false, Bool.false_eq_true, if_false, if_true,
        forall_const, implies_true, true_and] at hfamily ⊢
      exact succeeds_large hfamily houter hinner hlong hfit.2 x
    · simp only [hvec, hlarge, Bool.and_false, Bool.false_eq_true, if_false, Bool.false_and,
        imp_false, IsEmpty.forall_iff, and_true] at hfamily ⊢
      by_cases hmedium : 32 ≤ sizes.reduce_size
      · rw [if_pos hmedium] at hfamily
        have hnot : ¬ SoftmaxRun.Computes ⟨kernel, sizes, sizes.inner_size,
            sizes.outer_size, 32⟩ x :=
          not_computes_cooperative hfamily houter hmedium hinner x
        exact iff_of_false (fun h => hnot h.2) fun h => h.1 hmedium
      · rw [if_neg hmedium] at hfamily
        rw [succeeds_online hfamily houter hinner hreduce (le_refl _) (le_refl _) x,
          and_iff_right hmedium]

/-- **The kernel for `BFloat16`.** -/
theorem succeeds_bf16 (hfamily : kernel.family = .online) (x : ℕ → ℝ) :
    (softmaxLaunch sizes kernel).Succeeds x ↔ BFloat16Covered sizes := by
  unfold BFloat16Covered softmaxLaunch
  -- a grid of one row of threads
  have hline : ∀ gridX groupX : ℕ, (sizes.outer_size = 1 →
        sizes.outer_size * sizes.reduce_size * sizes.inner_size ≤ uintRange →
        sizes.inner_size ≤ gridX) →
      (Succeeds ⟨kernel, sizes, gridX, 1, groupX⟩ x ↔ sizes.outer_size = 1
        ∧ sizes.outer_size * sizes.reduce_size * sizes.inner_size ≤ uintRange) := by
    intro gridX groupX hgridX
    constructor
    · intro hsucc
      have hone : sizes.outer_size = 1 := by
        by_contra hmany
        have hsecond : 1 < sizes.outer_size := by omega
        have hpos : 0 < sizes.reduce_size := hreduce
        exact absurd hsucc.2 (not_computes_of_gridY hfamily rfl hsecond hpos hinner x)
      refine ⟨hone, ?_⟩
      by_contra hwrap
      have hscalar : isVec4 ⟨kernel, sizes, gridX, 1, groupX⟩ = false := by
        simp only [isVec4, hfamily]
      exact absurd hsucc.2
        (not_computes_of_wrap hscalar houter hreduce hinner (not_le.mp hwrap) x)
    · rintro ⟨hone, htotal⟩
      exact (succeeds_online hfamily houter hinner hreduce (hgridX hone htotal) hone.le x).mpr
        htotal
  by_cases hlarge : useLarge sizes = true
  · have hlong : 2048 ≤ sizes.reduce_size := by simpa [useLarge] using hlarge
    rw [if_pos hlarge]
    simp only [hlarge, true_or, forall_const]
    apply hline
    intro hone htotal
    have hsmall : sizes.inner_size < uintRange := by
      have hle := Nat.mul_le_mul_right sizes.inner_size hlong
      rw [hone, Nat.one_mul] at htotal
      unfold uintRange at htotal ⊢
      omega
    rw [hone, Nat.one_mul, toUInt_of_lt hsmall]
    omega
  · rw [if_neg hlarge]
    by_cases hvec : useVec4 sizes = true
    · have hvec4 : sizes.inner_size = 1 ∧ sizes.reduce_size % 4 = 0 := by
        simpa [useVec4] using hvec
      rw [if_pos hvec]
      simp only [hlarge, hvec, or_true, forall_const]
      apply hline
      intro hone _
      omega
    · rw [if_neg hvec, succeeds_online hfamily houter hinner hreduce (le_refl _) (le_refl _) x]
      simp [hlarge, hvec]

end launches

/-! ### The sizes -/

/-- The sizes of a call fit into the words of the kernels. -/
theorem softmaxSizes_lt {input : MNTensor ℝ} {dim : ℤ}
    (h : softmaxSizes input dim = .ok sizes) :
    sizes.outer_size < uintRange ∧ sizes.reduce_size < uintRange := by
  simp only [softmaxSizes, computeReductionSizes, bind, Except.bind] at h
  split at h
  · cases h
  · split at h
    · cases h
    · rename_i houter
      split at h
      · cases h
      · rename_i hreduce
        split at h
        · cases h
        · obtain rfl := Except.ok.inj h
          exact ⟨checkedUInt_lt houter, checkedUInt_lt hreduce⟩

/-- A launch without rows. -/
theorem succeeds_of_zero {kernel : SoftmaxKernel}
    (hzero : sizes.outer_size = 0 ∨ sizes.inner_size = 0)
    (hfamily : kernel.family = floatFamily sizes ∨ kernel.family = .online) (x : ℕ → ℝ) :
    (softmaxLaunch sizes kernel).Succeeds x := by
  have hsizes : (softmaxLaunch sizes kernel).sizes = sizes := by
    unfold softmaxLaunch
    split_ifs <;> rfl
  refine ⟨⟨0, ?_⟩, ?_⟩
  · intro fuel _
    by_cases hlarge : useLarge sizes = true
    · -- no threadgroup at all
      have hnum : toUInt (sizes.outer_size * sizes.inner_size) = 0 := by
        rw [Nat.mul_eq_zero.mpr hzero]
        rfl
      rw [softmaxLaunch, if_pos hlarge, hnum]
      unfold ended rows
      cases kernel.family <;> simp
    · have hnot : kernel.family ≠ .large ∧ kernel.family ≠ .largeVec4 := by
        rcases hfamily with h | h
        · rw [h, floatFamily]
          simp only [hlarge, Bool.false_and, Bool.false_eq_true, if_false]
          split_ifs <;> simp
        · simp [h]
      have hkernel : (softmaxLaunch sizes kernel).kernel = kernel := by
        unfold softmaxLaunch
        split_ifs <;> rfl
      apply ended_of_not_large
      rw [hkernel]
      exact hnot
  · intro o ho r _ i hi
    rw [hsizes] at ho hi
    omega

/-- A call selects a kernel, and its launch succeeds. -/
theorem softmaxComputes_iff {input : MNTensor ℝ} {dim : ℤ}
    (hsizes : softmaxSizes input dim = .ok sizes) :
    SoftmaxComputes input dim ↔ ∃ kernel, softmaxKernel input.dtype sizes = .ok kernel
      ∧ (softmaxLaunch sizes kernel).Succeeds input.data := by
  simp only [SoftmaxComputes, softmax, softmaxRun, hsizes, bind, Except.bind, pure, Except.pure]
  cases softmaxKernel input.dtype sizes with
  | error | ok => simp

end MetalNative
