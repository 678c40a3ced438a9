import MetalNative.Ops.Normalization

namespace MetalNative

open ExtReal NormFamily Finset

/-!
# What the normalisations compute

* `normOutput_eq` — a kernel that has the sums of a row writes its reference.
* `NormRun.succeeds_of_covers` — a launch whose teams go through every row.
* `NormCall.launched`, `NormRun.succeeds_iff` — what a call launches, and when that computes the
  reference.
* `norm_computes` — the calls that compute their reference.
-/

/-! ### The reference -/

/-- Element `r` of the normalised row `y`. -/
noncomputable def normReference (op : NormOp) (eps : ℝ) (n : ℕ) (y w b : ℕ → ℝ) (r : ℕ) : ExtReal :=
  match op with
  | .layer =>
    let mean := (∑ i ∈ Finset.range n, y i) / n
    let var := (∑ i ∈ Finset.range n, (y i - mean) ^ 2) / n
    real (y r - mean) / sqrt (real (var + eps)) * real (w r) + real (b r)
  | .rms =>
    let meanSquare := (∑ i ∈ Finset.range n, y i ^ 2) / n
    real (y r) / sqrt (real (meanSquare + eps)) * real (w r)

variable {n : ℕ}

/-- Only the elements of the row matter. -/
theorem normReference_congr (op : NormOp) (eps : ℝ) {y y' : ℕ → ℝ}
    (h : ∀ i < n, y i = y' i) (w b : ℕ → ℝ) {r : ℕ} (hr : r < n) :
    normReference op eps n y w b r = normReference op eps n y' w b r := by
  have hsum : ∀ f : ℝ → ℝ, ∑ i ∈ range n, f (y i) = ∑ i ∈ range n, f (y' i) := by
    intro f
    apply sum_congr rfl
    intro i hi
    rw [h i (mem_range.mp hi)]
  cases op with
  | layer =>
    simp only [normReference]
    rw [h r hr, hsum fun a => a, hsum fun a => (a - (∑ i ∈ range n, y' i) / n) ^ 2]
  | rms =>
    simp only [normReference]
    rw [h r hr, hsum fun a => a ^ 2]

/-- The mean of the squares and the squared mean. -/
theorem variance_eq (y : ℕ → ℝ) (hn : 1 ≤ n) :
    (∑ i ∈ range n, y i * y i) / n
        - (∑ i ∈ range n, y i) / n * ((∑ i ∈ range n, y i) / n)
      = (∑ i ∈ range n, (y i - (∑ i ∈ range n, y i) / n) ^ 2) / n := by
  have hpos : (n : ℝ) ≠ 0 := Nat.cast_ne_zero.mpr (by omega)
  have hexpand : ∀ m : ℝ, ∑ i ∈ range n, (y i - m) ^ 2
      = (∑ i ∈ range n, y i * y i) - 2 * m * (∑ i ∈ range n, y i) + n * (m * m) := by
    intro m
    have hterm : ∀ i, (y i - m) ^ 2 = y i * y i - 2 * m * y i + m * m := by
      intro i
      ring
    simp only [hterm, sum_add_distrib, sum_sub_distrib, ← mul_sum,
      sum_const, card_range, nsmul_eq_mul]
    ring
  rw [hexpand]
  field_simp
  ring

/-- **What a kernel writes** that has the sums of the row. -/
theorem normOutput_eq (op : NormOp) (family : NormFamily) (eps : ℝ) (hn : 1 ≤ n)
    (y w b : ℕ → ℝ) (r : ℕ) :
    normOutput op family n eps (real (∑ i ∈ range n, y i))
        (real (∑ i ∈ range n, y i * y i)) (real (y r)) (real (w r)) (real (b r))
      = normReference op eps n y w b r := by
  have hpos : (n : ℝ) ≠ 0 := Nat.cast_ne_zero.mpr (by omega)
  cases op with
  | layer =>
    have hvar : 0 ≤ (∑ i ∈ range n, (y i - (∑ i ∈ range n, y i) / n) ^ 2) / n := by
      apply div_nonneg
      · exact sum_nonneg fun i _ => sq_nonneg _
      · exact Nat.cast_nonneg n
    have hmax : ∀ v : ℝ, 0 ≤ v → ExtReal.max (real v) (real 0) = real v := by
      intro v hv
      show real (v ⊔ 0) = real v
      rw [sup_eq_left.mpr hv]
    simp only [normOutput, normReference, real_div hpos, real_mul, real_sub, variance_eq y hn]
    cases family
    case vec => rw [hmax _ hvar, real_add, mul_one_div_sqrt]
    case large => rw [hmax _ hvar, real_add, mul_one_div_sqrt]
    all_goals rw [real_add, mul_one_div_sqrt]
  | rms =>
    simp only [normOutput, normReference, real_div hpos, real_add, mul_one_div_sqrt, pow_two]

/-- What is written for an element of a row whose elements are read from `base` on. -/
theorem normOutput_of_reads {way : NormFamily} (hcache : way = .regcache → n ≤ 8192)
    (op : NormOp) (family : NormFamily) (eps : ℝ) (hn : 1 ≤ n) {index : ℕ → ℕ} {base : ℕ}
    (hindex : ∀ i < n, index i = base + i) (x w b : ℕ → ℝ) {r : ℕ} (hr : r < n) :
    normOutput op family n eps (way.teamSum n (fun i => real (x (index i))) 0)
        (way.teamSum n (fun i => real (x (index i)) * real (x (index i))) 0)
        (real (x (index r))) (real (w r)) (real (b r))
      = normReference op eps n (fun i => x (base + i)) w b r := by
  have hread : ∀ i < n, x (index i) = x (base + i) := fun i hi => congrArg x (hindex i hi)
  simp only [real_mul]
  rw [teamSum_eq hcache fun i => x (index i), teamSum_eq hcache fun i => x (index i) * x (index i),
    normOutput_eq op family eps hn (fun i => x (index i)) w b r]
  exact normReference_congr op eps hread w b hr

/-! ### The launch -/

namespace NormRun

variable {run : NormRun}

/-- Every element of the output is written, and each time with the reference. -/
def Computes (run : NormRun) (eps : ℝ) (x w b : ℕ → ℝ) : Prop :=
  ∀ row < run.sizes.batch_size, ∀ r < run.sizes.norm_size,
    (∃ v, (row * run.sizes.norm_size + r, v) ∈ run.writes eps x w b) ∧
    ∀ v, (row * run.sizes.norm_size + r, v) ∈ run.writes eps x w b →
      v = normReference run.op eps run.sizes.norm_size
        (fun i => x (row * run.sizes.norm_size + i)) w b r

/-- The launch ends, every element of a row enters the sums of its team once, and the normalised
rows are computed, whatever the tensors hold. -/
def Succeeds (run : NormRun) (eps : ℝ) : Prop :=
  (∃ enough, ∀ fuel ≥ enough, run.ended fuel = true) ∧
    (∀ team ∈ run.teams, (run.teamElements team.2).Perm (List.range run.sizes.norm_size)) ∧
    ∀ x w b : ℕ → ℝ, run.Computes eps x w b

/-- A team for each row, whose threads start at the beginning. -/
def HasRows (run : NormRun) : Prop :=
  ∀ team : ℕ × ℕ, team ∈ run.teams ↔ team.1 < run.sizes.batch_size ∧ team.2 = 0

theorem mem_writes {eps : ℝ} {x w b : ℕ → ℝ} {idx : ℕ} {v : ExtReal} :
    (idx, v) ∈ run.writes eps x w b ↔ ∃ team ∈ run.teams, ∃ r ∈ run.teamElements team.2,
      run.address team.1 r = idx ∧ run.output eps x w b team r = v := by
  simp only [writes, List.mem_flatMap, List.mem_map, Prod.mk.injEq]

/-- The elements of a team are those of the row. -/
theorem teamElements_zero (h : run.kernel.family = .regcache → run.sizes.norm_size ≤ 8192) :
    (run.teamElements 0).Perm (List.range run.sizes.norm_size) := by
  simp only [teamElements, Nat.zero_add]
  exact elements_perm h

theorem lt_of_mem_teamElements {first r : ℕ} (h : r ∈ run.teamElements first) :
    r < run.sizes.norm_size := by
  simp only [teamElements, List.mem_flatMap] at h
  obtain ⟨lane, -, hr⟩ := h
  exact lt_of_mem_elements hr

/-- **A launch whose teams go through every row**, at its indices. -/
theorem succeeds_of_covers (hrows : run.HasRows) (hn : 1 ≤ run.sizes.norm_size)
    (hcache : run.kernel.family = .regcache → run.sizes.norm_size ≤ 8192)
    (hended : ∃ enough, ∀ fuel ≥ enough, run.ended fuel = true)
    (haddress : ∀ row < run.sizes.batch_size, ∀ r < run.sizes.norm_size,
      run.address row r = row * run.sizes.norm_size + r) (eps : ℝ) : run.Succeeds eps := by
  refine ⟨hended, ?_, ?_⟩
  · intro team hteam
    rw [((hrows team).mp hteam).2]
    exact teamElements_zero hcache
  · intro x w b row hrow r hr
    have helements : ∀ i, i ∈ run.teamElements 0 ↔ i < run.sizes.norm_size := by
      intro i
      rw [(teamElements_zero hcache).mem_iff, List.mem_range]
    refine ⟨⟨_, mem_writes.mpr ⟨(row, 0), (hrows _).mpr ⟨hrow, rfl⟩, r, (helements r).mpr hr,
      haddress row hrow r hr, rfl⟩⟩, ?_⟩
    intro v hv
    obtain ⟨⟨row', first⟩, hteam, r', hr', haddr, rfl⟩ := mem_writes.mp hv
    obtain ⟨hrow', hfirst⟩ := (hrows _).mp hteam
    dsimp only at hrow' hfirst hr' haddr
    subst hfirst
    have hlt := (helements r').mp hr'
    rw [haddress row' hrow' r' hlt] at haddr
    obtain ⟨rfl, rfl⟩ := quotient_remainder_inj hlt hr haddr
    exact normOutput_of_reads hcache run.op _ eps hn (fun i hi => haddress row' hrow' i hi) x w b hr

/-- The index of the last element. -/
theorem lastIndex_add_one (hbatch : 0 < run.sizes.batch_size) (hn : 1 ≤ run.sizes.norm_size) :
    (run.sizes.batch_size - 1) * run.sizes.norm_size + (run.sizes.norm_size - 1) + 1
      = run.sizes.batch_size * run.sizes.norm_size := by
  rw [Nat.add_assoc, Nat.sub_add_cancel hn, ← Nat.add_one_mul, Nat.sub_add_cancel hbatch]

theorem rowIndex_lt {row r : ℕ} (hrow : row < run.sizes.batch_size)
    (hr : r < run.sizes.norm_size) :
    row * run.sizes.norm_size + r < run.sizes.batch_size * run.sizes.norm_size := by
  have hle := Nat.mul_le_mul_right run.sizes.norm_size (Nat.succ_le_of_lt hrow)
  rw [Nat.succ_mul] at hle
  omega

/-- **An element that no team writes.** -/
theorem not_succeeds_of_unwritten (hrows : run.HasRows) {row r : ℕ}
    (hrow : row < run.sizes.batch_size) (hr : r < run.sizes.norm_size)
    (hnot : ∀ row' < run.sizes.batch_size, ∀ r' < run.sizes.norm_size,
      run.address row' r' ≠ row * run.sizes.norm_size + r) (eps : ℝ) : ¬ run.Succeeds eps := by
  rintro ⟨-, -, hcomputes⟩
  obtain ⟨v, hv⟩ := (hcomputes (fun _ => 0) (fun _ => 0) (fun _ => 0) row hrow r hr).1
  obtain ⟨team, hteam, r', hr', haddr, -⟩ := mem_writes.mp hv
  exact hnot _ ((hrows team).mp hteam).1 r' (lt_of_mem_teamElements hr') haddr

/-- The loops end when no index wraps around. -/
theorem ended_of_rows (hrows : run.HasRows) (hn : run.sizes.norm_size < uintRange)
    (hbasic : run.kernel.family = .basic → run.sizes.norm_size + 32 ≤ uintRange)
    (hlarge : run.kernel.family = .large → run.sizes.norm_size + 256 ≤ uintRange) :
    ∃ enough, ∀ fuel ≥ enough, run.ended fuel = true := by
  refine ⟨run.sizes.norm_size + 1, ?_⟩
  intro fuel hfuel
  rw [ended, List.all_eq_true]
  intro team hteam
  rw [List.all_eq_true]
  intro lane hlane
  rw [((hrows team).mp hteam).2, Nat.zero_add]
  exact ended_of_fits hn hbasic hlarge (List.mem_range.mp hlane) hfuel

/-- **The kernels with scalar indices.** -/
theorem succeeds_scalar (hrows : run.HasRows) (hfamily : run.kernel.family ≠ .vec)
    (hcache : run.kernel.family = .regcache → run.sizes.norm_size ≤ 8192)
    (hended : ∃ enough, ∀ fuel ≥ enough, run.ended fuel = true)
    (hbatch : 0 < run.sizes.batch_size) (hn : 1 ≤ run.sizes.norm_size) (eps : ℝ) :
    run.Succeeds eps ↔ run.sizes.batch_size * run.sizes.norm_size ≤ uintRange := by
  have haddress : ∀ row r, run.address row r
      = toUInt (toUInt (row * run.sizes.norm_size) + r) := by
    intro row r
    cases hcase : run.kernel.family
    case vec => exact absurd hcase hfamily
    all_goals simp only [address, hcase]
  constructor
  · intro h
    by_contra hwrap
    have hend := lastIndex_add_one hbatch hn
    refine not_succeeds_of_unwritten hrows (Nat.sub_one_lt_of_lt hbatch) (Nat.sub_one_lt_of_lt hn)
      ?_ eps h
    intro row' _ r' _
    have hword : run.address row' r' < uintRange := by
      rw [haddress]
      exact toUInt_lt _
    omega
  · intro hfit
    apply succeeds_of_covers hrows hn hcache hended
    intro row hrow r hr
    have hle := rowIndex_lt hrow hr
    rw [haddress, toUInt_of_lt (show row * run.sizes.norm_size < uintRange by omega)]
    exact toUInt_of_lt (by omega)

/-- **The vectorised kernels**: the vectors are read behind a pointer, the rest by an index. -/
theorem succeeds_vec (hrows : run.HasRows) (hfamily : run.kernel.family = .vec)
    (hfit : run.sizes.norm_size < uintRange) (hbatch : 0 < run.sizes.batch_size)
    (hn : 1 ≤ run.sizes.norm_size) (eps : ℝ) :
    run.Succeeds eps ↔ (run.sizes.batch_size - 1) * run.sizes.norm_size < uintRange
      ∧ (run.sizes.norm_size % 4 = 0
        ∨ run.sizes.batch_size * run.sizes.norm_size ≤ uintRange) := by
  have haddress : ∀ row r, run.address row r = if r < run.sizes.norm_size / 4 * 4
      then toUInt (row * run.sizes.norm_size) + r
      else toUInt (toUInt (row * run.sizes.norm_size) + r) := by
    intro row r
    simp only [address, hfamily]
  have hcache : run.kernel.family = .regcache → run.sizes.norm_size ≤ 8192 := by simp [hfamily]
  have hend := lastIndex_add_one hbatch hn
  constructor
  · intro h
    by_contra hwrap
    refine not_succeeds_of_unwritten hrows (Nat.sub_one_lt_of_lt hbatch) (Nat.sub_one_lt_of_lt hn)
      ?_ eps h
    intro row' hrow' r' hr'
    have hword := toUInt_lt (row' * run.sizes.norm_size)
    have hword' := toUInt_lt (toUInt (row' * run.sizes.norm_size) + r')
    rw [haddress]
    by_cases hstart : (run.sizes.batch_size - 1) * run.sizes.norm_size < uintRange
    · -- the last row starts below the end of the words, and its rest does not fit
      have hle : row' * run.sizes.norm_size
          ≤ (run.sizes.batch_size - 1) * run.sizes.norm_size :=
        Nat.mul_le_mul_right _ (by omega)
      rw [toUInt_of_lt (show row' * run.sizes.norm_size < uintRange by omega)] at hword' ⊢
      split_ifs with hvector
      · omega
      · omega
    · split_ifs with hvector
      · omega
      · omega
  · rintro ⟨hstart, hrest⟩
    apply succeeds_of_covers hrows hn hcache
    · apply ended_of_rows hrows hfit
      · simp [hfamily]
      · simp [hfamily]
    · intro row hrow r hr
      have hle : row * run.sizes.norm_size ≤ (run.sizes.batch_size - 1) * run.sizes.norm_size :=
        Nat.mul_le_mul_right _ (by omega)
      have hlt := rowIndex_lt hrow hr
      rw [haddress, toUInt_of_lt (show row * run.sizes.norm_size < uintRange by omega)]
      split_ifs with hvector
      · rfl
      · exact toUInt_of_lt (by omega)

/-- The first element that has no place in the caches. -/
theorem not_mem_teamElements_regcache (hfamily : run.kernel.family = .regcache) :
    8192 ∉ run.teamElements 0 := by
  intro hmem
  simp only [teamElements, hfamily, List.mem_flatMap, List.mem_range, Nat.zero_add] at hmem
  obtain ⟨lane, hlane, hr⟩ := hmem
  have hlt := lt_of_mem_regcache hr
  -- the lane that element 8192 belongs to is the first one
  have hmod : 8192 % 256 = lane :=
    ((ThreadLoop.mem_stride_iff_mod hlane).mp (List.mem_of_mem_take hr)).1
  omega

/-- The rest of a row behind the caches is left out. -/
theorem not_succeeds_regcache (hrows : run.HasRows) (hfamily : run.kernel.family = .regcache)
    (hbatch : 0 < run.sizes.batch_size) (hlong : 8192 < run.sizes.norm_size) (eps : ℝ) :
    ¬ run.Succeeds eps := by
  rintro ⟨-, hperm, -⟩
  have hmem := (hperm (0, 0) ((hrows _).mpr ⟨hbatch, rfl⟩)).mem_iff.mpr (List.mem_range.mpr hlong)
  exact not_mem_teamElements_regcache hfamily hmem

/-- The loop of the first thread goes on forever over a row that is too long. -/
theorem not_succeeds_of_endless (hrows : run.HasRows) (hfamily : run.kernel.family = .large)
    (hbatch : 0 < run.sizes.batch_size) (hlong : ¬ run.sizes.norm_size + 256 ≤ uintRange)
      (eps : ℝ) :
    ¬ run.Succeeds eps := by
  rintro ⟨⟨enough, henough⟩, -, -⟩
  have hall := List.all_eq_true.mp (henough enough (le_refl _)) (0, 0)
    ((hrows _).mpr ⟨hbatch, rfl⟩)
  rw [hfamily] at hall
  have hthread := List.all_eq_true.mp hall 0 (by simp [threads])
  rw [ended_large_of_long hlong] at hthread
  simp at hthread

/-- A kernel with a grid of two dimensions in one row of threads: the second team does not start at
the beginning. -/
theorem not_succeeds_of_grid (hfamily : run.kernel.family = .basic) (hlarge : run.use_large = true)
    (hbatch : 0 < run.sizes.batch_size) (hn : 1 ≤ run.sizes.norm_size) (eps : ℝ) :
    ¬ run.Succeeds eps := by
  rintro ⟨-, hperm, -⟩
  have hteam : (0, 32) ∈ run.teams := by
    simp only [teams, hfamily, hlarge, if_true, List.mem_filter, List.mem_map, List.mem_range]
    exact ⟨⟨1, by omega, rfl⟩, by simpa using hbatch.ne'⟩
  have hmem := (hperm _ hteam).mem_iff.mpr (List.mem_range.mpr hn)
  simp only [teamElements, hfamily, elements, List.mem_flatMap] at hmem
  obtain ⟨lane, -, hr⟩ := hmem
  obtain ⟨t, ht, -⟩ := (ThreadLoop.mem_stride (by decide)).mp hr
  omega

end NormRun

/-! ### The calls -/

/-- The sizes that the kernels for `Float32` and `Float16` cover. -/
def FloatNormCovered (sizes : NormSizes) : Prop :=
  if sizes.norm_size < 128 then sizes.batch_size * sizes.norm_size ≤ uintRange
  else if sizes.norm_size < 2048 then
    (sizes.batch_size - 1) * sizes.norm_size < uintRange
      ∧ (sizes.norm_size % 4 = 0 ∨ sizes.batch_size * sizes.norm_size ≤ uintRange)
  else
    ¬ (8192 < sizes.norm_size ∧ sizes.norm_size < 8448) ∧ sizes.norm_size + 256 ≤ uintRange
      ∧ sizes.batch_size * sizes.norm_size ≤ uintRange

/-- The sizes that the kernels for `BFloat16` cover. -/
def BFloat16NormCovered (sizes : NormSizes) : Prop :=
  sizes.norm_size < 2048 ∧ sizes.batch_size * sizes.norm_size ≤ uintRange

/-- The calls that compute their reference. -/
def NormSupported (dtype : MNDType) (sizes : NormSizes) : Prop :=
  sizes.batch_size = 0 ∨
    if dtype = .BFloat16 then BFloat16NormCovered sizes else FloatNormCovered sizes

/-- What a launch is, that a call has returned. -/
structure NormRun.IsLaunch (run : NormRun) (dtype : MNDType) : Prop where
  supported : dtype = .Float32 ∨ dtype = .Float16 ∨ dtype = .BFloat16
  family : run.kernel.family
    = if dtype = .BFloat16 then .basic else normFamily run.sizes.norm_size
  use_large : run.use_large = normUseLarge run.sizes.norm_size
  norm_lt : run.sizes.norm_size < uintRange

theorem normKernel_family {op : NormOp} {dtype : MNDType} {norm_size : ℤ} {kernel : NormKernel}
    (h : normKernel op dtype norm_size = .ok kernel) :
    (dtype = .Float32 ∨ dtype = .Float16 ∨ dtype = .BFloat16)
      ∧ kernel.family = if dtype = .BFloat16 then .basic else normFamily norm_size := by
  cases dtype
  case Float32 =>
    obtain rfl := Except.ok.inj h
    exact ⟨Or.inl rfl, rfl⟩
  case Float16 =>
    obtain rfl := Except.ok.inj h
    exact ⟨Or.inr (Or.inl rfl), rfl⟩
  case BFloat16 =>
    obtain rfl := Except.ok.inj h
    exact ⟨Or.inr (Or.inr rfl), rfl⟩
  all_goals cases h

/-- What `normLaunch` has selected and checked. -/
structure NormRun.Launched (run : NormRun) (op : NormOp) (dtype : MNDType)
    (norm_size batch_size : ℤ) : Prop where
  function : run.op = op
  selected : normKernel op dtype norm_size = .ok run.kernel
  rows : checkedUInt "normalization" batch_size = .ok run.sizes.batch_size
  row : checkedUInt "normalization" norm_size = .ok run.sizes.norm_size
  grid : run.use_large = normUseLarge norm_size

variable {run : NormRun}

theorem normLaunch_spec {op : NormOp} {dtype : MNDType} {norm_size batch_size : ℤ}
    (h : normLaunch op dtype norm_size batch_size = .ok run) :
    run.Launched op dtype norm_size batch_size := by
  simp only [normLaunch, bind, Except.bind, pure, Except.pure] at h
  split at h
  · cases h
  · rename_i hkernel
    split at h
    · cases h
    · rename_i hbatch
      split at h
      · cases h
      · rename_i hsize
        obtain rfl := Except.ok.inj h
        exact ⟨rfl, hkernel, hbatch, hsize, rfl⟩

theorem NormRun.Launched.isLaunch {op : NormOp} {dtype : MNDType}
    {batch_size : ℤ} (h : run.Launched op dtype n batch_size) : run.IsLaunch dtype := by
  have hnorm := checkedUInt_natCast h.row
  obtain ⟨hdtype, hfamily⟩ := normKernel_family h.selected
  refine ⟨hdtype, ?_, ?_, checkedUInt_lt h.row⟩
  · rw [hfamily, hnorm]
  · rw [h.grid, hnorm]

variable {α : Type*}

theorem normExtents_eq {op : NormOp} {input : MNTensor α} {extents : ℤ × ℤ}
    (h : normExtents op input = .ok extents) :
    1 ≤ input.dims.length ∧
      extents.1 = (input.dims.getD (input.dims.length - 1) 0 : ℕ) ∧
      extents.2 = MNShape.numel (input.shape.take (input.dims.length - 1)) := by
  have hlength : input.shape.length = input.dims.length := List.length_map _
  simp only [normExtents, bind, Except.bind, pure, Except.pure, hlength] at h
  split at h
  · cases h
  · rename_i hdims
    obtain rfl := Except.ok.inj h
    exact ⟨not_not.mp hdims, input.shape_getD _, rfl⟩

/-- The input of a call. -/
def NormCall.input {α : Type*} : NormCall α → MNTensor α
  | layer input _ _ => input
  | rms input _ => input

/-- The function that is called. -/
def NormCall.op {α : Type*} : NormCall α → NormOp
  | layer _ _ _ => .layer
  | rms _ _ => .rms

theorem NormCall.dtype_eq (call : NormCall α) : call.dtype = call.input.dtype := by
  cases call <;> rfl

/-- **What an accepted call launches.** -/
theorem NormCall.launched (call : NormCall α)
    (h : call.launch = .ok run) : 1 ≤ call.input.dims.length ∧
      run.Launched call.op call.dtype
        (call.input.dims.getD (call.input.dims.length - 1) 0 : ℕ)
        (MNShape.numel (call.input.shape.take (call.input.dims.length - 1))) := by
  cases call with
  | layer input weight bias =>
    simp only [launch, layerNorm, bind, Except.bind] at h
    split at h
    · cases h
    · rename_i extents hextents
      obtain ⟨hdims, hn, hbatch⟩ := normExtents_eq hextents
      rw [hn, hbatch] at h
      split at h
      · cases h
      · split at h
        · cases h
        · split at h
          · cases h
          · exact ⟨hdims, normLaunch_spec h⟩
  | rms input weight =>
    simp only [launch, rmsNorm, bind, Except.bind] at h
    split at h
    · cases h
    · rename_i extents hextents
      obtain ⟨hdims, hn, hbatch⟩ := normExtents_eq hextents
      rw [hn, hbatch] at h
      split at h
      · cases h
      · split at h
        · cases h
        · exact ⟨hdims, normLaunch_spec h⟩

theorem NormCall.isLaunch (call : NormCall α)
    (h : call.launch = .ok run) : run.IsLaunch call.dtype :=
  (call.launched h).2.isLaunch

namespace NormRun

variable {run : NormRun} {dtype : MNDType}

/-- The families of the sizes. -/
theorem normFamily_eq (n : ℕ) : normFamily n
    = if n < 128 then .basic else if n < 2048 then .vec else if n < 8448 then .regcache
      else .large := by
  by_cases hlarge : normUseLarge n = true
  · have hlong : ¬ n < 2048 := by
      simp only [normUseLarge, decide_eq_true_eq] at hlarge
      omega
    rw [if_neg (show ¬ n < 128 by omega), if_neg hlong]
    by_cases hcache : n < 8448
    · have hregcache : normUseRegcache n = true := by
        simp only [normUseRegcache, hlarge, true_and, decide_eq_true_eq]
        omega
      rw [if_pos hcache, normFamily, if_pos hregcache]
    · have hregcache : normUseRegcache n = false := by
        simp only [normUseRegcache, hlarge, true_and, decide_eq_false_iff_not]
        omega
      rw [if_neg hcache, normFamily, hregcache, if_neg (by decide), if_pos hlarge]
  · have hshort : n < 2048 := by
      simp only [normUseLarge, decide_eq_true_eq] at hlarge
      omega
    have hregcache : normUseRegcache n = false := by simp [normUseRegcache, hlarge]
    rw [normFamily, hregcache, if_neg (by decide), if_neg hlarge]
    by_cases hbasic : n < 128
    · have hvec : normUseVectorized n = false := by
        simp only [normUseVectorized, decide_eq_false_iff_not]
        omega
      rw [if_pos hbasic, hvec, if_neg (by decide)]
    · have hvec : normUseVectorized n = true := by
        have hfits : (128 : ℤ) ≤ n ∧ (n : ℤ) ≤ 8192 := by omega
        simpa [normUseVectorized, hlarge] using hfits
      rw [if_neg hbasic, if_pos hshort, if_pos hvec]

/-- A launch without rows. -/
theorem succeeds_of_zero (hbatch : run.sizes.batch_size = 0) (eps : ℝ) : run.Succeeds eps := by
  have hteams : run.teams = [] := by
    unfold teams
    cases run.kernel.family <;> simp [hbatch]
  refine ⟨⟨0, ?_⟩, ?_, ?_⟩
  · intro fuel _
    simp [ended, hteams]
  · simp [hteams]
  · intro x w b row hrow
    omega

/-- The grids that the kernels are written for. -/
theorem hasRows (h : run.use_large = true → run.kernel.family = .large
    ∨ run.kernel.family = .regcache) : run.HasRows := by
  have hteams : run.teams = ((List.range run.sizes.batch_size).map fun row => (row, 0)).filter
      fun team => ¬ team.1 ≥ run.sizes.batch_size := by
    unfold teams
    cases hfamily : run.kernel.family
    case large => rfl
    case regcache => rfl
    all_goals
      have hsmall : run.use_large = false := by
        by_contra hlarge
        have hneither := h (by simpa using hlarge)
        simp [hfamily] at hneither
      simp [hsmall]
  rintro ⟨row, first⟩
  simp only [hteams, List.mem_filter, List.mem_map, List.mem_range, Prod.mk.injEq]
  constructor
  · rintro ⟨⟨row', hrow', rfl, rfl⟩, -⟩
    exact ⟨hrow', rfl⟩
  · rintro ⟨hrow, rfl⟩
    exact ⟨⟨row, hrow, rfl, rfl⟩, by simpa using hrow⟩

/-- **The launches that compute their reference.** -/
theorem succeeds_iff (hlaunch : run.IsLaunch dtype) (hnorm : 1 ≤ run.sizes.norm_size) (eps : ℝ) :
    run.Succeeds eps ↔ NormSupported dtype run.sizes := by
  obtain ⟨-, hfamily, huse, hfit⟩ := hlaunch
  rw [NormSupported]
  by_cases hbatch : run.sizes.batch_size = 0
  · exact iff_of_true (succeeds_of_zero hbatch eps) (Or.inl hbatch)
  have hpos : 0 < run.sizes.batch_size := Nat.pos_of_ne_zero hbatch
  rw [or_iff_right hbatch]
  have hlarge : run.use_large = true ↔ 2048 ≤ run.sizes.norm_size := by
    rw [huse, normUseLarge, decide_eq_true_eq]
    omega
  -- the kernels of one SIMD group, which have scalar indices
  have hbasic : run.kernel.family = .basic → run.sizes.norm_size < 2048 →
      (run.Succeeds eps ↔ run.sizes.batch_size * run.sizes.norm_size ≤ uintRange) := by
    intro hfam hshort
    have hrows : run.HasRows := hasRows fun h => by
      rw [hlarge] at h
      omega
    apply succeeds_scalar hrows (by simp [hfam]) (by simp [hfam]) _ hpos hnorm
    apply ended_of_rows hrows hfit
    · intro _
      unfold uintRange
      omega
    · simp [hfam]
  by_cases hbf16 : dtype = .BFloat16
  · rw [if_pos hbf16] at hfamily ⊢
    rw [BFloat16NormCovered]
    by_cases hshort : run.sizes.norm_size < 2048
    · rw [hbasic hfamily hshort, and_iff_right hshort]
    · exact iff_of_false
        (not_succeeds_of_grid hfamily (hlarge.mpr (not_lt.mp hshort)) hpos hnorm eps)
        fun h => hshort h.1
  · rw [if_neg hbf16] at hfamily ⊢
    rw [normFamily_eq] at hfamily
    rw [FloatNormCovered]
    by_cases hsmall : run.sizes.norm_size < 128
    · rw [if_pos hsmall] at hfamily ⊢
      exact hbasic hfamily (by omega)
    rw [if_neg hsmall] at hfamily ⊢
    by_cases hshort : run.sizes.norm_size < 2048
    · rw [if_pos hshort] at hfamily ⊢
      have hrows : run.HasRows := hasRows fun h => by
        rw [hlarge] at h
        omega
      exact succeeds_vec hrows hfamily hfit hpos hnorm eps
    rw [if_neg hshort] at hfamily ⊢
    by_cases hcache : run.sizes.norm_size < 8448
    · rw [if_pos hcache] at hfamily
      have hrows : run.HasRows := hasRows fun _ => Or.inr hfamily
      have hloop : run.sizes.norm_size + 256 ≤ uintRange := by
        unfold uintRange
        omega
      by_cases hrest : 8192 < run.sizes.norm_size
      · exact iff_of_false (not_succeeds_regcache hrows hfamily hpos hrest eps)
          fun h => h.1 ⟨hrest, hcache⟩
      · rw [and_iff_right fun h => hrest h.1, and_iff_right hloop]
        apply succeeds_scalar hrows (by simp [hfamily])
          (fun _ => not_lt.mp hrest) _ hpos hnorm
        exact ended_of_rows hrows hfit (by simp [hfamily]) (by simp [hfamily])
    · rw [if_neg hcache] at hfamily
      have hrows : run.HasRows := hasRows fun _ => Or.inl hfamily
      rw [and_iff_right fun h => hcache h.2]
      by_cases hloop : run.sizes.norm_size + 256 ≤ uintRange
      · rw [and_iff_right hloop]
        apply succeeds_scalar hrows (by simp [hfamily]) (by simp [hfamily]) _ hpos hnorm
        exact ended_of_rows hrows hfit (by simp [hfamily]) fun _ => hloop
      · exact iff_of_false (not_succeeds_of_endless hrows hfamily hpos hloop eps)
          fun h => hloop h.1

/-- A register-cached kernel does not write element 8192 of the first row, nor does another index
wrap around to it. -/
theorem not_mem_writes_regcache (hfamily : run.kernel.family = .regcache)
    (hlong : 8192 < run.sizes.norm_size)
    (hfit : run.sizes.batch_size * run.sizes.norm_size ≤ uintRange) {eps : ℝ} {x w b : ℕ → ℝ}
    {v : ExtReal} : (0 * run.sizes.norm_size + 8192, v) ∉ run.writes eps x w b := by
  intro hv
  obtain ⟨⟨row, first⟩, hteam, r, hr, haddr, -⟩ := mem_writes.mp hv
  obtain ⟨hrow, hfirst⟩ := (hasRows (fun _ => Or.inr hfamily) _).mp hteam
  dsimp only at hrow hfirst hr haddr
  subst hfirst
  have hlt := lt_of_mem_teamElements hr
  have hindex := rowIndex_lt hrow hlt
  have hplace : run.address row r = row * run.sizes.norm_size + r := by
    simp only [address, hfamily]
    rw [toUInt_of_lt (show row * run.sizes.norm_size < uintRange by omega)]
    exact toUInt_of_lt (by omega)
  rw [hplace] at haddr
  obtain ⟨rfl, rfl⟩ := quotient_remainder_inj hlt hlong haddr
  exact not_mem_teamElements_regcache hfamily hr

end NormRun

end MetalNative
