import MetalNative.Ops.NormalizationCoverage

namespace MetalNative

open ExtReal NormFamily ThreadLoop List

/-!
# The fused residual and RMS normalisation

A translation of `fast::fused_residual_norm` in `future_stubs.mm` and of the kernels of
`fused_residual_norm.metal`.  In the first pass a thread adds its elements and puts the sums into
the output, or into its registers; in the second pass it takes the sums from there.

* `fusedResidualNorm` — the checks, the selection of the kernel and the launch.
* `FusedRun.sources` — the sums of the first pass that a thread may find in the second one.
* `FusedRun.writes` — the final writes of a launch.
* `FusedRun.succeeds_iff` — the launches that compute the normalised sums.
* `fused_residual_norm_computes` — the calls that equal the composition of `add` and `rms_norm`.
-/

/-! ### The host -/

/-- A launch; `dtype` is the type of the elements that the kernel reads and writes. -/
structure FusedRun where
  kernel : NormKernel
  dtype : MNDType
  sizes : NormSizes
  deriving DecidableEq, Repr

/-- The kernel for a data type: those that are not `Float32` share the half precision ones. -/
def fusedKernel (dtype : MNDType) (norm_size : ℕ) : NormKernel × MNDType :=
  let use_large : Bool := norm_size ≥ 2048
  let use_regcache : Bool := use_large ∧ norm_size ≤ 8192
  if dtype = .Float32 then
    if use_regcache then (⟨"fused_residual_rms_norm_regcache_fp32", .regcache⟩, .Float32)
    else if use_large then (⟨"fused_residual_rms_norm_large_fp32", .large⟩, .Float32)
    else (⟨"fused_residual_rms_norm_fp32", .basic⟩, .Float32)
  else
    if use_regcache then (⟨"fused_residual_rms_norm_regcache_fp16", .regcache⟩, .Float16)
    else if use_large then (⟨"fused_residual_rms_norm_large_fp16", .large⟩, .Float16)
    else (⟨"fused_residual_rms_norm_fp16", .basic⟩, .Float16)

/-- `fast::fused_residual_norm`, once the output has been allocated. -/
def fusedResidualNorm {α : Type*} (input residual weight : MNTensor α) :
    Except MNException FusedRun := do
  if input.dtype ≠ residual.dtype then
    throw ⟨.InvalidArgument,
      "fast::fused_residual_norm: input and residual must have same dtype"⟩
  if input.dtype ≠ weight.dtype then
    throw ⟨.InvalidArgument, "fast::fused_residual_norm: input and weight must have same dtype"⟩
  if input.numel ≠ residual.numel then
    throw ⟨.InvalidArgument,
      "fast::fused_residual_norm: input and residual must have same number of elements"⟩
  if input.shape.length = 0 then
    throw ⟨.InvalidArgument, "MNShape index -1 out of range for shape with 0 dimensions"⟩
  let norm_size := toUInt (toSizeT (input.shape.getD (input.shape.length - 1) 0))
  let batch_size := toUInt (toSizeT (input.numel.tdiv norm_size))
  if weight.numel ≠ norm_size then
    throw ⟨.InvalidArgument,
      "fast::fused_residual_norm: weight size must match input's last dimension"⟩
  let (kernel, dtype) := fusedKernel input.dtype norm_size
  return { kernel, dtype, sizes := { batch_size, norm_size } }

/-! ### The kernels -/

namespace FusedRun

variable (run : FusedRun)

/-- `base + i`. -/
def address (row i : ℕ) : ℕ := toUInt (toUInt (row * run.sizes.norm_size) + i)

/-- The sum of two elements. -/
noncomputable def val (x res : ℕ → ℝ) (row i : ℕ) : ExtReal :=
  real (x (run.address row i)) + real (res (run.address row i))

/-- What the threads of a row go through: the row, the position in the team and the element.  A row
has one SIMD group, or one threadgroup of 256 threads. -/
def rowAccesses (row : ℕ) : List (ℕ × ℕ × ℕ) :=
  (List.range run.kernel.family.threads).flatMap fun lane =>
    (run.kernel.family.elements run.sizes.norm_size lane).map fun i => (row, lane, i)

/-- What all threads go through. -/
def accesses : List (ℕ × ℕ × ℕ) := (List.range run.sizes.batch_size).flatMap run.rowAccesses

/-- The elements that enter the sum of squares of a row. -/
def rowElements (row : ℕ) : List ℕ := (run.rowAccesses row).map fun access => access.2.2

/-- The accesses of the first pass whose sum may be found in the second pass: those to the same
element of the output, or the one with the same place in the registers of the thread. -/
def sources (access : ℕ × ℕ × ℕ) : List (ℕ × ℕ × ℕ) :=
  match run.kernel.family with
  | .regcache =>
    let loop := stride access.2.1 256 run.sizes.norm_size
    let cached := loop.take 32
    ((loop.zip cached).filter fun turn => turn.1 = access.2.2).map fun turn =>
      (access.1, access.2.1, turn.2)
  | .basic | .vec | .large =>
    run.accesses.filter fun store =>
      run.address store.1 store.2.2 = run.address access.1 access.2.2

/-- The sum of squares of a row. -/
noncomputable def sumSq (x res : ℕ → ℝ) (row : ℕ) : ExtReal :=
  run.kernel.family.teamSum run.sizes.norm_size
    (fun i => run.val x res row i * run.val x res row i) 0

/-- What is written in the second pass, for a sum of the first one. -/
noncomputable def output (eps : ℝ) (x res w : ℕ → ℝ) (access source : ℕ × ℕ × ℕ) : ExtReal :=
  let rms_inv := real 1 / sqrt (run.sumSq x res access.1 / real run.sizes.norm_size + real eps)
  run.val x res source.1 source.2.2 * rms_inv * real (w access.2.2)

/-- The final writes: the index and what may be written there. -/
noncomputable def writes (eps : ℝ) (x res w : ℕ → ℝ) : List (ℕ × ExtReal) :=
  run.accesses.flatMap fun access => (run.sources access).map fun source =>
    (run.address access.1 access.2.2, run.output eps x res w access source)

/-- The loops of all threads end in fewer than `fuel` turns. -/
def ended (fuel : ℕ) : Bool :=
  (List.range run.sizes.batch_size).all fun _ => (List.range run.kernel.family.threads).all
    fun lane => run.kernel.family.ended run.sizes.norm_size fuel lane

end FusedRun

/-! ### The launch -/

namespace FusedRun

variable {run : FusedRun}

/-- What a launch is to do: it ends, the second pass of a thread takes the sums that the same thread
has made for the same index, every index of a row enters the sum of squares once, and every element
of the output is written once, with the normalised sum. -/
structure Succeeds (run : FusedRun) (eps : ℝ) : Prop where
  ended : ∃ enough, ∀ fuel ≥ enough, run.ended fuel = true
  sources : ∀ access ∈ run.accesses, run.sources access = [access]
  squares : ∀ row < run.sizes.batch_size,
    (run.rowElements row).Perm (List.range run.sizes.norm_size)
  once : ∀ row < run.sizes.batch_size, ∀ i < run.sizes.norm_size,
    (run.accesses.map fun access => run.address access.1 access.2.2).count
      (row * run.sizes.norm_size + i) = 1
  values : ∀ x res w : ℕ → ℝ, ∀ row < run.sizes.batch_size, ∀ i < run.sizes.norm_size, ∀ v,
    (row * run.sizes.norm_size + i, v) ∈ run.writes eps x res w →
      v = normReference .rms eps run.sizes.norm_size
        (fun j => x (row * run.sizes.norm_size + j) + res (row * run.sizes.norm_size + j)) w
        (fun _ => 0) i

theorem mem_accesses {row lane i : ℕ} :
    (row, lane, i) ∈ run.accesses ↔ row < run.sizes.batch_size ∧ lane < run.kernel.family.threads
      ∧ i ∈ run.kernel.family.elements run.sizes.norm_size lane := by
  simp only [accesses, rowAccesses, mem_flatMap, mem_map, mem_range, Prod.mk.injEq]
  constructor
  · rintro ⟨_, hrow, _, hlane, _, hi, rfl, rfl, rfl⟩
    exact ⟨hrow, hlane, hi⟩
  · rintro ⟨hrow, hlane, hi⟩
    exact ⟨row, hrow, lane, hlane, i, hi, rfl, rfl, rfl⟩

/-- The thread of an element. -/
theorem lane_eq (hfamily : run.kernel.family ≠ .vec) {lane i : ℕ}
    (hlane : lane < run.kernel.family.threads)
    (hi : i ∈ run.kernel.family.elements run.sizes.norm_size lane) :
    lane = i % run.kernel.family.threads := by
  cases hcase : run.kernel.family with
  | vec => exact absurd hcase hfamily
  | basic | large =>
    rw [hcase] at hlane hi
    exact ((mem_stride_iff_mod hlane).mp hi).1.symm
  | regcache =>
    rw [hcase] at hlane hi
    exact ((mem_stride_iff_mod hlane).mp (mem_of_mem_take hi)).1.symm

theorem nodup_elements {family : NormFamily} (hfamily : family ≠ .vec) (n lane : ℕ) :
    (family.elements n lane).Nodup := by
  cases family with
  | vec => exact absurd rfl hfamily
  | basic | large => exact nodup_stride (by decide)
  | regcache => exact (nodup_stride (by decide)).sublist (take_sublist _ _)

theorem nodup_accesses (hfamily : run.kernel.family ≠ .vec) : run.accesses.Nodup := by
  rw [accesses, nodup_flatMap]
  constructor
  · intro row _
    rw [rowAccesses, nodup_flatMap]
    constructor
    · intro lane _
      apply (nodup_elements hfamily _ lane).map
      intro i j hij
      simpa using hij
    · apply nodup_range.imp
      intro lane lane' hne access hin hin'
      obtain ⟨i, -, rfl⟩ := mem_map.mp hin
      obtain ⟨j, -, hj⟩ := mem_map.mp hin'
      exact hne (by simpa using (Prod.mk.inj (Prod.mk.inj hj).2).1.symm)
  · apply nodup_range.imp
    intro row row' hne access hin hin'
    simp only [rowAccesses, mem_flatMap, mem_map] at hin hin'
    obtain ⟨_, -, i, -, rfl⟩ := hin
    obtain ⟨_, -, j, -, hj⟩ := hin'
    exact hne (Prod.mk.inj hj).1.symm

/-- No index wraps around. -/
theorem address_eq (hfit : run.sizes.batch_size * run.sizes.norm_size ≤ uintRange) {row i : ℕ}
    (hrow : row < run.sizes.batch_size) (hi : i < run.sizes.norm_size) :
    run.address row i = row * run.sizes.norm_size + i := by
  have hle := Nat.mul_le_mul_right run.sizes.norm_size (Nat.succ_le_of_lt hrow)
  rw [Nat.succ_mul] at hle
  rw [address, toUInt_of_lt (show row * run.sizes.norm_size < uintRange by omega)]
  exact toUInt_of_lt (by omega)

/-- **One access for each element of the output.** -/
theorem eq_of_address_eq (hfamily : run.kernel.family ≠ .vec)
    (hfit : run.sizes.batch_size * run.sizes.norm_size ≤ uintRange) {a b : ℕ × ℕ × ℕ}
    (ha : a ∈ run.accesses) (hb : b ∈ run.accesses)
    (h : run.address a.1 a.2.2 = run.address b.1 b.2.2) : a = b := by
  obtain ⟨row, lane, i⟩ := a
  obtain ⟨row', lane', j⟩ := b
  obtain ⟨hrow, hlane, hi⟩ := mem_accesses.mp ha
  obtain ⟨hrow', hlane', hj⟩ := mem_accesses.mp hb
  rw [address_eq hfit hrow (lt_of_mem_elements hi),
    address_eq hfit hrow' (lt_of_mem_elements hj)] at h
  obtain ⟨rfl, rfl⟩ := quotient_remainder_inj (lt_of_mem_elements hi) (lt_of_mem_elements hj) h
  rw [lane_eq hfamily hlane hi, lane_eq hfamily hlane' hj]

/-- **The second pass takes the thread's own sum.** -/
theorem sources_eq (hfamily : run.kernel.family ≠ .vec)
    (hcache : run.kernel.family = .regcache → run.sizes.norm_size ≤ 8192)
    (hfit : run.sizes.batch_size * run.sizes.norm_size ≤ uintRange) {access : ℕ × ℕ × ℕ}
    (haccess : access ∈ run.accesses) : run.sources access = [access] := by
  have hmemory : (run.accesses.filter fun store =>
      run.address store.1 store.2.2 = run.address access.1 access.2.2) = [access] := by
    have hone := count_eq_one_of_mem (nodup_accesses hfamily) haccess
    have hown : (run.accesses.filter fun store => store = access) = [access] := by
      rw [filter_eq, hone, replicate_one]
    rw [← hown]
    apply filter_congr
    intro store hstore
    rw [decide_eq_decide]
    exact ⟨fun h => eq_of_address_eq hfamily hfit hstore haccess h, fun h => by rw [h]⟩
  cases hcase : run.kernel.family with
  | vec => exact absurd hcase hfamily
  | basic | large => simpa only [sources, hcase] using hmemory
  | regcache =>
    obtain ⟨row, lane, i⟩ := access
    obtain ⟨-, -, hi⟩ := mem_accesses.mp haccess
    rw [hcase] at hi
    have hmem : i ∈ stride lane 256 run.sizes.norm_size := mem_of_mem_take hi
    -- the registers hold the sums of all turns
    have hzip : (stride lane 256 run.sizes.norm_size).zip
        ((stride lane 256 run.sizes.norm_size).take 32)
          = (stride lane 256 run.sizes.norm_size).map fun j => (j, j) := by
      rw [take_stride (hcache hcase), ← map_id (stride lane 256 run.sizes.norm_size),
        zip_map', map_id]
      rfl
    have hturn : (stride lane 256 run.sizes.norm_size).filter (fun j => j = i) = [i] := by
      rw [filter_eq, count_eq_one_of_mem (nodup_stride (by decide)) hmem,
        replicate_one]
    simp only [sources, hcase, hzip, filter_map, Function.comp_def, hturn]
    rfl

/-- **The launches that compute the normalised sums.** -/
theorem succeeds_of_fits (hfamily : run.kernel.family ≠ .vec)
    (hcache : run.kernel.family = .regcache → run.sizes.norm_size ≤ 8192)
    (hlarge : run.kernel.family = .large → run.sizes.norm_size + 256 ≤ uintRange)
    (hbasic : run.kernel.family = .basic → run.sizes.norm_size + 32 ≤ uintRange)
    (hn : 1 ≤ run.sizes.norm_size) (hlt : run.sizes.norm_size < uintRange)
    (hfit : run.sizes.batch_size * run.sizes.norm_size ≤ uintRange) (eps : ℝ) :
    run.Succeeds eps := by
  have helements : ∀ row, (run.rowElements row).Perm (range run.sizes.norm_size) := by
    intro row
    have hmap : run.rowElements row = (range run.kernel.family.threads).flatMap
        (run.kernel.family.elements run.sizes.norm_size) := by
      simp only [rowElements, rowAccesses, map_flatMap, map_map, Function.comp_def,
        map_id']
    rw [hmap]
    exact elements_perm hcache
  have hwritten : ∀ row < run.sizes.batch_size, ∀ i < run.sizes.norm_size,
      ∃ lane, (row, lane, i) ∈ run.accesses := by
    intro row hrow i hi
    have hmem := (helements row).mem_iff.mpr (mem_range.mpr hi)
    obtain ⟨⟨row', lane, j⟩, haccess, rfl⟩ := mem_map.mp hmem
    simp only [rowAccesses, mem_flatMap, mem_map, mem_range, Prod.mk.injEq]
      at haccess
    obtain ⟨_, hlane, _, hj, rfl, rfl, rfl⟩ := haccess
    exact ⟨_, mem_accesses.mpr ⟨hrow, hlane, hj⟩⟩
  refine ⟨?_, ?_, fun row _ => helements row, ?_, ?_⟩
  · refine ⟨run.sizes.norm_size + 1, ?_⟩
    intro fuel hfuel
    rw [FusedRun.ended, all_eq_true]
    intro row _
    rw [all_eq_true]
    intro lane hlane
    exact ended_of_fits hlt hbasic hlarge (mem_range.mp hlane) hfuel
  · intro access haccess
    exact sources_eq hfamily hcache hfit haccess
  · intro row hrow i hi
    apply count_eq_one_of_mem
    · apply (nodup_accesses hfamily).map_on
      intro a ha b hb h
      exact eq_of_address_eq hfamily hfit ha hb h
    · obtain ⟨lane, hmem⟩ := hwritten row hrow i hi
      exact mem_map.mpr ⟨_, hmem, address_eq hfit hrow hi⟩
  · intro x res w row hrow i hi v hv
    simp only [writes, mem_flatMap, mem_map, Prod.mk.injEq] at hv
    obtain ⟨access, haccess, source, hsource, haddr, rfl⟩ := hv
    rw [sources_eq hfamily hcache hfit haccess, mem_singleton] at hsource
    subst hsource
    obtain ⟨row', lane, j⟩ := source
    obtain ⟨hrow', -, hj⟩ := mem_accesses.mp haccess
    rw [address_eq hfit hrow' (lt_of_mem_elements hj)] at haddr
    obtain ⟨rfl, rfl⟩ := quotient_remainder_inj (lt_of_mem_elements hj) hi haddr
    -- the row of the sums, as it is read
    have hread : ∀ k < run.sizes.norm_size,
        x (run.address row' k) + res (run.address row' k)
          = x (row' * run.sizes.norm_size + k) + res (row' * run.sizes.norm_size + k) := by
      intro k hk
      rw [address_eq hfit hrow' hk]
    rw [← normReference_congr .rms eps hread w (fun _ => 0) hi,
      ← normOutput_eq .rms run.kernel.family eps hn]
    simp only [output, sumSq, val, real_add, real_mul, teamSum_eq hcache, normOutput]

/-- A launch without rows. -/
theorem succeeds_of_zero (hbatch : run.sizes.batch_size = 0) (eps : ℝ) : run.Succeeds eps := by
  have hnone : run.accesses = [] := by simp [accesses, hbatch]
  refine ⟨⟨0, ?_⟩, ?_, ?_, ?_, ?_⟩
  · intro fuel _
    simp [FusedRun.ended, hbatch]
  · simp [hnone]
  all_goals
    intros
    omega

/-- An index behind the words is not written. -/
theorem not_succeeds_of_wrap (hbatch : 0 < run.sizes.batch_size) (hn : 1 ≤ run.sizes.norm_size)
    (hwrap : uintRange < run.sizes.batch_size * run.sizes.norm_size) (eps : ℝ) :
    ¬ run.Succeeds eps := by
  intro h
  have hone := h.once _ (Nat.sub_one_lt_of_lt hbatch) _ (Nat.sub_one_lt_of_lt hn)
  have hmem := count_pos_iff.mp (lt_of_lt_of_eq Nat.one_pos hone.symm)
  obtain ⟨access, -, haddr⟩ := mem_map.mp hmem
  have hword : run.address access.1 access.2.2 < uintRange := toUInt_lt _
  have hend : (run.sizes.batch_size - 1) * run.sizes.norm_size + (run.sizes.norm_size - 1) + 1
      = run.sizes.batch_size * run.sizes.norm_size := by
    rw [Nat.add_assoc, Nat.sub_add_cancel hn, ← Nat.add_one_mul, Nat.sub_add_cancel hbatch]
  omega

/-- The loop of the first thread goes on forever over a row that is too long. -/
theorem not_succeeds_of_endless (hfamily : run.kernel.family = .large)
    (hbatch : 0 < run.sizes.batch_size) (hlong : ¬ run.sizes.norm_size + 256 ≤ uintRange)
    (eps : ℝ) : ¬ run.Succeeds eps := by
  intro h
  obtain ⟨enough, henough⟩ := h.ended
  have hrow := all_eq_true.mp (henough enough (le_refl _)) 0 (mem_range.mpr hbatch)
  rw [hfamily] at hrow
  have hthread := all_eq_true.mp hrow 0 (by simp [threads])
  rw [ended_large_of_long hlong] at hthread
  simp at hthread

end FusedRun

/-! ### The calls -/

/-- The last dimension. -/
def lastDim {α : Type*} (t : MNTensor α) : ℕ := t.dims.getD (t.dims.length - 1) 0

/-- `add` and `rms_norm` accept the tensors, and the sum has the shape of the input. -/
structure UnfusedAccepts {α : Type*} (input residual weight : MNTensor α) : Prop where
  contiguous : input.isContiguous = true ∧ residual.isContiguous = true
  shape : input.shape.broadcastWith residual.shape = .ok input.shape
  weight : isNormVector weight (lastDim input) = true

/-- What a call is to do: it equals the composition, element by element of its output. -/
def FusedComputes (input residual weight : MNTensor ℝ) (eps : ℝ) : Prop :=
  UnfusedAccepts input residual weight ∧
    ∃ run, fusedResidualNorm input residual weight = .ok run ∧ run.dtype = input.dtype ∧
      run.sizes.norm_size = lastDim input ∧
      run.sizes.batch_size * run.sizes.norm_size = input.dims.prod ∧ run.Succeeds eps

/-- The numbers of elements for which no index wraps around. -/
def FusedFits (numel last : ℕ) : Prop :=
  numel = 0 ∨ numel ≤ uintRange ∧ (8192 < last → last + 256 ≤ uintRange)

theorem fusedKernel_spec {dtype : MNDType} (hdtype : dtype = .Float32 ∨ dtype = .Float16) (n : ℕ) :
    (fusedKernel dtype n).2 = dtype ∧ (fusedKernel dtype n).1.family
      = if n < 2048 then .basic else if n ≤ 8192 then .regcache else .large := by
  by_cases hshort : n < 2048
  · rcases hdtype with rfl | rfl
    · simp [fusedKernel, hshort, not_le.mpr hshort]
    · simp [fusedKernel, hshort, not_le.mpr hshort]
  · by_cases hcache : n ≤ 8192
    · rcases hdtype with rfl | rfl
      · simp [fusedKernel, hshort, not_lt.mp hshort, hcache]
      · simp [fusedKernel, hshort, not_lt.mp hshort, hcache]
    · rcases hdtype with rfl | rfl
      · simp [fusedKernel, hshort, not_lt.mp hshort, hcache]
      · simp [fusedKernel, hshort, not_lt.mp hshort, hcache]

/-- What an accepted call launches. -/
theorem fusedResidualNorm_eq {input residual weight : MNTensor ℝ} {run : FusedRun}
    (hcall : fusedResidualNorm input residual weight = .ok run) (hlast : lastDim input < uintRange)
    (hbatch : input.dims.prod / lastDim input < uintRange) :
    run.sizes = ⟨input.dims.prod / lastDim input, lastDim input⟩
      ∧ (run.kernel, run.dtype) = fusedKernel input.dtype (lastDim input) := by
  have hdim : input.shape.getD (input.shape.length - 1) 0 = (lastDim input : ℕ) := by
    rw [input.shape_getD, lastDim, MNTensor.shape, length_map]
  have hword : ∀ n : ℕ, n < uintRange → toUInt (toSizeT n) = n := by
    intro n hn
    rw [toSizeT_natCast (lt_of_lt_of_le hn (by decide)), toUInt_of_lt hn]
  have hrows : toUInt (toSizeT (input.numel.tdiv (lastDim input : ℕ)))
      = input.dims.prod / lastDim input := by
    rw [input.numel_eq, ← Int.ofNat_tdiv]
    exact hword _ hbatch
  simp only [fusedResidualNorm, hdim, hword _ hlast, hrows, bind, Except.bind, pure,
    Except.pure] at hcall
  split at hcall
  · cases hcall
  · split at hcall
    · cases hcall
    · split at hcall
      · cases hcall
      · split at hcall
        · cases hcall
        · split at hcall
          · cases hcall
          · obtain rfl := Except.ok.inj hcall
            exact ⟨rfl, rfl⟩

/-- The number of elements is a multiple of the last dimension. -/
theorem prod_div_lastDim {α : Type*} (t : MNTensor α) (hlast : 1 ≤ lastDim t) :
    t.dims.prod / lastDim t * lastDim t = t.dims.prod := by
  have hmem : lastDim t ∈ t.dims := by
    rw [lastDim] at hlast ⊢
    rw [getD_eq_getElem?_getD] at hlast ⊢
    cases hdim : t.dims[t.dims.length - 1]? with
    | none =>
      rw [hdim] at hlast
      simp at hlast
    | some d => exact mem_of_getElem? hdim
  exact Nat.div_mul_cancel (dvd_prod hmem)

/-- **The launch of an accepted call.** -/
theorem FusedRun.succeeds_iff {run : FusedRun} {batch n : ℕ}
    (hsizes : run.sizes = ⟨batch, n⟩) (hfamily : run.kernel.family
      = if n < 2048 then .basic else if n ≤ 8192 then .regcache else .large)
    (hn : 1 ≤ n) (hlt : n < uintRange) (eps : ℝ) :
    run.Succeeds eps ↔ FusedFits (batch * n) n := by
  have hnorm : run.sizes.norm_size = n := congrArg NormSizes.norm_size hsizes
  have hrows : run.sizes.batch_size = batch := congrArg NormSizes.batch_size hsizes
  have hvec : run.kernel.family ≠ .vec := by
    rw [hfamily]
    split_ifs <;> simp
  have hcache : run.kernel.family = .regcache → n ≤ 8192 := by
    rw [hfamily]
    split_ifs with h1 h2
    · simp
    · exact fun _ => h2
    · simp
  have hlarge : run.kernel.family = .large ↔ 8192 < n := by
    rw [hfamily]
    split_ifs with h1 h2
    · simp only [false_iff]
      omega
    · simp only [false_iff]
      omega
    · simp only [true_iff]
      omega
  have hbasic : run.kernel.family = .basic → n + 32 ≤ uintRange := by
    rw [hfamily]
    unfold uintRange
    split_ifs with h1 h2
    · intro _
      omega
    · simp
    · simp
  rw [FusedFits]
  constructor
  · intro h
    rcases Nat.eq_zero_or_pos batch with hzero | hpos
    · exact Or.inl (by rw [hzero, Nat.zero_mul])
    · right
      constructor
      · by_contra hwrap
        refine not_succeeds_of_wrap (by omega) (by omega) ?_ eps h
        rw [hrows, hnorm]
        omega
      · intro hlong
        by_contra hendless
        exact not_succeeds_of_endless (hlarge.mpr hlong) (by omega) (by rwa [hnorm]) eps h
  · intro h
    have hfit : batch * n ≤ uintRange := by
      rcases h with h | h
      · omega
      · exact h.1
    by_cases hloop : 8192 < n → n + 256 ≤ uintRange
    · apply succeeds_of_fits hvec
      · rwa [hnorm]
      · rw [hnorm]
        exact fun hfam => hloop (hlarge.mp hfam)
      · rwa [hnorm]
      · rwa [hnorm]
      · rwa [hnorm]
      · rwa [hrows, hnorm]
    · -- there is no row at all
      have hzero : batch * n = 0 := by
        rcases h with h | h
        · exact h
        · exact absurd h.2 hloop
      have hbatch : run.sizes.batch_size = 0 := by
        rw [hrows]
        exact (Nat.mul_eq_zero.mp hzero).resolve_right (by omega)
      exact succeeds_of_zero hbatch eps

/-- **The fused normalisation.** A call with sizes in the range of a word equals the composition of
`add` and `rms_norm`, for all contents of the tensors, exactly when these accept the tensors and no
index wraps around. -/
theorem fused_residual_norm_computes (input residual weight : MNTensor ℝ) (eps : ℝ)
    (hdtype : input.dtype = .Float32 ∨ input.dtype = .Float16) {run : FusedRun}
    (hcall : fusedResidualNorm input residual weight = .ok run)
    (hnorm : 1 ≤ lastDim input) (hlast : lastDim input < uintRange)
    (hbatch : input.dims.prod / lastDim input < uintRange) :
    FusedComputes input residual weight eps ↔ UnfusedAccepts input residual weight
      ∧ FusedFits input.dims.prod (lastDim input) := by
  obtain ⟨hsizes, hkernel⟩ := fusedResidualNorm_eq hcall hlast hbatch
  obtain ⟨hread, hfamily⟩ := fusedKernel_spec hdtype (lastDim input)
  rw [← hkernel] at hread hfamily
  have hiff := FusedRun.succeeds_iff hsizes hfamily hnorm hlast eps
  rw [prod_div_lastDim input hnorm] at hiff
  rw [FusedComputes, ← hiff]
  apply and_congr_right
  intro _
  constructor
  · rintro ⟨run', hcall', -, -, -, hsucceeds⟩
    obtain rfl := Except.ok.inj (hcall.symm.trans hcall')
    exact hsucceeds
  · intro hsucceeds
    refine ⟨run, hcall, hread, ?_, ?_, hsucceeds⟩
    · rw [hsizes]
    · rw [hsizes]
      exact prod_div_lastDim input hnorm

/-- Four rows of 3000 elements. -/
theorem fused_residual_norm_computes_rows :
    FusedComputes (indexTensor [4, 3000] .Float32 (by decide) (by decide))
      (indexTensor [4, 3000] .Float32 (by decide) (by decide))
      (indexTensor [3000] .Float32 (by decide) (by decide)) 1 :=
  (fused_residual_norm_computes _ _ _ 1 (Or.inl rfl) rfl (by decide) (by decide) (by decide)).mpr
    ⟨⟨by decide, rfl, by decide⟩, Or.inr ⟨by decide, fun h => absurd h (by decide)⟩⟩

/-- 65537 rows of 65536 elements: the last row has no index of its own. -/
theorem fused_residual_norm_computes_fails :
    UnfusedAccepts (indexTensor [65537, 65536] .Float16 (by decide) (by decide))
        (indexTensor [65537, 65536] .Float16 (by decide) (by decide))
        (indexTensor [65536] .Float16 (by decide) (by decide))
      ∧ ¬ FusedComputes (indexTensor [65537, 65536] .Float16 (by decide) (by decide))
        (indexTensor [65537, 65536] .Float16 (by decide) (by decide))
        (indexTensor [65536] .Float16 (by decide) (by decide)) 1 := by
  refine ⟨⟨by decide, rfl, by decide⟩, ?_⟩
  rintro ⟨-, run, hcall, -, -, -, hsucceeds⟩
  obtain rfl := Except.ok.inj hcall
  exact FusedRun.not_succeeds_of_wrap (by decide) (by decide) (by decide) 1 hsucceeds

end MetalNative
