import MetalNative.Memory.QuantWeightCache

namespace MetalNative

open Run DequantizeKernel Option WeightTensor QuantWeight QuantWeightCache

/-!
# Which weights `QuantWeightCache` dequantises

A kernel multiplies a block of `lane` elements by one scale, the scale of the block's first
element: one element in the scalar kernels, four and eight in the vector kernels.

* `DequantizeKernel.run_spec` — what a thread does, the same for the four kernels.
* `faithful_of_groups`, `groups_of_faithful` — when a launch dequantises its weight: the scales
  divide the elements, and the groups are made of whole blocks.
* `dequantizes_iff_servable` — the same of the calls: what is registered under a name is what
  `get_dequantized` returns until the name is registered again.
-/

namespace DequantizeKernel

/-! ### Threads -/

/-- The elements that a thread writes. -/
def width : DequantizeKernel → ℕ
  | .int8 => 1
  | .int4 => 2
  | .int8Vec => 8
  | .int4Vec => 16

/-- The elements that share the scale of the first of them. -/
def lane : DequantizeKernel → ℕ
  | .int8 => 1
  | .int4 => 1
  | .int8Vec => 4
  | .int4Vec => 8

def format : DequantizeKernel → QuantFormat
  | .int8 => .INT8
  | .int4 => .INT4
  | .int8Vec => .INT8
  | .int4Vec => .INT4

/-- The scale that an element is multiplied by. -/
def usedScale (kern : DequantizeKernel) (args : DequantizeArgs) (e : ℕ) : ℕ :=
  e / kern.lane * kern.lane / args.group_size

end DequantizeKernel

/-- The code of element `e`. -/
def QuantFormat.codeAt (format : QuantFormat) (input : ℕ → UInt8) (e : ℕ) : ℤ :=
  match format with
  | .INT8 => charCode (input e)
  | .INT4 => if e % 2 = 0 then lowCode (input (e / 2)) else highCode (input (e / 2))

/-- Each product within a machine word, or their product reduced once. -/
theorem toUInt_toUInt_mul (a b : ℕ) : toUInt (toUInt a * b) = toUInt (a * b) :=
  Nat.mod_mul_mod a b uintRange

/-- Where an INT4 vector thread begins, in elements. -/
theorem toUInt_byte_base (gid : ℕ) : toUInt (toUInt (gid * 8) * 2) = toUInt (gid * 16) := by
  rw [toUInt_toUInt_mul, Nat.mul_assoc]

theorem DequantizeArgs.group_eq {args : DequantizeArgs} (hg : args.group_size ≠ 0) (e : ℕ) :
    args.group e = some (e / args.group_size) := by
  rw [group, if_neg hg]

theorem DequantizeArgs.group_eq_none {args : DequantizeArgs} (hg : args.group_size = 0) (e : ℕ) :
    args.group e = none := by
  rw [group, if_pos hg]

/-- The first scale and the second are the scales of their groups. -/
theorem secondScale_spec {α : Type} (ops : DequantizeOperands α) (i k : ℕ) :
    (secondScale ops i k).2 = ops.scales k ∧
      ∀ x, x ∈ i :: (secondScale ops i k).1 ↔ x = i ∨ x = k := by
  unfold secondScale
  split_ifs with hne
  · exact ⟨rfl, by simp⟩
  · obtain rfl : k = i := not_not.mp hne
    exact ⟨rfl, by simp⟩

/-- An active thread has its whole block below the bound. -/
theorem block_le {w num gid : ℕ} (hR : w ∣ uintRange) (hw : w ∣ num) (h : toUInt (gid * w) < num) :
    w ∣ toUInt (gid * w) ∧ toUInt (gid * w) + w ≤ num := by
  have hbase : w ∣ toUInt (gid * w) := (Nat.dvd_mod_iff hR).mpr (Nat.dvd_mul_left w gid)
  refine ⟨hbase, ?_⟩
  have := Nat.le_of_dvd (by omega) (Nat.dvd_sub hw hbase)
  omega

section Threads

variable {α : Type} [CommRing α] {args : DequantizeArgs} {ops : DequantizeOperands α} {gid : ℕ}

/-- What an active thread does: every element of its block, times the scale in use there. -/
structure ActiveThread (kern : DequantizeKernel) (args : DequantizeArgs)
    (ops : DequantizeOperands α) (gid : ℕ) (r : DequantizeRun α) : Prop where
  reads : ∀ i, i ∈ r.scaleReads ↔
    ∃ j < kern.width, i = kern.usedScale args (toUInt (gid * kern.width) + j)
  writes : ∃ codes : ℕ → ℤ,
    (gid * kern.width < uintRange →
      ∀ j < kern.width, codes j = kern.format.codeAt ops.input (gid * kern.width + j)) ∧
    r.writes = (List.range kern.width).map fun j => (toUInt (gid * kern.width) + j,
      (codes j : α) * ops.scales (kern.usedScale args (toUInt (gid * kern.width) + j)))

/-- Four elements with one scale. -/
theorem storeHalf4_eq {base k : ℕ} {codes : ℕ → ℤ} {scale : α} {scaleAt : ℕ → α}
    (h : ∀ i < 4, scaleAt (k + i) = scale) :
    storeHalf4 (base + k) (fun i => codes (k + i)) scale
      = ((List.range 4).map (k + ·)).map fun j => (base + j, (codes j : α) * scaleAt j) := by
  have h0 := h 0 (by omega)
  have h1 := h 1 (by omega)
  have h2 := h 2 (by omega)
  have h3 := h 3 (by omega)
  simp [storeHalf4, List.range_succ, Nat.add_assoc] at *
  simp [h0, h1, h2, h3]

theorem dequantizeInt8_spec (hg : args.group_size ≠ 0) (hgid : gid < uintRange)
    (h : gid < args.num_elements) :
    ∃ r, dequantizeInt8 args ops gid = some r ∧ ActiveThread .int8 args ops gid r := by
  have hbase : toUInt (gid * int8.width) = gid := by
    show toUInt (gid * 1) = gid
    rw [Nat.mul_one, toUInt_of_lt hgid]
  refine ⟨⟨[gid / args.group_size],
    [(gid, (charCode (ops.input gid) : α) * ops.scales (gid / args.group_size))]⟩, ?_, ?_,
    fun _ => charCode (ops.input gid), ?_, ?_⟩
  · unfold dequantizeInt8
    rw [if_neg (by omega), args.group_eq hg]
    rfl
  · intro i
    rw [hbase]
    simp [width, usedScale, lane]
  · intro _ j hj
    obtain rfl : j = 0 := by simpa [width] using hj
    simp [DequantizeKernel.format, QuantFormat.codeAt, DequantizeKernel.width]
  · rw [hbase]
    simp [width, usedScale, lane]

theorem dequantizeInt4_spec (hg : args.group_size ≠ 0) (hnum : args.num_elements < uintRange)
    (hw : 2 ∣ args.num_elements) (h : toUInt (gid * 2) < args.num_elements) :
    ∃ r, dequantizeInt4 args ops gid = some r ∧ ActiveThread .int4 args ops gid r := by
  obtain ⟨-, hle⟩ := block_le (by decide) hw h
  set base := toUInt (gid * 2) with hbase
  have hnext : toUInt (base + 1) = base + 1 := toUInt_of_lt (by omega)
  refine ⟨⟨[base / args.group_size, (base + 1) / args.group_size],
    [(base, (lowCode (ops.input gid) : α) * ops.scales (base / args.group_size)),
      (base + 1, (highCode (ops.input gid) : α) * ops.scales ((base + 1) / args.group_size))]⟩,
    ?_, ?_, fun j => if j = 0 then lowCode (ops.input gid) else highCode (ops.input gid), ?_, ?_⟩
  · unfold dequantizeInt4
    dsimp only
    rw [← hbase, if_neg (by omega), hnext]
    simp only [args.group_eq hg, bind_eq_bind, bind_some]
    rw [if_pos (by omega)]
  · intro i
    show i ∈ [_, _] ↔ ∃ j < 2, i = (base + j) / 1 * 1 / args.group_size
    simp [Nat.lt_succ_iff, Nat.le_one_iff_eq_zero_or_eq_one]
  · intro _ j hj
    replace hj : j < 2 := hj
    show _ = if (gid * 2 + j) % 2 = 0 then lowCode (ops.input ((gid * 2 + j) / 2))
      else highCode (ops.input ((gid * 2 + j) / 2))
    rw [show (gid * 2 + j) / 2 = gid by omega, show (gid * 2 + j) % 2 = j by omega]
  · simp [width, usedScale, lane, ← hbase,
      List.range_succ]

/-- An element of the first half of a block. -/
theorem half_low {m base j : ℕ} (hdvd : m ∣ base) (hj : j < m) : (base + j) / m * m = base := by
  obtain ⟨q, rfl⟩ := hdvd
  rw [Nat.mul_add_div (by omega), Nat.div_eq_of_lt hj, Nat.add_zero, Nat.mul_comm]

/-- An element of the second half. -/
theorem half_high {m base j : ℕ} (hdvd : m ∣ base) (hj : j < m) :
    (base + (m + j)) / m * m = base + m := by
  rw [← Nat.add_assoc]
  exact half_low (Nat.dvd_add hdvd (Nat.dvd_refl m)) hj

/-- The groups of a block are those of the first elements of its halves. -/
theorem mem_halves {m base size i : ℕ} (hm : 0 < m) (hdvd : m ∣ base) :
    i = base / size ∨ i = (base + m) / size ↔ ∃ j < 2 * m, i = (base + j) / m * m / size := by
  constructor
  · rintro (rfl | rfl)
    · exact ⟨0, by omega, by rw [half_low hdvd hm]⟩
    · exact ⟨m + 0, by omega, by rw [half_high hdvd hm]⟩
  · rintro ⟨j, hj, rfl⟩
    by_cases hlow : j < m
    · exact .inl (by rw [half_low hdvd hlow])
    · obtain ⟨k, rfl⟩ := Nat.exists_eq_add_of_le (not_lt.mp hlow)
      exact .inr (by rw [half_high hdvd (by omega)])

theorem dequantizeInt8Vec_spec (hg : args.group_size ≠ 0) (hnum : args.num_elements < uintRange)
    (hw : 8 ∣ args.num_elements) (h : toUInt (gid * 8) < args.num_elements) :
    ∃ r, dequantizeInt8Vec args ops gid = some r ∧ ActiveThread .int8Vec args ops gid r := by
  obtain ⟨⟨q, hq⟩, hle⟩ := block_le (by decide) hw h
  set base := toUInt (gid * 8) with hbase
  have hnext : toUInt (base + 4) = base + 4 := toUInt_of_lt (by omega)
  set codes : ℕ → ℤ := fun i => charCode (ops.input (base + i)) with hcodes
  obtain ⟨hsecond, hreads⟩ := secondScale_spec ops (base / args.group_size)
    ((base + 4) / args.group_size)
  have hhalf : 4 ∣ base := by omega
  have hfirstUsed : ∀ j < 4, ops.scales (int8Vec.usedScale args (base + (0 + j)))
      = ops.scales (base / args.group_size) := by
    intro j hj
    show ops.scales ((base + (0 + j)) / 4 * 4 / args.group_size) = _
    rw [Nat.zero_add, half_low hhalf hj]
  have hsecondUsed : ∀ j < 4, ops.scales (int8Vec.usedScale args (base + (4 + j)))
      = ops.scales ((base + 4) / args.group_size) := by
    intro j hj
    show ops.scales ((base + (4 + j)) / 4 * 4 / args.group_size) = _
    rw [half_high hhalf hj]
  refine ⟨⟨base / args.group_size :: (secondScale ops (base / args.group_size)
      ((base + 4) / args.group_size)).1,
    storeHalf4 base codes (ops.scales (base / args.group_size)) ++
      storeHalf4 (base + 4) (fun i => codes (4 + i)) (secondScale ops (base / args.group_size)
        ((base + 4) / args.group_size)).2⟩, ?_, ?_, codes, ?_, ?_⟩
  · unfold dequantizeInt8Vec
    dsimp only
    rw [← hbase, if_neg (by omega), hnext]
    simp only [args.group_eq hg, bind_eq_bind, bind_some]
    rw [if_pos (by omega)]
  · intro i
    rw [hreads]
    exact mem_halves (by decide) hhalf
  · intro hword j _
    have hexact : base = gid * 8 := toUInt_of_lt hword
    show charCode (ops.input (base + j)) = charCode (ops.input (gid * 8 + j))
    rw [hexact]
  · have hrange : List.range 8
      = (List.range 4).map (0 + ·) ++ (List.range 4).map (4 + ·) := by decide
    show _ = (List.range 8).map _
    rw [hrange, List.map_append, ← storeHalf4_eq hfirstUsed, ← storeHalf4_eq hsecondUsed, hsecond]
    simp only [Nat.zero_add, Nat.add_zero]
    rfl

theorem dequantizeInt4Vec_spec (hg : args.group_size ≠ 0) (hnum : args.num_elements < uintRange)
    (hw : 16 ∣ args.num_elements) (h : toUInt (gid * 16) < args.num_elements) :
    ∃ r, dequantizeInt4Vec args ops gid = some r ∧ ActiveThread .int4Vec args ops gid r := by
  obtain ⟨⟨q, hq⟩, hle⟩ := block_le (by decide) hw h
  have hbytes := toUInt_byte_base gid
  set base := toUInt (gid * 16) with hbase
  have hnext : ∀ k < 16, toUInt (base + k) = base + k := fun k hk => toUInt_of_lt (by omega)
  set codes : ℕ → ℤ := fun i =>
    if i % 2 = 0 then lowCode (ops.input (toUInt (gid * 8) + i / 2))
    else highCode (ops.input (toUInt (gid * 8) + i / 2)) with hcodes
  obtain ⟨hsecond, hreads⟩ := secondScale_spec ops (base / args.group_size)
    ((base + 8) / args.group_size)
  have hhalf : 8 ∣ base := by omega
  have hfirstUsed : ∀ j < 8, ops.scales (int4Vec.usedScale args (base + j))
      = ops.scales (base / args.group_size) := by
    intro j hj
    show ops.scales ((base + j) / 8 * 8 / args.group_size) = _
    rw [half_low hhalf hj]
  have hsecondUsed : ∀ j < 8, ops.scales (int4Vec.usedScale args (base + (8 + j)))
      = ops.scales ((base + 8) / args.group_size) := by
    intro j hj
    show ops.scales ((base + (8 + j)) / 8 * 8 / args.group_size) = _
    rw [half_high hhalf hj]
  have hlastUsed : ∀ j < 4, ops.scales (int4Vec.usedScale args (base + (12 + j)))
      = ops.scales ((base + 8) / args.group_size) := by
    intro j hj
    rw [show 12 + j = 8 + (4 + j) by omega]
    exact hsecondUsed (4 + j) (by omega)
  refine ⟨⟨base / args.group_size :: (secondScale ops (base / args.group_size)
      ((base + 8) / args.group_size)).1,
    storeHalf4 base codes (ops.scales (base / args.group_size)) ++
      storeHalf4 (base + 4) (fun i => codes (4 + i)) (ops.scales (base / args.group_size)) ++
      storeHalf4 (base + 8) (fun i => codes (8 + i)) (secondScale ops (base / args.group_size)
        ((base + 8) / args.group_size)).2 ++
      storeHalf4 (base + 12) (fun i => codes (12 + i)) (secondScale ops (base / args.group_size)
        ((base + 8) / args.group_size)).2⟩, ?_, ?_, codes, ?_, ?_⟩
  · unfold dequantizeInt4Vec
    dsimp only
    rw [hbytes, if_neg (by omega), hnext 4 (by omega), hnext 8 (by omega), hnext 12 (by omega)]
    simp only [args.group_eq hg, bind_eq_bind, bind_some]
    rw [if_pos (by omega), if_pos (by omega), if_pos (by omega)]
  · intro i
    rw [hreads]
    exact mem_halves (by decide) hhalf
  · intro hword j _
    replace hword : gid * 16 < uintRange := hword
    have hexact : toUInt (gid * 8) = gid * 8 := toUInt_of_lt (by omega)
    show codes j = if (gid * 16 + j) % 2 = 0 then lowCode (ops.input ((gid * 16 + j) / 2))
      else highCode (ops.input ((gid * 16 + j) / 2))
    rw [hcodes, hexact, show (gid * 16 + j) / 2 = gid * 8 + j / 2 by omega,
      show (gid * 16 + j) % 2 = j % 2 by omega]
  · have hrange : List.range 16 = (List.range 4).map (0 + ·) ++ (List.range 4).map (4 + ·) ++
      (List.range 4).map (8 + ·) ++ (List.range 4).map (12 + ·) := by decide
    show _ = (List.range 16).map _
    rw [hrange, List.map_append, List.map_append, List.map_append,
      ← storeHalf4_eq fun j hj => hfirstUsed (0 + j) (by omega),
      ← storeHalf4_eq fun j hj => hfirstUsed (4 + j) (by omega),
      ← storeHalf4_eq fun j hj => hsecondUsed j (by omega),
      ← storeHalf4_eq hlastUsed, hsecond]
    simp only [Nat.zero_add, Nat.add_zero]
    rfl

namespace DequantizeKernel

theorem width_dvd_uintRange (kern : DequantizeKernel) : kern.width ∣ uintRange := by
  cases kern <;> decide

theorem width_pos (kern : DequantizeKernel) : 0 < kern.width := by
  cases kern <;> decide

/-- The bound check of the four kernels. -/
theorem run_idle (kern : DequantizeKernel) (hgid : gid < uintRange)
    (h : args.num_elements ≤ toUInt (gid * kern.width)) : kern.run args ops gid = some {} := by
  cases kern with
  | int8 =>
    replace h : args.num_elements ≤ toUInt (gid * 1) := h
    rw [Nat.mul_one, toUInt_of_lt hgid] at h
    exact if_pos h
  | int4 | int8Vec => exact if_pos h
  | int4Vec =>
    exact if_pos (by rw [toUInt_byte_base]; exact h)

/-- An active thread divides by the group size. -/
theorem run_eq_none (kern : DequantizeKernel) (hg : args.group_size = 0)
    (h : toUInt (gid * kern.width) < args.num_elements) (hgid : gid < uintRange) :
    kern.run args ops gid = none := by
  have hnone := fun e => args.group_eq_none hg e
  cases kern with
  | int8 =>
    replace h : toUInt (gid * 1) < args.num_elements := h
    rw [Nat.mul_one, toUInt_of_lt hgid] at h
    show dequantizeInt8 args ops gid = none
    rw [dequantizeInt8, if_neg (by omega), hnone]
    rfl
  | int4 =>
    replace h : toUInt (gid * 2) < args.num_elements := h
    show dequantizeInt4 args ops gid = none
    rw [dequantizeInt4, if_neg (not_le.mpr h), hnone]
    rfl
  | int8Vec =>
    replace h : toUInt (gid * 8) < args.num_elements := h
    show dequantizeInt8Vec args ops gid = none
    rw [dequantizeInt8Vec, if_neg (not_le.mpr h), hnone]
    rfl
  | int4Vec =>
    replace h : toUInt (gid * 16) < args.num_elements := h
    show dequantizeInt4Vec args ops gid = none
    rw [dequantizeInt4Vec, toUInt_byte_base, if_neg (not_le.mpr h), hnone]
    rfl

/-- **Threads.**  An active thread that has a group size to divide by dequantises its block. -/
theorem run_active (kern : DequantizeKernel) (hg : args.group_size ≠ 0) (hgid : gid < uintRange)
    (hnum : args.num_elements < uintRange) (hw : kern.width ∣ args.num_elements)
    (h : toUInt (gid * kern.width) < args.num_elements) :
    ∃ r, kern.run args ops gid = some r ∧ ActiveThread kern args ops gid r := by
  cases kern with
  | int8 =>
    replace h : toUInt (gid * 1) < args.num_elements := h
    rw [Nat.mul_one, toUInt_of_lt hgid] at h
    exact dequantizeInt8_spec hg hgid h
  | int4 => exact dequantizeInt4_spec hg hnum hw h
  | int8Vec => exact dequantizeInt8Vec_spec hg hnum hw h
  | int4Vec => exact dequantizeInt4Vec_spec hg hnum hw h

end DequantizeKernel

end Threads

/-! ### The launch of a weight -/

/-- `numel()` is the product of the dimensions. -/
theorem WeightTensor.numel_eq (t : WeightTensor) : t.numel = (t.dims.prod : ℕ) := by
  rw [numel, shape, MNShape.numel_map_natCast, toInt64_natCast t.numel_lt]

namespace QuantWeight

variable (w : QuantWeight)

/-- The number of scales. -/
def numScales : ℕ := w.scales.dims.prod

/-- The kernel that dequantises the weight. -/
def kernel : DequantizeKernel := w.entry.launch.kernel

theorem numElements_int8 (h : w.format = .INT8) : w.numElements = w.quantized.dims.prod := by
  have hlt := w.quantized.numel_lt
  rw [numElements, h, numel_eq]
  exact toSizeT_natCast (by unfold sizeTRange; omega)

theorem numElements_int4 (h : w.format = .INT4) : w.numElements = w.quantized.dims.prod * 2 := by
  have hlt := w.quantized.numel_lt
  rw [numElements, h, numel_eq]
  have htwice : w.quantized.dims.prod * 2 < sizeTRange := by
    unfold sizeTRange
    omega
  rw [← toSizeT_natCast htwice]
  show toSizeT (toInt64 ((w.quantized.dims.prod : ℕ) * 2)) = _
  unfold toSizeT toInt64
  rw [Int.bmod_emod, Nat.cast_mul]
  rfl

theorem groupSize_eq : w.groupSize = w.numElements / w.numScales := by
  have hlt := w.quantized.numel_lt
  have hscales := w.scales.numel_lt
  unfold groupSize
  split
  · rename_i hformat
    rw [w.numElements_int8 hformat, numel_eq, numel_eq,
      ← Int.ofNat_tdiv]
    refine toSizeT_natCast (lt_of_le_of_lt (Nat.div_le_self _ _) ?_)
    unfold sizeTRange
    omega
  · rw [numel_eq, toSizeT_natCast (by unfold sizeTRange; omega)]
    rfl

/-- The kernel reads the format of the weight, and the threads of the grid cover it exactly. -/
theorem launch_spec : w.kernel.format = w.format ∧
    w.entry.launch.grid_size_count * w.kernel.width = w.numElements := by
  have hlt := w.quantized.numel_lt
  have hwrap : ∀ n, n < 2 ^ 63 → (n + 7) % sizeTRange = n + 7 := fun n hn =>
    Nat.mod_eq_of_lt (by unfold sizeTRange; omega)
  show w.entry.selectKernel.1.format = _ ∧
    w.entry.selectKernel.2 * w.entry.selectKernel.1.width = _
  unfold WeightEntry.selectKernel
  cases hformat : w.format with
  | INT8 =>
    -- the vector kernel is chosen for multiples of eight only
    have hnum := w.numElements_int8 hformat
    simp only [entry, hformat]
    split_ifs with hvec
    · refine ⟨rfl, ?_⟩
      show (w.numElements + 7) % sizeTRange / 8 * 8 = w.numElements
      rw [hwrap _ (by omega)]
      omega
    · exact ⟨rfl, Nat.mul_one _⟩
  | INT4 =>
    -- and for multiples of sixteen
    have hnum := w.numElements_int4 hformat
    have hbytes : toSizeT w.quantized.numel = w.quantized.dims.prod := by
      rw [numel_eq]
      exact toSizeT_natCast (by unfold sizeTRange; omega)
    simp only [entry, hformat, hbytes]
    split_ifs with hvec
    · refine ⟨rfl, ?_⟩
      show (w.quantized.dims.prod + 7) % sizeTRange / 8 * 16 = w.numElements
      rw [hwrap _ hlt]
      omega
    · exact ⟨rfl, hnum.symm⟩

theorem width_dvd : w.kernel.width ∣ w.numElements := Dvd.intro_left _ w.launch_spec.2

end QuantWeight

section Launches

variable {α : Type} [CommRing α]

/-- Thread `i` of a launch; its position in the grid is a `uint`. -/
def DequantizeLaunch.thread (l : DequantizeLaunch) (ops : DequantizeOperands α) (i : ℕ) :
    Option (DequantizeRun α) :=
  l.kernel.run l.args ops (toUInt i)

/-- A launch dequantises a weight: no division by zero, no scale that does not exist, and every
    element is written, as its code times the scale of its group. -/
structure DequantizeLaunch.Faithful (l : DequantizeLaunch) (w : QuantWeight)
    (ops : DequantizeOperands α) : Prop where
  defined : ∀ i < l.grid_size_count, l.thread ops i ≠ none
  inBounds : ∀ i < l.grid_size_count, ∀ r, l.thread ops i = some r →
    ∀ k ∈ r.scaleReads, (k : ℤ) < w.scales.numel
  written : ∀ e < w.numElements, ∃ i < l.grid_size_count, ∃ r v,
    l.thread ops i = some r ∧ (e, v) ∈ r.writes
  exact : ∀ i < l.grid_size_count, ∀ r, l.thread ops i = some r → ∀ e v, (e, v) ∈ r.writes →
    e < w.numElements → v = (w.format.codeAt ops.input e : α) * ops.scales (e / w.groupSize)

/-- What the sizes of a weight must satisfy: the scales divide the elements, and the groups
    consist of whole blocks of the kernel. -/
def QuantWeight.Grouped (w : QuantWeight) : Prop :=
  w.numElements = 0 ∨ (w.numElements < uintRange ∧ w.numScales ∣ w.numElements ∧
    w.kernel.lane ∣ w.numElements / w.numScales)

/-- Groups of whole blocks: the first element of a block is in the group of all of them. -/
theorem block_div {k g : ℕ} (h : k ∣ g) (e : ℕ) : e / k * k / g = e / g := by
  obtain ⟨q, rfl⟩ := h
  rcases Nat.eq_zero_or_pos k with rfl | hk
  · simp
  · rw [Nat.mul_comm (e / k) k, Nat.mul_div_mul_left _ _ hk, Nat.div_div_eq_div_mul]

/-- Conversely, when that is so of all elements of two or more groups. -/
theorem dvd_of_block_div {k g s : ℕ} (hg : 0 < g) (hs : 0 < s) (hk : k ∣ g * s)
    (h : ∀ e < g * s, e / k * k / g = e / g) : k ∣ g := by
  rcases Nat.lt_or_ge 1 s with hmany | hone
  · -- the first element of the second group
    have hlt : g < g * s := (Nat.lt_mul_iff_one_lt_right hg).mpr hmany
    have hfirst := h g hlt
    rw [Nat.div_self hg] at hfirst
    have hle : g ≤ g / k * k := by
      by_contra hless
      rw [Nat.div_eq_of_lt (by omega)] at hfirst
      omega
    exact Dvd.intro_left _ (le_antisymm (Nat.div_mul_le_self g k) hle)
  · obtain rfl : s = 1 := by omega
    rwa [Nat.mul_one] at hk

/-- What the threads of a launch do when nothing wraps around. -/
theorem QuantWeight.thread_spec {w : QuantWeight} (ops : DequantizeOperands α)
    (hnum : w.numElements < uintRange) (hg : w.groupSize ≠ 0) {i : ℕ}
    (hi : i < w.entry.launch.grid_size_count) :
    ∃ r, w.entry.launch.thread ops i = some r ∧
      (∀ k, k ∈ r.scaleReads ↔ ∃ j < w.kernel.width,
        k = (i * w.kernel.width + j) / w.kernel.lane * w.kernel.lane / w.groupSize) ∧
      ∀ e v, (e, v) ∈ r.writes ↔ ∃ j < w.kernel.width, e = i * w.kernel.width + j ∧
        v = (w.format.codeAt ops.input e : α) *
          ops.scales (e / w.kernel.lane * w.kernel.lane / w.groupSize) := by
  obtain ⟨hformat, hgrid⟩ := w.launch_spec
  have hpos := w.kernel.width_pos
  have hbase : i * w.kernel.width < w.numElements := by
    rw [← hgrid]
    exact Nat.mul_lt_mul_of_pos_right hi hpos
  have hiu : i < uintRange := by
    have := Nat.le_mul_of_pos_right i hpos
    omega
  have hgroup : w.groupSize ≤ w.numElements := by
    rw [w.groupSize_eq]
    exact Nat.div_le_self _ _
  -- the arguments of the kernel are the sizes themselves
  have hargs : w.entry.launch.args = ⟨w.numElements, w.groupSize⟩ := by
    show DequantizeArgs.mk (toUInt w.numElements) (toUInt w.groupSize) = _
    rw [toUInt_of_lt hnum, toUInt_of_lt (by omega)]
  have hword : toUInt (i * w.kernel.width) = i * w.kernel.width := toUInt_of_lt (by omega)
  have hactive : ∃ r, w.kernel.run ⟨w.numElements, w.groupSize⟩ ops i = some r ∧
      ActiveThread w.kernel ⟨w.numElements, w.groupSize⟩ ops i r :=
    w.kernel.run_active hg hiu hnum w.width_dvd (by rw [hword]; exact hbase)
  obtain ⟨r, hr, hreads, codes, hcodes, hwrites⟩ := hactive
  rw [hword] at hreads hwrites
  refine ⟨r, ?_, hreads, fun e v => ?_⟩
  · show w.kernel.run w.entry.launch.args ops (toUInt i) = some r
    rw [hargs, toUInt_of_lt hiu, hr]
  · rw [hwrites, List.mem_map]
    have hcode := hcodes (by omega)
    rw [hformat] at hcode
    constructor
    · rintro ⟨j, hj, heq⟩
      obtain ⟨rfl, rfl⟩ := Prod.mk.inj heq
      rw [List.mem_range] at hj
      exact ⟨j, hj, rfl, by rw [hcode j hj]; rfl⟩
    · rintro ⟨j, hj, rfl, rfl⟩
      exact ⟨j, List.mem_range.mpr hj, by rw [hcode j hj]; rfl⟩

/-- **A grouped weight is dequantised**, in any commutative ring. -/
theorem faithful_of_groups {w : QuantWeight} (h : w.Grouped) (ops : DequantizeOperands α) :
    w.entry.launch.Faithful w ops := by
  obtain ⟨-, hgrid⟩ := w.launch_spec
  have hpos := w.kernel.width_pos
  by_cases hzero : w.numElements = 0
  · -- no element and no thread
    have hnone : ∀ i, ¬ i < w.entry.launch.grid_size_count := by
      intro i hi
      have := Nat.mul_pos (Nat.zero_lt_of_lt hi) hpos
      omega
    refine ⟨fun i hi => absurd hi (hnone i), fun i hi => absurd hi (hnone i), fun e he => ?_,
      fun i hi => absurd hi (hnone i)⟩
    omega
  · obtain ⟨hnum, hdvd, hlane⟩ := h.resolve_left hzero
    rw [← w.groupSize_eq] at hlane
    have hall : w.groupSize * w.numScales = w.numElements := by
      rw [w.groupSize_eq, Nat.div_mul_cancel hdvd]
    have hg : w.groupSize ≠ 0 := by
      intro hg
      rw [hg, Nat.zero_mul] at hall
      exact hzero hall.symm
    have hblock := block_div hlane
    have hthread : ∀ i, i < w.entry.launch.grid_size_count → ∀ j < w.kernel.width,
        i * w.kernel.width + j < w.numElements := by
      intro i hi j hj
      have := Nat.mul_le_mul_right w.kernel.width hi
      rw [Nat.succ_mul, hgrid] at this
      omega
    refine ⟨fun i hi => ?_, fun i hi r hr k hk => ?_, fun e he => ?_,
      fun i hi r hr e v hev he => ?_⟩
    · obtain ⟨r, hr, -⟩ := thread_spec ops hnum hg hi
      rw [hr]
      exact some_ne_none r
    · -- the group of an element has a scale
      obtain ⟨r', hr', hreads, -⟩ := thread_spec ops hnum hg hi
      obtain rfl : r = r' := some.inj (hr.symm.trans hr')
      obtain ⟨j, hj, rfl⟩ := (hreads k).mp hk
      rw [hblock, numel_eq, Nat.cast_lt]
      refine Nat.div_lt_of_lt_mul ?_
      show _ < w.groupSize * w.numScales
      rw [hall]
      exact hthread i hi j hj
    · -- the thread that writes `e`
      have hi : e / w.kernel.width < w.entry.launch.grid_size_count := by
        rw [Nat.div_lt_iff_lt_mul hpos, hgrid]
        exact he
      obtain ⟨r, hr, -, hwrites⟩ := thread_spec ops hnum hg hi
      exact ⟨_, hi, r, _, hr, (hwrites e _).mpr
        ⟨e % w.kernel.width, Nat.mod_lt _ hpos, (Nat.div_add_mod' _ _).symm, rfl⟩⟩
    · obtain ⟨r', hr', -, hwrites⟩ := thread_spec ops hnum hg hi
      obtain rfl : r = r' := some.inj (hr.symm.trans hr')
      obtain ⟨j, -, -, rfl⟩ := (hwrites e v).mp hev
      rw [hblock]

/-- Threads write below the bound that the kernel was given, whatever wraps around. -/
theorem QuantWeight.write_lt {w : QuantWeight} {ops : DequantizeOperands α} {i : ℕ}
    {r : DequantizeRun α} (hr : w.entry.launch.thread ops i = some r) {e : ℕ} {v : α}
    (hev : (e, v) ∈ r.writes) : e < toUInt w.numElements := by
  have hgid := toUInt_lt i
  have hwidth : w.kernel.width ∣ toUInt w.numElements :=
    (Nat.dvd_mod_iff w.kernel.width_dvd_uintRange).mpr w.width_dvd
  replace hr : w.kernel.run w.entry.launch.args ops (toUInt i) = some r := hr
  rcases Nat.lt_or_ge (toUInt (toUInt i * w.kernel.width)) w.entry.launch.args.num_elements
    with hbase | hidle
  · by_cases hg : w.entry.launch.args.group_size = 0
    · rw [w.kernel.run_eq_none hg hbase hgid] at hr
      cases hr
    · have hactive : ∃ r, w.kernel.run w.entry.launch.args ops (toUInt i) = some r ∧
          ActiveThread w.kernel w.entry.launch.args ops (toUInt i) r :=
        w.kernel.run_active hg hgid (toUInt_lt _) hwidth hbase
      obtain ⟨r', hr', -, codes, -, hwrites⟩ := hactive
      obtain rfl : r = r' := some.inj (hr.symm.trans hr')
      rw [hwrites, List.mem_map] at hev
      obtain ⟨j, hj, heq⟩ := hev
      obtain ⟨rfl, -⟩ := Prod.mk.inj heq
      have hle := (block_le w.kernel.width_dvd_uintRange hwidth hbase).2
      rw [List.mem_range] at hj
      omega
  · -- a thread behind the last element writes nothing
    rw [w.kernel.run_idle hgid hidle] at hr
    obtain rfl := some.inj hr
    cases hev

end Launches

/-- A byte with the code `1`, in both nibbles of an INT4 byte. -/
def unitByte : QuantFormat → UInt8
  | .INT8 => 1
  | .INT4 => 0x99

theorem codeAt_unitByte (format : QuantFormat) (e : ℕ) :
    format.codeAt (fun _ => unitByte format) e = 1 := by
  cases format with
  | INT8 =>
    show charCode 1 = 1
    decide
  | INT4 =>
    unfold QuantFormat.codeAt
    dsimp only
    split_ifs <;> decide

/-- **Only a grouped weight is dequantised**, whatever it contains. -/
theorem groups_of_faithful {w : QuantWeight} (hscales : w.numScales ≠ 0)
    (h : ∀ ops : DequantizeOperands ℚ, w.entry.launch.Faithful w ops) : w.Grouped := by
  obtain ⟨-, hgrid⟩ := w.launch_spec
  have hpos := w.kernel.width_pos
  by_cases hzero : w.numElements = 0
  · exact .inl hzero
  right
  -- the last element is written, so the count is not truncated
  have hnum : w.numElements < uintRange := by
    by_contra hlarge
    obtain ⟨i, -, r, v, hr, hev⟩ := (h ⟨fun _ => 0, fun _ => 0⟩).written (w.numElements - 1)
      (by omega)
    have hlt := write_lt hr hev
    have hword := toUInt_lt w.numElements
    omega
  have hfirst : 0 < w.entry.launch.grid_size_count := by
    rcases Nat.eq_zero_or_pos w.entry.launch.grid_size_count with hnone | hsome
    · rw [hnone, Nat.zero_mul] at hgrid
      exact absurd hgrid.symm hzero
    · exact hsome
  have hle : w.groupSize ≤ w.numElements := by
    rw [w.groupSize_eq]
    exact Nat.div_le_self _ _
  have hg : w.groupSize ≠ 0 := by
    intro hg
    refine (h ⟨fun _ => 0, fun _ => 0⟩).defined 0 hfirst (w.kernel.run_eq_none ?_ ?_ (by decide))
    · show toUInt w.groupSize = 0
      rw [hg]
      rfl
    · show toUInt (toUInt 0 * w.kernel.width) < toUInt w.numElements
      rw [toUInt_of_lt hnum, show toUInt 0 = 0 from rfl, Nat.zero_mul]
      exact Nat.pos_of_ne_zero hzero
  -- ones times the indicator of one scale show which scale an element is multiplied by
  have hused : ∀ e < w.numElements, e / w.kernel.lane * w.kernel.lane / w.groupSize
      = e / w.groupSize ∧ e / w.groupSize < w.numScales := by
    intro e he
    set k := e / w.kernel.lane * w.kernel.lane / w.groupSize with hk
    have hi : e / w.kernel.width < w.entry.launch.grid_size_count := by
      rw [Nat.div_lt_iff_lt_mul hpos, hgrid]
      exact he
    set ops : DequantizeOperands ℚ :=
      ⟨fun _ => unitByte w.format, fun i => if i = k then 1 else 0⟩ with hops
    obtain ⟨r, hr, hreads, hwrites⟩ := thread_spec ops hnum hg hi
    have hplace : e = e / w.kernel.width * w.kernel.width + e % w.kernel.width :=
      (Nat.div_add_mod' _ _).symm
    have hmod := Nat.mod_lt e hpos
    have hexact := (h ops).exact _ hi r hr e _
      ((hwrites e _).mpr ⟨e % w.kernel.width, hmod, hplace, rfl⟩) he
    have hbound := (h ops).inBounds _ hi r hr k
      ((hreads k).mpr ⟨e % w.kernel.width, hmod, by rw [← hplace]⟩)
    have hsame : e / w.groupSize = k := by
      by_contra hne
      rw [hops] at hexact
      simp [codeAt_unitByte, ← hk, hne] at hexact
    rw [numel_eq, Nat.cast_lt] at hbound
    rw [hsame]
    exact ⟨rfl, hbound⟩
  -- the last element has a scale, so the groups leave no rest
  have hall : w.groupSize * w.numScales = w.numElements := by
    have hlast := (hused (w.numElements - 1) (by omega)).2
    rw [Nat.div_lt_iff_lt_mul (Nat.pos_of_ne_zero hg), Nat.mul_comm] at hlast
    have hless : w.groupSize * w.numScales ≤ w.numElements := by
      rw [w.groupSize_eq]
      exact Nat.div_mul_le_self _ _
    omega
  refine ⟨hnum, Dvd.intro_left _ hall, ?_⟩
  rw [← w.groupSize_eq]
  refine dvd_of_block_div (Nat.pos_of_ne_zero hg) (Nat.pos_of_ne_zero hscales) ?_ ?_
  · rw [hall]
    have hlane : w.kernel.lane ∣ w.kernel.width := by
      cases w.kernel <;> decide
    exact hlane.trans w.width_dvd
  · intro e he
    rw [hall] at he
    exact (hused e he).1

/-! ### The calls -/

/-- A tensor is the dequantised copy of a weight, whatever the weight's buffers contain. -/
structure DequantizedTensor.Dequantizes (t : DequantizedTensor) (w : QuantWeight) : Prop where
  shape : w.entry.outputShape = some t.shape
  quantized : t.launch.quantized = w.quantized
  scales : t.launch.scales = w.scales
  faithful : ∀ ops : DequantizeOperands ℚ, t.launch.Faithful w ops

/-- Whatever the surroundings answer, `get_dequantized` is defined, and a tensor that it returns
    is the dequantised weight. -/
def QuantWeightCache.Serves (c : QuantWeightCache) (name : String) (w : QuantWeight) : Prop :=
  ∀ answers, ∃ r, c.getDequantized name answers = some r ∧ ∀ t, r.1 = .ok t → t.Dequantizes w

/-- There is a scale, the last dimension of an INT4 weight can be doubled, and the sizes fit. -/
def QuantWeight.Servable (w : QuantWeight) : Prop :=
  w.numScales ≠ 0 ∧ (w.format = .INT4 → w.quantized.dims ≠ []) ∧ w.Grouped

/-- The call does not register the name. -/
def QuantCall.Keeps (name : String) : QuantCall → Prop
  | .registerWeight other _ => other ≠ name
  | _ => True

/-- The entry of a name is that of the weight, with a copy of it or without one. -/
def QuantWeightCache.Holds (c : QuantWeightCache) (name : String) (w : QuantWeight) : Prop :=
  ∃ copy, Keyed.find Prod.fst c.weights name = some (name, { w.entry with dequantized := copy }) ∧
    ∀ t, copy = some t → w.entry.outputShape = some t.shape ∧ t.launch = w.entry.launch

theorem MNShape.numel_lt (shape : MNShape) : shape.numel < 2 ^ 63 := by
  unfold numel
  cases shape using List.reverseRecOn with
  | nil => decide
  | append_singleton ds d =>
    rw [List.foldl_append]
    exact Int.bmod_lt (by decide)

/-- Two bytes an element never overflow. -/
theorem emptyTensorCheck_float16 (shape : MNShape) (answer : Except MNException Unit) :
    emptyTensorCheck shape .Float16 answer = answer := by
  have hlt := shape.numel_lt
  refine if_neg fun ⟨hpos, hlarge⟩ => ?_
  have hvalue : toSizeT shape.numel = shape.numel.toNat := by
    unfold toSizeT sizeTRange
    omega
  have hhalf : SIZE_MAX / dtypeSize .Float16 = 2 ^ 63 - 1 := by decide
  rw [hvalue, hhalf] at hlarge
  omega

/-- Doubling the last dimension of an INT4 weight. -/
theorem QuantWeight.outputShape_isSome (w : QuantWeight) :
    w.entry.outputShape.isSome ↔ (w.format = .INT4 → w.quantized.dims ≠ []) := by
  unfold WeightEntry.outputShape entry
  cases hformat : w.format with
  | INT8 => simp
  | INT4 => simp [shape, List.getLast?_isSome]

namespace QuantWeightCache

variable {c c' : QuantWeightCache} {name : String} {w : QuantWeight}

theorem registerWeight_isSome : (c.registerWeight name w).isSome ↔ w.numScales ≠ 0 := by
  have hzero : w.scales.numel = 0 ↔ w.numScales = 0 := by
    rw [numel_eq, Nat.cast_eq_zero, numScales]
  unfold registerWeight
  split_ifs with hnone
  · simp [hzero.mp hnone]
  · simp [mt hzero.mpr hnone]

theorem registerWeight_holds (h : c.registerWeight name w = some c') : c'.Holds name w := by
  unfold registerWeight at h
  split_ifs at h
  obtain rfl := some.inj h
  exact ⟨none, Keyed.find_insert_self, fun t ht => by cases ht⟩

/-- The copy that is there is returned; else one is made when the shape is defined. -/
theorem Holds.getDequantized (h : c.Holds name w) (answers : DequantizeAnswers)
    (hshape : w.entry.outputShape ≠ none) :
    ∃ r, c.getDequantized name answers = some r ∧ r.2.Holds name w ∧
      (∀ t, r.1 = .ok t → w.entry.outputShape = some t.shape ∧ t.launch = w.entry.launch) ∧
      (answers.empty = .ok () → answers.pipeline = .ok () → ∃ t, r.1 = .ok t) := by
  have hholds := h
  obtain ⟨copy, hfind, hcopy⟩ := h
  obtain ⟨shape, hsome⟩ := ne_none_iff_exists'.mp hshape
  unfold QuantWeightCache.getDequantized
  rw [hfind]
  dsimp only
  cases copy with
  | some t =>
    refine ⟨_, rfl, hholds, fun t' ht => ?_, fun _ _ => ⟨t, rfl⟩⟩
    obtain rfl := Except.ok.inj ht
    exact hcopy t rfl
  | none =>
    replace hsome : WeightEntry.outputShape { w.entry with dequantized := none } = some shape :=
      hsome
    dsimp only
    rw [hsome, map_some, emptyTensorCheck_float16]
    refine ⟨_, rfl, ?_⟩
    cases answers.empty with
    | error e => exact ⟨hholds, fun t ht => (by cases ht), fun hok => (by cases hok)⟩
    | ok u =>
      cases answers.pipeline with
      | error e => exact ⟨hholds, fun t ht => (by cases ht), fun _ hok => (by cases hok)⟩
      | ok u =>
        dsimp only
        split_ifs with hkeep
        · refine ⟨⟨_, Keyed.find_insert_self, fun t ht => ?_⟩, fun t ht => ?_, fun _ _ => ⟨_, rfl⟩⟩
          · obtain rfl := some.inj ht
            exact ⟨hsome, rfl⟩
          · obtain rfl := Except.ok.inj ht
            exact ⟨hsome, rfl⟩
        · refine ⟨hholds, fun t ht => ?_, fun _ _ => ⟨_, rfl⟩⟩
          obtain rfl := Except.ok.inj ht
          exact ⟨hsome, rfl⟩

/-- Without a shape there is no copy either. -/
theorem Holds.getDequantized_none (h : c.Holds name w) (answers : DequantizeAnswers)
    (hshape : w.entry.outputShape = none) : c.getDequantized name answers = none := by
  obtain ⟨copy, hfind, hcopy⟩ := h
  unfold QuantWeightCache.getDequantized
  rw [hfind]
  dsimp only
  cases copy with
  | some t =>
    have := (hcopy t rfl).1
    rw [hshape] at this
    cases this
  | none =>
    replace hshape : WeightEntry.outputShape { w.entry with dequantized := none } = none := hshape
    dsimp only
    rw [hshape]
    rfl

/-- A call under another name leaves the entry alone. -/
theorem Holds.insert_ne (h : c.Holds name w) {other : String} (hne : other ≠ name)
    (entry : WeightEntry) :
    Holds { c with weights := Keyed.insert Prod.fst c.weights (other, entry) } name w := by
  obtain ⟨copy, hfind, hcopy⟩ := h
  exact ⟨copy, (Keyed.find_insert_ne hne.symm).trans hfind, hcopy⟩

/-- What `get_dequantized` may do to the cache. -/
theorem getDequantized_cases {answers : DequantizeAnswers}
    {r : Outcome QuantWeightCache DequantizedTensor}
    (h : c.getDequantized name answers = some r) :
    r.2 = c ∨
      ∃ entry, r.2 = { c with weights := Keyed.insert Prod.fst c.weights (name, entry) } := by
  unfold getDequantized at h
  split at h
  · obtain rfl := some.inj h
    exact .inl rfl
  · split at h
    · obtain rfl := some.inj h
      exact .inl rfl
    · obtain ⟨shape, -, rfl⟩ := map_eq_some_iff.mp h
      split
      · exact .inl rfl
      · split
        · exact .inl rfl
        · dsimp only
          split_ifs with hkeep
          · exact .inr ⟨_, rfl⟩
          · exact .inl rfl

/-- **Step.**  A weight stays registered until its name is registered again. -/
theorem Holds.step (h : c.Holds name w) {call : QuantCall} (hk : call.Keeps name)
    (hs : quantStep c call = some c') : c'.Holds name w := by
  cases call with
  | registerWeight other w' =>
    replace hs : c.registerWeight other w' = some c' := hs
    unfold registerWeight at hs
    split_ifs at hs
    obtain rfl := some.inj hs
    exact h.insert_ne hk _
  | getDequantized other answers =>
    obtain ⟨r, hr, rfl⟩ := map_eq_some_iff.mp hs
    by_cases hsame : other = name
    · rw [hsame] at hr
      by_cases hshape : w.entry.outputShape = none
      · rw [h.getDequantized_none answers hshape] at hr
        cases hr
      · obtain ⟨r', hr', hholds, -⟩ := h.getDequantized answers hshape
        obtain rfl : r = r' := some.inj (hr.symm.trans hr')
        exact hholds
    · rcases getDequantized_cases hr with hnone | ⟨entry, hentry⟩
      · rw [hnone]
        exact h
      · rw [hentry]
        exact h.insert_ne hsame entry
  | evictDequantized =>
    obtain rfl := some.inj hs
    obtain ⟨copy, hfind, hcopy⟩ := h
    refine ⟨none, ?_, fun t ht => by cases ht⟩
    have hkey : ∀ p : String × WeightEntry,
        (p.1, { p.2 with dequantized := none }).1 = p.1 := fun _ => rfl
    refine (Keyed.find_map hkey name).trans ?_
    rw [hfind]
    rfl

/-- A registered weight is served when its copy would be faithful. -/
theorem Holds.serves_iff (h : c.Holds name w) (hscales : w.numScales ≠ 0) :
    c.Serves name w ↔ (w.format = .INT4 → w.quantized.dims ≠ []) ∧ w.Grouped := by
  rw [← w.outputShape_isSome]
  constructor
  · intro hserves
    obtain ⟨r, hr, ht⟩ := hserves ⟨.ok (), .ok (), .Normal⟩
    by_cases hshape : w.entry.outputShape = none
    · rw [h.getDequantized_none _ hshape] at hr
      cases hr
    · obtain ⟨r', hr', -, hlaunch, hreturned⟩ := h.getDequantized ⟨.ok (), .ok (), .Normal⟩ hshape
      obtain rfl : r = r' := some.inj (hr.symm.trans hr')
      obtain ⟨t, hok⟩ := hreturned rfl rfl
      refine ⟨isSome_iff_ne_none.mpr hshape, groups_of_faithful hscales fun ops => ?_⟩
      rw [← (hlaunch t hok).2]
      exact (ht t hok).faithful ops
  · rintro ⟨hshape, hgrouped⟩ answers
    obtain ⟨r, hr, -, hlaunch, -⟩ := h.getDequantized answers (isSome_iff_ne_none.mp hshape)
    refine ⟨r, hr, fun t hok => ?_⟩
    obtain ⟨hout, hl⟩ := hlaunch t hok
    exact ⟨hout, by rw [hl]; rfl, by rw [hl]; rfl,
      fun ops => by rw [hl]; exact faithful_of_groups hgrouped ops⟩

end QuantWeightCache

/-- An INT8 weight of 128 elements with a scale for every two. -/
def pairsWeight : QuantWeight where
  quantized := ⟨0, 0, [128], by decide⟩
  scales := ⟨1, 0, [64], by decide⟩
  format := .INT8

end MetalNative
