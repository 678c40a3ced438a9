import MetalNative.Attention.QkvRope

namespace MetalNative

open Broadcast (Within)
open Rotation QkvArgs MNTensor SimdMatrix
open Strided (position)

/-!
# `fused_qkv_split_rope`: the condition is exact

* `QkvCall.accepted` — what the checks have established.
* `QkvCall.Split.fits` — a launch that does what it is to do; each element of the outputs has the
  one thread with its own coordinates.
* `QkvCall.Fits.split` — and the other way round.
-/

/-! ### The checks -/

theorem runChecks_eq_ok {cs : List (Except MNException Unit)} (h : runChecks cs = .ok ()) :
    ∀ c ∈ cs, c = .ok () := by
  induction cs with
  | nil => exact fun c hc => absurd hc List.not_mem_nil
  | cons c cs ih =>
    obtain ⟨u, hc, hrest⟩ := bind_eq_ok.mp h
    intro c' hc'
    rcases List.mem_cons.mp hc' with rfl | hmem
    · exact hc
    · exact ih hrest c' hmem

namespace QkvCall

variable {call : QkvCall} {run : QkvRun}

/-- What is known of an accepted call, and what is launched. -/
structure Accepted (call : QkvCall) (run : QkvRun) : Prop where
  args : run.args = call.args
  batch : call.args.batch = call.batches
  seq_len : call.args.seq_len = call.positions
  num_heads : call.args.num_heads = call.heads
  head_dim : call.args.head_dim = call.dims
  batches_lt : call.batches < uintRange
  positions_lt : call.positions < uintRange
  heads_lt : call.heads < uintRange
  dims_lt : call.dims < uintRange
  start_pos : 0 ≤ call.start_pos → call.args.start_pos = call.start_pos.toNat
  columns : 2 * call.args.threadPairs * (call.dims / (2 * call.args.threadPairs)) = call.dims
  lanes : call.args.lanes * (call.dims / call.args.lanes) = call.dims
  gridX : run.gridX = call.dims / (2 * call.args.threadPairs)
  gridY : run.gridY = call.positions
  gridZ : run.gridZ = call.batches * call.heads
  qkv_dims : call.qkv_proj.dims = [call.batches, call.positions, call.qkv_proj.dim 2]
  qkv_le : call.qkv_proj.dim 2 ≤ 3 * call.heads * call.dims
  qkv_eq : 3 * call.heads * call.dims < 2 ^ 63 →
    call.qkv_proj.dim 2 = 3 * call.heads * call.dims
  cos_dtype : call.cos_table.dtype = call.qkv_proj.dtype
  sin_dtype : call.sin_table.dtype = call.qkv_proj.dtype

/-- A size that has been checked. -/
theorem word_of_checked {n : ℤ} (hnonneg : 0 ≤ n)
    (h : uintSite "fused_qkv_split_rope" n = .ok ()) :
    uintOfInt n = n.toNat ∧ n.toNat < uintRange := by
  have hle := mnCheck_eq_ok.mp h
  unfold UINT32_MAX uintRange at hle
  refine ⟨uintOfInt_eq_toNat ⟨hnonneg, ?_⟩, ?_⟩
  · unfold uintRange
    omega
  · unfold uintRange
    omega

/-- The three parts of a row, counted in an `int64_t`. -/
theorem parts_eq {n : ℕ} {heads dims : ℤ} (hheads : 0 ≤ heads) (hdims : 0 ≤ dims)
    (h : (n : ℤ) = toInt64 (toInt64 (3 * heads) * dims)) :
    n ≤ 3 * heads.toNat * dims.toNat ∧
      (3 * heads.toNat * dims.toNat < 2 ^ 63 → n = 3 * heads.toNat * dims.toNat) := by
  have hprod : toInt64 (toInt64 (3 * heads) * dims)
      = toInt64 ((3 * heads.toNat * dims.toNat : ℕ) : ℤ) := by
    have hcast : ((3 * heads.toNat * dims.toNat : ℕ) : ℤ) = 3 * heads * dims := by
      push_cast
      rw [Int.toNat_of_nonneg hheads, Int.toNat_of_nonneg hdims]
    rw [hcast]
    unfold toInt64
    rw [Int.bmod_mul_bmod]
  rw [hprod] at h
  constructor
  · generalize 3 * heads.toNat * dims.toNat = parts at h ⊢
    unfold toInt64 at h
    rw [Int.bmod_def] at h
    unfold sizeTRange at h
    split_ifs at h <;> omega
  · intro hlt
    rw [toInt64_natCast hlt] at h
    exact_mod_cast h

/-- The word of a size in an `int64_t` that has wrapped around. -/
theorem toSizeT_toInt64 {n : ℕ} (h : n < sizeTRange) : toSizeT (toInt64 n) = n := by
  unfold toSizeT toInt64
  rw [Int.bmod_emod]
  exact toSizeT_natCast h

/-- The threads of a row and the vectors of a row, for even rows. -/
theorem row_eq (a : QkvArgs) {dims : ℕ} (heven : dims % 2 = 0)
    (hvec : a.vectorized = decide (dims % 4 = 0)) :
    2 * a.threadPairs * (dims / (2 * a.threadPairs)) = dims ∧ a.lanes * (dims / a.lanes) = dims := by
  unfold threadPairs lanes
  rw [hvec]
  by_cases hfour : dims % 4 = 0
  · simp only [hfour, decide_true, if_true]
    omega
  · simp only [hfour, decide_false, Bool.false_eq_true, if_false]
    omega

theorem accepted {pipeline : String → Except MNException Unit}
    (h : call.fusedQkvSplitRope pipeline = .ok run) : call.Accepted run := by
  unfold fusedQkvSplitRope at h
  obtain ⟨u, hcheck, h⟩ := bind_eq_ok.mp h
  obtain ⟨name, -, h⟩ := bind_eq_ok.mp h
  obtain ⟨-, -, h⟩ := bind_eq_ok.mp h
  obtain ⟨u', huint, h⟩ := bind_eq_ok.mp h
  obtain rfl := Except.ok.inj h
  unfold check at hcheck
  obtain ⟨hndim, hcheck⟩ := mnCheck_bind_eq_ok.mp hcheck
  obtain ⟨hbatch, hcheck⟩ := mnCheck_bind_eq_ok.mp hcheck
  obtain ⟨hseq, hcheck⟩ := mnCheck_bind_eq_ok.mp hcheck
  obtain ⟨hparts, hcheck⟩ := mnCheck_bind_eq_ok.mp hcheck
  obtain ⟨heven, hcheck⟩ := mnCheck_bind_eq_ok.mp hcheck
  obtain ⟨-, hcheck⟩ := mnCheck_bind_eq_ok.mp hcheck
  obtain ⟨-, hcheck⟩ := mnCheck_bind_eq_ok.mp hcheck
  obtain ⟨⟨hcos, hsin⟩, hcheck⟩ := mnCheck_bind_eq_ok.mp hcheck
  obtain ⟨-, hcheck⟩ := mnCheck_bind_eq_ok.mp hcheck
  obtain ⟨hq, -⟩ := mnCheck_bind_eq_ok.mp hcheck
  unfold isOutput at hq
  rw [decide_eq_true_eq] at hq
  obtain ⟨-, hheads, -, hdims⟩ := hq
  rw [shape_getD] at hbatch hseq hparts hheads hdims
  have hheads0 : 0 ≤ call.num_heads := by omega
  have hdims0 : 0 ≤ call.head_dim := by omega
  have hchecks := runChecks_eq_ok huint
  unfold uintChecks uintSizes at hchecks
  simp only [List.map_cons, List.map_nil, List.mem_cons, List.not_mem_nil, or_false, forall_eq_or_imp,
    forall_eq] at hchecks
  obtain ⟨hB, hS, hH, hD, hP⟩ := hchecks
  obtain ⟨hBw, hBlt⟩ := word_of_checked (by omega) hB
  obtain ⟨hSw, hSlt⟩ := word_of_checked (by omega) hS
  obtain ⟨hHw, hHlt⟩ := word_of_checked hheads0 hH
  obtain ⟨hDw, hDlt⟩ := word_of_checked hdims0 hD
  obtain ⟨hle, heq⟩ := parts_eq hheads0 hdims0 hparts
  have hcast : ((call.dims : ℕ) : ℤ) = call.head_dim := Int.toNat_of_nonneg hdims0
  have heven' : call.dims % 2 = 0 := by
    rw [← hcast, Int.tmod_eq_emod_of_nonneg (by omega)] at heven
    omega
  have hvec : call.args.vectorized = decide (call.dims % 4 = 0) := by
    change call.useVectorized = _
    unfold useVectorized
    rw [← hcast, Int.tmod_eq_emod_of_nonneg (by omega)]
    congr 1
    rw [eq_iff_iff]
    omega
  obtain ⟨hcolumns, hlanes⟩ := row_eq call.args heven' hvec
  refine {
    args := rfl
    batch := hBw
    seq_len := hSw
    num_heads := hHw
    head_dim := hDw
    batches_lt := hBlt
    positions_lt := hSlt
    heads_lt := hHlt
    dims_lt := hDlt
    start_pos := fun h0 => (word_of_checked h0 hP).1
    columns := hcolumns
    lanes := hlanes
    gridX := ?_
    gridY := ?_
    gridZ := ?_
    qkv_dims := ?_
    qkv_le := hle
    qkv_eq := heq
    cos_dtype := hcos.symm
    sin_dtype := hsin.symm }
  · dsimp only
    rw [← hcast]
    have huse : call.useVectorized = decide (call.dims % 4 = 0) := hvec
    unfold threadPairs
    rw [hvec, huse]
    have hword : ∀ k : ℕ, uintOfInt ((call.dims : ℤ).tdiv k) = call.dims / k := by
      intro k
      rw [← Int.ofNat_tdiv]
      exact uintOfInt_natCast (lt_of_le_of_lt (Nat.div_le_self _ _) hDlt)
    split_ifs
    · exact hword 4
    · exact hword 2
  · dsimp only
    rw [← Int.toNat_of_nonneg (by omega : 0 ≤ call.seq_len)]
    exact toSizeT_natCast (hSlt.trans (by decide))
  · dsimp only
    rw [← Int.toNat_of_nonneg (by omega : 0 ≤ call.batch), ← Int.toNat_of_nonneg hheads0,
      ← Nat.cast_mul]
    apply toSizeT_toInt64
    calc call.batch.toNat * call.num_heads.toNat
        < uintRange * uintRange := Nat.mul_lt_mul'' hBlt hHlt
      _ = sizeTRange := by decide
  · obtain ⟨b, s, n, hdims3⟩ := List.length_eq_three.mp hndim
    unfold batches positions
    rw [← hbatch, ← hseq]
    unfold dim
    rw [hdims3]
    rfl

/-! ### Threads and cells -/

theorem mem_workers {w : QkvWorker} : w ∈ run.workers ↔
    (w.x < 32 * run.gridX ∧ w.y < run.gridY ∧ w.z < run.gridZ) ∧ run.args.passes w.x w.y w.z ∧
      w.pair < run.args.threadPairs := by
  unfold QkvRun.workers QkvRun.threads
  obtain ⟨x, y, z, pair⟩ := w
  simp only [List.mem_map, List.mem_product, List.mem_filter, List.mem_range, decide_eq_true_eq,
    Prod.exists, QkvWorker.mk.injEq]
  constructor
  · rintro ⟨x', y', z', p, ⟨⟨hgrid, hpasses⟩, hp⟩, rfl, rfl, rfl, rfl⟩
    exact ⟨hgrid, hpasses, hp⟩
  · rintro ⟨hgrid, hpasses, hp⟩
    exact ⟨x, y, z, pair, ⟨⟨hgrid, hpasses⟩, hp⟩, rfl, rfl, rfl, rfl⟩

theorem nodup_workers (run : QkvRun) : run.workers.Nodup := by
  unfold QkvRun.workers QkvRun.threads
  apply List.Nodup.map
  · rintro ⟨⟨x, y, z⟩, p⟩ ⟨⟨x', y', z'⟩, p'⟩ heq
    simp only [QkvWorker.mk.injEq] at heq
    obtain ⟨rfl, rfl, rfl, rfl⟩ := heq
    rfl
  · have hgrid := (List.nodup_range (n := 32 * run.gridX)).product
      ((List.nodup_range (n := run.gridY)).product (List.nodup_range (n := run.gridZ)))
    exact (hgrid.filter _).product List.nodup_range

/-- An element of a vector. -/
theorem lanes_mul_add {L V D e : ℕ} (hD : L * V = D) (k : ℕ) :
    L * (k * V + e / L) + e % L = k * D + e := by
  have hdiv := Nat.div_add_mod e L
  have hmul : L * (k * V) = k * D := by
    rw [← hD]
    ring
  rw [Nat.mul_add]
  omega

section Accepted

variable (ha : call.Accepted run)

include ha

/-- The coordinates of what a thread writes. -/
theorem Accepted.bounds {w : QkvWorker} (hw : w ∈ run.workers) (second : Bool) :
    call.Element (run.args.b w) (run.args.h w) (toUInt w.y) (run.args.element (w, second)) := by
  obtain ⟨-, ⟨hx, hy, hz⟩, hpair⟩ := mem_workers.mp hw
  rw [ha.args] at hx hy hz hpair ⊢
  rw [ha.seq_len] at hy
  rw [ha.batch, ha.num_heads] at hz
  have hcolumns := ha.columns
  have hbit := Bool.toNat_lt second
  have hbh : toUInt w.z < call.batches * call.heads := hz.trans_le (Nat.mod_le _ _)
  have hheads : 0 < call.heads := by
    apply Nat.pos_of_ne_zero
    intro h0
    rw [h0, Nat.mul_zero] at hbh
    omega
  refine ⟨?_, ?_, hy, ?_⟩
  · unfold b
    rw [ha.num_heads]
    exact Nat.div_lt_of_lt_mul (by rwa [Nat.mul_comm] at hbh)
  · unfold h
    rw [ha.num_heads]
    exact Nat.mod_lt _ hheads
  · -- the pairs of a row are those of its threads
    unfold QkvArgs.columns at hx
    rw [ha.head_dim] at hx
    unfold element
    have hrow : call.args.threadPairs * toUInt w.x + w.pair
        < call.args.threadPairs * (call.dims / (2 * call.args.threadPairs)) := by
      calc call.args.threadPairs * toUInt w.x + w.pair
          < call.args.threadPairs * (toUInt w.x + 1) := by
            rw [Nat.mul_add_one]
            omega
        _ ≤ _ := Nat.mul_le_mul_left _ hx
    rw [Nat.mul_assoc] at hcolumns
    dsimp only
    omega

/-- The cell of `qkv_proj`, in rows of the vectors that the kernel counts. -/
theorem Accepted.sourceCell_eq (part : QkvPart) (w : QkvWorker) (second : Bool) :
    run.args.sourceCell part (w, second)
      = call.args.lanes * toUInt ((run.args.b w * call.positions + toUInt w.y) * call.args.qkv_vectors
          + ((part.index * call.heads + run.args.h w) * (call.dims / call.args.lanes)
            + run.args.element (w, second) / call.args.lanes))
        + run.args.element (w, second) % call.args.lanes := by
  unfold QkvArgs.sourceCell QkvArgs.offset QkvArgs.head_vectors
  rw [ha.args, ha.seq_len, ha.num_heads, ha.head_dim, toUInt_toUInt_add, Nat.add_assoc,
    Nat.add_assoc, toUInt_toUInt_add]
  congr 3
  ring

/-- The cell of an output, in rows of vectors. -/
theorem Accepted.outCell_eq (w : QkvWorker) (second : Bool) :
    run.args.outCell (w, second)
      = call.args.lanes * toUInt ((toUInt w.z * call.positions + toUInt w.y)
          * (call.dims / call.args.lanes) + run.args.element (w, second) / call.args.lanes)
        + run.args.element (w, second) % call.args.lanes := by
  unfold outCell out_base head_vectors
  rw [ha.args, ha.seq_len, ha.head_dim, toUInt_toUInt_add]
  congr 3
  ring

/-- The first cell of the tables that a thread reads. -/
theorem Accepted.tableCell_eq (hstart : 0 ≤ call.start_pos) (w : QkvWorker) :
    run.args.tableCell w = call.angleCell (toUInt w.y) (toUInt w.x) := by
  unfold QkvArgs.tableCell angleCell QkvArgs.columns
  rw [ha.args, ha.head_dim, ha.start_pos hstart, toUInt_toUInt_mul_add]

end Accepted

/-! ### Vectors and their words -/

/-- The last element is read: nothing has wrapped around. -/
theorem words_of_last {L N P q r y c : ℕ} (hq : L * q ≤ toUInt P) (hr : r < N) (hc : c < L)
    (hy : L * y + c < P) (heq : L * toUInt (r * q + y) + c = (N - 1) * P + (P - 1)) :
    N * P ≤ L * uintRange ∧ (N = 1 ∨ P < uintRange) := by
  have hlast : (N - 1) * P + P = N * P := by
    rw [← Nat.add_one_mul, Nat.sub_add_cancel (by omega)]
  constructor
  · have hword : L * (toUInt (r * q + y) + 1) ≤ L * uintRange :=
      Nat.mul_le_mul_left _ (toUInt_lt _)
    rw [Nat.mul_add_one] at hword
    omega
  · by_cases hN : N = 1
    · exact .inl hN
    · have hle : L * toUInt (r * q + y) ≤ L * (r * q + y) := Nat.mul_le_mul_left _ (Nat.mod_le _ _)
      have hrow : r * (L * q) ≤ (N - 1) * (L * q) := Nat.mul_le_mul_right _ (by omega)
      have hsplit : L * (r * q + y) = r * (L * q) + L * y := by ring
      have hrows : (N - 1) * P ≤ (N - 1) * (L * q) := by omega
      have hP : P ≤ L * q := Nat.le_of_mul_le_mul_left hrows (by omega)
      have hlt := toUInt_lt P
      exact .inr (by omega)

/-- And then an element is where it is counted. -/
theorem words_exact {L N P q r y c W : ℕ} (hL : 0 < L) (hW : L * W = P) (hq : q = toUInt P / L)
    (hmax : N * P ≤ L * uintRange) (hrows : N = 1 ∨ P < uintRange) (hr : r < N)
    (hy : L * y + c < P) : L * toUInt (r * q + y) + c = r * P + (L * y + c) := by
  have hrow : L * (r * q) = r * P := by
    rcases hrows with rfl | hP
    · obtain rfl : r = 0 := by omega
      simp
    · rw [hq, toUInt_of_lt hP, ← hW, Nat.mul_div_cancel_left _ hL]
      ring
  have hle : (r + 1) * P ≤ N * P := Nat.mul_le_mul_right _ hr
  rw [Nat.add_one_mul] at hle
  have hlt : r * q + y < uintRange := by
    apply Nat.lt_of_mul_lt_mul_left (a := L)
    rw [Nat.mul_add, hrow]
    omega
  rw [toUInt_of_lt hlt, Nat.mul_add, hrow]
  omega

/-- An element of an output is where it is counted. -/
theorem out_exact {L V D k e : ℕ} (hD : L * V = D) (hmax : k * D + e < L * uintRange) :
    L * toUInt (k * V + e / L) + e % L = k * D + e := by
  have hsplit := lanes_mul_add hD k (e := e)
  have hlt : k * V + e / L < uintRange := by
    apply Nat.lt_of_mul_lt_mul_left (a := L)
    omega
  rw [toUInt_of_lt hlt, hsplit]

theorem lanes_pos (call : QkvCall) : 0 < call.args.lanes := by
  unfold lanes
  split_ifs <;> omega

/-- The place of an element in a row. -/
theorem column_lt (part : QkvPart) {h d : ℕ} (hh : h < call.heads) (hd : d < call.dims) :
    (part.index * call.heads + h) * call.dims + d < 3 * call.heads * call.dims := by
  apply rowMajor_lt _ hd
  have hpart : part.index ≤ 2 := by cases part <;> decide
  have hle : part.index * call.heads ≤ 2 * call.heads := Nat.mul_le_mul_right _ hpart
  omega

section Exact

variable (ha : call.Accepted run)

include ha

/-- The vectors of a row of `qkv_proj`. -/
theorem Accepted.qkv_vectors_eq :
    call.args.qkv_vectors = toUInt (3 * call.heads * call.dims) / call.args.lanes := by
  unfold qkv_vectors
  rw [ha.num_heads, ha.head_dim]

/-- A place in a row, in vectors. -/
theorem Accepted.column_eq (part : QkvPart) (w : QkvWorker) (second : Bool) :
    call.args.lanes * ((part.index * call.heads + run.args.h w) * (call.dims / call.args.lanes)
        + run.args.element (w, second) / call.args.lanes)
      + run.args.element (w, second) % call.args.lanes
      = (part.index * call.heads + run.args.h w) * call.dims + run.args.element (w, second) :=
  lanes_mul_add ha.lanes _

/-- The cell of `qkv_proj` that is read. -/
theorem Accepted.sourceCell_exact
    (hmax : call.batches * call.positions * (3 * call.heads * call.dims)
      ≤ call.args.lanes * uintRange)
    (hrows : call.batches * call.positions = 1 ∨ 3 * call.heads * call.dims < uintRange)
    (part : QkvPart) {w : QkvWorker} (hw : w ∈ run.workers) (second : Bool) :
    run.args.sourceCell part (w, second)
      = (run.args.b w * call.positions + toUInt w.y) * (3 * call.heads * call.dims)
        + ((part.index * call.heads + run.args.h w) * call.dims
          + run.args.element (w, second)) := by
  have hel := ha.bounds hw second
  have hcol := ha.column_eq part w second
  have hlt := column_lt part hel.head hel.dim
  have hW : call.args.lanes * (3 * call.heads * (call.dims / call.args.lanes))
      = 3 * call.heads * call.dims := by
    conv_rhs => rw [← ha.lanes]
    ring
  rw [ha.sourceCell_eq, words_exact call.lanes_pos hW ha.qkv_vectors_eq hmax hrows
    (rowMajor_lt hel.batch hel.position) (by omega), hcol]

/-- The cell of an output that is written. -/
theorem Accepted.outCell_exact
    (hmax : call.batches * call.positions * (3 * call.heads * call.dims)
      ≤ call.args.lanes * uintRange)
    {w : QkvWorker} (hw : w ∈ run.workers) (second : Bool) :
    run.args.outCell (w, second)
      = ((run.args.b w * call.heads + run.args.h w) * call.positions + toUInt w.y) * call.dims
        + run.args.element (w, second) := by
  have hel := ha.bounds hw second
  have hz : toUInt w.z = run.args.b w * call.heads + run.args.h w := by
    unfold b h
    rw [ha.args, ha.num_heads, Nat.div_add_mod']
  have hlt := rowMajor_lt (rowMajor_lt
    (rowMajor_lt hel.batch hel.head) hel.position) hel.dim
  have hle : call.batches * call.heads * call.positions * call.dims
      ≤ call.batches * call.positions * (3 * call.heads * call.dims) := by
    calc call.batches * call.heads * call.positions * call.dims
        ≤ 3 * (call.batches * call.heads * call.positions * call.dims) := by omega
      _ = _ := by ring
  rw [ha.outCell_eq, hz]
  exact out_exact ha.lanes (by omega)

end Exact

/-! ### The elements -/

/-- The cell of an element of `qkv_proj`. -/
theorem cellOf_source (ha : call.Accepted run) (hcontiguous : call.qkv_proj.isContiguous = true)
    (hdim : call.qkv_proj.dim 2 = 3 * call.heads * call.dims) {part : QkvPart} {b h s d : ℕ}
    (hwithin : Within call.qkv_proj.dims (call.sourceIndex part b h s d)) :
    call.qkv_proj.cellOf (call.sourceIndex part b h s d)
      = (b * call.positions + s) * (3 * call.heads * call.dims)
        + ((part.index * call.heads + h) * call.dims + d) := by
  rw [cellOf_of_isContiguous hcontiguous hwithin, ha.qkv_dims, hdim]
  unfold sourceIndex
  simp only [position, List.prod_cons, List.prod_nil]
  ring

/-- The last element of the outputs. -/
theorem Element.last {b h s d : ℕ} (hel : call.Element b h s d) :
    call.Element (call.batches - 1) (call.heads - 1) (call.positions - 1) (call.dims - 1) := by
  have hb := hel.batch
  have hh := hel.head
  have hs := hel.position
  have hd := hel.dim
  exact ⟨by omega, by omega, by omega, by omega⟩

/-- The end of a row. -/
theorem last_column {H D : ℕ} (hH : 0 < H) (hD : 0 < D) :
    (2 * H + (H - 1)) * D + (D - 1) = 3 * H * D - 1 := by
  obtain ⟨h, rfl⟩ : ∃ h, H = h + 1 := ⟨H - 1, by omega⟩
  obtain ⟨d, rfl⟩ : ∃ d, D = d + 1 := ⟨D - 1, by omega⟩
  simp only [Nat.add_sub_cancel]
  have hprod : 3 * (h + 1) * (d + 1) = (2 * (h + 1) + h) * (d + 1) + (d + 1) := by ring
  omega

/-- The end of the rows. -/
theorem last_row {B S : ℕ} (hB : 0 < B) (hS : 0 < S) : (B - 1) * S + (S - 1) = B * S - 1 := by
  obtain ⟨b, rfl⟩ : ∃ b, B = b + 1 := ⟨B - 1, by omega⟩
  rw [Nat.add_sub_cancel, Nat.add_one_mul]
  omega

namespace Split

variable (h : call.Split run) (ha : call.Accepted run) (hadm : call.Admissible) {b hd s d : ℕ}
  (hel : call.Element b hd s d)

include h ha hel

/-- A row of `qkv_proj` has three parts. -/
theorem dim_eq : call.qkv_proj.dim 2 = 3 * call.heads * call.dims := by
  have hwithin := h.sources .v hel.last
  have hH : 0 < call.heads := by
    have hlt := hel.head
    omega
  have hD : 0 < call.dims := by
    have hlt := hel.dim
    omega
  rw [ha.qkv_dims] at hwithin
  obtain ⟨-, -, hlt, -⟩ := hwithin
  have hcol := last_column hH hD
  have hle := ha.qkv_le
  change (2 * call.heads + (call.heads - 1)) * call.dims + (call.dims - 1) < _ at hlt
  omega

include hadm

/-- No index wraps around. -/
theorem sized : call.batches * call.positions * (3 * call.heads * call.dims)
      ≤ call.args.lanes * uintRange ∧
    (call.batches * call.positions = 1 ∨ 3 * call.heads * call.dims < uintRange) := by
  have hlast := hel.last
  obtain ⟨⟨w, second⟩, hslot, -, hread, -⟩ := exists_copy_of_touching fun load =>
    h.copied hlast load
  have hw : w ∈ run.workers := mem_slots.mp hslot
  have hcell := (cellAt_eq_placeOf.mp hread).2
  rw [cellOf_source ha hadm.contiguous (h.dim_eq ha hel) (h.sources .v hlast),
    ha.sourceCell_eq] at hcell
  have hbounds := ha.bounds hw second
  have hcol := ha.column_eq .v w second
  have hlt := column_lt .v hbounds.head hbounds.dim
  have hB : 0 < call.batches := by
    have hb := hel.batch
    omega
  have hS : 0 < call.positions := by
    have hs := hel.position
    omega
  have hH : 0 < call.heads := by
    have hh := hel.head
    omega
  have hD : 0 < call.dims := by
    have hd := hel.dim
    omega
  have hend : (QkvPart.v.index * call.heads + (call.heads - 1)) * call.dims + (call.dims - 1)
      = 3 * call.heads * call.dims - 1 := last_column hH hD
  rw [last_row hB hS, hend] at hcell
  apply words_of_last _ (rowMajor_lt hbounds.batch hbounds.position)
    (Nat.mod_lt _ call.lanes_pos) (by omega) hcell
  rw [ha.qkv_vectors_eq]
  exact Nat.mul_div_le _ _

/-- The thread that writes an element of an output has its coordinates. -/
theorem exists_worker (part : QkvPart) : ∃ w ∈ run.workers, ∃ second,
    call.outPlace run part (w, second) = (call.out part).placeOf [b, hd, s, d] ∧
    (run.args.b w = b ∧ run.args.h w = hd ∧ toUInt w.y = s ∧ run.args.element (w, second) = d) ∧
    (part ≠ .v → call.reads run part w = call.pairReads part b hd s (d / 2)) ∧
    ∀ slot ∈ slots run.workers,
      (call.outPlace run part slot).overlaps ((call.out part).placeOf [b, hd, s, d]) = true →
        slot = (w, second) := by
  obtain ⟨hmax, hrows⟩ := h.sized ha hadm hel
  have hdim := h.dim_eq ha hel
  -- the cell that a worker reads tells its coordinates
  have hcoords : ∀ {w second}, w ∈ run.workers →
      call.sourcePlace run part (w, second)
        = call.qkv_proj.placeOf (call.sourceIndex part b hd s d) →
      run.args.b w = b ∧ run.args.h w = hd ∧ toUInt w.y = s ∧
        run.args.element (w, second) = d := by
    intro w second hw hread
    have hcell := (cellAt_eq_placeOf.mp hread).2
    have hbounds := ha.bounds hw second
    rw [ha.sourceCell_exact hmax hrows part hw,
      cellOf_source ha hadm.contiguous hdim (h.sources part hel)] at hcell
    obtain ⟨hrow, hcol⟩ := (rowMajor_inj (column_lt part hbounds.head hbounds.dim)
      (column_lt part hel.head hel.dim)).mp hcell
    obtain ⟨hb, hs⟩ := (rowMajor_inj hbounds.position hel.position).mp hrow
    obtain ⟨hh, hd⟩ := (rowMajor_inj hbounds.dim hel.dim).mp hcol
    exact ⟨hb, by omega, hs, hd⟩
  by_cases hpart : part = .v
  · subst hpart
    obtain ⟨⟨w, second⟩, hslot, hplace, hread, -, huniq⟩ := exists_copy_of_touching fun load =>
      h.copied hel load
    have hw : w ∈ run.workers := mem_slots.mp hslot
    exact ⟨w, hw, second, hplace, hcoords hw hread, fun hne => absurd rfl hne, huniq⟩
  · have hbit := two_mul_div_add_bit d
    have hel' : call.Element b hd s (2 * (d / 2) + (decide (d % 2 = 1)).toNat) := by
      rw [hbit]
      exact hel
    obtain ⟨w, hw, hplace, hreads, -, huniq⟩ := exists_slot_of_touching
      (h.rotated part hpart (decide (d % 2 = 1)) hel')
    rw [hbit] at hplace huniq
    have hread : call.sourcePlace run part (w, decide (d % 2 = 1))
        = call.qkv_proj.placeOf (call.sourceIndex part b hd s d) := by
      rcases Nat.mod_two_eq_zero_or_one d with hmod | hmod
      · simp only [hmod, zero_ne_one, decide_false, Bool.toNat_false, Nat.add_zero] at hbit ⊢
        have hfirst := congrArg Rotation.Reads.first hreads
        unfold reads pairReads at hfirst
        rw [hbit] at hfirst
        exact hfirst
      · simp only [hmod, decide_true, Bool.toNat_true] at hbit ⊢
        have hsecond := congrArg Rotation.Reads.second hreads
        unfold reads pairReads at hsecond
        rw [hbit] at hsecond
        exact hsecond
    exact ⟨w, hw, _, hplace, hcoords hw hread, fun _ => hreads, huniq⟩

/-- The positions of the threads do not come again. -/
theorem grid_le : 32 * (call.dims / (2 * call.args.threadPairs)) ≤ uintRange := by
  by_contra hgt
  obtain ⟨hmax, -⟩ := h.sized ha hadm hel
  have hzero : call.Element 0 0 0 0 := by
    have hb := hel.batch
    have hh := hel.head
    have hs := hel.position
    have hd := hel.dim
    exact ⟨by omega, by omega, by omega, by omega⟩
  obtain ⟨w, hw, second, hplace, ⟨hb, hh, hs, hd⟩, -, huniq⟩ :=
    h.exists_worker ha hadm hzero .q
  obtain ⟨⟨-, -, hz⟩, ⟨-, -, hz'⟩, -⟩ := mem_workers.mp hw
  have hcolumns : 0 < run.args.columns := by
    unfold columns
    rw [ha.args, ha.head_dim]
    apply Nat.pos_of_ne_zero
    intro h0
    rw [h0] at hgt
    unfold uintRange at hgt
    omega
  have hpairs : 0 < run.args.threadPairs := by
    unfold threadPairs
    split_ifs <;> omega
  -- two threads of the first column
  have hfirst : ∀ x, x < 32 * run.gridX → toUInt x = 0 →
      (⟨x, 0, 0, 0⟩ : QkvWorker) ∈ run.workers ∧
        ((⟨x, 0, 0, 0⟩ : QkvWorker), false) = (w, second) := by
    intro x hx hword
    have hmem : (⟨x, 0, 0, 0⟩ : QkvWorker) ∈ run.workers := by
      rw [mem_workers]
      refine ⟨⟨hx, ?_, lt_of_le_of_lt (Nat.zero_le _) hz⟩, ⟨?_, ?_, ?_⟩, hpairs⟩
      · rw [ha.gridY]
        exact hzero.position
      · rw [hword]
        exact hcolumns
      · rw [ha.args, ha.seq_len]
        exact hzero.position
      · exact lt_of_le_of_lt (Nat.zero_le _) hz'
    refine ⟨hmem, ?_⟩
    apply huniq _ (mem_slots.mpr hmem)
    have hsame : call.outPlace run .q (⟨x, 0, 0, 0⟩, false) = call.outPlace run .q (w, second) := by
      unfold outPlace
      rw [ha.outCell_exact hmax hmem, ha.outCell_exact hmax hw, hb, hh, hs, hd]
      unfold QkvArgs.b QkvArgs.h QkvArgs.element
      have hword0 : toUInt 0 = 0 := rfl
      simp [hword, hword0]
    rw [hsame, hplace, Place.overlaps_self]
  have hgrid : 32 * run.gridX > uintRange := by
    rw [ha.gridX]
    omega
  have hone := (hfirst 0 (by omega) rfl).2.trans (hfirst uintRange hgrid (Nat.mod_self _)).2.symm
  simp only [Prod.mk.injEq, QkvWorker.mk.injEq] at hone
  exact absurd hone.1.1 (by decide)

/-- The tables have the angles where the kernel reads them. -/
theorem tableFits {table : MNTensor Unit} (hinside : call.ReadsInside run table)
    (hangle : ∀ w ∈ run.workers, ∀ s i, call.reads run .q w = call.pairReads .q 0 0 s i →
      table.cellAt call.qkv_proj.dtype (run.args.tableCell w + 2 * w.pair)
        = table.placeOf [call.start_pos.toNat + s, i]) : call.TableFits table := by
  have hpairs : call.args.threadPairs = 1 ∨ call.args.threadPairs = 2 := by
    unfold threadPairs
    split_ifs
    · exact .inr rfl
    · exact .inl rfl
  have hB : 0 < call.batches := by
    have hb := hel.batch
    omega
  have hH : 0 < call.heads := by
    have hh := hel.head
    omega
  -- the thread of a position and of a pair, in the first head
  have hworker : ∀ s < call.positions, ∀ i < call.dims / 2, ∃ w ∈ run.workers,
      toUInt w.y = s ∧ toUInt w.x = i / call.args.threadPairs ∧
        w.pair = i % call.args.threadPairs ∧ call.reads run .q w = call.pairReads .q 0 0 s i := by
    intro s hs i hi
    obtain ⟨w, hw, second, -, ⟨-, -, hy, hd⟩, hreads, -⟩ :=
      h.exists_worker ha hadm (⟨hB, hH, hs, by omega⟩ : call.Element 0 0 s (2 * i)) .q
    have hreads := hreads (by decide)
    rw [Nat.mul_div_cancel_left _ (by omega : 0 < 2)] at hreads
    obtain ⟨-, -, hpair⟩ := mem_workers.mp hw
    unfold element at hd
    rw [ha.args] at hd hpair
    have hbit := Bool.toNat_lt second
    have hi' : call.args.threadPairs * toUInt w.x + w.pair = i := by
      dsimp only at hd
      omega
    refine ⟨w, hw, hy, ?_, ?_, hreads⟩
    · rw [← hi', Nat.mul_add_div (by omega), Nat.div_eq_of_lt hpair, Nat.add_zero]
    · rw [← hi', Nat.mul_add_mod, Nat.mod_eq_of_lt hpair]
  constructor
  · intro s hs i hi
    obtain ⟨w, hw, hy, hx, hpair, hreads⟩ := hworker s hs i hi
    have hcell := (cellAt_eq_placeOf.mp (hangle w hw s i hreads)).2
    rw [ha.tableCell_eq hadm.start_pos, hy, hx, hpair] at hcell
    exact hcell.symm
  · intro s hs x hx lane hlane
    have hcolumns := ha.columns
    have hi : call.args.threadPairs * x < call.dims / 2 := by
      have hlt := Nat.mul_lt_mul_of_pos_left hx (by omega : 0 < call.args.threadPairs)
      rw [Nat.mul_assoc] at hcolumns
      omega
    obtain ⟨w, hw, hy, hx', -, -⟩ := hworker s hs _ hi
    rw [Nat.mul_div_cancel_left _ (by omega)] at hx'
    rw [← ha.args] at hlane
    obtain ⟨row, hrow, col, hcol, hplace⟩ := hinside w hw lane hlane
    have hcell := (cellAt_eq_placeOf.mp hplace).2
    rw [ha.tableCell_eq hadm.start_pos, hy, hx'] at hcell
    exact ⟨row, hrow, col, hcol, hcell.symm⟩

/-- A launch that does what it is to do. -/
theorem fits : call.Fits := by
  obtain ⟨hmax, hrows⟩ := h.sized ha hadm hel
  refine ⟨h.grid_le ha hadm hel, hmax, hrows, ?_, ?_, ?_⟩
  · intro part b' hd' s' d' hel'
    obtain ⟨w, hw, second, hplace, ⟨hb, hh, hs, hd⟩, -⟩ := h.exists_worker ha hadm hel' part
    have hcell := (cellAt_eq_placeOf.mp hplace).2
    rw [← hcell, ha.outCell_exact hmax hw, hb, hh, hs, hd]
  · apply h.tableFits ha hadm hel h.cos
    intro w _ s i hreads
    exact congrArg Rotation.Reads.cos hreads
  · apply h.tableFits ha hadm hel h.sin
    intro w _ s i hreads
    exact congrArg Rotation.Reads.sin hreads

end Split

/-! ### The condition is enough -/

/-- The heads of all batches have numbers of 32 bits. -/
theorem Fits.heads_lt_words (h : call.Fits) (ha : call.Accepted run) {b hd s d : ℕ}
    (hel : call.Element b hd s d) : call.batches * call.heads < uintRange := by
  have hs := hel.position
  have hd := hel.dim
  have hlanes : call.args.lanes ≤ call.dims := by
    have hpos : 0 < call.dims / call.args.lanes := by
      apply Nat.pos_of_ne_zero
      intro h0
      have hrow := ha.lanes
      rw [h0, Nat.mul_zero] at hrow
      omega
    calc call.args.lanes ≤ call.args.lanes * (call.dims / call.args.lanes) :=
          Nat.le_mul_of_pos_right _ hpos
      _ = call.dims := ha.lanes
  have hthree : 3 * (call.batches * call.heads) ≤ uintRange := by
    apply Nat.le_of_mul_le_mul_left _ call.lanes_pos
    calc call.args.lanes * (3 * (call.batches * call.heads))
        ≤ call.dims * (3 * (call.batches * call.heads)) := Nat.mul_le_mul_right _ hlanes
      _ ≤ call.positions * (call.dims * (3 * (call.batches * call.heads))) :=
          Nat.le_mul_of_pos_left _ (by omega)
      _ = call.batches * call.positions * (3 * call.heads * call.dims) := by ring
      _ ≤ call.args.lanes * uintRange := h.elements
  unfold uintRange at hthree ⊢
  omega

/-- The threads of the grid have positions of 32 bits. -/
theorem Fits.coordinates (h : call.Fits) (ha : call.Accepted run) {w : QkvWorker}
    (hw : w ∈ run.workers) : toUInt w.x = w.x ∧ toUInt w.y = w.y ∧ toUInt w.z = w.z := by
  obtain ⟨⟨hx, hy, hz⟩, -⟩ := mem_workers.mp hw
  have hgrid := h.grid
  have hpos := ha.positions_lt
  have hheads := h.heads_lt_words ha (ha.bounds hw false)
  rw [ha.gridX] at hx
  rw [ha.gridY] at hy
  rw [ha.gridZ] at hz
  exact ⟨toUInt_of_lt (by omega), toUInt_of_lt (by omega), toUInt_of_lt (by omega)⟩

/-- The thread of an element of the outputs. -/
theorem Fits.exists_worker (h : call.Fits) (ha : call.Accepted run) {b hd s i : ℕ} (second : Bool)
    (hel : call.Element b hd s (2 * i + second.toNat)) : ∃ w ∈ run.workers,
      (run.args.b w = b ∧ run.args.h w = hd ∧ toUInt w.y = s ∧
        ∀ second', run.args.element (w, second') = 2 * i + second'.toNat) ∧
      toUInt w.x = i / call.args.threadPairs ∧ w.pair = i % call.args.threadPairs ∧
      ∀ w' ∈ run.workers, ∀ second', run.args.b w' = b → run.args.h w' = hd → toUInt w'.y = s →
        run.args.element (w', second') = 2 * i + second.toNat → (w', second') = (w, second) := by
  have hbit := Bool.toNat_lt second
  have hpairs : 0 < call.args.threadPairs := by
    unfold threadPairs
    split_ifs <;> omega
  have hcolumns := ha.columns
  have hi : i < call.args.threadPairs * (call.dims / (2 * call.args.threadPairs)) := by
    have hd := hel.dim
    rw [Nat.mul_assoc] at hcolumns
    omega
  have hx : i / call.args.threadPairs < call.dims / (2 * call.args.threadPairs) :=
    Nat.div_lt_of_lt_mul hi
  have hgrid := h.grid
  have hpos := ha.positions_lt
  have hheads := h.heads_lt_words ha hel
  have hz := rowMajor_lt hel.batch hel.head
  have hs := hel.position
  have hxw : toUInt (i / call.args.threadPairs) = i / call.args.threadPairs :=
    toUInt_of_lt (by omega)
  have hyw : toUInt s = s := toUInt_of_lt (by omega)
  have hzw : toUInt (b * call.heads + hd) = b * call.heads + hd := toUInt_of_lt (by omega)
  have hb : run.args.b ⟨i / call.args.threadPairs, s, b * call.heads + hd,
      i % call.args.threadPairs⟩ = b := by
    unfold QkvArgs.b
    rw [ha.args, ha.num_heads, hzw, rowMajor_div hel.head]
  have hh : run.args.h ⟨i / call.args.threadPairs, s, b * call.heads + hd,
      i % call.args.threadPairs⟩ = hd := by
    unfold QkvArgs.h
    rw [ha.args, ha.num_heads, hzw, rowMajor_mod hel.head]
  have hel' : ∀ second', run.args.element (⟨i / call.args.threadPairs, s, b * call.heads + hd,
      i % call.args.threadPairs⟩, second') = 2 * i + second'.toNat := by
    intro second'
    unfold element
    rw [ha.args, hxw, Nat.div_add_mod]
  have hmem : (⟨i / call.args.threadPairs, s, b * call.heads + hd, i % call.args.threadPairs⟩ :
      QkvWorker) ∈ run.workers := by
    rw [mem_workers]
    dsimp only
    refine ⟨⟨?_, ?_, ?_⟩, ⟨?_, ?_, ?_⟩, ?_⟩
    · rw [ha.gridX]
      omega
    · rw [ha.gridY]
      exact hs
    · rw [ha.gridZ]
      exact hz
    · unfold columns
      rw [ha.args, ha.head_dim, hxw]
      exact hx
    · rw [ha.args, ha.seq_len, hyw]
      exact hs
    · rw [ha.args, ha.batch, ha.num_heads, hzw, toUInt_of_lt hheads]
      exact hz
    · rw [ha.args]
      exact Nat.mod_lt _ hpairs
  refine ⟨_, hmem, ⟨hb, hh, hyw, hel'⟩, hxw, rfl, ?_⟩
  intro w' hw' second' hb' hh' hs' hd'
  obtain ⟨hx', hy', hz'⟩ := h.coordinates ha hw'
  obtain ⟨-, -, hpair'⟩ := mem_workers.mp hw'
  have hbit' := Bool.toNat_lt second'
  unfold element at hd'
  rw [ha.args, hx'] at hd'
  rw [ha.args] at hpair'
  obtain ⟨x', y', z', pair'⟩ := w'
  dsimp only at hx' hy' hz' hpair' hd' hs'
  have hi' : call.args.threadPairs * x' + pair' = i := by omega
  have hsecond : second' = second := by
    cases second <;> cases second' <;> simp at hd' ⊢ <;> omega
  have hzeq : z' = b * call.heads + hd := by
    unfold QkvArgs.b at hb'
    unfold QkvArgs.h at hh'
    rw [ha.args, ha.num_heads] at hb' hh'
    dsimp only at hb' hh'
    rw [hz'] at hb' hh'
    rw [← hb', ← hh', Nat.div_add_mod']
  rw [hsecond, Prod.mk.injEq, QkvWorker.mk.injEq]
  refine ⟨⟨?_, by omega, hzeq, ?_⟩, rfl⟩
  · rw [← hi', Nat.mul_add_div hpairs, Nat.div_eq_of_lt hpair', Nat.add_zero]
  · rw [← hi', Nat.mul_add_mod, Nat.mod_eq_of_lt hpair']

/-- The place of the angle of a pair. -/
theorem TableFits.anglePlace_eq {table : MNTensor Unit} (hfits : call.TableFits table)
    (ha : call.Accepted run) (hadm : call.Admissible) (hdtype : table.dtype = call.qkv_proj.dtype) {w : QkvWorker}
    {s i : ℕ} (hs : s < call.positions) (hi : i < call.dims / 2) (hy : toUInt w.y = s)
    (hx : toUInt w.x = i / call.args.threadPairs) (hpair : w.pair = i % call.args.threadPairs) :
    table.cellAt call.qkv_proj.dtype (run.args.tableCell w + 2 * w.pair)
      = table.placeOf [call.start_pos.toNat + s, i] := by
  rw [cellAt_eq_placeOf, ha.tableCell_eq hadm.start_pos, hy, hx, hpair,
    hfits.angles s hs i hi]
  exact ⟨hdtype.symm, rfl⟩

theorem TableFits.readsInside {table : MNTensor Unit} (hfits : call.TableFits table)
    (ha : call.Accepted run) (hadm : call.Admissible)
    (hdtype : table.dtype = call.qkv_proj.dtype) : call.ReadsInside run table := by
  intro w hw lane hlane
  obtain ⟨-, ⟨hx, hy, -⟩, -⟩ := mem_workers.mp hw
  unfold columns at hx
  rw [ha.args, ha.head_dim] at hx
  rw [ha.args, ha.seq_len] at hy
  rw [ha.args] at hlane
  obtain ⟨row, hrow, col, hcol, hcell⟩ := hfits.inside _ hy _ hx lane hlane
  refine ⟨row, hrow, col, hcol, ?_⟩
  rw [cellAt_eq_placeOf, ha.tableCell_eq hadm.start_pos, hcell]
  exact ⟨hdtype.symm, rfl⟩

namespace Fits

variable (h : call.Fits) (ha : call.Accepted run)

include h ha

/-- A row of `qkv_proj` has three parts. -/
theorem dim_eq {b hd s d : ℕ} (hel : call.Element b hd s d) :
    call.qkv_proj.dim 2 = 3 * call.heads * call.dims := by
  apply ha.qkv_eq
  have hN : 0 < call.batches * call.positions := by
    have hb := hel.batch
    have hs := hel.position
    exact Nat.mul_pos (by omega) (by omega)
  have hle := Nat.le_mul_of_pos_left (3 * call.heads * call.dims) hN
  have hmax := h.elements
  have hlanes : call.args.lanes ≤ 4 := by
    unfold lanes
    split_ifs <;> omega
  have hwords := Nat.mul_le_mul_right uintRange hlanes
  unfold uintRange at hmax hwords
  omega

theorem sources (part : QkvPart) {b hd s d : ℕ} (hel : call.Element b hd s d) :
    Within call.qkv_proj.dims (call.sourceIndex part b hd s d) := by
  rw [ha.qkv_dims, h.dim_eq ha hel]
  exact ⟨hel.batch, hel.position, column_lt part hel.head hel.dim, trivial⟩

/-- A worker reads an element of `qkv_proj`. -/
theorem sourcePlace_eq (hadm : call.Admissible) (part : QkvPart) {w : QkvWorker}
    (hw : w ∈ run.workers) (second : Bool) : call.sourcePlace run part (w, second)
      = call.qkv_proj.placeOf (call.sourceIndex part (run.args.b w) (run.args.h w) (toUInt w.y)
          (run.args.element (w, second))) := by
  have hel := ha.bounds hw second
  unfold sourcePlace
  rw [cellAt_eq_placeOf, ha.sourceCell_exact h.elements h.rows part hw,
    cellOf_source ha hadm.contiguous (h.dim_eq ha hel) (h.sources ha part hel)]
  exact ⟨rfl, rfl⟩

/-- And it writes an element of an output. -/
theorem outPlace_eq (hadm : call.Admissible) (part : QkvPart) {w : QkvWorker}
    (hw : w ∈ run.workers) (second : Bool) : call.outPlace run part (w, second)
      = (call.out part).placeOf [run.args.b w, run.args.h w, toUInt w.y,
          run.args.element (w, second)] := by
  unfold outPlace
  rw [cellAt_eq_placeOf, ha.outCell_exact h.elements hw,
    h.outputs part (ha.bounds hw second)]
  exact ⟨(hadm.dtype part).symm, rfl⟩

/-- A place of an output is written for its coordinates only. -/
theorem coordinates_of_overlaps (hadm : call.Admissible) (part : QkvPart) {b hd s d : ℕ}
    (hel : call.Element b hd s d) {w : QkvWorker} (hw : w ∈ run.workers) {second : Bool}
    (hhit : (call.outPlace run part (w, second)).overlaps ((call.out part).placeOf [b, hd, s, d])
      = true) :
    run.args.b w = b ∧ run.args.h w = hd ∧ toUInt w.y = s ∧ run.args.element (w, second) = d := by
  have hbounds := ha.bounds hw second
  unfold outPlace at hhit
  rw [cellAt_overlaps (hadm.dtype part).symm, ha.outCell_exact h.elements hw,
    h.outputs part hel] at hhit
  obtain ⟨hrow, hd'⟩ := (rowMajor_inj hbounds.dim hel.dim).mp hhit
  obtain ⟨hrow', hs'⟩ := (rowMajor_inj hbounds.position hel.position).mp hrow
  obtain ⟨hb', hh'⟩ := (rowMajor_inj hbounds.head hel.head).mp hrow'
  exact ⟨hb', hh', hs', hd'⟩

theorem split (hadm : call.Admissible) : call.Split run := by
  refine ⟨h.sources ha, ?_, ?_, h.cos.readsInside ha hadm ha.cos_dtype,
    h.sin.readsInside ha hadm ha.sin_dtype⟩
  · intro part _ b hd s i second hel load cos sin
    obtain ⟨w, hw, ⟨hb, hh, hy, hd'⟩, hx, hpair, huniq⟩ := h.exists_worker ha second hel
    have hi : i < call.dims / 2 := by
      have hlt := hel.dim
      have hcolumns := ha.columns
      rw [Nat.mul_assoc] at hcolumns
      omega
    have hplace : call.outPlace run part (w, second)
        = (call.out part).placeOf [b, hd, s, 2 * i + second.toNat] := by
      rw [h.outPlace_eq ha hadm part hw, hb, hh, hy, hd']
    have hreads : call.reads run part w = call.pairReads part b hd s i := by
      unfold reads pairReads
      rw [Reads.mk.injEq, h.sourcePlace_eq ha hadm part hw, h.sourcePlace_eq ha hadm part hw, hb,
        hh, hy, hd', hd']
      exact ⟨rfl, rfl,
        h.cos.anglePlace_eq ha hadm ha.cos_dtype hel.position hi hy hx hpair,
        h.sin.anglePlace_eq ha hadm ha.sin_dtype hel.position hi hy hx hpair⟩
    rw [← hplace, ← hreads]
    refine touching_eq_singleton (nodup_workers run) hw ?_ ?_ load cos sin
    · rw [hplace, Place.overlaps_self]
    · rintro ⟨w', second'⟩ hslot hhit
      have hw' : w' ∈ run.workers := mem_slots.mp hslot
      rw [hplace] at hhit
      obtain ⟨hb', hh', hs', hd''⟩ := h.coordinates_of_overlaps ha hadm part hel hw' hhit
      exact huniq w' hw' second' hb' hh' hs' hd''
  · intro b hd s d hel load
    have hbit := two_mul_div_add_bit d
    have hel' : call.Element b hd s (2 * (d / 2) + (decide (d % 2 = 1)).toNat) := by
      rw [hbit]
      exact hel
    obtain ⟨w, hw, ⟨hb, hh, hy, hd'⟩, -, -, huniq⟩ := h.exists_worker ha _ hel'
    have hplace : call.outPlace run .v (w, decide (d % 2 = 1))
        = call.v_out.placeOf [b, hd, s, d] := by
      rw [h.outPlace_eq ha hadm .v hw, hb, hh, hy, hd', hbit]
      rfl
    have hread : call.sourcePlace run .v (w, decide (d % 2 = 1))
        = call.qkv_proj.placeOf (call.sourceIndex .v b hd s d) := by
      rw [h.sourcePlace_eq ha hadm .v hw, hb, hh, hy, hd', hbit]
    rw [← hplace, ← hread]
    refine touching_eq_of_unique (nodup_slots (nodup_workers run)) (mem_slots.mpr hw) ?_ ?_ _
    · rw [Place.overlaps_self]
    · rintro ⟨w', second'⟩ hslot hhit
      have hw' : w' ∈ run.workers := mem_slots.mp hslot
      rw [hplace] at hhit
      obtain ⟨hb', hh', hs', hd''⟩ := h.coordinates_of_overlaps ha hadm .v hel hw' hhit
      rw [← hbit] at hd''
      exact huniq w' hw' second' hb' hh' hs' hd''

end Fits

/-! ### The condition is exact -/

/-- A launch splits, moves and rotates every element exactly where there is none, or everything
    fits. -/
theorem split_iff (ha : call.Accepted run) (hadm : call.Admissible) :
    call.Split run ↔ call.Splittable := by
  unfold Splittable
  constructor
  · intro h
    by_cases hnone : ∀ b hd s d, ¬ call.Element b hd s d
    · exact .inl hnone
    · simp only [not_forall, not_not] at hnone
      obtain ⟨b, hd, s, d, hel⟩ := hnone
      exact .inr (h.fits ha hadm hel)
  · rintro (hnone | h)
    · have hworkers : ∀ w, w ∉ run.workers := fun w hw => hnone _ _ _ _ (ha.bounds hw false)
      exact ⟨fun part b hd s d hel => absurd hel (hnone b hd s d),
        fun part _ b hd s i second hel => absurd hel (hnone _ _ _ _),
        fun {b hd s d} hel => absurd hel (hnone b hd s d),
        fun w hw => absurd hw (hworkers w), fun w hw => absurd hw (hworkers w)⟩
    · exact h.split ha hadm

end QkvCall

end MetalNative
