import MetalNative.Core.Places
import MetalNative.Lib.Rotation
import MetalNative.Lib.SimdMatrix
import MetalNative.Ops.Rope
import Mathlib.Data.Real.Basic

namespace MetalNative

open Broadcast (Within)
open Rotation
open Strided (position)

/-!
# `fast::rope`: which pairs are rotated

A load gives a value for every byte and every type, and the arithmetic is exact.  `q`, `k` and the
tables have buffers of their own, so that a thread's stores are to the elements that it has loaded;
a second store to one of them is what `RopeCall.TensorRotated` excludes.

* `RopeCall.Rotated` — every pair is rotated exactly once, and nothing else is touched.
* `RopeCall.Walked` — the layouts for which it is, with sizes for which no index wraps around;
  `RopeCall.rotated_iff` says that they are exactly those.
-/

/-! ### The stores -/

namespace RopeArgs

variable (a : RopeArgs)

/-- The cell of a store. -/
def slotCell (slot : (ℕ × ℕ × ℕ) × Bool) : ℕ :=
  if slot.2 then a.dim1 slot.1.2.2 slot.1.2.1 slot.1.1
  else a.dim0 slot.1.2.2 slot.1.2.1 slot.1.1

/-- Where a thread has a pair of the tensor and its angle from. -/
def reads (τ : MNDType) (t cos_cache sin_cache : MNTensor Unit) (thread : ℕ × ℕ × ℕ) :
    Rotation.Reads Place Place Place where
  first := t.cellAt τ (a.dim0 thread.2.2 thread.2.1 thread.1)
  second := t.cellAt τ (a.dim1 thread.2.2 thread.2.1 thread.1)
  cos := cos_cache.cellAt τ (a.cacheCell thread.2.1 thread.1)
  sin := sin_cache.cellAt τ (a.cacheCell thread.2.1 thread.1)

end RopeArgs

/-! ### What a call is to do -/

namespace RopeCall

variable (call : RopeCall)

/-- The type that the kernel is written for. -/
def kernelType : MNDType := (ropeKernel call.q.dtype).2

/-- The stores of a launch to one of the two tensors. -/
def storesTo (run : RopeRun) (t : MNTensor Unit) (load cos sin : Place → ℝ) :
    List (Store Place ℝ) :=
  stores run.args.threads (fun slot => t.cellAt call.kernelType (run.args.slotCell slot))
    (run.args.reads call.kernelType t call.cos_cache call.sin_cache) load cos sin

/-- Those that touch an element. -/
def touching (run : RopeRun) (t : MNTensor Unit) (load cos sin : Place → ℝ) (idx : List ℕ) :
    List (Store Place ℝ) :=
  Rotation.touching (fun p => p.overlaps (t.placeOf idx)) (call.storesTo run t load cos sin)

/-- Where a pair and the angle of its position and its place in the row are. -/
def pairReads (t : MNTensor Unit) (b h s i : ℕ) :
    Rotation.Reads Place Place Place where
  first := t.placeOf [b, h, s, 2 * i]
  second := t.placeOf [b, h, s, 2 * i + 1]
  cos := call.cos_cache.placeOf [call.start_pos.toNat + s, i]
  sin := call.sin_cache.placeOf [call.start_pos.toNat + s, i]

/-- The two elements of each pair are written once, with their components of the rotation, the other
    elements are left alone, and nothing is written outside of the tensor. -/
structure TensorRotated (run : RopeRun) (t : MNTensor Unit) (load cos sin : Place → ℝ) :
    Prop where
  pairs : ∀ b < t.dim 0, ∀ h < t.dim 1, ∀ s < t.dim 2, ∀ i < t.dim 3 / 2, ∀ second : Bool,
    call.touching run t load cos sin [b, h, s, 2 * i + second.toNat]
      = [⟨t.placeOf [b, h, s, 2 * i + second.toNat],
          component second ((call.pairReads t b h s i).rotation load cos sin)⟩]
  rest : ∀ b < t.dim 0, ∀ h < t.dim 1, ∀ s < t.dim 2, ∀ d < t.dim 3, 2 * (t.dim 3 / 2) ≤ d →
    call.touching run t load cos sin [b, h, s, d] = []
  inside : ∀ w ∈ call.storesTo run t load cos sin, t.IsElement w.place

/-- The threads read elements of a table only. -/
def ReadsInside (run : RopeRun) (table : MNTensor Unit) : Prop :=
  ∀ thread ∈ run.args.threads, ∃ row < table.dim 0, ∃ col < table.dim 1,
    table.cellAt call.kernelType (run.args.cacheCell thread.2.1 thread.1)
      = table.placeOf [row, col]

/-- What a launch is to do, whatever the four buffers hold. -/
structure Rotated (run : RopeRun) : Prop where
  q : ∀ load cos sin, call.TensorRotated run call.q load cos sin
  k : ∀ load cos sin, call.TensorRotated run call.k load cos sin
  cos : call.ReadsInside run call.cos_cache
  sin : call.ReadsInside run call.sin_cache

/-- A table of rows, with one for every position of both tensors and a column for every pair. -/
structure Covers (table : MNTensor Unit) : Prop where
  dims : table.dims = [table.dim 0, table.dim 1]
  contiguous : table.isContiguous = true
  q_rows : call.start_pos.toNat + call.q.dim 2 ≤ table.dim 0
  k_rows : call.start_pos.toNat + call.k.dim 2 ≤ table.dim 0
  q_columns : call.q.dim 3 / 2 ≤ table.dim 1
  k_columns : call.k.dim 3 / 2 ≤ table.dim 1

/-- The tables cover the positions that are used. -/
structure Covered : Prop where
  start_pos : 0 ≤ call.start_pos
  cos : call.Covers call.cos_cache
  sin : call.Covers call.sin_cache

/-! ### The condition -/

/-- The heads that the launch counts. -/
def heads : ℕ := toUInt (call.q.dim 0 * call.q.dim 1)

/-- The first cell of a pair, in rows of the sizes of `q`. -/
def pairCell (bh s i : ℕ) : ℕ := (bh * call.q.dim 2 + s) * call.q.dim 3 + 2 * i

/-- No size and no index wraps around. -/
structure Sized : Prop where
  seq_len : call.q.dim 2 < uintRange
  head_dim : call.q.dim 3 < uintRange
  positions : (call.start_pos.toNat + call.q.dim 2) * (call.q.dim 3 / 2) ≤ uintRange
  cells : call.heads * call.q.dim 2 * call.q.dim 3 ≤ uintRange + call.q.dim 3 % 2

/-- A table of the type of the kernel, with a row of one column for each pair; where there is only
    the row of position zero, it may be longer. -/
structure TableFits (table : MNTensor Unit) : Prop where
  dtype : table.dtype = call.kernelType
  columns : call.start_pos.toNat + call.q.dim 2 ≤ 1 ∨ table.dim 1 = call.q.dim 3 / 2

/-- A tensor of the type of the kernel with the positions and the pairs of `q`, whose pairs are the
    ones that the launch walks over. -/
structure Walked (t : MNTensor Unit) : Prop where
  dtype : t.dtype = call.kernelType
  seq_len : t.dim 2 = call.q.dim 2
  pairs_eq : t.dim 3 / 2 = call.q.dim 3 / 2
  pairs : ∀ b < t.dim 0, ∀ h < t.dim 1, ∀ s < t.dim 2, ∀ i < t.dim 3 / 2, ∃ bh < call.heads,
    t.cellOf [b, h, s, 2 * i] = call.pairCell bh s i ∧
      t.cellOf [b, h, s, 2 * i + 1] = call.pairCell bh s i + 1
  heads : ∀ bh < call.heads, ∀ s < call.q.dim 2, ∀ i < call.q.dim 3 / 2,
    ∃ b < t.dim 0, ∃ h < t.dim 1, t.cellOf [b, h, s, 2 * i] = call.pairCell bh s i
  rest : ∀ b < t.dim 0, ∀ h < t.dim 1, ∀ s < t.dim 2, ∀ d < t.dim 3, 2 * (t.dim 3 / 2) ≤ d →
    ∀ bh < call.heads, ∀ s' < call.q.dim 2, ∀ i < call.q.dim 3 / 2, ∀ second : Bool,
      t.cellOf [b, h, s, d] ≠ call.pairCell bh s' i + second.toNat

/-- A tensor without pairs. -/
def Pairless (t : MNTensor Unit) : Prop :=
  t.dim 0 = 0 ∨ t.dim 1 = 0 ∨ t.dim 2 = 0 ∨ t.dim 3 / 2 = 0

/-- The condition: there is nothing to rotate, or both tensors are walked over with tables that
    fit. -/
def Rotatable : Prop :=
  Pairless call.q ∧ Pairless call.k ∨
    call.Sized ∧ call.TableFits call.cos_cache ∧ call.TableFits call.sin_cache ∧
      call.Walked call.q ∧ call.Walked call.k

end RopeCall

/-! ### Threads and their cells -/

namespace RopeArgs

variable (a : RopeArgs)

theorem nodup_threads : a.threads.Nodup := by
  unfold threads
  apply nodup_flatMap_of_key (fun thread => thread.2.2) List.nodup_range
  · intro bh _
    apply nodup_flatMap_of_key (fun thread => thread.2.1) List.nodup_range
    · intro s _
      apply nodup_flatMap_of_key (fun thread => thread.1) List.nodup_range
      · intro p _
        split_ifs <;> simp
      · intro p _ thread hthread
        split_ifs at hthread <;> simp_all
    · intro s _ thread hthread
      obtain ⟨p, -, hp⟩ := List.mem_flatMap.mp hthread
      split_ifs at hp <;> simp_all
  · intro bh _ thread hthread
    obtain ⟨s, -, hs⟩ := List.mem_flatMap.mp hthread
    obtain ⟨p, -, hp⟩ := List.mem_flatMap.mp hs
    split_ifs at hp <;> simp_all

/-- The cell of a store, and the one of the table that it is computed with. -/
theorem slotCell_eq (p s bh : ℕ) (second : Bool) :
    a.slotCell ((p, s, bh), second)
      = toUInt ((bh * a.seq_len + s) * a.head_dim + 2 * p + second.toNat) := by
  obtain ⟨-, hdim0, hdim1⟩ := a.pair_eq bh s p
  unfold slotCell
  cases second with
  | false => exact hdim0
  | true => exact hdim1

end RopeArgs

namespace RopeCall

variable {call : RopeCall} {run : RopeRun} {t : MNTensor Unit}

/-! ### What is rotated, slot by slot -/

/-- `TensorRotated` for all contents: which slots there are to be. -/
structure Served (call : RopeCall) (run : RopeRun) (t : MNTensor Unit) : Prop where
  pairs : ∀ b < t.dim 0, ∀ h < t.dim 1, ∀ s < t.dim 2, ∀ i < t.dim 3 / 2, ∀ second : Bool,
    ∃ thread ∈ run.args.threads,
      t.cellAt call.kernelType (run.args.slotCell (thread, second))
        = t.placeOf [b, h, s, 2 * i + second.toNat] ∧
      run.args.reads call.kernelType t call.cos_cache call.sin_cache thread
        = call.pairReads t b h s i ∧
      ∀ slot ∈ slots run.args.threads,
        (t.cellAt call.kernelType (run.args.slotCell slot)).overlaps
          (t.placeOf [b, h, s, 2 * i + second.toNat]) = true → slot = (thread, second)
  rest : ∀ b < t.dim 0, ∀ h < t.dim 1, ∀ s < t.dim 2, ∀ d < t.dim 3, 2 * (t.dim 3 / 2) ≤ d →
    ∀ slot ∈ slots run.args.threads,
      (t.cellAt call.kernelType (run.args.slotCell slot)).overlaps (t.placeOf [b, h, s, d]) = false
  inside : ∀ slot ∈ slots run.args.threads,
    t.IsElement (t.cellAt call.kernelType (run.args.slotCell slot))

theorem tensorRotated_iff :
    (∀ load cos sin, call.TensorRotated run t load cos sin) ↔ call.Served run t := by
  constructor
  · intro h
    refine ⟨?_, ?_, ?_⟩
    · intro b hb hd hhd s hs i hi second
      obtain ⟨thread, hthread, hplace, hreads, -, huniq⟩ :=
        (touching_eq_iff run.args.nodup_threads).mp fun load cos sin =>
          (h load cos sin).pairs b hb hd hhd s hs i hi second
      exact ⟨thread, hthread, hplace, hreads, huniq⟩
    · intro b hb hd hhd s hs d hdim hodd
      exact (touching_eq_nil_iff _).mp ((h 0 0 0).rest b hb hd hhd s hs d hdim hodd)
    · exact (forall_writes_iff t.IsElement _).mp (h 0 0 0).inside
  · intro h load cos sin
    refine ⟨?_, ?_, ?_⟩
    · intro b hb hd hhd s hs i hi second
      obtain ⟨thread, hthread, hplace, hreads, huniq⟩ := h.pairs b hb hd hhd s hs i hi second
      refine (touching_eq_iff run.args.nodup_threads).mpr ?_ load cos sin
      exact ⟨thread, hthread, hplace, hreads, Place.overlaps_self _, huniq⟩
    · intro b hb hd hhd s hs d hdim hodd
      exact (touching_eq_nil_iff _).mpr (h.rest b hb hd hhd s hs d hdim hodd)
    · exact (forall_writes_iff t.IsElement _).mpr h.inside

/-! ### The sizes -/

/-- What it takes that an index of a table does not wrap around: its last row and its last column
    are reached. -/
theorem last_row_eq {X C x h' h p : ℕ} (hlast : X * C + (h - 1) = toUInt (x * h' + p))
    (hpos : 0 < h)
    (hx : x ≤ X) (hh : h' ≤ h) (hC : h ≤ C) (hp : p < h') :
    h' = h ∧ x = X ∧ (X = 0 ∨ C = h) ∧ (X + 1) * h ≤ uintRange := by
  have hword := toUInt_lt (x * h' + p)
  have hle : toUInt (x * h' + p) ≤ x * h' + p := Nat.mod_le _ _
  have hxX : x * h' ≤ X * h := Nat.mul_le_mul hx hh
  have hXC : X * h ≤ X * C := Nat.mul_le_mul_left X hC
  obtain rfl : h' = h := by omega
  have hx' : x * h' = X * h' := by omega
  have hC' : X * C = X * h' := by omega
  refine ⟨rfl, Nat.eq_of_mul_eq_mul_right hpos hx', ?_, ?_⟩
  · rcases Nat.eq_zero_or_pos X with hX | hX
    · exact .inl hX
    · exact .inr (Nat.eq_of_mul_eq_mul_left hX hC')
  · rw [Nat.add_one_mul]
    omega

variable {table : MNTensor Unit}

/-- The element of a table. -/
theorem Covers.cellOf_eq (h : call.Covers table) {row col : ℕ}
    (hrow : row < table.dim 0) (hcol : col < table.dim 1) :
    table.cellOf [row, col] = row * table.dim 1 + col := by
  have hdims := h.dims
  have hwithin : Within table.dims [row, col] := by
    rw [hdims]
    exact ⟨hrow, hcol, trivial⟩
  rw [MNTensor.cellOf_of_isContiguous h.contiguous hwithin, hdims]
  simp [position]

/-- The thread that serves a pair. -/
theorem Served.exists_thread (h : call.Served run t) {b hd s i : ℕ} (hb : b < t.dim 0)
    (hhd : hd < t.dim 1) (hs : s < t.dim 2) (hi : i < t.dim 3 / 2) :
    ∃ p < run.args.half_dim, ∃ s' < run.args.seq_len, ∃ bh < run.args.heads,
      run.args.dim0 bh s' p = t.cellOf [b, hd, s, 2 * i] ∧
      run.args.dim1 bh s' p = t.cellOf [b, hd, s, 2 * i + 1] ∧
      t.dtype = call.kernelType ∧
      (call.cos_cache.dtype = call.kernelType ∧ run.args.cacheCell s' p
        = call.cos_cache.cellOf [call.start_pos.toNat + s, i]) ∧
      (call.sin_cache.dtype = call.kernelType ∧ run.args.cacheCell s' p
        = call.sin_cache.cellOf [call.start_pos.toNat + s, i]) := by
  obtain ⟨⟨p, s', bh⟩, hthread, -, hreads, -⟩ := h.pairs b hb hd hhd s hs i hi false
  obtain ⟨hp, hs', hbh⟩ := run.args.mem_threads.mp hthread
  unfold RopeArgs.reads pairReads at hreads
  rw [Rotation.Reads.mk.injEq] at hreads
  simp only [MNTensor.cellAt_eq_placeOf] at hreads
  obtain ⟨⟨hτ, hfirst⟩, ⟨-, hsecond⟩, ⟨hcos, hangle⟩, hsin, hangle'⟩ := hreads
  exact ⟨p, hp, s', hs', bh, hbh, hfirst, hsecond, hτ.symm, ⟨hcos.symm, hangle⟩, hsin.symm, hangle'⟩

/-- The constants of a launch have kept their values. -/
structure Constants (call : RopeCall) (a : RopeArgs) : Prop where
  heads : a.heads = call.heads
  seq_len : a.seq_len = call.q.dim 2
  head_dim : a.head_dim = call.q.dim 3
  start_pos : a.start_pos = call.start_pos.toNat

/-- What the sizes of `q` and the rows of the tables have to be. -/
structure Exact (call : RopeCall) : Prop where
  seq_len : call.q.dim 2 < uintRange
  head_dim : call.q.dim 3 < uintRange
  positions : (call.start_pos.toNat + call.q.dim 2) * (call.q.dim 3 / 2) ≤ uintRange
  cos : call.TableFits call.cos_cache
  sin : call.TableFits call.sin_cache

theorem uintOfInt_start_pos (h : 0 ≤ call.start_pos) :
    call.args.start_pos = toUInt call.start_pos.toNat := by
  rw [← uintOfInt_natCast_eq, Int.toNat_of_nonneg h]
  rfl

theorem args_heads (call : RopeCall) : call.args.heads = call.heads := by
  unfold RopeArgs.heads heads args toUInt
  rw [← Nat.mul_mod]

/-- The last pair of `q` settles the sizes. -/
theorem Served.exact (h : call.Served run call.q) (hargs : run.args = call.args)
    (hcov : call.Covered) (hpairs : ¬ Pairless call.q) : call.Exact := by
  unfold Pairless at hpairs
  obtain ⟨p, hp, s', hs', bh, -, -, -, -, ⟨hcos, hangle⟩, hsin, hangle'⟩ :=
    h.exists_thread (by omega : 0 < call.q.dim 0) (by omega : 0 < call.q.dim 1)
      (by omega : call.q.dim 2 - 1 < call.q.dim 2)
      (by omega : call.q.dim 3 / 2 - 1 < call.q.dim 3 / 2)
  have hrows := hcov.cos.q_rows
  have hrows' := hcov.sin.q_rows
  have hcolumns := hcov.cos.q_columns
  have hcolumns' := hcov.sin.q_columns
  rw [hcov.cos.cellOf_eq (by omega) (by omega)] at hangle
  rw [hcov.sin.cellOf_eq (by omega) (by omega)] at hangle'
  rw [(run.args.pair_eq bh s' p).1] at hangle hangle'
  -- the constants are no larger than the sizes
  have hstart : run.args.start_pos ≤ call.start_pos.toNat := by
    rw [hargs, uintOfInt_start_pos hcov.start_pos]
    exact Nat.mod_le _ _
  have hseq : run.args.seq_len = call.q.dim 2 % uintRange := by rw [hargs]; rfl
  have hdim : run.args.head_dim = call.q.dim 3 % uintRange := by rw [hargs]; rfl
  have hhalf : p < run.args.head_dim / 2 := hp
  have hseq_le : run.args.seq_len ≤ call.q.dim 2 := hseq ▸ Nat.mod_le _ _
  have hdim_le : run.args.head_dim ≤ call.q.dim 3 := hdim ▸ Nat.mod_le _ _
  obtain ⟨heq, hrow, hC, hlt⟩ := last_row_eq hangle.symm (by omega) (by omega) (by omega) (by omega)
    hhalf
  obtain ⟨-, -, hC', -⟩ := last_row_eq hangle'.symm (by omega) (by omega) (by omega) (by omega)
    hhalf
  have hlast : call.start_pos.toNat + (call.q.dim 2 - 1) + 1
      = call.start_pos.toNat + call.q.dim 2 := by omega
  rw [hlast] at hlt
  refine ⟨?_, ?_, hlt, ⟨hcos, by omega⟩, hsin, by omega⟩
  · unfold uintRange at *
    omega
  · unfold uintRange at *
    omega

/-- And then the constants are the sizes. -/
theorem Exact.constants (h : call.Exact) (hcov : call.Covered) (hpairs : call.q.dim 3 / 2 ≠ 0)
    (hrows : call.q.dim 2 ≠ 0) : call.Constants call.args := by
  have hstart : call.start_pos.toNat < uintRange := by
    have hle : (call.start_pos.toNat + call.q.dim 2) * 1
        ≤ (call.start_pos.toNat + call.q.dim 2) * (call.q.dim 3 / 2) :=
      Nat.mul_le_mul_left _ (by omega)
    have hmax := h.positions
    omega
  refine ⟨call.args_heads, toUInt_of_lt h.seq_len, toUInt_of_lt h.head_dim, ?_⟩
  rw [uintOfInt_start_pos hcov.start_pos, toUInt_of_lt hstart]

section Exact

variable (hc : call.Constants run.args)

include hc

theorem Constants.slotCell_eq (p s bh : ℕ) (second : Bool) :
    run.args.slotCell ((p, s, bh), second) = toUInt (call.pairCell bh s p + second.toNat) := by
  rw [RopeArgs.slotCell_eq, hc.seq_len, hc.head_dim]
  rfl

theorem Constants.mem_threads {p s bh : ℕ} :
    (p, s, bh) ∈ run.args.threads ↔ p < call.q.dim 3 / 2 ∧ s < call.q.dim 2 ∧ bh < call.heads := by
  rw [run.args.mem_threads, RopeArgs.half_dim, hc.head_dim, hc.seq_len, hc.heads]

/-- The cells of a table do not wrap around. -/
theorem Constants.cacheCell_eq
    (hmax : (call.start_pos.toNat + call.q.dim 2) * (call.q.dim 3 / 2) ≤ uintRange) {s p : ℕ}
    (hs : s < call.q.dim 2) (hp : p < call.q.dim 3 / 2) :
    run.args.cacheCell s p = (call.start_pos.toNat + s) * (call.q.dim 3 / 2) + p := by
  rw [(run.args.pair_eq 0 s p).1, hc.start_pos, hc.head_dim]
  exact toUInt_of_lt (rows_lt_iff.mpr hmax _ (by omega) p hp)

end Exact

/-- A cell of a table tells the position and the pair. -/
theorem TableFits.row_eq (h : call.TableFits table) {s i s' p : ℕ}
    (hs' : s' < call.q.dim 2) (hp : p < call.q.dim 3 / 2) (hi : i < table.dim 1)
    (hcol : call.q.dim 3 / 2 ≤ table.dim 1)
    (heq : (call.start_pos.toNat + s') * (call.q.dim 3 / 2) + p
      = (call.start_pos.toNat + s) * table.dim 1 + i) : s = s' ∧ i = p := by
  rcases h.columns with hone | hcolumns
  · -- the only row is that of position zero
    have hzero : call.start_pos.toNat + s' = 0 := by omega
    rw [hzero, Nat.zero_mul, Nat.zero_add] at heq
    have hrow : call.start_pos.toNat + s = 0 := by
      by_contra hne
      have hle : 1 * table.dim 1 ≤ (call.start_pos.toNat + s) * table.dim 1 :=
        Nat.mul_le_mul_right _ (by omega)
      omega
    rw [hrow] at heq
    omega
  · rw [hcolumns] at heq hi
    obtain ⟨hrow, hpair⟩ := (SimdMatrix.rowMajor_inj hp hi).mp heq
    exact ⟨by omega, hpair.symm⟩

/-- Each pair is served by the thread of its position and its place in the row. -/
theorem Served.exists_head (h : call.Served run t) (hc : call.Constants run.args)
    (he : call.Exact) (hcov : call.Covered) (hrows : call.start_pos.toNat + t.dim 2 ≤
      call.cos_cache.dim 0) (hcols : t.dim 3 / 2 ≤ call.cos_cache.dim 1) {b hd s i : ℕ}
    (hb : b < t.dim 0) (hhd : hd < t.dim 1) (hs : s < t.dim 2) (hi : i < t.dim 3 / 2) :
    (s < call.q.dim 2 ∧ i < call.q.dim 3 / 2) ∧ t.dtype = call.kernelType ∧ ∃ bh < call.heads,
      toUInt (call.pairCell bh s i) = t.cellOf [b, hd, s, 2 * i] ∧
      toUInt (call.pairCell bh s i + 1) = t.cellOf [b, hd, s, 2 * i + 1] := by
  obtain ⟨p, hp, s', hs', bh, hbh, hfirst, hsecond, hτ, ⟨-, hangle⟩, -⟩ :=
    h.exists_thread hb hhd hs hi
  rw [RopeArgs.half_dim, hc.head_dim] at hp
  rw [hc.seq_len] at hs'
  rw [hc.heads] at hbh
  rw [hc.cacheCell_eq he.positions hs' hp, hcov.cos.cellOf_eq (by omega) (by omega)] at hangle
  obtain ⟨rfl, rfl⟩ := he.cos.row_eq hs' hp (by omega) hcov.cos.q_columns hangle
  refine ⟨⟨hs', hp⟩, hτ, bh, hbh, ?_, ?_⟩
  · rw [← hfirst]
    exact (hc.slotCell_eq i s bh false).symm
  · rw [← hsecond]
    exact (hc.slotCell_eq i s bh true).symm

/-! ### The cells -/

/-- Every store goes to an element of a pair. -/
theorem Served.exists_pair (h : call.Served run t) {slot : (ℕ × ℕ × ℕ) × Bool}
    (hslot : slot ∈ slots run.args.threads) : ∃ b < t.dim 0, ∃ hd < t.dim 1, ∃ s < t.dim 2,
      ∃ i < t.dim 3 / 2, ∃ second : Bool, t.cellAt call.kernelType (run.args.slotCell slot)
        = t.placeOf [b, hd, s, 2 * i + second.toNat] := by
  obtain ⟨b, hb, hd, hhd, s, hs, d, hdim, hplace⟩ := h.inside slot hslot
  have hpair : d < 2 * (t.dim 3 / 2) := by
    by_contra hge
    have hnone := h.rest b hb hd hhd s hs d hdim (by omega) slot hslot
    rw [hplace, Place.overlaps_self] at hnone
    exact Bool.noConfusion hnone
  refine ⟨b, hb, hd, hhd, s, hs, d / 2, by omega, decide (d % 2 = 1), ?_⟩
  rw [two_mul_div_add_bit, hplace]

/-- No two stores go to one cell. -/
theorem Served.slot_eq (h : call.Served run t) {slot slot' : (ℕ × ℕ × ℕ) × Bool}
    (hslot : slot ∈ slots run.args.threads) (hslot' : slot' ∈ slots run.args.threads)
    (heq : run.args.slotCell slot = run.args.slotCell slot') : slot = slot' := by
  obtain ⟨b, hb, hd, hhd, s, hs, i, hi, second, hplace⟩ := h.exists_pair hslot
  obtain ⟨thread, -, -, -, huniq⟩ := h.pairs b hb hd hhd s hs i hi second
  have hplace' := hplace
  rw [heq] at hplace'
  rw [huniq slot hslot (by rw [hplace, Place.overlaps_self]),
    huniq slot' hslot' (by rw [hplace', Place.overlaps_self])]

/-- Rows of words in which the pairs have cells of their own do not go around. -/
theorem rows_le_of_inj {N D : ℕ} (hD : D < uintRange) (hhalf : 0 < D / 2)
    (hinj : ∀ r < N, ∀ r' < N, ∀ c < 2 * (D / 2), ∀ c' < 2 * (D / 2),
      toUInt (r * D + c) = toUInt (r' * D + c') → r = r') : N * D ≤ uintRange + D % 2 := by
  by_contra hgt
  have hzero : toUInt (0 * D + 0) = 0 := by simp [toUInt]
  have hone : toUInt (0 * D + 1) = 1 := by simp [toUInt, uintRange]
  have hsplit : uintRange / D * D + uintRange % D = uintRange := Nat.div_add_mod' ..
  have hmod : uintRange % D < D := Nat.mod_lt _ (by omega)
  have hpos : 0 < uintRange / D := Nat.div_pos hD.le (by omega)
  -- the row in which the words are used up
  obtain ⟨r, hr⟩ : ∃ r, r = uintRange / D := ⟨_, rfl⟩
  obtain ⟨c, hc⟩ : ∃ c, c = uintRange % D := ⟨_, rfl⟩
  rw [← hr, ← hc] at hsplit
  rw [← hc] at hmod
  rw [← hr] at hpos
  rcases Nat.lt_or_ge c (2 * (D / 2)) with hlt | hge
  · have hrow : r < N := Nat.lt_of_mul_lt_mul_right (a := D) (by omega)
    have hcell : toUInt (r * D + c) = 0 := by
      rw [hsplit]
      exact Nat.mod_self _
    have hfirst := hinj r hrow 0 (by omega) c hlt 0 (by omega) (hcell.trans hzero.symm)
    omega
  · -- the last element of the row is not in a pair
    have hrow : r + 1 < N := by
      apply Nat.lt_of_mul_lt_mul_right (a := D)
      rw [Nat.add_one_mul]
      omega
    have hnext : (r + 1) * D + 0 = uintRange + 1 := by
      rw [Nat.add_one_mul]
      omega
    have hcell : toUInt ((r + 1) * D + 0) = 1 := by
      rw [hnext]
      rfl
    have hfirst := hinj (r + 1) hrow 0 (by omega) 0 (by omega) 1 (by omega)
      (hcell.trans hone.symm)
    omega

theorem Served.sized (h : call.Served run t) (hc : call.Constants run.args) (he : call.Exact)
    (hpairs : 0 < call.q.dim 3 / 2) : call.Sized := by
  refine ⟨he.seq_len, he.head_dim, he.positions, rows_le_of_inj he.head_dim hpairs ?_⟩
  intro r hr r' hr' c hcol c' hcol' heq
  have hS : 0 < call.q.dim 2 := Nat.pos_of_ne_zero fun h0 => by simp [h0] at hr
  -- the store of an element of a row
  have hslot : ∀ r < call.heads * call.q.dim 2, ∀ c < 2 * (call.q.dim 3 / 2),
      ((c / 2, r % call.q.dim 2, r / call.q.dim 2), decide (c % 2 = 1)) ∈ slots run.args.threads ∧
        run.args.slotCell ((c / 2, r % call.q.dim 2, r / call.q.dim 2), decide (c % 2 = 1))
          = toUInt (r * call.q.dim 3 + c) := by
    intro r hr c hcol
    constructor
    · rw [mem_slots, hc.mem_threads]
      exact ⟨by omega, Nat.mod_lt _ hS, Nat.div_lt_of_lt_mul (by rwa [Nat.mul_comm] at hr)⟩
    · rw [hc.slotCell_eq, pairCell, Nat.div_add_mod', Nat.add_assoc, two_mul_div_add_bit]
  obtain ⟨hmem, hcell⟩ := hslot r hr c hcol
  obtain ⟨hmem', hcell'⟩ := hslot r' hr' c' hcol'
  have hsame := h.slot_eq hmem hmem' (by rw [hcell, hcell', heq])
  simp only [Prod.mk.injEq] at hsame
  rw [← Nat.div_add_mod' r (call.q.dim 2), ← Nat.div_add_mod' r' (call.q.dim 2), hsame.1.2.1,
    hsame.1.2.2]

/-- The cells of the pairs do not wrap around. -/
theorem Sized.pairCell_lt (h : call.Sized) {bh s i e : ℕ} (hbh : bh < call.heads)
    (hs : s < call.q.dim 2) (hi : i < call.q.dim 3 / 2) (he : e < 2) :
    call.pairCell bh s i + e < uintRange := by
  have hrow : bh * call.q.dim 2 + s + 1 ≤ call.heads * call.q.dim 2 := by
    have hle : (bh + 1) * call.q.dim 2 ≤ call.heads * call.q.dim 2 := Nat.mul_le_mul_right _ hbh
    rw [Nat.add_one_mul] at hle
    omega
  have hcells := Nat.mul_le_mul_right (call.q.dim 3) hrow
  have hmax := h.cells
  rw [Nat.add_one_mul] at hcells
  unfold pairCell
  omega

/-- Each element of a pair has a cell of its own. -/
theorem pairCell_inj {bh s i bh' s' i' : ℕ} {second second' : Bool} (hs : s < call.q.dim 2)
    (hs' : s' < call.q.dim 2) (hi : i < call.q.dim 3 / 2) (hi' : i' < call.q.dim 3 / 2)
    (heq : call.pairCell bh s i + second.toNat = call.pairCell bh' s' i' + second'.toNat) :
    ((i, s, bh), second) = ((i', s', bh'), second') := by
  have hbit := Bool.toNat_lt second
  have hbit' := Bool.toNat_lt second'
  unfold pairCell at heq
  rw [Nat.add_assoc, Nat.add_assoc] at heq
  have hrow : bh * call.q.dim 2 + s = bh' * call.q.dim 2 + s' ∧
      2 * i + second.toNat = 2 * i' + second'.toNat :=
    (SimdMatrix.rowMajor_inj (by omega) (by omega)).mp heq
  obtain ⟨hbh, rfl⟩ := (SimdMatrix.rowMajor_inj hs hs').mp hrow.1
  obtain rfl : i = i' := by omega
  have hsecond : second = second' := by
    cases second <;> cases second' <;> simp at hrow ⊢
  rw [hbh, hsecond]

/-! ### What is served -/

/-- The cells of a served pair. -/
theorem Served.exists_cells (h : call.Served run t) (hc : call.Constants run.args)
    (he : call.Exact) (hsized : call.Sized) (hcov : call.Covered)
    (hrows : call.start_pos.toNat + t.dim 2 ≤ call.cos_cache.dim 0)
    (hcols : t.dim 3 / 2 ≤ call.cos_cache.dim 1) {b hd s i : ℕ} (hb : b < t.dim 0)
    (hhd : hd < t.dim 1) (hs : s < t.dim 2) (hi : i < t.dim 3 / 2) :
    (s < call.q.dim 2 ∧ i < call.q.dim 3 / 2) ∧ t.dtype = call.kernelType ∧ ∃ bh < call.heads,
      t.cellOf [b, hd, s, 2 * i] = call.pairCell bh s i ∧
      t.cellOf [b, hd, s, 2 * i + 1] = call.pairCell bh s i + 1 := by
  obtain ⟨⟨hsq, hiq⟩, hτ, bh, hbh, hfirst, hsecond⟩ :=
    h.exists_head hc he hcov hrows hcols hb hhd hs hi
  have hlt := hsized.pairCell_lt hbh hsq hiq (by decide : 1 < 2)
  rw [toUInt_of_lt (by omega)] at hfirst
  rw [toUInt_of_lt hlt] at hsecond
  exact ⟨⟨hsq, hiq⟩, hτ, bh, hbh, hfirst.symm, hsecond.symm⟩

/-- The second cell of a pair follows the first one. -/
theorem cellOf_pair {b hd s i c : ℕ} (second : Bool) (hfirst : t.cellOf [b, hd, s, 2 * i] = c)
    (hsecond : t.cellOf [b, hd, s, 2 * i + 1] = c + 1) :
    t.cellOf [b, hd, s, 2 * i + second.toNat] = c + second.toNat := by
  cases second with
  | false => exact hfirst
  | true => exact hsecond

/-- The cell of a table that fits. -/
theorem TableFits.cacheCell_eq (h : call.TableFits table)
    (hcovers : call.Covers table) (hc : call.Constants run.args) (hsized : call.Sized) {s p : ℕ}
    (hs : s < call.q.dim 2) (hp : p < call.q.dim 3 / 2) :
    run.args.cacheCell s p = table.cellOf [call.start_pos.toNat + s, p] := by
  have hrows := hcovers.q_rows
  have hcolumns := hcovers.q_columns
  rw [hc.cacheCell_eq hsized.positions hs hp, hcovers.cellOf_eq (by omega) (by omega)]
  rcases h.columns with hone | hcol
  · have hzero : call.start_pos.toNat + s = 0 := by omega
    simp only [hzero, Nat.zero_mul]
  · rw [hcol]

theorem Served.walked (h : call.Served run t) (hc : call.Constants run.args) (he : call.Exact)
    (hsized : call.Sized) (hcov : call.Covered)
    (hrows : call.start_pos.toNat + t.dim 2 ≤ call.cos_cache.dim 0)
    (hcols : t.dim 3 / 2 ≤ call.cos_cache.dim 1) (hheads : 0 < call.heads)
    (hS : 0 < call.q.dim 2) (hhalf : 0 < call.q.dim 3 / 2) : call.Walked t := by
  -- the pair of each slot
  have hpair : ∀ bh < call.heads, ∀ s < call.q.dim 2, ∀ i < call.q.dim 3 / 2,
      t.dtype = call.kernelType ∧ s < t.dim 2 ∧ i < t.dim 3 / 2 ∧
        ∃ b < t.dim 0, ∃ hd < t.dim 1, t.cellOf [b, hd, s, 2 * i] = call.pairCell bh s i := by
    intro bh hbh s hs i hi
    have hmem : ((i, s, bh), false) ∈ slots run.args.threads :=
      mem_slots.mpr (hc.mem_threads.mpr ⟨hi, hs, hbh⟩)
    obtain ⟨b, hb, hd, hhd, s', hs', i', hi', second, hplace⟩ := h.exists_pair hmem
    obtain ⟨⟨hsq, hiq⟩, hτ, bh', -, hfirst, hsecond⟩ :=
      h.exists_cells hc he hsized hcov hrows hcols hb hhd hs' hi'
    have hcell := (MNTensor.cellAt_eq_placeOf.mp hplace).2
    rw [hc.slotCell_eq, toUInt_of_lt (hsized.pairCell_lt hbh hs hi (Bool.toNat_lt _)),
      cellOf_pair second hfirst hsecond] at hcell
    have hslot := pairCell_inj hs hsq hi hiq hcell
    simp only [Prod.mk.injEq] at hslot
    obtain ⟨⟨rfl, rfl, rfl⟩, -⟩ := hslot
    exact ⟨hτ, hs', hi', b, hb, hd, hhd, hfirst⟩
  obtain ⟨hτ, hlast, -⟩ := hpair 0 hheads (call.q.dim 2 - 1) (by omega) 0 hhalf
  obtain ⟨-, -, hlast', b₀, hb₀, hd₀, hhd₀, -⟩ := hpair 0 hheads 0 hS (call.q.dim 3 / 2 - 1)
    (by omega)
  -- a last position and a last pair of the tensor are also those of `q`
  obtain ⟨⟨hlt, -⟩, -⟩ := h.exists_head hc he hcov hrows hcols hb₀ hhd₀
    (by omega : t.dim 2 - 1 < t.dim 2) hlast'
  obtain ⟨⟨-, hlt'⟩, -⟩ := h.exists_head hc he hcov hrows hcols hb₀ hhd₀ hlast
    (by omega : t.dim 3 / 2 - 1 < t.dim 3 / 2)
  refine ⟨hτ, by omega, by omega, ?_, ?_, ?_⟩
  · intro b hb hd hhd s hs i hi
    exact (h.exists_cells hc he hsized hcov hrows hcols hb hhd hs hi).2.2
  · intro bh hbh s hs i hi
    exact (hpair bh hbh s hs i hi).2.2.2
  · intro b hb hd hhd s hs d hdim hodd bh hbh s' hs' i hi second heq
    have hmem : ((i, s', bh), second) ∈ slots run.args.threads :=
      mem_slots.mpr (hc.mem_threads.mpr ⟨hi, hs', hbh⟩)
    have hnone := h.rest b hb hd hhd s hs d hdim hodd _ hmem
    rw [Bool.eq_false_iff] at hnone
    apply hnone
    rw [MNTensor.cellAt_overlaps hτ.symm, hc.slotCell_eq, heq]
    exact toUInt_of_lt (hsized.pairCell_lt hbh hs' hi (Bool.toNat_lt _))

/-- A tensor that is walked over is served. -/
theorem Walked.served (h : call.Walked t) (hc : call.Constants run.args) (hsized : call.Sized)
    (hcov : call.Covered) (hcos : call.TableFits call.cos_cache)
    (hsin : call.TableFits call.sin_cache) : call.Served run t := by
  have hslot : ∀ {p s bh second}, ((p, s, bh), second) ∈ slots run.args.threads →
      (p < call.q.dim 3 / 2 ∧ s < call.q.dim 2 ∧ bh < call.heads) ∧
        run.args.slotCell ((p, s, bh), second) = call.pairCell bh s p + second.toNat := by
    intro p s bh second hmem
    obtain ⟨hp, hs, hbh⟩ := hc.mem_threads.mp (mem_slots.mp hmem)
    rw [hc.slotCell_eq]
    exact ⟨⟨hp, hs, hbh⟩, toUInt_of_lt (hsized.pairCell_lt hbh hs hp (Bool.toNat_lt _))⟩
  refine ⟨?_, ?_, ?_⟩
  · intro b hb hd hhd s hs i hi second
    obtain ⟨bh, hbh, hfirst, hsecond⟩ := h.pairs b hb hd hhd s hs i hi
    rw [h.seq_len] at hs
    rw [h.pairs_eq] at hi
    have hmem : ∀ second, ((i, s, bh), second) ∈ slots run.args.threads := fun second =>
      mem_slots.mpr (hc.mem_threads.mpr ⟨hi, hs, hbh⟩)
    refine ⟨(i, s, bh), hc.mem_threads.mpr ⟨hi, hs, hbh⟩, ?_, ?_, ?_⟩
    · rw [MNTensor.cellAt_eq_placeOf, (hslot (hmem second)).2, cellOf_pair second hfirst hsecond]
      exact ⟨h.dtype.symm, rfl⟩
    · unfold RopeArgs.reads pairReads
      rw [Rotation.Reads.mk.injEq]
      simp only [MNTensor.cellAt_eq_placeOf]
      exact ⟨⟨h.dtype.symm, ((hslot (hmem false)).2).trans hfirst.symm⟩,
        ⟨h.dtype.symm, ((hslot (hmem true)).2).trans hsecond.symm⟩,
        ⟨hcos.dtype.symm, hcos.cacheCell_eq hcov.cos hc hsized hs hi⟩,
        hsin.dtype.symm, hsin.cacheCell_eq hcov.sin hc hsized hs hi⟩
    · rintro ⟨⟨p, s', bh'⟩, second'⟩ hmem' hhit
      obtain ⟨⟨hp, hs', -⟩, heq⟩ := hslot hmem'
      rw [MNTensor.cellAt_overlaps h.dtype.symm, heq, cellOf_pair second hfirst hsecond] at hhit
      exact pairCell_inj hs' hs hp hi hhit
  · rintro b hb hd hhd s hs d hdim hodd ⟨⟨p, s', bh⟩, second⟩ hmem
    obtain ⟨⟨hp, hs', hbh⟩, heq⟩ := hslot hmem
    rw [Bool.eq_false_iff]
    intro hhit
    rw [MNTensor.cellAt_overlaps h.dtype.symm, heq] at hhit
    exact h.rest b hb hd hhd s hs d hdim hodd bh hbh s' hs' p hp second hhit.symm
  · rintro ⟨⟨p, s, bh⟩, second⟩ hmem
    obtain ⟨⟨hp, hs, hbh⟩, heq⟩ := hslot hmem
    have hbit := Bool.toNat_lt second
    obtain ⟨b, hb, hd, hhd, hfirst⟩ := h.heads bh hbh s hs p hp
    rw [← h.seq_len] at hs
    rw [← h.pairs_eq] at hp
    obtain ⟨bh', -, hfirst', hsecond'⟩ := h.pairs b hb hd hhd s hs p hp
    rw [← hfirst', hfirst] at hsecond'
    refine ⟨b, hb, hd, hhd, s, hs, 2 * p + second.toNat, by omega, ?_⟩
    rw [MNTensor.cellAt_eq_placeOf, heq, cellOf_pair second hfirst hsecond']
    exact ⟨h.dtype.symm, rfl⟩

theorem TableFits.readsInside (h : call.TableFits table)
    (hcovers : call.Covers table) (hc : call.Constants run.args) (hsized : call.Sized) :
    call.ReadsInside run table := by
  rintro ⟨p, s, bh⟩ hthread
  obtain ⟨hp, hs, -⟩ := hc.mem_threads.mp hthread
  have hrows := hcovers.q_rows
  have hcolumns := hcovers.q_columns
  refine ⟨call.start_pos.toNat + s, by omega, p, by omega, ?_⟩
  rw [MNTensor.cellAt_eq_placeOf]
  exact ⟨h.dtype.symm, h.cacheCell_eq hcovers hc hsized hs hp⟩

/-! ### The condition is exact -/

/-- Where `q` has no pairs there are no threads. -/
theorem Pairless.not_mem_threads (h : Pairless call.q) (thread : ℕ × ℕ × ℕ) :
    thread ∉ call.args.threads := by
  obtain ⟨p, s, bh⟩ := thread
  rw [call.args.mem_threads, args_heads]
  rintro ⟨hp, hs, hbh⟩
  have hseq : s < call.q.dim 2 := hs.trans_le (Nat.mod_le _ _)
  have hdim : call.args.head_dim ≤ call.q.dim 3 := Nat.mod_le _ _
  have hhalf : p < call.args.head_dim / 2 := hp
  have hheads : call.heads ≤ call.q.dim 0 * call.q.dim 1 := Nat.mod_le _ _
  rcases h with h | h | h | h
  · rw [h, Nat.zero_mul] at hheads
    omega
  · rw [h, Nat.mul_zero] at hheads
    omega
  · omega
  · omega

/-- Nothing is to be rotated, and nothing is. -/
theorem Pairless.rotated (hargs : run.args = call.args) (hq : Pairless call.q)
    (hk : Pairless call.k) : call.Rotated run := by
  have hslots : ∀ slot, slot ∉ slots run.args.threads := by
    intro slot hslot
    rw [hargs] at hslot
    exact hq.not_mem_threads _ (mem_slots.mp hslot)
  have hserved : ∀ {t : MNTensor Unit}, Pairless t → call.Served run t := by
    intro t ht
    refine ⟨?_, fun b _ hd _ s _ d _ _ slot hslot => absurd hslot (hslots slot),
      fun slot hslot => absurd hslot (hslots slot)⟩
    intro b hb hd hhd s hs i hi
    unfold Pairless at ht
    omega
  have hreads : ∀ table, call.ReadsInside run table := fun table thread hthread =>
    absurd (mem_slots.mpr hthread) (hslots (thread, false))
  exact ⟨tensorRotated_iff.mpr (hserved hq), tensorRotated_iff.mpr (hserved hk), hreads _, hreads _⟩

/-- A launch with the constants of a call rotates every pair exactly where the sizes, the tables and
    the layouts fit. -/
theorem rotated_iff (hargs : run.args = call.args) (hcov : call.Covered) :
    call.Rotated run ↔ call.Rotatable := by
  constructor
  · intro h
    have hq := tensorRotated_iff.mp h.q
    have hk := tensorRotated_iff.mp h.k
    by_cases hpairs : Pairless call.q
    · refine .inl ⟨hpairs, ?_⟩
      by_contra hne
      unfold Pairless at hne
      obtain ⟨thread, hthread, -⟩ := hk.pairs 0 (by omega) 0 (by omega) 0 (by omega) 0 (by omega)
        false
      rw [hargs] at hthread
      exact hpairs.not_mem_threads thread hthread
    · have he := hq.exact hargs hcov hpairs
      unfold Pairless at hpairs
      have hc : call.Constants run.args := by
        rw [hargs]
        exact he.constants hcov (by omega) (by omega)
      obtain ⟨-, -, bh, hbh, -⟩ := hq.exists_head hc he hcov hcov.cos.q_rows hcov.cos.q_columns
        (by omega : 0 < call.q.dim 0) (by omega : 0 < call.q.dim 1) (by omega : 0 < call.q.dim 2)
        (by omega : 0 < call.q.dim 3 / 2)
      have hsized := hq.sized hc he (by omega)
      exact .inr ⟨hsized, he.cos, he.sin,
        hq.walked hc he hsized hcov hcov.cos.q_rows hcov.cos.q_columns (by omega) (by omega)
          (by omega),
        hk.walked hc he hsized hcov hcov.cos.k_rows hcov.cos.k_columns (by omega) (by omega)
          (by omega)⟩
  · rintro (⟨hq, hk⟩ | ⟨hsized, hcos, hsin, hq, hk⟩)
    · exact Pairless.rotated hargs hq hk
    · by_cases hzero : call.q.dim 2 = 0 ∨ call.q.dim 3 / 2 = 0
      · apply Pairless.rotated hargs
        · exact .inr (.inr hzero)
        · unfold Pairless
          rw [hk.seq_len, hk.pairs_eq]
          exact .inr (.inr hzero)
      · have hc : call.Constants run.args := by
          rw [hargs]
          exact Exact.constants ⟨hsized.seq_len, hsized.head_dim, hsized.positions, hcos, hsin⟩ hcov
            (by omega) (by omega)
        exact ⟨tensorRotated_iff.mpr (hq.served hc hsized hcov hcos hsin),
          tensorRotated_iff.mpr (hk.served hc hsized hcov hcos hsin),
          hcos.readsInside hcov.cos hc hsized, hsin.readsInside hcov.sin hc hsized⟩

end RopeCall

end MetalNative
