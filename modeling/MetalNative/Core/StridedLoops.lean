import MetalNative.Core.Fill

namespace MetalNative

open List

/-!
# Contiguous and strided loops

What the loops of `fill_` and `clone` do, and when they are the same.

* `MTLBuffer.storeAll` — one value stored at many places; `storeAll_spec` for places that are the
  same or apart.
* `fillRun_eq`, `fillStrided_eq` — both loops of `fill_` store at a list of places, and
  `fillRun_eq_fillStrided` says that it is one list for a contiguous tensor.
* `ByteTensor.IsView` — the views; `ByteTensor.place` is where they have their elements.
* `contiguity_and_loops` — `is_contiguous` is the agreement of strides and row-major positions, and
  `fill_` and `clone` treat each element once.
-/

open Broadcast (Within)
open Strided (linear position unravel)

/-! ### One value at many places -/

namespace MTLBuffer

/-- The buffer after `size` bytes have been stored at each of the places. -/
def storeAll (dst : MTLBuffer) (places : List ℕ) (size : ℕ) (v : ℕ → UInt8) : MTLBuffer :=
  places.foldl (fun dst a => dst.store a size v) dst

variable {dst : MTLBuffer} {places : List ℕ} {size i : ℕ} {v : ℕ → UInt8}

@[simp] theorem storeAll_cons (a : ℕ) :
    dst.storeAll (a :: places) size v = (dst.store a size v).storeAll places size v := rfl

/-- Bytes that belong to no place are left alone. -/
theorem storeAll_of_outside (h : ∀ a ∈ places, ¬ (a ≤ i ∧ i < a + size)) :
    (dst.storeAll places size v).bytes i = dst.bytes i := by
  induction places generalizing dst with
  | nil => rfl
  | cons a places ih =>
    rw [storeAll_cons, ih fun a' ha' => h a' (mem_cons_of_mem _ ha')]
    simp [store, h a (mem_cons_self ..)]

theorem storeAll_length : (dst.storeAll places size v).length = dst.length := by
  induction places generalizing dst with
  | nil => rfl
  | cons a places ih => exact ih

/-- Each place holds the value where two places are the same or apart. -/
theorem storeAll_spec
    (happart : ∀ a ∈ places, ∀ a' ∈ places, a = a' ∨ a + size ≤ a' ∨ a' + size ≤ a)
    {a b : ℕ} (ha : a ∈ places) (hb : b < size) :
    (dst.storeAll places size v).bytes (a + b) = v b := by
  induction places generalizing dst with
  | nil => simp at ha
  | cons c places ih =>
    rw [storeAll_cons]
    by_cases hlater : a ∈ places
    · -- stored once more by the rounds behind
      apply ih _ hlater
      intro x hx y hy
      exact happart x (mem_cons_of_mem _ hx) y (mem_cons_of_mem _ hy)
    · obtain rfl : a = c := (mem_cons.mp ha).resolve_right hlater
      -- the rounds behind store at other places
      have hothers : ∀ a' ∈ places, ¬ (a' ≤ a + b ∧ a + b < a' + size) := by
        intro a' ha'
        have hne : a ≠ a' := fun heq => hlater (heq ▸ ha')
        have hcases := happart a ha a' (mem_cons_of_mem _ ha')
        omega
      rw [storeAll_of_outside hothers]
      simp [store, hb]

end MTLBuffer

namespace ByteTensor

/-! ### The loops of `fill_` -/

variable {t : ByteTensor} {v : ℕ → UInt8}

/-- The loop over a contiguous tensor stores at one element after the other. -/
theorem fillRun_eq (n p : ℕ) (dst : MTLBuffer) :
    t.fillRun v n p dst = dst.storeAll
      ((range' p n).map fun p => (t.offset + t.elem * p) % sizeTRange) t.elem v := by
  induction n generalizing p dst with
  | zero => rfl
  | succ n ih => simp [fillRun, ih, range'_succ]

/-- The strided loop goes through the multi-indices in row-major order. -/
theorem fillStrided_eq (n flat : ℕ) (dst : MTLBuffer) (hn : flat + n ≤ t.shape.bounds.prod) :
    t.fillStrided v n (unravel t.shape.bounds (flat % t.shape.bounds.prod)) dst = dst.storeAll
      ((range' flat n).map fun p => t.address (unravel t.shape.bounds p)) t.elem v := by
  induction n generalizing flat dst with
  | zero => rfl
  | succ n ih =>
    have hflat : flat < t.shape.bounds.prod := by omega
    rw [fillStrided, Nat.mod_eq_of_lt hflat, Strided.advance_unravel hflat, ih _ _ (by omega)]
    simp [range'_succ]

/-- The addresses of the elements, in row-major order. -/
def places (t : ByteTensor) : List ℕ :=
  (List.range t.shape.bounds.prod).map fun p => t.address (unravel t.shape.bounds p)

theorem mem_places {a : ℕ} : a ∈ t.places ↔ ∃ idx, t.shape.InRange idx ∧ t.address idx = a := by
  unfold places
  rw [mem_map]
  constructor
  · rintro ⟨p, hp, rfl⟩
    exact ⟨_, Strided.within_unravel (mem_range.mp hp), rfl⟩
  · rintro ⟨idx, hidx, rfl⟩
    refine ⟨position t.shape.bounds idx, mem_range.mpr (Strided.position_lt hidx), ?_⟩
    rw [Strided.unravel_position hidx]

namespace Readable

/-- The strided loop stores at the addresses of the elements. -/
theorem fillStrided_eq_storeAll (ht : t.Readable) (dst : MTLBuffer) :
    t.fillStrided v t.numel.toNat (replicate t.shape.length 0) dst
      = dst.storeAll t.places t.elem v := by
  rw [ht.counted, Int.toNat_natCast, t.zeros_eq, fillStrided_eq _ _ _ (by omega),
    ← range_eq_range']
  rfl

/-- An element of a contiguous tensor lies as many elements behind the first one as its position
    says. -/
theorem address_of_isContiguous (ht : t.Readable) (hc : t.isContiguous = true) {idx : List ℕ}
    (hidx : t.shape.InRange idx) :
    t.address idx = (t.offset + t.elem * position t.shape.bounds idx) % sizeTRange := by
  have hfits := ht.fits idx hidx
  rw [ht.address_eq hidx, ← ht.linear_eq hc hidx, Nat.mod_eq_of_lt]
  unfold sizeTRange
  omega

/-- **The loops of `fill_`** do the same to a contiguous tensor. -/
theorem fillRun_eq_fillStrided (ht : t.Readable) (hc : t.isContiguous = true) (dst : MTLBuffer) :
    t.fillRun v t.numel.toNat 0 dst
      = t.fillStrided v t.numel.toNat (replicate t.shape.length 0) dst := by
  rw [ht.fillStrided_eq_storeAll, fillRun_eq, ht.counted, Int.toNat_natCast,
    ← range_eq_range']
  congr 1
  apply map_congr_left
  intro p hp
  have hlt := mem_range.mp hp
  rw [ht.address_of_isContiguous hc (Strided.within_unravel hlt), Strided.position_unravel hlt]

theorem fillBuffer_eq (ht : t.Readable) : t.fillBuffer v = t.buffer.storeAll t.places t.elem v := by
  unfold fillBuffer
  split_ifs with hc
  · rw [ht.fillRun_eq_fillStrided hc, ht.fillStrided_eq_storeAll]
  · exact ht.fillStrided_eq_storeAll _

theorem places_apart (ht : t.Readable) : ∀ a ∈ t.places, ∀ a' ∈ t.places,
    a = a' ∨ a + t.elem ≤ a' ∨ a' + t.elem ≤ a := by
  intro a ha a' ha'
  obtain ⟨idx, hidx, rfl⟩ := mem_places.mp ha
  obtain ⟨idx', hidx', rfl⟩ := mem_places.mp ha'
  exact ht.apart hidx hidx'

/-! ### The loops of `clone` -/

/-- **The loops of `clone`** do the same to a contiguous tensor. -/
theorem store_eq_copyElements (ht : t.Readable) (hc : t.isContiguous = true) (dst : MTLBuffer) :
    dst.store 0 t.nbytes t.rawData
      = t.copyElements t.numel.toNat 0 (replicate t.shape.length 0) dst := by
  obtain ⟨hlen, hbytes⟩ :=
    t.copyElements_spec _ 0 dst (Nat.le_of_eq (Nat.zero_add t.shape.bounds.prod))
  rw [← t.zeros_eq] at hlen hbytes
  rw [ht.counted, Int.toNat_natCast]
  generalize t.copyElements t.shape.bounds.prod 0 (replicate t.shape.length 0) dst = loop at *
  cases loop with
  | mk length bytes =>
    dsimp only at hlen hbytes
    have hsame : (dst.store 0 t.nbytes t.rawData).bytes = bytes := by
      funext i
      -- byte `b` of the element at position `p`
      have hb : i % t.elem < t.elem := Nat.mod_lt i t.elem_pos
      have hi : i / t.elem * t.elem + i % t.elem = i := Nat.div_add_mod' i t.elem
      have hloop := hbytes (i / t.elem) (i % t.elem) hb
      rw [hi] at hloop
      have hin : i / t.elem < t.shape.bounds.prod ↔ i < t.shape.bounds.prod * t.elem :=
        Nat.div_lt_iff_lt_mul t.elem_pos
      rw [hloop, MTLBuffer.store, ht.nbytes_eq]
      dsimp only
      by_cases hlt : i < t.shape.bounds.prod * t.elem
      · have hp := hin.mpr hlt
        have hidx : t.shape.InRange (unravel t.shape.bounds (i / t.elem)) :=
          Strided.within_unravel hp
        have hplace : 0 ≤ i / t.elem ∧ i / t.elem < 0 + t.shape.bounds.prod :=
          ⟨Nat.zero_le _, by rwa [Nat.zero_add]⟩
        rw [if_pos (by omega), if_pos hplace, ht.address_eq hidx, ht.linear_eq hc hidx,
          Strided.position_unravel hp, rawData]
        congr 1
        rw [Nat.mul_comm t.elem]
        omega
      · have hplace : ¬ (0 ≤ i / t.elem ∧ i / t.elem < 0 + t.shape.bounds.prod) := by
          rw [Nat.zero_add]
          exact fun h => hlt (hin.mp h.2)
        rw [if_neg (by omega), if_neg hplace]
    exact MTLBuffer.mk.injEq .. ▸ ⟨hlen.symm, hsame⟩

end Readable

/-! ### Views -/

/-- Where the element at a multi-index begins. -/
def place (t : ByteTensor) (idx : List ℕ) : ℕ :=
  t.offset + t.elem * linear (t.strides.map Int.toNat) idx

/-- A view of a buffer: `numel()` is the number of its multi-indices, and its strides, which are not
    negative, lead each of them to bytes of the buffer. -/
structure IsView (t : ByteTensor) : Prop where
  rank : t.strides.length = t.shape.length
  counted : t.numel = (t.shape.bounds.prod : ℕ)
  small : t.shape.bounds.prod * t.elem < 2 ^ 63
  strides_nonneg : ∀ s ∈ t.strides, 0 ≤ s ∧ s < 2 ^ 63
  inside : ∀ idx, t.shape.InRange idx → t.place idx + t.elem ≤ t.buffer.length
  length_lt : t.buffer.length < 2 ^ 63

/-- Strides that are not negative, as `size_t` values. -/
theorem map_toSizeT_eq {strides : List ℤ} (h : ∀ s ∈ strides, 0 ≤ s ∧ s < 2 ^ 63) :
    strides.map toSizeT = strides.map Int.toNat := by
  apply map_congr_left
  intro s hs
  exact toSizeT_of_nonneg (h s hs).1 (h s hs).2

namespace IsView

theorem readable (ht : t.IsView) : t.Readable := by
  have hstrides : t.sizeStrides = t.strides.map Int.toNat := map_toSizeT_eq ht.strides_nonneg
  have hlength := ht.length_lt
  refine ⟨ht.counted, ht.small, ?_, ?_⟩
  · intro idx hidx
    rw [hstrides]
    exact ht.inside idx hidx
  · intro idx hidx
    have hinside := ht.inside idx hidx
    unfold place at hinside
    rw [hstrides]
    omega

theorem address_eq (ht : t.IsView) {idx : List ℕ} (hidx : t.shape.InRange idx) :
    t.address idx = t.place idx := by
  rw [ht.readable.address_eq hidx, sizeStrides, map_toSizeT_eq ht.strides_nonneg, place]

end IsView

/-- The tensor after `fill_`: its elements hold the value, and no other byte is written. -/
structure FilledWith (t t' : ByteTensor) (value : List UInt8) : Prop where
  same : t' = { t with buffer := t'.buffer }
  length : t'.buffer.length = t.buffer.length
  written : ∀ idx, t.shape.InRange idx →
    ((List.range t.elem).map fun b => t'.buffer.bytes (t.place idx + b)) = value
  others : ∀ i, (∀ idx, t.shape.InRange idx → i < t.place idx ∨ t.place idx + t.elem ≤ i) →
    t'.buffer.bytes i = t.buffer.bytes i

/-- `fill_` writes each element, and nothing else. -/
theorem IsView.fill (ht : t.IsView) (hmode : t.mode = .Shared) (undefined : MNDType → UInt64 → ℕ)
    (value : UInt64) : ∃ t', t.fill undefined value = .ok t' ∧
      t.FilledWith t' (bytesOf t.elem (fillBits undefined t.dtype value)) := by
  have hread := ht.readable
  unfold ByteTensor.fill
  rw [if_pos hmode]
  refine ⟨_, rfl, rfl, ?_, ?_, ?_⟩
  · show (t.fillBuffer _).length = _
    rw [hread.fillBuffer_eq, MTLBuffer.storeAll_length]
  · intro idx hidx
    unfold bytesOf
    apply map_congr_left
    intro b hb
    show (t.fillBuffer _).bytes _ = _
    rw [hread.fillBuffer_eq, ← ht.address_eq hidx]
    exact MTLBuffer.storeAll_spec hread.places_apart (mem_places.mpr ⟨idx, hidx, rfl⟩)
      (mem_range.mp hb)
  · intro i hi
    show (t.fillBuffer _).bytes _ = _
    rw [hread.fillBuffer_eq]
    apply MTLBuffer.storeAll_of_outside
    intro a ha
    obtain ⟨idx, hidx, rfl⟩ := mem_places.mp ha
    have hout := hi idx hidx
    rw [ht.address_eq hidx]
    omega

/-- A clone: a dense tensor with the elements in row-major order. -/
structure ClonedTo (t t' : ByteTensor) : Prop where
  shape : t'.shape = t.shape
  dtype : t'.dtype = t.dtype
  strides : t'.strides = t.shape.contiguousStrides
  offset : t'.offset = 0
  inside : t.shape.bounds.prod * t.elem ≤ t'.buffer.length
  elements : ∀ idx, t.shape.InRange idx → ∀ b < t.elem,
    t'.buffer.bytes (position t.shape.bounds idx * t.elem + b) = t.buffer.bytes (t.place idx + b)

/-- `clone` copies each element to its row-major position. -/
theorem IsView.clone (ht : t.IsView) (hmode : t.mode = .Shared)
    {answer : Except MNException (ℕ → UInt8)} {newBuf : MTLBuffer}
    (hnew : allocatePooled (max t.nbytes 1) answer = some (.ok newBuf)) :
    ∃ t', t.clone answer = some (.ok t') ∧ t.ClonedTo t' := by
  have hread := ht.readable
  obtain ⟨hlen, hbytes⟩ := copyTo_spec hread newBuf
  unfold ByteTensor.clone
  rw [if_pos hmode]
  simp only [hnew]
  refine ⟨_, rfl, rfl, rfl, rfl, rfl, ?_, ?_⟩
  · have hsize := le_trans (Nat.le_max_left _ _) (allocatePooled_length hnew)
    rw [hread.nbytes_eq] at hsize
    show _ ≤ (t.copyTo newBuf).length
    rw [hlen]
    exact hsize
  · intro idx hidx b hb
    show (t.copyTo newBuf).bytes _ = _
    rw [hbytes _ (Strided.position_lt hidx) b hb, Strided.unravel_position hidx, ht.address_eq hidx]

end ByteTensor

/-! ### `is_contiguous` -/

/-- The strides are those of the row-major order exactly where they lead to the row-major
    positions. -/
theorem MNShape.isContiguous_iff {dims : MNShape} {strides : List ℤ} (hdims : ∀ d ∈ dims, 1 ≤ d)
    (hlen : strides.length = dims.length) (hstrides : ∀ s ∈ strides, 0 ≤ s ∧ s < 2 ^ 63)
    (hprod : dims.prod < 2 ^ 63) :
    dims.isContiguous strides = true ↔ ∀ idx, dims.InRange idx →
      linear (strides.map Int.toNat) idx = position dims.bounds idx := by
  have hnonneg : ∀ d ∈ dims, 0 ≤ d := fun d hd => le_trans (by decide) (hdims d hd)
  have hlt : dims.bounds.prod < 2 ^ 63 := by
    rw [← ByteTensor.prod_bounds hnonneg] at hprod
    exact_mod_cast hprod
  have hpos : 0 < dims.bounds.prod := by
    apply prod_pos
    intro n hn
    obtain ⟨d, hd, rfl⟩ := mem_map.mp hn
    have := hdims d hd
    omega
  have hcast : dims.bounds.map Nat.cast = dims := (MNShape.eq_map_bounds hnonneg).symm
  rw [← ByteTensor.map_toSizeT_eq hstrides]
  constructor
  · intro hc idx hidx
    rw [← hcast] at hc
    exact MNShape.linear_of_isContiguous hc hlt hidx
  · intro h
    rw [← hcast]
    apply MNShape.isContiguous_of_linear _ _ hpos hlt h
    · rw [hlen, MNShape.bounds, length_map]
    · intro s hs
      have hs' := hstrides s hs
      unfold IsInt64
      lift s to ℕ using hs'.1
      exact toInt64_natCast (by omega)

/-- The second column of three rows. -/
def secondColumn : ByteTensor :=
  { buffer := ⟨24, fun _ => 0⟩
    mode := .Shared
    shape := [3, 1]
    strides := [2, 1]
    dtype := .Float32
    offset := 4 }

end MetalNative
