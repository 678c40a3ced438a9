import MetalNative.Core.View
import MetalNative.Memory.AllocatorSafety
import Mathlib.Algebra.BigOperators.Ring.Finset
import Mathlib.Data.List.GetD
import Mathlib.Algebra.Order.BigOperators.GroupWithZero.List

namespace MetalNative

open MNShape Strided Option List

/-!
# Where views point

The elements of a view lie inside its buffer, no two of them share a byte, and each is the element
of the first tensor that the calls say it is.

* `Readable` — the elements lie inside the buffer.
* `Placed` — the invariant: the dimensions are not negative, and the strides lead every multi-index
  to bytes of its own inside the buffer.  `Placed.address_eq` turns an address into a sum that does
  not wrap.
* `Tracks t t' source` — one call: the result is placed, and shows at each index what `t` shows at
  the index it comes from.  There is one lemma for each call.
* `ViewCall.fits` — the condition on a call to `reshape`: its product does not leave an `int64_t`.
-/

open Broadcast (Within)
open Strided (linear position unravel)

namespace ByteTensor

/-- The strides, as the `size_t` values that addresses are computed from. -/
def sizeStrides (t : ByteTensor) : List ℕ := t.strides.map toSizeT

/-- The elements can be counted and lie inside the buffer.  Two multi-indices may lead to the same
    bytes. -/
structure Readable (t : ByteTensor) : Prop where
  counted : t.numel = (t.shape.bounds.prod : ℕ)
  small : t.shape.bounds.prod * t.elem < 2 ^ 63
  inside : ∀ idx, t.shape.InRange idx →
    t.offset + t.elem * linear t.sizeStrides idx + t.elem ≤ t.buffer.length
  fits : ∀ idx, t.shape.InRange idx →
    t.offset + t.elem * linear t.sizeStrides idx + t.elem < 2 ^ 63

/-- The invariant of a view. -/
structure Placed (t : ByteTensor) : Prop where
  nonneg : ∀ d ∈ t.shape, 0 ≤ d
  rank : t.strides.length = t.shape.length
  small : t.shape.bounds.prod * t.elem < 2 ^ 63
  inside : ∀ idx, t.shape.InRange idx →
    t.offset + t.elem * linear t.sizeStrides idx + t.elem ≤ t.buffer.length
  fits : ∀ idx, t.shape.InRange idx →
    t.offset + t.elem * linear t.sizeStrides idx + t.elem < 2 ^ 63
  inj : ∀ idx idx', t.shape.InRange idx → t.shape.InRange idx' →
    linear t.sizeStrides idx = linear t.sizeStrides idx' → idx = idx'

/-- Every multi-index addresses bytes of the buffer. -/
def InsideBuffer (t : ByteTensor) : Prop :=
  ∀ idx, t.shape.InRange idx → t.address idx + t.elem ≤ t.buffer.length

/-- No two multi-indices share a byte. -/
def NoAlias (t : ByteTensor) : Prop :=
  ∀ idx idx', t.shape.InRange idx → t.shape.InRange idx' → idx ≠ idx' →
    t.address idx + t.elem ≤ t.address idx' ∨ t.address idx' + t.elem ≤ t.address idx

theorem elem_pos (t : ByteTensor) : 0 < t.elem := by
  unfold elem
  cases t.dtype <;> decide

namespace Readable

variable {t : ByteTensor} {idx : List ℕ}

theorem prod_lt (h : t.Readable) : t.shape.bounds.prod < 2 ^ 63 :=
  Nat.lt_of_le_of_lt (Nat.le_mul_of_pos_right _ t.elem_pos) h.small

/-- The number of bytes does not wrap. -/
theorem nbytes_eq (h : t.Readable) : t.nbytes = t.shape.bounds.prod * t.elem := by
  have hsmall := h.small
  have hprod := h.prod_lt
  rw [nbytes, h.counted, toSizeT_natCast, Nat.mod_eq_of_lt]
  · unfold sizeTRange
    omega
  · unfold sizeTRange
    omega

/-- An address is the sum of the offset and the strides. -/
theorem address_eq (h : t.Readable) (hidx : t.shape.InRange idx) :
    t.address idx = t.offset + t.elem * linear t.sizeStrides idx := by
  have hfits := h.fits idx hidx
  rw [address, srcOff_eq, Nat.add_mod_mod]
  apply Nat.mod_eq_of_lt
  change t.offset + t.elem * linear t.sizeStrides idx < sizeTRange
  unfold sizeTRange
  omega

theorem insideBuffer (h : t.Readable) : t.InsideBuffer := by
  intro idx hidx
  rw [h.address_eq hidx]
  exact h.inside idx hidx

/-- Two elements are the same bytes or apart: all of them begin at a multiple of their size from the
    offset on. -/
theorem apart (h : t.Readable) {idx' : List ℕ} (hidx : t.shape.InRange idx)
    (hidx' : t.shape.InRange idx') :
    t.address idx = t.address idx' ∨
      (t.address idx + t.elem ≤ t.address idx' ∨ t.address idx' + t.elem ≤ t.address idx) := by
  rw [h.address_eq hidx, h.address_eq hidx']
  rcases Nat.lt_trichotomy (linear t.sizeStrides idx) (linear t.sizeStrides idx')
    with hlt | heq | hlt
  · have hmul := Nat.mul_le_mul_left t.elem hlt
    rw [Nat.succ_eq_add_one, Nat.mul_add_one] at hmul
    omega
  · simp [heq]
  · have hmul := Nat.mul_le_mul_left t.elem hlt
    rw [Nat.succ_eq_add_one, Nat.mul_add_one] at hmul
    omega

/-- The strides of a contiguous view lead to the row-major positions. -/
theorem linear_eq (h : t.Readable) (hc : t.isContiguous = true) (hidx : t.shape.InRange idx) :
    linear t.sizeStrides idx = position t.shape.bounds idx := by
  unfold isContiguous at hc
  rw [eq_map_bounds hidx.nonneg] at hc
  exact linear_of_isContiguous hc h.prod_lt hidx

end Readable

namespace Placed

variable {t : ByteTensor} {idx : List ℕ}

theorem shape_eq (h : t.Placed) : t.shape = t.shape.bounds.map Nat.cast :=
  eq_map_bounds h.nonneg

theorem prod_lt (h : t.Placed) : t.shape.bounds.prod < 2 ^ 63 :=
  Nat.lt_of_le_of_lt (Nat.le_mul_of_pos_right _ t.elem_pos) h.small

/-- The number of elements does not wrap. -/
theorem numel_eq (h : t.Placed) : t.numel = (t.shape.bounds.prod : ℕ) := by
  rw [numel, h.shape_eq, numel_map_natCast, bounds_map_natCast]
  exact toInt64_natCast h.prod_lt

theorem readable (h : t.Placed) : t.Readable := ⟨h.numel_eq, h.small, h.inside, h.fits⟩

theorem nbytes_eq (h : t.Placed) : t.nbytes = t.shape.bounds.prod * t.elem :=
  h.readable.nbytes_eq

theorem address_eq (h : t.Placed) (hidx : t.shape.InRange idx) :
    t.address idx = t.offset + t.elem * linear t.sizeStrides idx :=
  h.readable.address_eq hidx

theorem insideBuffer (h : t.Placed) : t.InsideBuffer := h.readable.insideBuffer

theorem noAlias (h : t.Placed) : t.NoAlias := by
  intro idx idx' hidx hidx' hne
  rcases h.readable.apart hidx hidx' with heq | hapart
  · rw [h.address_eq hidx, h.address_eq hidx'] at heq
    have hlin := Nat.eq_of_mul_eq_mul_left t.elem_pos (Nat.add_left_cancel heq)
    exact absurd (h.inj idx idx' hidx hidx' hlin) hne
  · exact hapart

theorem linear_eq (h : t.Placed) (hc : t.isContiguous = true) (hidx : t.shape.InRange idx) :
    linear t.sizeStrides idx = position t.shape.bounds idx :=
  h.readable.linear_eq hc hidx

end Placed

variable {t : ByteTensor}

/-- A tensor whose strides lead to the row-major positions is placed when its bytes are. -/
theorem placed_of_position (hnonneg : ∀ d ∈ t.shape, 0 ≤ d)
    (hstrides : t.strides = t.shape.contiguousStrides)
    (hsmall : t.shape.bounds.prod * t.elem < 2 ^ 63)
    (hbytes : ∀ p < t.shape.bounds.prod,
      t.offset + t.elem * p + t.elem ≤ t.buffer.length ∧ t.offset + t.elem * p + t.elem < 2 ^ 63) :
    t.Placed := by
  have hprod : t.shape.bounds.prod < 2 ^ 63 :=
    Nat.lt_of_le_of_lt (Nat.le_mul_of_pos_right _ t.elem_pos) hsmall
  have hlinear : ∀ idx, t.shape.InRange idx →
      linear t.sizeStrides idx = position t.shape.bounds idx := by
    intro idx hidx
    have hpos := linear_contiguousStrides hprod hidx
    rwa [← eq_map_bounds hnonneg, ← hstrides] at hpos
  refine ⟨hnonneg, ?_, hsmall, ?_, ?_, ?_⟩
  · rw [hstrides, length_contiguousStrides]
  · intro idx hidx
    rw [hlinear idx hidx]
    exact (hbytes _ (position_lt hidx)).1
  · intro idx hidx
    rw [hlinear idx hidx]
    exact (hbytes _ (position_lt hidx)).2
  · intro idx idx' hidx hidx' heq
    rw [hlinear idx hidx, hlinear idx' hidx'] at heq
    exact position_inj hidx hidx' heq

/-! ### New tensors -/

variable {answer : Except MNException (ℕ → UInt8)}

/-- A block from the pool is as large as the request. -/
theorem allocatePooled_length {size : ℕ}
    {buffer : MTLBuffer} (h : allocatePooled size answer = some (.ok buffer)) :
    size ≤ buffer.length := by
  unfold allocatePooled at h
  by_cases hzero : size = 0
  · simp [hzero] at h
  · rw [if_neg hzero] at h
    obtain ⟨sizeClass, hclass, hanswer⟩ := map_eq_some_iff.mp h
    cases answer with
    | error e => cases hanswer
    | ok bytes =>
      obtain rfl := Except.ok.inj hanswer
      exact (MetalSmartAllocator.nextSizeClass_spec hclass).1

/-- A new dense tensor is placed. -/
theorem placed_new (hnonneg : ∀ d ∈ t.shape, 0 ≤ d)
    (hstrides : t.strides = t.shape.contiguousStrides) (hoffset : t.offset = 0)
    (hsmall : t.shape.bounds.prod * t.elem < 2 ^ 63)
    (hlen : t.shape.bounds.prod * t.elem ≤ t.buffer.length) : t.Placed := by
  apply placed_of_position hnonneg hstrides hsmall
  intro p hp
  have hmul : (p + 1) * t.elem ≤ t.shape.bounds.prod * t.elem := Nat.mul_le_mul_right _ hp
  rw [Nat.add_mul, Nat.one_mul, Nat.mul_comm] at hmul
  rw [hoffset]
  constructor <;> omega

/-- `empty` with a shape that can be counted. -/
theorem empty_spec {shape : MNShape} {dtype : MNDType} {mode : StorageMode}
   
    (hnonneg : ∀ d ∈ shape, 0 ≤ d) (hsmall : shape.bounds.prod * dtypeSize dtype < 2 ^ 63)
    (h : empty shape dtype mode answer = some (.ok t)) :
    t.shape = shape ∧ t.dtype = dtype ∧ t.offset = 0 ∧ t.strides = shape.contiguousStrides ∧
      t.Placed := by
  unfold empty at h
  cases hcheck : emptyTensorCheck shape dtype (.ok ()) with
  | error e => simp [hcheck] at h
  | ok =>
    simp only [hcheck] at h
    obtain ⟨r, hr, hok⟩ := map_eq_some_iff.mp h
    cases r with
    | error e => cases hok
    | ok buffer =>
      obtain rfl := Except.ok.inj hok
      refine ⟨rfl, rfl, rfl, rfl, ?_⟩
      have hlen := allocatePooled_length hr
      have helem : 0 < dtypeSize dtype := by cases dtype <;> decide
      have hprod : shape.bounds.prod < 2 ^ 63 :=
        Nat.lt_of_le_of_lt (Nat.le_mul_of_pos_right _ helem) hsmall
      have hnumel : shape.numel = (shape.bounds.prod : ℕ) := by
        conv_lhs => rw [eq_map_bounds hnonneg]
        rw [numel_map_natCast]
        exact toInt64_natCast hprod
      rw [hnumel, toSizeT_natCast, Nat.mod_eq_of_lt] at hlen
      · exact placed_new hnonneg rfl rfl hsmall (le_trans (Nat.le_max_left _ _) hlen)
      · unfold sizeTRange
        omega
      · unfold sizeTRange
        omega

/-! ### What one call keeps -/

/-- The result of a call: it is placed, and shows what `t` shows. -/
structure Tracks (t t' : ByteTensor) (source : List ℕ → List ℕ) : Prop where
  placed : t'.Placed
  inRange : ∀ idx, t'.shape.InRange idx → t.shape.InRange (source idx)
  shows : ∀ idx, t'.shape.InRange idx → t'.element idx = t.element (source idx)

variable {t t' : ByteTensor}

/-- Elements of one buffer are the same where the addresses are. -/
theorem element_congr {idx idx' : List ℕ} (hbuffer : t'.buffer = t.buffer)
    (helem : t'.elem = t.elem) (haddress : t'.address idx = t.address idx') :
    t'.element idx = t.element idx' := by
  unfold element
  rw [hbuffer, helem, haddress]

/-! ### `reshape` -/

/-- The dimensions that a request gives, apart from the one to be inferred. -/
def knownDims (newDims : MNShape) : List ℤ := newDims.filter (· ≠ -1)

/-- The loop over the request: it multiplies the dimensions that are given, and finds the one that
    is not. -/
theorem scanDims_ok {i : ℕ} {newDims : List ℤ} {inferred : Option ℕ} {known : ℤ}
    {r : Option ℕ × ℤ} (h : scanDims i newDims inferred known = .ok r) :
    (∀ d ∈ knownDims newDims, 0 ≤ d) ∧
      r.2 = (knownDims newDims).foldl (fun acc d => toInt64 (acc * d)) known ∧
      ((r.1 = inferred ∧ -1 ∉ newDims) ∨
        inferred = none ∧ ∃ before after, newDims = before ++ -1 :: after ∧
          r.1 = some (i + before.length) ∧ -1 ∉ before ∧ -1 ∉ after) := by
  unfold knownDims
  induction newDims generalizing i inferred known with
  | nil =>
    obtain rfl := Except.ok.inj h
    simp
  | cons d newDims ih =>
    rw [scanDims] at h
    by_cases hd : d = -1
    · -- a second `-1` is refused, so this one is the only one
      rw [if_pos hd] at h
      by_cases hnone : inferred = none
      · rw [if_pos hnone] at h
        obtain ⟨hnonneg, hprod, hplace⟩ := ih h
        refine ⟨by simpa [hd] using hnonneg, by simpa [hd] using hprod, .inr ?_⟩
        rcases hplace with ⟨hsome, hnot⟩ | ⟨hsecond, -⟩
        · exact ⟨hnone, [], newDims, by simp [hd], by simpa using hsome, by simp, hnot⟩
        · cases hsecond
      · rw [if_neg hnone] at h
        cases h
    · rw [if_neg hd] at h
      by_cases hpos : d ≥ 0
      · rw [if_pos hpos] at h
        obtain ⟨hnonneg, hprod, hplace⟩ := ih h
        have hfilter : (d :: newDims).filter (· ≠ -1) = d :: newDims.filter (· ≠ -1) := by
          simp [hd]
        rw [hfilter]
        refine ⟨?_, hprod, ?_⟩
        · intro e he
          rcases mem_cons.mp he with rfl | he
          · exact hpos
          · exact hnonneg e he
        · rcases hplace with ⟨hsame, hnot⟩ | ⟨hnone, before, after, rfl, hplace, hbefore, hafter⟩
          · exact .inl ⟨hsame, by simp [hnot, Ne.symm hd]⟩
          · refine .inr ⟨hnone, d :: before, after, rfl, ?_, by simp [hbefore, Ne.symm hd], hafter⟩
            rw [hplace, length_cons]
            congr 1
            omega
      · rw [if_neg hpos] at h
        cases h

theorem prod_bounds {shape : MNShape} (h : ∀ d ∈ shape, 0 ≤ d) :
    ((shape.bounds.prod : ℕ) : ℤ) = shape.prod := by
  conv_rhs => rw [eq_map_bounds h]
  exact Nat.cast_list_prod _

/-- Without a `-1` all dimensions are given. -/
theorem knownDims_eq_self {newDims : MNShape} (h : -1 ∉ newDims) : knownDims newDims = newDims := by
  unfold knownDims
  rw [filter_eq_self]
  intro d hd
  rw [decide_eq_true_eq]
  rintro rfl
  exact h hd

/-- The dimension that is inferred makes up for what is missing. -/
theorem prod_inferred {total : ℕ} {known : ℤ} {before after : List ℤ}
    (hnonneg : ∀ d ∈ before ++ after, 0 ≤ d) (hdiv : Int.tmod total known = 0)
    (hknown : known = (before ++ after).prod ∨ total = 0) :
    (∀ d ∈ before ++ Int.tdiv total known :: after, 0 ≤ d) ∧
      (before ++ Int.tdiv total known :: after).prod = total := by
  have hmul : Int.tdiv total known * known = total := Int.tdiv_mul_cancel_of_tmod_eq_zero hdiv
  have hprod : (before ++ Int.tdiv total known :: after).prod
      = Int.tdiv total known * (before ++ after).prod := by
    rw [prod_append, prod_append, prod_cons]
    ring
  have hquot : 0 ≤ Int.tdiv total known ∧
      Int.tdiv total known * (before ++ after).prod = total := by
    rcases hknown with rfl | hzero
    · exact ⟨Int.tdiv_nonneg (by omega) (prod_nonneg hnonneg), hmul⟩
    · simp [hzero]
  refine ⟨?_, hprod.trans hquot.2⟩
  intro d hd
  rw [mem_append, mem_cons] at hd
  rcases hd with hd | rfl | hd
  · exact hnonneg d (mem_append_left _ hd)
  · exact hquot.1
  · exact hnonneg d (mem_append_right _ hd)

/-- A request that `reshape` accepts: the resolved dimensions have as many elements as the tensor,
    unless the product of the request wraps. -/
theorem resolveDims_ok {total : ℕ} {newDims resolved : MNShape}
    (hfits : (knownDims newDims).prod < 2 ^ 63 ∨ (-1 ∈ newDims ∧ total = 0))
    (h : resolveDims total newDims = .ok resolved) :
    (∀ d ∈ resolved, 0 ≤ d) ∧ resolved.bounds.prod = total := by
  unfold resolveDims at h
  cases hscan : scanDims 0 newDims none 1 with
  | error e => simp [hscan] at h
  | ok r =>
    obtain ⟨inferred, known⟩ := r
    obtain ⟨hnonneg, hknown, hplace⟩ := scanDims_ok hscan
    change known = MNShape.numel (knownDims newDims) at hknown
    -- the product is the true one where it fits
    have htrue : (knownDims newDims).prod < 2 ^ 63 → known = (knownDims newDims).prod := by
      intro hlt
      have hprod := prod_bounds hnonneg
      rw [hknown, eq_map_bounds hnonneg, numel_map_natCast,
        ← eq_map_bounds hnonneg, ← hprod]
      apply toInt64_natCast
      rw [← hprod] at hlt
      exact_mod_cast hlt
    rcases hplace with ⟨hnone, hnot⟩ | ⟨-, before, after, hdims, hsome, hbefore, hafter⟩
    · -- nothing is inferred
      obtain rfl : inferred = none := hnone
      have hall := knownDims_eq_self hnot
      simp only [hscan] at h
      by_cases heq : known = total
      · rw [if_pos heq] at h
        obtain rfl := Except.ok.inj h
        have hlt := hfits.resolve_right fun hinfer => hnot hinfer.1
        rw [hall] at hnonneg
        refine ⟨hnonneg, ?_⟩
        have hcount := htrue hlt
        rw [hall, ← prod_bounds hnonneg, heq] at hcount
        exact_mod_cast hcount.symm
      · rw [if_neg heq] at h
        cases h
    · -- the dimension at `before.length` is inferred
      obtain rfl : inferred = some before.length := by simpa using hsome
      simp only [hscan] at h
      by_cases hdiv : known ≠ 0 ∧ Int.tmod total known = 0
      · rw [if_pos hdiv] at h
        obtain rfl := Except.ok.inj h
        have hset : newDims.set before.length (Int.tdiv total known)
            = before ++ Int.tdiv total known :: after := by simp [hdims]
        have hothers : knownDims newDims = before ++ after := by
          rw [knownDims, hdims, filter_append, filter_cons_of_neg (by simp)]
          exact congrArg₂ _ (knownDims_eq_self hbefore) (knownDims_eq_self hafter)
        rw [hothers] at hnonneg htrue hfits
        rw [hset]
        obtain ⟨hall, hprod⟩ := prod_inferred hnonneg hdiv.2 (hfits.imp htrue And.right)
        refine ⟨hall, ?_⟩
        rw [← prod_bounds hall] at hprod
        exact_mod_cast hprod
      · rw [if_neg hdiv] at h
        cases h

/-- `reshape` keeps the row-major order. -/
theorem tracks_reshape {newDims : MNShape} (hp : t.Placed)
    (hfits : (knownDims newDims).prod < 2 ^ 63 ∨ (-1 ∈ newDims ∧ t.numel = 0))
    (h : t.reshape newDims = .ok t') :
    t.Tracks t' fun idx => unravel t.shape.bounds (position t'.shape.bounds idx) := by
  unfold reshape at h
  by_cases hc : t.isContiguous = true
  · rw [if_pos hc, hp.numel_eq] at h
    cases hresolve : resolveDims (t.shape.bounds.prod : ℕ) newDims with
    | error e =>
      rw [hresolve] at h
      cases h
    | ok resolved =>
      rw [hresolve] at h
      obtain rfl := Except.ok.inj h
      have hcount : (knownDims newDims).prod < 2 ^ 63 ∨
          (-1 ∈ newDims ∧ t.shape.bounds.prod = 0) := by
        rw [hp.numel_eq] at hfits
        exact_mod_cast hfits
      obtain ⟨hnonneg, hprod⟩ := resolveDims_ok hcount hresolve
      -- a position of the result is one of `t`
      have hback : ∀ p < resolved.bounds.prod, t.shape.InRange (unravel t.shape.bounds p) ∧
          linear t.sizeStrides (unravel t.shape.bounds p) = p := by
        intro p hpos
        rw [hprod] at hpos
        have hidx := within_unravel hpos
        exact ⟨hidx, (hp.linear_eq hc hidx).trans (position_unravel hpos)⟩
      have hplaced :
          Placed { t with shape := resolved, strides := resolved.contiguousStrides } := by
        apply placed_of_position hnonneg rfl
        · change resolved.bounds.prod * t.elem < 2 ^ 63
          rw [hprod]
          exact hp.small
        · intro p hpos
          obtain ⟨hidx, hlinear⟩ := hback p hpos
          have hinside := hp.inside _ hidx
          have hfit := hp.fits _ hidx
          rw [hlinear] at hinside hfit
          exact ⟨hinside, hfit⟩
      refine ⟨hplaced, ?_, ?_⟩
      · intro idx hidx
        exact (hback _ (position_lt hidx)).1
      · intro idx hidx
        obtain ⟨hsource, hlinear⟩ := hback _ (position_lt hidx)
        apply element_congr
        · rfl
        · rfl
        · rw [hplaced.address_eq hidx, hp.address_eq hsource, hlinear]
          have hpos : linear (resolved.contiguousStrides.map toSizeT) idx
              = position resolved.bounds idx := by
            conv_lhs => rw [eq_map_bounds hnonneg]
            apply linear_contiguousStrides _ hidx
            rw [hprod]
            exact hp.prod_lt
          exact congrArg (fun l => t.offset + t.elem * l) hpos
  · rw [if_neg hc] at h
    cases h

/-! ### `slice` -/

/-- The normalised bounds of a slice lie in the dimension. -/
theorem slice_bounds {dimSize : ℤ} (h : 0 ≤ dimSize) (start stop : ℤ) :
    0 ≤ sliceStart dimSize start ∧ sliceStart dimSize start ≤ sliceEnd dimSize start stop ∧
      sliceEnd dimSize start stop ≤ dimSize := by
  unfold sliceEnd sliceStart
  simp only
  omega

/-- What a slice along dimension `k` from `lo` to `hi` returns. -/
theorem slice_ok {dim start stop : ℤ} (hp : t.Placed)
    (h : t.slice dim start stop = .ok t') :
    ∃ k lo hi : ℕ, k < t.shape.length ∧ lo ≤ hi ∧ hi ≤ t.shape.bounds.getD k 0 ∧
      (t.sliceDim dim).toNat = k ∧ (sliceStart (t.shape.getD k 0) start).toNat = lo ∧
      t' = { t with
        shape := t.shape.set k (hi - lo : ℕ)
        offset := (t.offset + toSizeT lo * t.sizeStrides.getD k 0 * t.elem) % sizeTRange } := by
  unfold slice at h
  by_cases hd : t.sliceDim dim ≥ 0 ∧ t.sliceDim dim < t.shape.length
  · simp only [if_pos hd, Except.ok.injEq] at h
    obtain ⟨k, hk⟩ := Int.eq_ofNat_of_zero_le hd.1
    have hklt : k < t.shape.length := by omega
    have hstride : k < t.strides.length := by rwa [hp.rank]
    rw [hk, Int.toNat_natCast] at h
    have hdim : 0 ≤ t.shape.getD k 0 := by
      rw [getD_eq_getElem _ _ hklt]
      exact hp.nonneg _ (getElem_mem hklt)
    have hbound : t.shape.bounds.getD k 0 = (t.shape.getD k 0).toNat := by
      rw [bounds, getD_eq_getElem _ _ (by simpa using hklt),
        getD_eq_getElem _ _ hklt, getElem_map]
    have hsize : t.sizeStrides.getD k 0 = toSizeT (t.strides.getD k 0) := by
      rw [sizeStrides, getD_eq_getElem _ _ (by simpa using hstride),
        getD_eq_getElem _ _ hstride, getElem_map]
    obtain ⟨hs, hse, he⟩ := slice_bounds hdim start stop
    obtain ⟨lo, hlo⟩ := Int.eq_ofNat_of_zero_le hs
    obtain ⟨hi, hhi⟩ := Int.eq_ofNat_of_zero_le (le_trans hs hse)
    rw [hlo, hhi] at hse
    rw [hhi] at he
    refine ⟨k, lo, hi, hklt, by omega, by omega, by omega, by omega, ?_⟩
    have hsub : ((hi - lo : ℕ) : ℤ) = hi - lo := Nat.cast_sub (by omega)
    rw [hsize, hsub, ← h, hlo, hhi]
  · rw [if_neg hd] at h
    cases h

/-- `slice` shifts one coordinate. -/
theorem tracks_slice {dim start stop : ℤ} (hp : t.Placed)
    (h : t.slice dim start stop = .ok t') :
    t.Tracks t' fun idx => idx.modify (t.sliceDim dim).toNat
      (· + (sliceStart (t.shape.getD (t.sliceDim dim).toNat 0) start).toNat) := by
  obtain ⟨k, lo, hi, hk, hle, hhi, hdim, hlo, ht'⟩ := slice_ok hp h
  rw [hdim, hlo]
  have hbounds : t'.shape.bounds = t.shape.bounds.set k (hi - lo) := by
    rw [ht']
    simp only [bounds, map_set, Int.toNat_natCast]
  have hstrides : t'.sizeStrides = t.sizeStrides := by rw [ht']; rfl
  have helem : t'.elem = t.elem := by rw [ht']; rfl
  have hbuffer : t'.buffer = t.buffer := by rw [ht']
  have hsource : ∀ idx, t'.shape.InRange idx → t.shape.InRange (idx.modify k (· + lo)) := by
    intro idx hidx
    unfold InRange at hidx
    rw [hbounds] at hidx
    exact within_modify hhi hle hidx
  -- the bytes of an element of the slice are those of the shifted one
  have hplace : ∀ idx, t'.shape.InRange idx →
      t'.offset + t'.elem * linear t'.sizeStrides idx
        = t.offset + t.elem * linear t.sizeStrides (idx.modify k (· + lo)) := by
    intro idx hidx
    have hshift := hsource idx hidx
    have hfit := hp.fits _ hshift
    have hlen : idx.length = t.sizeStrides.length := by
      have := Within.length_eq hshift
      simpa [sizeStrides, bounds, hp.rank] using this
    have hmove := linear_modify hlen (k := k) (by simpa [sizeStrides, hp.rank] using hk) lo
    have hlolt : lo < 2 ^ 63 := by
      have hpos := Within.prod_pos hshift
      have hmem : t.shape.bounds.getD k 0 ∈ t.shape.bounds := by
        rw [getD_eq_getElem _ _ (by simpa [bounds] using hk)]
        exact getElem_mem _
      have hprod := Nat.le_of_dvd hpos (dvd_prod hmem)
      have := hp.prod_lt
      omega
    have hoffset : t'.offset = t.offset + lo * t.sizeStrides.getD k 0 * t.elem := by
      rw [ht']
      change (t.offset + toSizeT lo * t.sizeStrides.getD k 0 * t.elem) % sizeTRange = _
      rw [toSizeT_natCast (by unfold sizeTRange; omega)]
      apply Nat.mod_eq_of_lt
      rw [hmove, Nat.mul_add, Nat.mul_comm t.elem (lo * _)] at hfit
      unfold sizeTRange
      omega
    rw [hoffset, helem, hstrides, hmove]
    ring
  have hplaced : t'.Placed := by
    refine ⟨?_, ?_, ?_, ?_, ?_, ?_⟩
    · intro d hd
      rw [ht'] at hd
      rcases mem_or_eq_of_mem_set hd with hd | rfl
      · exact hp.nonneg d hd
      · exact Int.natCast_nonneg _
    · rw [ht']
      simpa using hp.rank
    · rw [hbounds, helem]
      have hprod : (t.shape.bounds.set k (hi - lo)).prod ≤ t.shape.bounds.prod :=
        prod_set_le (by omega)
      exact Nat.lt_of_le_of_lt (Nat.mul_le_mul_right _ hprod) hp.small
    · intro idx hidx
      rw [hplace idx hidx, helem, hbuffer]
      exact hp.inside _ (hsource idx hidx)
    · intro idx hidx
      rw [hplace idx hidx, helem]
      exact hp.fits _ (hsource idx hidx)
    · intro idx idx' hidx hidx' heq
      have hfirst := hplace idx hidx
      have hsecond := hplace idx' hidx'
      rw [heq] at hfirst
      have hmul := Nat.add_left_cancel (hfirst.symm.trans hsecond)
      have hlin := Nat.eq_of_mul_eq_mul_left t.elem_pos hmul
      exact modify_inj k lo (hp.inj _ _ (hsource idx hidx) (hsource idx' hidx') hlin)
  refine ⟨hplaced, hsource, ?_⟩
  intro idx hidx
  apply element_congr hbuffer helem
  rw [hplaced.address_eq hidx, hp.address_eq (hsource idx hidx)]
  exact hplace idx hidx

/-! ### `clone` -/

/-- An element stored at its place among elements of one size. -/
theorem store_element (dst : MTLBuffer) {elem flat p b : ℕ} (hb : b < elem) (src : ℕ → UInt8) :
    (dst.store (flat * elem) elem src).bytes (p * elem + b)
      = if p = flat then src b else dst.bytes (p * elem + b) := by
  unfold MTLBuffer.store
  by_cases hp : p = flat
  · have hin : flat * elem ≤ flat * elem + b ∧ flat * elem + b < flat * elem + elem := by omega
    simp [hp, hin]
  · have hout : ¬ (flat * elem ≤ p * elem + b ∧ p * elem + b < flat * elem + elem) := by
      rcases Nat.lt_or_gt_of_ne hp with hlt | hlt
      · have hmul := Nat.mul_le_mul_right elem hlt
        rw [Nat.succ_mul] at hmul
        omega
      · have hmul := Nat.mul_le_mul_right elem hlt
        rw [Nat.succ_mul] at hmul
        omega
    simp [hp, hout]

/-- The loop of `clone` stores the elements one after the other in row-major order. -/
theorem copyElements_spec (t : ByteTensor) (n flat : ℕ) (dst : MTLBuffer)
    (hn : flat + n ≤ t.shape.bounds.prod) :
    (t.copyElements n flat (unravel t.shape.bounds (flat % t.shape.bounds.prod)) dst).length
        = dst.length ∧
      ∀ p b, b < t.elem →
        (t.copyElements n flat (unravel t.shape.bounds (flat % t.shape.bounds.prod)) dst).bytes
            (p * t.elem + b)
          = if flat ≤ p ∧ p < flat + n then
              t.buffer.bytes (t.address (unravel t.shape.bounds p) + b)
            else dst.bytes (p * t.elem + b) := by
  induction n generalizing flat dst with
  | zero =>
    refine ⟨rfl, ?_⟩
    intro p b _
    rw [if_neg (by omega)]
    rfl
  | succ n ih =>
    have hflat : flat < t.shape.bounds.prod := by omega
    obtain ⟨hlen, hbytes⟩ := ih (flat + 1) (dst.store (flat * t.elem) t.elem fun b =>
      t.buffer.bytes (t.address (unravel t.shape.bounds flat) + b)) (by omega)
    rw [copyElements, Nat.mod_eq_of_lt hflat, advance_unravel hflat]
    refine ⟨hlen, ?_⟩
    intro p b hb
    rw [hbytes p b hb, store_element dst hb]
    by_cases hp : p = flat
    · -- stored in this round, and left alone by the others
      have hlater : ¬ (flat + 1 ≤ p ∧ p < flat + 1 + n) := by omega
      have hnow : flat ≤ p ∧ p < flat + (n + 1) := by omega
      rw [if_neg hlater, if_pos hp, if_pos hnow, hp]
    · have hiff : (flat + 1 ≤ p ∧ p < flat + 1 + n) ↔ (flat ≤ p ∧ p < flat + (n + 1)) := by omega
      simp only [hiff, if_neg hp]

/-- The multi-index that the loops begin with. -/
theorem zeros_eq (t : ByteTensor) : replicate t.shape.length 0
    = unravel t.shape.bounds (0 % t.shape.bounds.prod) := by
  rw [Nat.zero_mod, unravel_zero, bounds, length_map]

/-- The new buffer of a clone holds the elements in row-major order. -/
theorem copyTo_spec (hp : t.Readable) (dst : MTLBuffer) :
    (t.copyTo dst).length = dst.length ∧
      ∀ p < t.shape.bounds.prod, ∀ b < t.elem,
        (t.copyTo dst).bytes (p * t.elem + b)
          = t.buffer.bytes (t.address (unravel t.shape.bounds p) + b) := by
  unfold copyTo
  by_cases hc : t.isContiguous = true
  · rw [if_pos hc]
    refine ⟨rfl, ?_⟩
    intro p hpos b hb
    have hidx : t.shape.InRange (unravel t.shape.bounds p) := within_unravel hpos
    have hmul : (p + 1) * t.elem ≤ t.shape.bounds.prod * t.elem := Nat.mul_le_mul_right _ hpos
    rw [Nat.add_mul, Nat.one_mul] at hmul
    have hin : 0 ≤ p * t.elem + b ∧ p * t.elem + b < 0 + t.shape.bounds.prod * t.elem := by omega
    rw [hp.address_eq hidx, hp.linear_eq hc hidx, position_unravel hpos, hp.nbytes_eq]
    simp only [MTLBuffer.store, if_pos hin, rawData]
    congr 1
    rw [Nat.mul_comm t.elem p]
    omega
  · rw [if_neg hc, hp.counted, Int.toNat_natCast]
    obtain ⟨hlen, hbytes⟩ :=
      t.copyElements_spec _ 0 dst (Nat.le_of_eq (Nat.zero_add t.shape.bounds.prod))
    rw [t.zeros_eq]
    refine ⟨hlen, ?_⟩
    intro p hpos b hb
    rw [hbytes p b hb, if_pos ⟨Nat.zero_le p, by omega⟩]

/-- `clone` keeps every index. -/
theorem tracks_clone
    (hp : t.Placed) (h : t.clone answer = some (.ok t')) : t.Tracks t' id := by
  unfold clone at h
  by_cases hmode : t.mode = .Shared
  · rw [if_pos hmode] at h
    obtain ⟨r, hr, hok⟩ := map_eq_some_iff.mp h
    cases r with
    | error e => cases hok
    | ok newBuf =>
      obtain rfl := Except.ok.inj hok
      obtain ⟨hlen, hbytes⟩ := copyTo_spec hp.readable newBuf
      have hsize := le_trans (Nat.le_max_left _ _) (allocatePooled_length hr)
      rw [hp.nbytes_eq] at hsize
      have hplaced : Placed
          { buffer := t.copyTo newBuf
            mode := .Shared
            shape := t.shape
            strides := t.shape.contiguousStrides
            dtype := t.dtype } := by
        apply placed_new
        · exact hp.nonneg
        · rfl
        · rfl
        · exact hp.small
        · rw [hlen]
          exact hsize
      refine ⟨hplaced, fun idx hidx => hidx, ?_⟩
      intro idx hidx
      -- the element is stored at the row-major position of its index
      have hlinear : linear (t.shape.contiguousStrides.map toSizeT) idx
          = position t.shape.bounds idx := by
        conv_lhs => rw [hp.shape_eq]
        exact linear_contiguousStrides hp.prod_lt hidx
      unfold element
      rw [hplaced.address_eq hidx]
      apply map_congr_left
      intro b hb
      have hfrom := hbytes _ (position_lt hidx) b (mem_range.mp hb)
      rw [unravel_position hidx, Nat.mul_comm] at hfrom
      rw [id, ← hfrom]
      change (t.copyTo newBuf).bytes
        (0 + t.elem * linear (t.shape.contiguousStrides.map toSizeT) idx + b) = _
      rw [hlinear, Nat.zero_add]
  · rw [if_neg hmode] at h
    cases h

end ByteTensor

/-! ### Chains of calls -/

/-- The request does not multiply to more than an `int64_t`, or it is for no elements and leaves
    the count of a dimension to `reshape`. -/
def ViewCall.fits (t : ByteTensor) : ViewCall → Bool
  | .reshape newDims =>
    (ByteTensor.knownDims newDims).prod < 2 ^ 63 || (newDims.contains (-1) && t.numel = 0)
  | _ => true

/-- The steps of a chain whose requests fit. -/
def FittingCall (s : ViewState) (call : ViewCall) : Prop := call.fits s.tensor = true

instance (s : ViewState) (call : ViewCall) : Decidable (FittingCall s call) :=
  inferInstanceAs (Decidable (_ = true))

open ByteTensor in
/-- **One call** of a chain: its result is placed, and shows what the tensor before it shows. -/
theorem tracks_call {t t' : ByteTensor} {call : ViewCall} (hp : t.Placed)
    (hfits : call.fits t = true) (h : call.result t = some (.ok t')) :
    t.Tracks t' (call.source t t') := by
  cases call with
  | reshape newDims =>
    apply tracks_reshape hp _ (some.inj h)
    simpa [ViewCall.fits] using hfits
  | slice dim start stop => exact tracks_slice hp (some.inj h)
  | clone answer => exact tracks_clone hp h

/-- The tensor of a chain shows the elements of the first one, at the indices they come from. -/
def ViewState.Shows (s : ViewState) (t : ByteTensor) : Prop :=
  ∀ idx, s.tensor.shape.InRange idx →
    t.shape.InRange (s.origin idx) ∧ s.tensor.element idx = t.element (s.origin idx)

/-- The invariants of a chain that begins with a new tensor whose bytes can be counted. -/
theorem chain_invariant {shape : MNShape} {dtype : MNDType} {mode : StorageMode}
    {answer : Except MNException (ℕ → UInt8)} {t : ByteTensor} {s : ViewState}
    (hnonneg : ∀ d ∈ shape, 0 ≤ d) (hsize : shape.prod * dtypeSize dtype ≤ 2 ^ 63 - 1)
    (hempty : ByteTensor.empty shape dtype mode answer = some (.ok t))
    (hrun : Run.Runs viewStep FittingCall (viewInit t) s) : s.tensor.Placed ∧ s.Shows t := by
  have hsmall : shape.bounds.prod * dtypeSize dtype < 2 ^ 63 := by
    rw [← ByteTensor.prod_bounds hnonneg] at hsize
    have hlt : ((shape.bounds.prod * dtypeSize dtype : ℕ) : ℤ) < 2 ^ 63 := by
      rw [Nat.cast_mul]
      omega
    exact_mod_cast hlt
  obtain ⟨-, -, -, -, hplaced⟩ := ByteTensor.empty_spec hnonneg hsmall hempty
  apply hrun.invariant (P := fun s => s.tensor.Placed ∧ s.Shows t)
  · exact ⟨hplaced, fun idx hidx => ⟨hidx, rfl⟩⟩
  · intro u call v ⟨hu, hshows⟩ hfits hstep
    unfold viewStep at hstep
    split at hstep
    · next t' hresult =>
      obtain rfl := some.inj hstep
      have htracks := tracks_call hu hfits hresult
      refine ⟨htracks.placed, ?_⟩
      -- the call leads back to the tensor before it, and the chain from there to the first one
      intro idx hidx
      obtain ⟨hin, hsame⟩ := hshows _ (htracks.inRange idx hidx)
      exact ⟨hin, (htracks.shows idx hidx).trans hsame⟩
    · cases hstep

/-- **A chain of views**: from a new tensor whose bytes can be counted, every multi-index of the
    last tensor addresses bytes of the buffer, shows the element of the new tensor that the calls
    lead back to, and shares no byte with another multi-index. -/
theorem view_addresses {shape : MNShape} {dtype : MNDType} {mode : StorageMode}
    {answer : Except MNException (ℕ → UInt8)} {t : ByteTensor} {s : ViewState}
    (hnonneg : ∀ d ∈ shape, 0 ≤ d) (hsize : shape.prod * dtypeSize dtype ≤ 2 ^ 63 - 1)
    (hempty : ByteTensor.empty shape dtype mode answer = some (.ok t))
    (hrun : Run.Runs viewStep FittingCall (viewInit t) s) :
    s.tensor.InsideBuffer ∧ s.Shows t ∧ s.tensor.NoAlias := by
  obtain ⟨hplaced, hshows⟩ := chain_invariant hnonneg hsize hempty hrun
  exact ⟨hplaced.insideBuffer, hshows, hplaced.noAlias⟩

/-- A chain with a slice that is not contiguous, its clone and a dimension to be inferred. -/
theorem view_addresses_run :
    ∃ (t : ByteTensor) (s : ViewState), ByteTensor.empty [2, 3] .Float32 .Shared (.ok fun _ => 0) =
      some (.ok t) ∧
      s.tensor.shape = [4] ∧ s.tensor.InsideBuffer ∧ s.Shows t ∧ s.tensor.NoAlias := by
  have hsome : ((ByteTensor.empty [2, 3] .Float32 .Shared (.ok fun _ => 0)).any fun r =>
      match r with
      | .ok t => (Run.exec viewStep (viewInit t)
          [.slice 1 (-2) 3, .clone (.ok fun _ => 0), .reshape [-1]]).any fun s =>
        decide (s.tensor.shape = [4])
      | .error _ => false) = true := by decide
  obtain ⟨r, hempty, hchain⟩ := (any_eq_true _ _).mp hsome
  cases r with
  | error e => simp at hchain
  | ok t =>
    obtain ⟨s, hs, hshape⟩ := (any_eq_true _ _).mp hchain
    have hguard : Run.GuardedAlong viewStep FittingCall (viewInit t)
        [.slice 1 (-2) 3, .clone (.ok fun _ => 0), .reshape [-1]] := by
      obtain rfl := Except.ok.inj (some.inj hempty)
      decide
    exact ⟨t, s, hempty, of_decide_eq_true hshape,
      view_addresses (by decide) (by decide) hempty (Run.runs_exec hs hguard)⟩

/-- A request whose product wraps to the number of elements is accepted, and its view leads outside
    the buffer. -/
theorem reshape_leaves_buffer :
    ∃ t s, ByteTensor.empty [4] .Float32 .Shared (.ok fun _ => 0) = some (.ok t) ∧
      Run.Reaches viewStep (viewInit t) s ∧ s.tensor.shape = [2 ^ 62 + 1, 4] ∧
      ¬ s.tensor.InsideBuffer := by
  have hsome : ((ByteTensor.empty [4] .Float32 .Shared (.ok fun _ => 0)).any fun r =>
      match r with
      | .ok t => (Run.exec viewStep (viewInit t) [.reshape [2 ^ 62 + 1, 4]]).any fun s =>
        decide (s.tensor.shape = [2 ^ 62 + 1, 4] ∧
          s.tensor.buffer.length < s.tensor.address [5, 0] + s.tensor.elem)
      | .error _ => false) = true := by decide
  obtain ⟨r, hempty, hchain⟩ := (any_eq_true _ _).mp hsome
  cases r with
  | error e => simp at hchain
  | ok t =>
    obtain ⟨s, hs, hfound⟩ := (any_eq_true _ _).mp hchain
    obtain ⟨hshape, houtside⟩ := of_decide_eq_true hfound
    refine ⟨t, s, hempty, Run.reaches_exec hs, hshape, ?_⟩
    intro hinside
    have hidx : s.tensor.shape.InRange [5, 0] := by
      rw [hshape]
      exact ⟨by decide, by decide, trivial⟩
    exact absurd (hinside _ hidx) (by omega)

end MetalNative
