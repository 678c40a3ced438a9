import MetalNative.Core.ViewSafety

namespace MetalNative

open MNShape List ByteTensor

/-!
# When `reshape` succeeds

A request for `N` elements may leave one dimension to be inferred, as `-1`.  `reshape` multiplies
the others in `int64_t`, and compares that product with the number of elements.

* `Grantable` — the requests that can be met, with the true product; `resolvedDims` — the dimensions
  that such a request stands for.
* `resolveDims_spec` — what the code decides, one line for each kind of request.
* `ByteTensor.ReshapedAs` — the same elements in the same order, at the same addresses.
* `Counted` — the condition: the `int64_t` product leads to the decision of the true one.
* `reshape_exact` — `reshape` is right exactly under that condition.
-/

open Broadcast (Within)
open Strided (linear position unravel)
open ByteTensor (knownDims scanDims resolveDims)

/-! ### Requests -/

/-- The true product of the dimensions that a request gives. -/
def knownProduct (newDims : MNShape) : ℤ := (knownDims newDims).prod

/-- A request that can be met with `total` elements. -/
def Grantable (total : ℤ) (newDims : MNShape) : Prop :=
  (∀ d ∈ newDims, -1 ≤ d) ∧
    ((newDims.count (-1) = 0 ∧ knownProduct newDims = total) ∨
      (newDims.count (-1) = 1 ∧ 0 < knownProduct newDims ∧ knownProduct newDims ∣ total))

/-- The dimensions that it stands for. -/
def resolvedDims (total : ℤ) (newDims : MNShape) : MNShape :=
  newDims.map fun d => if d = -1 then total / knownProduct newDims else d

/-- The `int64_t` product of the given dimensions decides as the true one does: the request is
    refused for another reason, or the true product is an `int64_t`, or what is left of it leads to
    the same answer. -/
def Counted (total : ℤ) (newDims : MNShape) : Prop :=
  (∃ d ∈ newDims, d < -1) ∨ 2 ≤ newDims.count (-1) ∨ knownProduct newDims < 2 ^ 63 ∨
    (newDims.count (-1) = 0 ∧ MNShape.numel (knownDims newDims) ≠ total) ∨
    (newDims.count (-1) = 1 ∧
      ((total = 0 ∧ MNShape.numel (knownDims newDims) ≠ 0) ∨
        (total ≠ 0 ∧ ¬ MNShape.numel (knownDims newDims) ∣ total)))

/-! ### What the code decides -/

/-- The kinds of requests. -/
inductive Request (newDims : MNShape) : Prop
  /-- A negative dimension, or a second `-1`. -/
  | refused (h : (∃ d ∈ newDims, d < -1) ∨ 2 ≤ newDims.count (-1))
  /-- All dimensions are given. -/
  | full (hnot : -1 ∉ newDims) (hnonneg : ∀ d ∈ newDims, 0 ≤ d)
  /-- One is to be inferred. -/
  | inferred (before after : MNShape) (hdims : newDims = before ++ -1 :: after)
      (hbefore : ∀ d ∈ before, 0 ≤ d) (hafter : ∀ d ∈ after, 0 ≤ d)

/-- Dimensions that are not negative contain no `-1`. -/
theorem neg_one_not_mem {dims : MNShape} (h : ∀ d ∈ dims, 0 ≤ d) : -1 ∉ dims := by
  intro hmem
  exact absurd (h _ hmem) (by decide)

theorem request_cases (newDims : MNShape) : Request newDims := by
  by_cases hneg : ∃ d ∈ newDims, d < -1
  · exact .refused (.inl hneg)
  · have hge : ∀ d ∈ newDims, d ≠ -1 → 0 ≤ d := by
      intro d hd hne
      by_contra hlt
      exact hneg ⟨d, hd, by omega⟩
    by_cases hmem : -1 ∈ newDims
    · obtain ⟨before, after, hdims, hbefore⟩ := eq_append_cons_of_mem hmem
      by_cases hafter : -1 ∈ after
      · -- two of them
        refine .refused (.inr ?_)
        have hpos : 0 < after.count (-1) := count_pos_iff.mpr hafter
        rw [hdims, count_append, count_cons_self]
        omega
      · refine .inferred before after hdims ?_ ?_
        · intro d hd
          exact hge d (by simp [hdims, hd]) fun heq => hbefore (heq ▸ hd)
        · intro d hd
          exact hge d (by simp [hdims, hd]) fun heq => hafter (heq ▸ hd)
    · exact .full hmem fun d hd => hge d hd fun heq => hmem (heq ▸ hd)

section Scan

variable {i : ℕ} {known : ℤ} {inferred : Option ℕ}

/-- The loop goes through dimensions that are given. -/
theorem scanDims_append {before : List ℤ} (h : ∀ d ∈ before, 0 ≤ d) (rest : List ℤ) (i : ℕ)
    (inferred : Option ℕ) (known : ℤ) :
    scanDims i (before ++ rest) inferred known
      = scanDims (i + before.length) rest inferred
          (before.foldl (fun acc d => toInt64 (acc * d)) known) := by
  induction before generalizing i known with
  | nil => rfl
  | cons d before ih =>
    have hd : 0 ≤ d := h d mem_cons_self
    have hne : d ≠ -1 := by omega
    rw [cons_append, scanDims, if_neg hne, if_pos hd,
      ih (fun e he => h e (mem_cons_of_mem _ he)), foldl_cons, length_cons]
    congr 1
    omega

/-- Whatever the loop refuses, it refuses as an invalid argument. -/
theorem scanDims_error {newDims : List ℤ} {e : MNException}
    (h : scanDims i newDims inferred known = .error e) : e.code = .InvalidArgument := by
  induction newDims generalizing i inferred known with
  | nil => cases h
  | cons d newDims ih =>
    rw [scanDims] at h
    split_ifs at h
    · exact ih h
    · obtain rfl := Except.error.inj h
      rfl
    · exact ih h
    · obtain rfl := Except.error.inj h
      rfl

variable {newDims : MNShape}

/-- A request of the first kind is refused. -/
theorem scanDims_refused
    (h : (∃ d ∈ newDims, d < -1) ∨ 2 ≤ newDims.count (-1)) :
    ∃ e, scanDims 0 newDims none 1 = .error e := by
  cases hscan : scanDims 0 newDims none 1 with
  | error e => exact ⟨e, rfl⟩
  | ok r =>
    obtain ⟨hnonneg, -, hplace⟩ := scanDims_ok hscan
    exfalso
    obtain ⟨d, hd, hlt⟩ | htwo := h
    · have hknown : d ∈ knownDims newDims := by
        unfold knownDims
        simp only [mem_filter, decide_eq_true_eq]
        exact ⟨hd, by omega⟩
      have hpos := hnonneg d hknown
      omega
    · obtain ⟨-, hnot⟩ | ⟨-, before, after, hdims, -, hbefore, hafter⟩ := hplace
      · rw [count_eq_zero_of_not_mem hnot] at htwo
        omega
      · rw [hdims, count_append, count_cons_self,
          count_eq_zero_of_not_mem hbefore, count_eq_zero_of_not_mem hafter] at htwo
        omega

theorem resolveDims_refused (total : ℤ)
    (h : (∃ d ∈ newDims, d < -1) ∨ 2 ≤ newDims.count (-1)) :
    ∃ e, resolveDims total newDims = .error e ∧ e.code = .InvalidArgument := by
  obtain ⟨e, hscan⟩ := scanDims_refused h
  refine ⟨e, ?_, scanDims_error hscan⟩
  unfold resolveDims
  rw [hscan]

/-- All dimensions given: the products are compared. -/
theorem resolveDims_full (total : ℤ) (h : ∀ d ∈ newDims, 0 ≤ d) :
    (newDims.numel = total ∧ resolveDims total newDims = .ok newDims) ∨
      (newDims.numel ≠ total ∧
        ∃ e, resolveDims total newDims = .error e ∧ e.code = .InvalidArgument) := by
  have hscan := scanDims_append h [] 0 none 1
  rw [append_nil] at hscan
  unfold resolveDims
  rw [hscan]
  by_cases heq : newDims.numel = total
  · exact .inl ⟨heq, if_pos heq⟩
  · exact .inr ⟨heq, _, if_neg heq, rfl⟩

/-- One to be inferred: the product of the others divides. -/
theorem resolveDims_inferred (total : ℤ) {before after : MNShape}
    (hbefore : ∀ d ∈ before, 0 ≤ d) (hafter : ∀ d ∈ after, 0 ≤ d) :
    ((numel (before ++ after) ≠ 0 ∧ total.tmod (numel (before ++ after)) = 0) ∧
        resolveDims total (before ++ -1 :: after)
          = .ok (before ++ total.tdiv (numel (before ++ after)) :: after)) ∨
      (¬ (numel (before ++ after) ≠ 0 ∧
          total.tmod (numel (before ++ after)) = 0) ∧
        ∃ e, resolveDims total (before ++ -1 :: after) = .error e ∧ e.code = .InvalidArgument) := by
  have hrest : scanDims (0 + before.length) (-1 :: after) none
      (before.foldl (fun acc d => toInt64 (acc * d)) 1)
        = .ok (some (0 + before.length), numel (before ++ after)) := by
    rw [scanDims, if_pos rfl, if_pos rfl]
    have hlast := scanDims_append hafter [] (0 + before.length + 1) (some (0 + before.length))
      (before.foldl (fun acc d => toInt64 (acc * d)) 1)
    rw [append_nil] at hlast
    rw [hlast, MNShape.numel, List.foldl_append]
    rfl
  have hset : (before ++ -1 :: after).set (0 + before.length)
      (total.tdiv (numel (before ++ after)))
        = before ++ total.tdiv (numel (before ++ after)) :: after := by
    simp
  unfold resolveDims
  rw [scanDims_append hbefore, hrest, ← hset]
  by_cases hdiv : numel (before ++ after) ≠ 0 ∧
      total.tmod (numel (before ++ after)) = 0
  · exact .inl ⟨hdiv, if_pos hdiv⟩
  · exact .inr ⟨hdiv, _, if_neg hdiv, rfl⟩

end Scan

/-! ### True products -/

section Products

variable {dims : MNShape}

theorem prod_nonneg_of (h : ∀ d ∈ dims, 0 ≤ d) : 0 ≤ dims.prod := prod_nonneg h

/-- A product that is an `int64_t` is the one that the code computes. -/
theorem numel_eq_prod (h : ∀ d ∈ dims, 0 ≤ d) (hlt : dims.prod < 2 ^ 63) :
    dims.numel = dims.prod := by
  have hprod := prod_bounds h
  conv_lhs => rw [eq_map_bounds h]
  rw [numel_map_natCast, ← hprod]
  apply toInt64_natCast
  omega

theorem knownDims_append {before after : MNShape} (hbefore : ∀ d ∈ before, 0 ≤ d)
    (hafter : ∀ d ∈ after, 0 ≤ d) : knownDims (before ++ -1 :: after) = before ++ after := by
  have hb := knownDims_eq_self (neg_one_not_mem hbefore)
  have ha := knownDims_eq_self (neg_one_not_mem hafter)
  unfold knownDims at hb ha ⊢
  rw [filter_append, filter_cons_of_neg (by simp), hb, ha]

theorem count_append {before after : MNShape} (hbefore : ∀ d ∈ before, 0 ≤ d)
    (hafter : ∀ d ∈ after, 0 ≤ d) : (before ++ -1 :: after).count (-1) = 1 := by
  rw [List.count_append, List.count_cons_self,
    count_eq_zero_of_not_mem (neg_one_not_mem hbefore),
    count_eq_zero_of_not_mem (neg_one_not_mem hafter)]

theorem resolvedDims_full (total : ℤ) (h : ∀ d ∈ dims, 0 ≤ d) : resolvedDims total dims = dims := by
  unfold resolvedDims
  rw [map_congr_left (g := id), map_id]
  intro d hd
  have hpos := h d hd
  rw [if_neg (by omega)]
  rfl

theorem resolvedDims_append (total : ℤ) {before after : MNShape} (hbefore : ∀ d ∈ before, 0 ≤ d)
    (hafter : ∀ d ∈ after, 0 ≤ d) :
    resolvedDims total (before ++ -1 :: after)
      = before ++ total / (before ++ after).prod :: after := by
  have hkeep : ∀ ds : MNShape, (∀ d ∈ ds, 0 ≤ d) → ∀ q : ℤ,
      ds.map (fun d => if d = -1 then q else d) = ds := by
    intro ds hds q
    rw [map_congr_left (g := id), map_id]
    intro d hd
    have hpos := hds d hd
    rw [if_neg (by omega)]
    rfl
  unfold resolvedDims knownProduct
  rw [knownDims_append hbefore hafter, map_append, map_cons, hkeep before hbefore,
    hkeep after hafter, if_pos rfl]

/-- The product of all dimensions, once the missing one is there. -/
theorem prod_insert (before after : MNShape) (d : ℤ) :
    (before ++ d :: after).prod = d * (before ++ after).prod := by
  rw [prod_append, prod_append, prod_cons]
  ring

end Products

/-! ### The elements -/

namespace ByteTensor

/-- `t'` has the elements of `t` in the same order, at the same addresses, under the dimensions that
    the request stands for. -/
structure ReshapedAs (t t' : ByteTensor) (newDims : MNShape) : Prop where
  shape : t'.shape = resolvedDims t.numel newDims
  nonneg : ∀ d ∈ t'.shape, 0 ≤ d
  count : t'.shape.prod = t.shape.prod
  buffer : t'.buffer = t.buffer
  dtype : t'.dtype = t.dtype
  offset : t'.offset = t.offset
  shows : ∀ idx, t'.shape.InRange idx →
    position t'.shape.bounds idx < t.shape.bounds.prod ∧
      t.shape.InRange (unravel t.shape.bounds (position t'.shape.bounds idx)) ∧
        t'.address idx = t.address (unravel t.shape.bounds (position t'.shape.bounds idx)) ∧
          t'.element idx = t.element (unravel t.shape.bounds (position t'.shape.bounds idx))

/-- A contiguous tensor whose elements can be counted in an `int64_t`. -/
structure Dense (t : ByteTensor) : Prop where
  nonneg : ∀ d ∈ t.shape, 0 ≤ d
  fits : t.shape.prod < 2 ^ 63
  contiguous : t.isContiguous = true

theorem Dense.numel_eq {t : ByteTensor} (h : t.Dense) : t.numel = t.shape.prod :=
  numel_eq_prod h.nonneg h.fits

/-- Dimensions with as many elements give the elements in their order. -/
theorem reshapedAs_of_prod {t : ByteTensor} {newDims : MNShape} (h : t.Dense)
    (hnonneg : ∀ d ∈ resolvedDims t.numel newDims, 0 ≤ d)
    (hprod : (resolvedDims t.numel newDims).prod = t.shape.prod) :
    t.ReshapedAs { t with
      shape := resolvedDims t.numel newDims
      strides := (resolvedDims t.numel newDims).contiguousStrides } newDims where
  shape := rfl
  nonneg := hnonneg
  count := hprod
  buffer := rfl
  dtype := rfl
  offset := rfl
  shows := by
    intro idx hidx
    have hfits := h.fits
    have hcount : (resolvedDims t.numel newDims).bounds.prod = t.shape.bounds.prod := by
      rw [← prod_bounds hnonneg, ← prod_bounds h.nonneg] at hprod
      exact_mod_cast hprod
    have hlt : t.shape.bounds.prod < 2 ^ 63 := by
      rw [← prod_bounds h.nonneg] at hfits
      exact_mod_cast hfits
    have hposition : position (resolvedDims t.numel newDims).bounds idx < t.shape.bounds.prod := by
      rw [← hcount]
      exact Strided.position_lt hidx
    have hsource := Strided.within_unravel hposition
    -- both tensors lead to the row-major position
    have hnew : linear ((resolvedDims t.numel newDims).contiguousStrides.map toSizeT) idx
        = position (resolvedDims t.numel newDims).bounds idx := by
      conv_lhs => rw [eq_map_bounds hnonneg]
      exact linear_contiguousStrides (hcount ▸ hlt) hidx
    have hold : linear (t.strides.map toSizeT)
        (unravel t.shape.bounds (position (resolvedDims t.numel newDims).bounds idx))
          = position (resolvedDims t.numel newDims).bounds idx := by
      have hc := h.contiguous
      unfold isContiguous at hc
      rw [eq_map_bounds h.nonneg] at hc
      rw [linear_of_isContiguous hc hlt hsource, Strided.position_unravel hposition]
    have haddress : address
        { t with
          shape := resolvedDims t.numel newDims
          strides := (resolvedDims t.numel newDims).contiguousStrides } idx
          = t.address
              (unravel t.shape.bounds (position (resolvedDims t.numel newDims).bounds idx)) := by
      unfold address
      rw [srcOff_eq, srcOff_eq, hold, hnew]
      rfl
    exact ⟨hposition, hsource, haddress, element_congr rfl rfl haddress⟩

/-- What `reshape` must do with a request. -/
def ReshapesRight (t : ByteTensor) (newDims : MNShape) : Prop :=
  (Grantable t.numel newDims → ∃ t', t.reshape newDims = .ok t' ∧ t.ReshapedAs t' newDims) ∧
    (¬ Grantable t.numel newDims →
      ∃ e, t.reshape newDims = .error e ∧ e.code = .InvalidArgument)

section Reshape

variable {t : ByteTensor} {newDims resolved : MNShape}

theorem reshape_error (h : t.Dense)
    (hresolve : ∃ e, resolveDims t.numel newDims = .error e ∧ e.code = .InvalidArgument) :
    ∃ e, t.reshape newDims = .error e ∧ e.code = .InvalidArgument := by
  obtain ⟨e, he, hcode⟩ := hresolve
  refine ⟨e, ?_, hcode⟩
  unfold reshape
  rw [if_pos h.contiguous, he]
  rfl

theorem reshape_ok (h : t.Dense) (hresolve : resolveDims t.numel newDims = .ok resolved) :
    t.reshape newDims
      = .ok { t with shape := resolved, strides := resolved.contiguousStrides } := by
  unfold reshape
  rw [if_pos h.contiguous, hresolve]
  rfl

/-- A request that is met and is to be met. -/
theorem reshapesRight_of_ok (h : t.Dense) (hgrant : Grantable t.numel newDims)
    (hresolve : resolveDims t.numel newDims = .ok (resolvedDims t.numel newDims))
    (hnonneg : ∀ d ∈ resolvedDims t.numel newDims, 0 ≤ d)
    (hprod : (resolvedDims t.numel newDims).prod = t.shape.prod) : t.ReshapesRight newDims :=
  ⟨fun _ => ⟨_, reshape_ok h hresolve, reshapedAs_of_prod h hnonneg hprod⟩,
    fun hno => absurd hgrant hno⟩

/-- A request that is refused and is to be refused. -/
theorem reshapesRight_of_error (h : t.Dense) (hgrant : ¬ Grantable t.numel newDims)
    (hresolve : ∃ e, resolveDims t.numel newDims = .error e ∧ e.code = .InvalidArgument) :
    t.ReshapesRight newDims :=
  ⟨fun hyes => absurd hyes hgrant, fun _ => reshape_error h hresolve⟩

/-- A request that is met against the rule. -/
theorem not_reshapesRight_of_ok (h : t.Dense) (hgrant : ¬ Grantable t.numel newDims)
    (hresolve : resolveDims t.numel newDims = .ok resolved) : ¬ t.ReshapesRight newDims := by
  rintro ⟨-, herror⟩
  obtain ⟨e, he, -⟩ := herror hgrant
  rw [reshape_ok h hresolve] at he
  cases he

/-- A request that is refused against the rule. -/
theorem not_reshapesRight_of_error (h : t.Dense) (hgrant : Grantable t.numel newDims)
    (hresolve : ∃ e, resolveDims t.numel newDims = .error e ∧ e.code = .InvalidArgument) :
    ¬ t.ReshapesRight newDims := by
  rintro ⟨hok, -⟩
  obtain ⟨t', ht', -⟩ := hok hgrant
  obtain ⟨e, he, -⟩ := reshape_error h hresolve
  rw [ht'] at he
  cases he

/-! ### The three kinds of requests -/

theorem reshape_refused (h : t.Dense)
    (hrefused : (∃ d ∈ newDims, d < -1) ∨ 2 ≤ newDims.count (-1)) :
    t.ReshapesRight newDims ↔ Counted t.numel newDims := by
  refine iff_of_true (reshapesRight_of_error h ?_ (resolveDims_refused _ hrefused)) ?_
  · rintro ⟨hge, hkind⟩
    obtain ⟨d, hd, hlt⟩ | htwo := hrefused
    · have hd' := hge d hd
      omega
    · omega
  · exact hrefused.imp id .inl

theorem reshape_full (h : t.Dense) (hnonneg : ∀ d ∈ newDims, 0 ≤ d) :
    t.ReshapesRight newDims ↔ Counted t.numel newDims := by
  have hnot := neg_one_not_mem hnonneg
  have hzero := count_eq_zero_of_not_mem hnot
  have hknown := knownDims_eq_self hnot
  have hgrant : Grantable t.numel newDims ↔ newDims.prod = t.shape.prod := by
    unfold Grantable knownProduct
    rw [hknown, hzero, h.numel_eq]
    simp only [true_and, Nat.zero_ne_one, false_and, or_false]
    exact and_iff_right fun d hd => le_trans (by decide) (hnonneg d hd)
  have hcounted : Counted t.numel newDims ↔ newDims.prod < 2 ^ 63 ∨ newDims.numel ≠ t.numel := by
    unfold Counted knownProduct
    rw [hknown, hzero]
    simp only [true_and, Nat.zero_ne_one, false_and, or_false, nonpos_iff_eq_zero,
      OfNat.ofNat_ne_zero, false_or]
    refine or_iff_right ?_
    rintro ⟨d, hd, hlt⟩
    have hpos := hnonneg d hd
    omega
  rw [hcounted]
  have hfits := h.fits
  by_cases hlt : newDims.prod < 2 ^ 63
  · have hnumel := numel_eq_prod hnonneg hlt
    refine iff_of_true ?_ (.inl hlt)
    obtain ⟨heq, hok⟩ | ⟨hne, herror⟩ := resolveDims_full t.numel hnonneg
    · rw [hnumel, h.numel_eq] at heq
      have hsame := resolvedDims_full t.numel hnonneg
      exact reshapesRight_of_ok h (hgrant.mpr heq) (by rw [hsame, hok]) (by rwa [hsame])
        (by rw [hsame, heq])
    · rw [hnumel, h.numel_eq] at hne
      exact reshapesRight_of_error h (fun hyes => hne (hgrant.mp hyes)) herror
  · -- a product that is no `int64_t` is not the number of elements
    have hno : ¬ Grantable t.numel newDims := by
      rw [hgrant]
      omega
    obtain ⟨heq, hok⟩ | ⟨hne, herror⟩ := resolveDims_full t.numel hnonneg
    · exact iff_of_false (not_reshapesRight_of_ok h hno hok) fun hdecides =>
        hdecides.elim hlt fun hne => hne heq
    · exact iff_of_true (reshapesRight_of_error h hno herror) (.inr hne)

theorem reshape_inferred (h : t.Dense) {before after : MNShape} (hbefore : ∀ d ∈ before, 0 ≤ d)
    (hafter : ∀ d ∈ after, 0 ≤ d) :
    t.ReshapesRight (before ++ -1 :: after) ↔ Counted t.numel (before ++ -1 :: after) := by
  have hcount := count_append hbefore hafter
  have hknown := knownDims_append hbefore hafter
  have hnonneg : ∀ d ∈ before ++ after, 0 ≤ d := by
    intro d hd
    exact (mem_append.mp hd).elim (hbefore d) (hafter d)
  have hge : ∀ d ∈ before ++ -1 :: after, -1 ≤ d := by
    intro d hd
    rw [mem_append, mem_cons] at hd
    obtain hd | rfl | hd := hd
    · exact le_trans (by decide) (hbefore d hd)
    · exact le_refl _
    · exact le_trans (by decide) (hafter d hd)
  have hgrant : Grantable t.numel (before ++ -1 :: after) ↔
      0 < (before ++ after).prod ∧ (before ++ after).prod ∣ t.numel := by
    unfold Grantable knownProduct
    rw [hknown, hcount]
    simp only [Nat.one_ne_zero, false_and, true_and, false_or]
    exact and_iff_right hge
  have hcounted : Counted t.numel (before ++ -1 :: after) ↔ (before ++ after).prod < 2 ^ 63 ∨
      (t.numel = 0 ∧ MNShape.numel (before ++ after) ≠ 0) ∨
        (t.numel ≠ 0 ∧ ¬ MNShape.numel (before ++ after) ∣ t.numel) := by
    unfold Counted knownProduct
    rw [hknown, hcount]
    simp only [Nat.one_ne_zero, false_and, true_and, false_or, Nat.not_ofNat_le_one]
    refine or_iff_right ?_
    rintro ⟨d, hd, hlt⟩
    have hd' := hge d hd
    omega
  have hresolved := resolvedDims_append t.numel hbefore hafter
  have hP := prod_nonneg_of hnonneg
  have hN : 0 ≤ t.numel := by
    rw [h.numel_eq]
    exact prod_nonneg_of h.nonneg
  have hNlt : t.numel < 2 ^ 63 := by
    rw [h.numel_eq]
    exact h.fits
  -- a quotient that makes up for what is missing
  have hmet : 0 < (before ++ after).prod → (before ++ after).prod ∣ t.numel →
      (∀ d ∈ resolvedDims t.numel (before ++ -1 :: after), 0 ≤ d) ∧
        (resolvedDims t.numel (before ++ -1 :: after)).prod = t.shape.prod := by
    intro hpos hdvd
    rw [hresolved, prod_insert, Int.ediv_mul_cancel hdvd, h.numel_eq]
    refine ⟨?_, rfl⟩
    intro d hd
    rw [mem_append, mem_cons] at hd
    obtain hd | rfl | hd := hd
    · exact hbefore d hd
    · exact Int.ediv_nonneg (h.numel_eq ▸ hN) hP
    · exact hafter d hd
  rw [hcounted]
  by_cases hlt : (before ++ after).prod < 2 ^ 63
  · have hnumel := numel_eq_prod hnonneg hlt
    refine iff_of_true ?_ (.inl hlt)
    obtain ⟨⟨hne, hmod⟩, hok⟩ | ⟨hno, herror⟩ :=
      resolveDims_inferred t.numel hbefore hafter
    · rw [hnumel] at hne hmod hok
      have hdvd := Int.dvd_of_tmod_eq_zero hmod
      have hpos : 0 < (before ++ after).prod := by omega
      obtain ⟨hres, hprod⟩ := hmet hpos hdvd
      refine reshapesRight_of_ok h (hgrant.mpr ⟨hpos, hdvd⟩) ?_ hres hprod
      rw [hok, hresolved, Int.tdiv_eq_ediv_of_nonneg hN]
    · rw [hnumel] at hno
      refine reshapesRight_of_error h (fun hyes => ?_) herror
      obtain ⟨hpos, hdvd⟩ := hgrant.mp hyes
      exact hno ⟨by omega, Int.tmod_eq_zero_of_dvd hdvd⟩
  · by_cases hempty : t.numel = 0
    · -- without elements every product divides, and only a product of `0` is refused
      have hyes := hgrant.mpr ⟨by omega, hempty ▸ dvd_zero _⟩
      obtain ⟨⟨hne, -⟩, hok⟩ | ⟨hno, herror⟩ :=
        resolveDims_inferred t.numel hbefore hafter
      · refine iff_of_true ?_ (.inr (.inl ⟨hempty, hne⟩))
        obtain ⟨hres, hprod⟩ := hmet (by omega) (hempty ▸ dvd_zero _)
        refine reshapesRight_of_ok h hyes ?_ hres hprod
        rw [hok, hresolved, hempty, Int.zero_tdiv, Int.zero_ediv]
      · refine iff_of_false (not_reshapesRight_of_error h hyes herror) ?_
        have hzero : MNShape.numel (before ++ after) = 0 := by
          by_contra hne
          exact hno ⟨hne, by rw [hempty, Int.zero_tmod]⟩
        rintro (hsmall | ⟨-, hne⟩ | ⟨hne, -⟩)
        · exact hlt hsmall
        · exact hne hzero
        · exact hne hempty
    · have hno : ¬ Grantable t.numel (before ++ -1 :: after) := by
        intro hyes
        have hle := Int.le_of_dvd (by omega) (hgrant.mp hyes).2
        omega
      obtain ⟨⟨-, hmod⟩, hok⟩ | ⟨hnot, herror⟩ :=
        resolveDims_inferred t.numel hbefore hafter
      · refine iff_of_false (not_reshapesRight_of_ok h hno hok) ?_
        rintro (hsmall | ⟨hzero, -⟩ | ⟨-, hndvd⟩)
        · exact hlt hsmall
        · exact hempty hzero
        · exact hndvd (Int.dvd_of_tmod_eq_zero hmod)
      · refine iff_of_true (reshapesRight_of_error h hno herror) (.inr (.inr ⟨hempty, ?_⟩))
        intro hdvd
        refine hnot ⟨?_, Int.tmod_eq_zero_of_dvd hdvd⟩
        intro hzero
        rw [hzero, zero_dvd_iff] at hdvd
        exact hempty hdvd

end Reshape

end ByteTensor

/-- **`reshape`.**  A contiguous tensor is given the dimensions of a request that can be met, with
    its elements in their order at the addresses they have, and any other request is refused as an
    invalid argument, exactly where the `int64_t` product of the request decides as the true one. -/
theorem reshape_exact (t : ByteTensor) (h : t.Dense) (newDims : MNShape) :
    t.ReshapesRight newDims ↔ Counted t.numel newDims := by
  cases request_cases newDims with
  | refused hrefused => exact reshape_refused h hrefused
  | full _ hnonneg => exact reshape_full h hnonneg
  | inferred before after hdims hbefore hafter =>
    rw [hdims]
    exact reshape_inferred h hbefore hafter

/-- A single float. -/
def oneFloat : ByteTensor where
  buffer := ⟨4, fun _ => 0⟩
  mode := .Shared
  shape := [1]
  strides := [1]
  dtype := .Float32

theorem oneFloat_dense : oneFloat.Dense where
  nonneg := by decide
  fits := by decide
  contiguous := by decide

/-- Two dimensions whose product is `2 ^ 64 + 1` are accepted for one element. -/
theorem reshape_wraps_to_one :
    ¬ Grantable oneFloat.numel [274177, 67280421310721] ∧
      ∃ t', oneFloat.reshape [274177, 67280421310721] = .ok t' ∧
        t'.shape = [274177, 67280421310721] ∧ ¬ oneFloat.ReshapesRight
          [274177, 67280421310721] := by
  have hno : ¬ Grantable oneFloat.numel [274177, 67280421310721] := by
    rintro ⟨-, ⟨-, hprod⟩ | ⟨hcount, -⟩⟩
    · exact absurd hprod (by decide)
    · exact absurd hcount (by decide)
  have hresolve : resolveDims oneFloat.numel [274177, 67280421310721]
      = .ok [274177, 67280421310721] := by rfl
  exact ⟨hno, _, reshape_ok oneFloat_dense hresolve, rfl,
    not_reshapesRight_of_ok oneFloat_dense hno hresolve⟩

/-- A request with a dimension to be inferred. -/
theorem reshape_exact_inferred : oneFloat.ReshapesRight [1, -1] :=
  (reshape_exact oneFloat oneFloat_dense [1, -1]).mpr (.inr (.inr (.inl (by decide))))

end MetalNative
