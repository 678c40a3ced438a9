import MetalNative.Graph.OperatorKeys

namespace MetalNative

open BitFields MemoTable Run Conv2dCall

/-!
# The graph caches of `conv2d` and `matmul`

The key of a convolution packs its parameters into one word, where they overlap when they are large,
and where the flag of the bias lies on the second dilation; the shape of the bias is not in it.  The
key of a product joins two shapes by a 0, which is also a dimension.

* `Conv2dCall.Fits` — every parameter has its own bits.
* `Conv2dCall.Clashes`, `MatmulCall.Clashes` — two calls of different operators with one key.
* `operator_graph_caches` — the keys keep two calls apart exactly if they do not clash, and in runs
  without clashes every call gets its own graph.
* `keys_mix_operators` — calls that clash.
-/

/-! ### Shapes -/

/-- The dimensions can be read off their values as `size_t`. -/
theorem map_toNat_sizeTuple {dims : List ℕ} (h : ∀ d ∈ dims, d < 2 ^ 63) :
    (sizeTuple dims).map UInt64.toNat = dims := by
  unfold sizeTuple
  rw [List.map_map]
  calc dims.map (UInt64.toNat ∘ UInt64.ofNat)
      _ = dims.map id := by
        refine List.map_congr_left fun d hd => ?_
        exact UInt64.toNat_ofNat_of_lt' ((h d hd).trans (by decide))
      _ = dims := List.map_id dims

variable {a b a' b' : List ℕ}

theorem shapeTuple_inj (ha : ∀ d ∈ a, d < 2 ^ 63) (hb : ∀ d ∈ b, d < 2 ^ 63)
    (ha' : ∀ d ∈ a', d < 2 ^ 63) (hb' : ∀ d ∈ b', d < 2 ^ 63) :
    shapeTuple a b = shapeTuple a' b' ↔ a ++ 0 :: b = a' ++ 0 :: b' := by
  have hback : ∀ {x y : List ℕ}, (∀ d ∈ x, d < 2 ^ 63) → (∀ d ∈ y, d < 2 ^ 63) →
      (shapeTuple x y).map UInt64.toNat = x ++ 0 :: y := by
    intro x y hx hy
    unfold shapeTuple
    rw [List.map_append, List.map_cons, map_toNat_sizeTuple hx, map_toNat_sizeTuple hy]
    rfl
  have hforth : ∀ x y : List ℕ, shapeTuple x y = sizeTuple (x ++ 0 :: y) := by
    intro x y
    simp [shapeTuple, sizeTuple]
  constructor
  · intro heq
    rw [← hback ha hb, heq, hback ha' hb']
  · intro heq
    rw [hforth, heq, ← hforth]

/-! ### The word of a convolution -/

namespace Conv2dCall

variable {α : Type*} {c d : Conv2dCall α}

/-- Every parameter stays below the next one in the word. -/
structure Fits (c : Conv2dCall α) : Prop where
  stride_y : (c.strideAt 0).toNat < 2 ^ 16
  stride_x : (c.strideAt 1).toNat < 2 ^ 8
  padding_y : (c.paddingAt 0).toNat < 2 ^ 8
  padding_x : (c.paddingAt 1).toNat < 2 ^ 8
  dilation_y : (c.dilationAt 0).toNat < 2 ^ 4
  dilation_x : (c.dilationAt 1).toNat < 2 ^ 4
  groups : c.groups.toNat < 2 ^ 16

/-- The parameters and the flag, without the constant. -/
def word (c : Conv2dCall α) : UInt64 :=
  ((c.strideAt 0 <<< (32 : UInt64)) ||| (c.strideAt 1 <<< (24 : UInt64)))
    ^^^ ((c.paddingAt 0 <<< (16 : UInt64)) ||| (c.paddingAt 1 <<< (8 : UInt64)))
    ^^^ ((c.dilationAt 0 <<< (4 : UInt64)) ||| c.dilationAt 1)
    ^^^ (c.groups <<< (48 : UInt64))
    ^^^ (if c.hasBias then 1 else 0)

theorem topologyHash_inj : c.topologyHash = d.topologyHash ↔ c.word = d.word := by
  have heq : ∀ e : Conv2dCall α, e.topologyHash = (0x434F4E5632440000 : UInt64) ^^^ e.word := by
    intro e
    simp only [topologyHash, word, UInt64.xor_assoc]
  rw [heq, heq, UInt64.xor_right_inj]

/-- The second dilation and the flag, which share their bits. -/
def low (c : Conv2dCall α) : ℕ := (c.dilationAt 1).toNat ^^^ (if c.hasBias then 1 else 0)

theorem Fits.low_lt (h : c.Fits) : c.low < 2 ^ 4 := by
  refine Nat.xor_lt_two_pow h.dilation_x ?_
  split <;> decide

theorem xor_regroup (d b a₁ a₂ a₃ a₄ a₅ a₆ : ℕ) :
    (a₁ ^^^ a₂) ^^^ (a₃ ^^^ a₄) ^^^ (d ^^^ a₅) ^^^ a₆ ^^^ b
      = (d ^^^ b) ^^^ (a₅ ^^^ (a₃ ^^^ (a₄ ^^^ (a₁ ^^^ (a₂ ^^^ a₆))))) := by
  simp only [Nat.xor_comm, Nat.xor_left_comm]

/-- The word, as fields one above the other. -/
theorem Fits.word_toNat (h : c.Fits) : c.word.toNat = c.low ^^^ ((c.dilationAt 0).toNat
    ^^^ ((c.paddingAt 1).toNat ^^^ ((c.paddingAt 0).toNat ^^^ ((c.strideAt 1).toNat
      ^^^ ((c.strideAt 0).toNat ^^^ c.groups.toNat <<< 16) <<< 8) <<< 8) <<< 8) <<< 4) <<< 4 := by
  have hshift : ∀ (x : UInt64) (n k : ℕ), x.toNat < 2 ^ n → n + k ≤ 64 → k < 64 →
      (x <<< UInt64.ofNat k).toNat = x.toNat <<< k := by
    intro x n k hx hnk hk
    have hk' : (UInt64.ofNat k).toNat = k := UInt64.toNat_ofNat_of_lt' (hk.trans (by decide))
    rw [UInt64.toNat_shiftLeft, hk', Nat.mod_eq_of_lt hk, Nat.mod_eq_of_lt]
    exact (shiftLeft_lt hx).trans_le (Nat.pow_le_pow_right (by decide) hnk)
  have hstride : (c.strideAt 0).toNat <<< 32 ||| (c.strideAt 1).toNat <<< 24
      = (c.strideAt 1).toNat <<< 24 ^^^ (c.strideAt 0).toNat <<< 32 :=
    or_eq_xor (shiftLeft_lt h.stride_x)
  have hpadding : (c.paddingAt 0).toNat <<< 16 ||| (c.paddingAt 1).toNat <<< 8
      = (c.paddingAt 1).toNat <<< 8 ^^^ (c.paddingAt 0).toNat <<< 16 :=
    or_eq_xor (shiftLeft_lt h.padding_x)
  have hflag : (if c.hasBias then (1 : UInt64) else 0).toNat = if c.hasBias then 1 else 0 := by
    split <;> rfl
  have hsum : c.word.toNat
      = ((c.strideAt 0).toNat <<< 32 ||| (c.strideAt 1).toNat <<< 24)
        ^^^ ((c.paddingAt 0).toNat <<< 16 ||| (c.paddingAt 1).toNat <<< 8)
        ^^^ ((c.dilationAt 0).toNat <<< 4 ||| (c.dilationAt 1).toNat)
        ^^^ c.groups.toNat <<< 48 ^^^ (if c.hasBias then 1 else 0) := by
    unfold word
    simp only [UInt64.toNat_xor, UInt64.toNat_or, hflag]
    rw [← hshift _ 16 32 h.stride_y (by decide) (by decide),
      ← hshift _ 8 24 h.stride_x (by decide) (by decide),
      ← hshift _ 8 16 h.padding_y (by decide) (by decide),
      ← hshift _ 8 8 h.padding_x (by decide) (by decide),
      ← hshift _ 4 4 h.dilation_y (by decide) (by decide),
      ← hshift _ 16 48 h.groups (by decide) (by decide)]
    rfl
  rw [hsum, hstride, hpadding, or_eq_xor h.dilation_x, xor_regroup]
  simp only [Nat.shiftLeft_xor_distrib]
  simp only [shiftLeft_shiftLeft, Nat.reduceAdd]
  rfl

/-- Two words of parameters that fit are equal only if the parameters are, except for the second
    dilation and the flag. -/
theorem Fits.word_inj (hc : c.Fits) (hd : d.Fits) : c.word = d.word ↔
    c.low = d.low ∧ c.dilationAt 0 = d.dilationAt 0 ∧ c.paddingAt 1 = d.paddingAt 1 ∧
      c.paddingAt 0 = d.paddingAt 0 ∧ c.strideAt 1 = d.strideAt 1 ∧ c.strideAt 0 = d.strideAt 0 ∧
      c.groups = d.groups := by
  rw [← UInt64.toNat_inj, hc.word_toNat,
    hd.word_toNat, xor_shiftLeft_inj hc.low_lt hd.low_lt,
    xor_shiftLeft_inj hc.dilation_y hd.dilation_y, xor_shiftLeft_inj hc.padding_x hd.padding_x,
    xor_shiftLeft_inj hc.padding_y hd.padding_y, xor_shiftLeft_inj hc.stride_x hd.stride_x,
    xor_shiftLeft_inj hc.stride_y hd.stride_y]
  simp only [UInt64.toNat_inj]

/-! ### Convolutions with one key -/

/-- The bias, where there is one, passes its checks. -/
def BiasAdmitted (c : Conv2dCall α) : Prop :=
  c.hasBias = true → c.bias.ndim = 1 ∧ c.bias.dtype = c.input.dtype

/-- The parameters of the descriptor are the same. -/
structure SameParameters (c d : Conv2dCall α) : Prop where
  dilation_y : c.dilationAt 0 = d.dilationAt 0
  dilation_x : c.dilationAt 1 = d.dilationAt 1
  padding_x : c.paddingAt 1 = d.paddingAt 1
  padding_y : c.paddingAt 0 = d.paddingAt 0
  stride_x : c.strideAt 1 = d.strideAt 1
  stride_y : c.strideAt 0 = d.strideAt 0
  groups : c.groups = d.groups

/-- Two calls with the same shapes ask for one operator: with the same parameters and the same
    shape of the bias, or with two biases that are rejected for one reason. -/
def SameOperator (c d : Conv2dCall α) : Prop :=
  (c.BiasAdmitted ∧ d.BiasAdmitted ∧ c.SameParameters d ∧ c.hasBias = d.hasBias ∧
    (c.hasBias = true → c.bias.dims = d.bias.dims)) ∨
  (¬ c.BiasAdmitted ∧ ¬ d.BiasAdmitted ∧ (c.bias.ndim = 1 ↔ d.bias.ndim = 1))

/-- Two calls of different operators with one key. -/
structure Clashes (c d : Conv2dCall α) : Prop where
  supported : c.input.dtype ∈ [MNDType.Float32, .Float16, .BFloat16]
  dtype : c.input.dtype = d.input.dtype
  input : c.input.dims = d.input.dims
  weight : c.weight.dims = d.weight.dims
  word : c.word = d.word
  different : ¬ c.SameOperator d

theorem descriptor_inj : c.descriptor = d.descriptor ↔ c.SameParameters d := by
  constructor
  · intro heq
    simp only [descriptor, Conv2dDescriptor.mk.injEq] at heq
    obtain ⟨hsx, hsy, hdx, hdy, hg, hpx, -, hpy, -⟩ := heq
    exact ⟨hdy, hdx, hpx, hpy, hsx, hsy, hg⟩
  · rintro ⟨hdy, hdx, hpx, hpy, hsx, hsy, hg⟩
    simp only [descriptor, hdy, hdx, hpx, hpy, hsx, hsy, hg]

theorem toMpsDatatype_eq (t : MNDType) : (∃ m, toMpsDatatype t = .ok m) ↔
    t ∈ [MNDType.Float32, .Float16, .BFloat16] := by
  cases t <;> simp [toMpsDatatype]

/-- A bias that is admitted is added with its own shape. -/
theorem buildBias_admitted {m : MPSDataType} (hm : toMpsDatatype c.input.dtype = .ok m)
    (h : c.BiasAdmitted) : c.buildBias = .ok (if c.hasBias then
      some ⟨⟨c.bias.dims, m⟩, [1, c.bias.dim 0, 1, 1]⟩ else none) := by
  unfold buildBias
  by_cases hbias : c.hasBias = true
  · obtain ⟨hdim, hdtype⟩ := h hbias
    simp [hbias, hdim, hdtype, hm, Except.map]
  · simp [hbias]

/-- A bias that is not admitted is rejected, for its dimensions or for its type. -/
theorem buildBias_rejected (h : ¬ c.BiasAdmitted) : c.buildBias = .error ⟨.InvalidArgument,
    if c.bias.ndim = 1 then "conv2d: bias dtype must match input dtype"
    else "conv2d: bias must be 1D"⟩ := by
  unfold BiasAdmitted at h
  push Not at h
  obtain ⟨hbias, hrest⟩ := h
  unfold buildBias
  by_cases hdim : c.bias.ndim = 1
  · simp [hbias, hdim, hrest hdim]
  · simp [hbias, hdim]

theorem check_ndim (h : c.check = .ok ()) : c.input.dims.length = 4 ∧ c.weight.dims.length = 4 ∧
    c.input.dtype = c.weight.dtype := by
  unfold check at h
  simp only [bind, Except.bind, throw, throwThe, MonadExceptOf.throw, pure, Except.pure] at h
  split_ifs at h
  simp_all [MNTensor.ndim]

/-- **Graphs.**  Of two calls with the same shapes and a type that MPSGraph has, the graphs are the
    same exactly if the operators are. -/
theorem build_eq_iff (hc : c.check = .ok ()) (hd : d.check = .ok ())
    (hsupported : c.input.dtype ∈ [MNDType.Float32, .Float16, .BFloat16])
    (hdtype : c.input.dtype = d.input.dtype) (hinput : c.input.dims = d.input.dims)
    (hweight : c.weight.dims = d.weight.dims) : c.build = d.build ↔ c.SameOperator d := by
  obtain ⟨m, hm⟩ := (toMpsDatatype_eq _).mpr hsupported
  have hbuild : ∀ e : Conv2dCall α, e.check = .ok () → e.input.dtype = c.input.dtype →
      e.build = e.buildBias.map fun bias =>
        ⟨⟨e.input.dims, m⟩, ⟨e.weight.dims, m⟩, e.descriptor, bias⟩ := by
    intro e he htype
    unfold build
    rw [← (check_ndim he).2.2, htype, hm]
    rfl
  rw [hbuild c hc rfl, hbuild d hd hdtype.symm]
  unfold SameOperator
  by_cases hcb : c.BiasAdmitted
  · by_cases hdb : d.BiasAdmitted
    · rw [buildBias_admitted hm hcb, buildBias_admitted (hdtype ▸ hm) hdb, ← descriptor_inj]
      simp only [Except.map, Except.ok.injEq, Conv2dGraph.mk.injEq, hinput, hweight, hcb, hdb,
        true_and, not_true_eq_false, false_and, or_false]
      refine and_congr_right fun _ => ?_
      cases hcbias : c.hasBias <;> cases hdbias : d.hasBias <;> simp [MNTensor.dim]
      rintro hdims
      rw [hdims]
    · rw [buildBias_admitted hm hcb, buildBias_rejected hdb]
      simp [Except.map, hcb, hdb]
  · by_cases hdb : d.BiasAdmitted
    · rw [buildBias_rejected hcb, buildBias_admitted (hdtype ▸ hm) hdb]
      simp [Except.map, hcb, hdb]
    · rw [buildBias_rejected hcb, buildBias_rejected hdb]
      simp only [Except.map, hcb, hdb, Except.error.injEq, MNException.mk.injEq, true_and,
        not_false_eq_true, false_and, false_or]
      split_ifs with hcdim hddim hddim <;> simp [hcdim, hddim]

/-- The shapes of two accepted calls can be read off their keys. -/
theorem shapeTuple_eq_iff (hc : c.check = .ok ()) (hd : d.check = .ok ()) :
    shapeTuple c.input.dims c.weight.dims = shapeTuple d.input.dims d.weight.dims ↔
      c.input.dims = d.input.dims ∧ c.weight.dims = d.weight.dims := by
  rw [shapeTuple_inj c.input.dims_lt c.weight.dims_lt d.input.dims_lt d.weight.dims_lt]
  constructor
  · intro heq
    have hlength : c.input.dims.length = d.input.dims.length :=
      (check_ndim hc).1.trans (check_ndim hd).1.symm
    obtain ⟨hinput, hrest⟩ := List.append_inj heq hlength
    exact ⟨hinput, List.tail_eq_of_cons_eq hrest⟩
  · rintro ⟨hinput, hweight⟩
    rw [hinput, hweight]

/-- **Pairs.**  The key keeps two accepted calls apart exactly if they do not clash. -/
theorem separates_iff (hc : c.check = .ok ()) (hd : d.check = .ok ()) :
    Separates key build c d ↔ ¬ c.Clashes d := by
  have hkey : c.key = d.key ↔ c.word = d.word ∧ (c.input.dims = d.input.dims ∧
      c.weight.dims = d.weight.dims) ∧ c.input.dtype = d.input.dtype := by
    rw [← shapeTuple_eq_iff hc hd, ← topologyHash_inj]
    simp only [key, GraphCacheKey.mk.injEq]
  unfold Separates
  rw [hkey]
  constructor
  · rintro hsep ⟨hsupported, hdtype, hinput, hweight, hword, hdifferent⟩
    exact hdifferent ((build_eq_iff hc hd hsupported hdtype hinput hweight).mp
      (hsep ⟨hword, ⟨hinput, hweight⟩, hdtype⟩))
  · rintro hclash ⟨hword, ⟨hinput, hweight⟩, hdtype⟩
    by_cases hsupported : c.input.dtype ∈ [MNDType.Float32, .Float16, .BFloat16]
    · rw [build_eq_iff hc hd hsupported hdtype hinput hweight]
      by_contra hdifferent
      exact hclash ⟨hsupported, hdtype, hinput, hweight, hword, hdifferent⟩
    · -- both fail before a node is made
      have hfail : ∀ e : Conv2dCall α, e.input.dtype = c.input.dtype →
          e.build = .error ⟨.InvalidArgument, "conv2d: unsupported dtype"⟩ := by
        intro e htype
        have hnone : toMpsDatatype e.input.dtype
            = .error ⟨.InvalidArgument, "conv2d: unsupported dtype"⟩ := by
          rw [htype]
          revert hsupported
          cases c.input.dtype <;> simp [toMpsDatatype]
        unfold build
        rw [hnone]
        rfl
      rw [hfail c rfl, hfail d hdtype.symm]

theorem low_eq_iff : c.low = d.low ↔
    (c.hasBias = d.hasBias ∧ c.dilationAt 1 = d.dilationAt 1) ∨
      (c.hasBias ≠ d.hasBias ∧ d.dilationAt 1 = c.dilationAt 1 ^^^ 1) := by
  have hlow : ∀ e : Conv2dCall α,
      e.low = (e.dilationAt 1 ^^^ (if e.hasBias then 1 else 0)).toNat := by
    intro e
    unfold low
    rw [UInt64.toNat_xor]
    split <;> rfl
  have hback : ∀ x y : UInt64, x = y ^^^ 1 ↔ y = x ^^^ 1 := by
    intro x y
    constructor
    · rintro rfl
      rw [UInt64.xor_assoc, UInt64.xor_self, UInt64.xor_zero]
    · rintro rfl
      rw [UInt64.xor_assoc, UInt64.xor_self, UInt64.xor_zero]
  rw [hlow, hlow, UInt64.toNat_inj]
  cases c.hasBias <;> cases d.hasBias
  · simp
  · simp [hback (c.dilationAt 1)]
  · simp [eq_comm (a := d.dilationAt 1)]
  · simp

/-- Where all parameters fit, two calls clash if one of them has a bias and their second dilations
    differ in the lowest bit only, or if they have the same parameters and different biases. -/
structure BiasClashes (c d : Conv2dCall α) : Prop where
  supported : c.input.dtype ∈ [MNDType.Float32, .Float16, .BFloat16]
  dtype : c.input.dtype = d.input.dtype
  input : c.input.dims = d.input.dims
  weight : c.weight.dims = d.weight.dims
  dilation_y : c.dilationAt 0 = d.dilationAt 0
  padding_x : c.paddingAt 1 = d.paddingAt 1
  padding_y : c.paddingAt 0 = d.paddingAt 0
  stride_x : c.strideAt 1 = d.strideAt 1
  stride_y : c.strideAt 0 = d.strideAt 0
  groups : c.groups = d.groups
  bias : (c.hasBias ≠ d.hasBias ∧ d.dilationAt 1 = c.dilationAt 1 ^^^ 1) ∨
    (c.hasBias = true ∧ d.hasBias = true ∧ c.dilationAt 1 = d.dilationAt 1 ∧
      ¬ (c.BiasAdmitted ∧ d.BiasAdmitted ∧ c.bias.dims = d.bias.dims) ∧
      ¬ (¬ c.BiasAdmitted ∧ ¬ d.BiasAdmitted ∧ (c.bias.ndim = 1 ↔ d.bias.ndim = 1)))

theorem Fits.clashes_iff (hc : c.Fits) (hd : d.Fits) : c.Clashes d ↔ c.BiasClashes d := by
  have hvacuous : ∀ e : Conv2dCall α, e.hasBias = false → e.BiasAdmitted := by
    intro e he hbias
    rw [he] at hbias
    cases hbias
  constructor
  · rintro ⟨hsupported, hdtype, hinput, hweight, hword, hdifferent⟩
    obtain ⟨hlow, hdy, hpx, hpy, hsx, hsy, hg⟩ := (hc.word_inj hd).mp hword
    refine ⟨hsupported, hdtype, hinput, hweight, hdy, hpx, hpy, hsx, hsy, hg, ?_⟩
    rcases low_eq_iff.mp hlow with ⟨hflag, hdx⟩ | hflip
    · right
      have hsame : c.SameParameters d := ⟨hdy, hdx, hpx, hpy, hsx, hsy, hg⟩
      cases hcbias : c.hasBias with
      | false =>
        -- without a bias the parameters are all there is
        rw [hcbias] at hflag
        refine absurd (.inl ⟨hvacuous c hcbias, hvacuous d hflag.symm, hsame, ?_, ?_⟩) hdifferent
        · rw [hcbias, hflag]
        · intro hbias
          rw [hcbias] at hbias
          cases hbias
      | true =>
        refine ⟨rfl, hflag.symm.trans hcbias, hdx, fun ⟨hca, hda, hdims⟩ => ?_, fun hrej => ?_⟩
        · exact hdifferent (.inl ⟨hca, hda, hsame, hflag, fun _ => hdims⟩)
        · exact hdifferent (.inr hrej)
    · exact .inl hflip
  · rintro ⟨hsupported, hdtype, hinput, hweight, hdy, hpx, hpy, hsx, hsy, hg, hkind⟩
    have hlow : c.low = d.low := by
      rw [low_eq_iff]
      rcases hkind with hflip | ⟨hcbias, hdbias, hdx, -⟩
      · exact .inr hflip
      · exact .inl ⟨hcbias.trans hdbias.symm, hdx⟩
    refine ⟨hsupported, hdtype, hinput, hweight,
      (hc.word_inj hd).mpr ⟨hlow, hdy, hpx, hpy, hsx, hsy, hg⟩, ?_⟩
    rintro (⟨hca, hda, hsame, hflag, hdims⟩ | hrej)
    · rcases hkind with ⟨hne, -⟩ | ⟨hcbias, -, -, hadmitted, -⟩
      · exact hne hflag
      · exact hadmitted ⟨hca, hda, hdims hcbias⟩
    · rcases hkind with ⟨hne, -⟩ | ⟨-, -, -, -, hrejected⟩
      · -- one of the two has no bias, and cannot be rejected for it
        have hone : c.hasBias = false ∨ d.hasBias = false := by
          revert hne
          cases c.hasBias <;> cases d.hasBias <;> simp
        rcases hone with hc0 | hd0
        · exact hrej.1 (hvacuous c hc0)
        · exact hrej.2.1 (hvacuous d hd0)
      · exact hrejected hrej

end Conv2dCall

/-! ### Products with one key -/

namespace MatmulCall

variable {α : Type*} {c d : MatmulCall α}

/-- One of the shapes of `a` is the other with a 0 behind it and more dimensions, which are missing
    in front of that 0 in the shape of `b`. -/
def Overlap (a b a' b' : List ℕ) : Prop := ∃ m, a' = a ++ 0 :: m ∧ b = m ++ 0 :: b'

/-- Two calls of different operators with one key. -/
structure Clashes (c d : MatmulCall α) : Prop where
  supported : c.a.dtype ∈ [MNDType.Float32, .Float16, .BFloat16, .Int32]
  dtype : c.a.dtype = d.a.dtype
  transpose_a : c.transpose_a = d.transpose_a
  transpose_b : c.transpose_b = d.transpose_b
  overlap : Overlap c.a.dims c.b.dims d.a.dims d.b.dims ∨
    Overlap d.a.dims d.b.dims c.a.dims c.b.dims

/-- What is joined by a 0 is the same, or overlaps. -/
theorem append_zero_cons_eq_iff : a ++ 0 :: b = a' ++ 0 :: b' ↔
    (a = a' ∧ b = b') ∨ Overlap a b a' b' ∨ Overlap a' b' a b := by
  unfold Overlap
  rw [List.append_eq_append_iff]
  constructor
  · rintro (⟨as, ha, hb⟩ | ⟨bs, ha, hb⟩)
    · cases as with
      | nil =>
        simp only [List.append_nil, List.nil_append, List.cons.injEq, true_and] at ha hb
        exact .inl ⟨ha.symm, hb⟩
      | cons x xs =>
        simp only [List.cons_append, List.cons.injEq] at hb
        obtain ⟨rfl, hb⟩ := hb
        exact .inr (.inl ⟨xs, ha, hb⟩)
    · cases bs with
      | nil =>
        simp only [List.append_nil, List.nil_append, List.cons.injEq, true_and] at ha hb
        exact .inl ⟨ha, hb.symm⟩
      | cons x xs =>
        simp only [List.cons_append, List.cons.injEq] at hb
        obtain ⟨rfl, hb⟩ := hb
        exact .inr (.inr ⟨xs, ha, hb⟩)
  · rintro (⟨rfl, rfl⟩ | ⟨m, rfl, rfl⟩ | ⟨m, rfl, rfl⟩)
    · exact .inl ⟨[], by simp, by simp⟩
    · exact .inl ⟨0 :: m, rfl, by simp⟩
    · exact .inr ⟨0 :: m, rfl, by simp⟩

theorem Overlap.length_lt (h : Overlap a b a' b') : a.length < a'.length := by
  obtain ⟨m, rfl, -⟩ := h
  rw [List.length_append, List.length_cons]
  omega

theorem flags_inj : (((0x4D41544D554C0000 : UInt64) ^^^ ((if c.transpose_a then 1 else 0)
      ||| (if c.transpose_b then 2 else 0))) = (0x4D41544D554C0000 : UInt64)
        ^^^ ((if d.transpose_a then 1 else 0) ||| (if d.transpose_b then 2 else 0))) ↔
    c.transpose_a = d.transpose_a ∧ c.transpose_b = d.transpose_b := by
  rw [UInt64.xor_right_inj]
  cases c.transpose_a <;> cases c.transpose_b <;> cases d.transpose_a <;> cases d.transpose_b <;>
    decide

theorem key_eq_iff : c.key = d.key ↔ (c.transpose_a = d.transpose_a ∧
    c.transpose_b = d.transpose_b) ∧ c.a.dims ++ 0 :: c.b.dims = d.a.dims ++ 0 :: d.b.dims ∧
      c.a.dtype = d.a.dtype := by
  rw [← flags_inj, ← shapeTuple_inj c.a.dims_lt c.b.dims_lt d.a.dims_lt d.b.dims_lt]
  simp only [key, GraphCacheKey.mk.injEq]

/-- A graph has the shape of `a`. -/
theorem build_of_supported (hc : c.OnGraphPath)
    (hsupported : c.a.dtype ∈ [MNDType.Float32, .Float16, .BFloat16, .Int32]) :
    ∃ m, toMpsDatatype c.a.dtype = .ok m ∧ c.build = .ok ⟨⟨c.a.dims, m⟩, ⟨c.b.dims, m⟩,
      permutation c.transpose_a c.a.ndim, permutation c.transpose_b c.b.ndim⟩ := by
  obtain ⟨dims, hcheck, -⟩ := hc
  have hdtype := (matmulCheck_eq_ok hcheck).dtype
  have hm : ∃ m, toMpsDatatype c.a.dtype = .ok m := by
    revert hsupported
    cases c.a.dtype <;> simp [toMpsDatatype]
  obtain ⟨m, hm⟩ := hm
  refine ⟨m, hm, ?_⟩
  unfold build
  rw [← hdtype, hm]
  rfl

theorem build_of_unsupported
    (h : c.a.dtype ∉ [MNDType.Float32, .Float16, .BFloat16, .Int32]) :
    c.build = .error ⟨.InvalidArgument, "matmul: unsupported dtype"⟩ := by
  have hnone : toMpsDatatype c.a.dtype = .error
      ⟨.InvalidArgument, "matmul: unsupported dtype"⟩ := by
    revert h
    cases c.a.dtype <;> simp [toMpsDatatype]
  unfold build
  rw [hnone]
  rfl

/-- **Pairs.**  The key keeps two calls on the MPSGraph path apart exactly if they do not clash. -/
theorem separates_iff (hc : c.OnGraphPath) (hd : d.OnGraphPath) :
    Separates key build c d ↔ ¬ c.Clashes d := by
  unfold Separates
  rw [key_eq_iff, append_zero_cons_eq_iff]
  constructor
  · rintro hsep ⟨hsupported, hdtype, hta, htb, hoverlap⟩
    obtain ⟨m, hm, hbuild⟩ := build_of_supported hc hsupported
    obtain ⟨m', hm', hbuild'⟩ := build_of_supported hd (hdtype ▸ hsupported)
    have heq := hsep ⟨⟨hta, htb⟩, .inr hoverlap, hdtype⟩
    rw [hbuild, hbuild'] at heq
    simp only [Except.ok.injEq, MatmulGraph.mk.injEq, Placeholder.mk.injEq] at heq
    rcases hoverlap with h | h
    · exact absurd (congrArg List.length heq.1.1) h.length_lt.ne
    · exact absurd (congrArg List.length heq.1.1) h.length_lt.ne'
  · rintro hclash ⟨⟨hta, htb⟩, hshape, hdtype⟩
    by_cases hsupported : c.a.dtype ∈ [MNDType.Float32, .Float16, .BFloat16, .Int32]
    · rcases hshape with ⟨ha, hb⟩ | hoverlap
      · obtain ⟨m, hm, hbuild⟩ := build_of_supported hc hsupported
        obtain ⟨m', hm', hbuild'⟩ := build_of_supported hd (hdtype ▸ hsupported)
        obtain rfl : m = m' := Except.ok.inj (hm.symm.trans (hdtype ▸ hm'))
        rw [hbuild, hbuild', ha, hb, hta, htb]
        simp only [MNTensor.ndim, ha, hb]
      · exact absurd ⟨hsupported, hdtype, hta, htb, hoverlap⟩ hclash
    · rw [build_of_unsupported hsupported, build_of_unsupported (hdtype ▸ hsupported)]

end MatmulCall

/-! ### The caches -/

/-- **The graph caches of `conv2d` and `matmul`.**  A key keeps two calls apart exactly if they do
    not clash, which among convolutions with parameters that fit is a matter of the bias; and in
    runs where no call clashes with one before it every call gets the graph that a miss would build,
    or the exception that a miss would throw. -/
theorem operator_graph_caches (α : Type*) :
    (∀ c d : Conv2dCall α, c.check = .ok () → d.check = .ok () →
      (Separates Conv2dCall.key Conv2dCall.build c d ↔ ¬ c.Clashes d)) ∧
    (∀ c d : Conv2dCall α, c.Fits → d.Fits → (c.Clashes d ↔ c.BiasClashes d)) ∧
    (∀ c d : MatmulCall α, c.OnGraphPath → d.OnGraphPath →
      (Separates MatmulCall.key MatmulCall.build c d ↔ ¬ c.Clashes d)) ∧
    (∀ s : State (Conv2dCall α) GraphCacheKey Conv2dGraph MNException,
      Runs (MemoTable.step Conv2dCall.key Conv2dCall.build)
        (fun u req => req.call.check = .ok () ∧ ∀ c ∈ u.history, ¬ c.Clashes req.call) {} s →
      ∀ r ∈ s.last, r.2 = r.1.build) ∧
    (∀ s : State (MatmulCall α) GraphCacheKey MatmulGraph MNException,
      Runs (MemoTable.step MatmulCall.key MatmulCall.build)
        (fun u req => req.call.OnGraphPath ∧ ∀ c ∈ u.history, ¬ c.Clashes req.call) {} s →
      ∀ r ∈ s.last, r.2 = r.1.build) := by
  refine ⟨fun c d hc hd => separates_iff hc hd, fun c d hc hd => hc.clashes_iff hd,
    fun c d hc hd => MatmulCall.separates_iff hc hd, fun s hruns => ?_, fun s hruns => ?_⟩
  · exact runs_answer (fun c d hc hd => (separates_iff hc hd).mpr) hruns
  · exact runs_answer (fun c d hc hd => (MatmulCall.separates_iff hc hd).mpr) hruns

/-! ### Calls that clash -/

section Examples

/-- A tensor of zeros. -/
def zeroTensor (dims : List ℕ) (strides : List ℤ) (dtype : MNDType) (hdims : ∀ d ∈ dims, d < 2 ^ 63)
    (hnumel : dims.prod < 2 ^ 63) : MNTensor Unit where
  buffer := fun _ => ()
  dims := dims
  strides := strides
  dtype := dtype
  dims_lt := hdims
  numel_lt := hnumel

/-- A bias of some length. -/
def biasOf (n : Fin 8) (dtype : MNDType) : MNTensor Unit :=
  zeroTensor [n] [1] dtype (by simp; omega) (by simp; omega)

/-- `conv2d` of a `1×1×8×8` image with two filters. -/
def smallConv (bias : MNTensor Unit) (padding dilation : List UInt64) : Conv2dCall Unit where
  input := zeroTensor [1, 1, 8, 8] [64, 64, 8, 1] .Float32 (by decide) (by decide)
  weight := zeroTensor [2, 1, 3, 3] [9, 9, 3, 1] .Float32 (by decide) (by decide)
  bias := bias
  stride := [1, 1]
  padding := padding
  dilation := dilation
  groups := 1

/-- A product with an empty second factor, of two dimensions and four. -/
def emptyFactor : MatmulCall Unit where
  a := zeroTensor [5, 1] [2, 1] .Float16 (by decide) (by decide)
  b := zeroTensor [1, 0, 1, 4] [0, 4, 4, 1] .Float16 (by decide) (by decide)
  transpose_a := false
  transpose_b := false

/-- A batch of empty products, the dimensions of which are joined to the same list. -/
def emptyBatch : MatmulCall Unit where
  a := zeroTensor [5, 1, 0, 1] [2, 2, 1, 1] .Float16 (by decide) (by decide)
  b := zeroTensor [1, 4] [4, 1] .Float16 (by decide) (by decide)
  transpose_a := false
  transpose_b := false

/-- One key for two paddings, with and without a bias, for biases of two lengths, for a bias that is
    rejected and one that is not, and for two products of different shapes. -/
theorem keys_mix_operators :
    (∃ c d : Conv2dCall Unit, c.check = .ok () ∧ d.check = .ok () ∧ c.bias = d.bias ∧
      c.key = d.key ∧ c.build ≠ d.build) ∧
    (∃ c d : Conv2dCall Unit, c.check = .ok () ∧ d.check = .ok () ∧ c.Fits ∧ d.Fits ∧
      c.hasBias ≠ d.hasBias ∧ c.key = d.key ∧ c.build ≠ d.build) ∧
    (∃ c d : Conv2dCall Unit, c.check = .ok () ∧ d.check = .ok () ∧ c.SameParameters d ∧
      c.key = d.key ∧ c.build ≠ d.build) ∧
    (∃ s, Reaches (MemoTable.step (Conv2dCall.key (α := Unit)) Conv2dCall.build) {} s ∧
      ∃ r ∈ s.last, r.2.isOk = true ∧ r.1.build = .error ⟨.InvalidArgument,
        "conv2d: bias dtype must match input dtype"⟩) ∧
    (∃ c d : MatmulCall Unit, c.OnGraphPath ∧ d.OnGraphPath ∧ c.key = d.key ∧
      c.build ≠ d.build) := by
  refine ⟨⟨smallConv (biasOf 0 .Float32) [0, 1] [1, 1],
    smallConv (biasOf 0 .Float32) [0, 0] [17, 1],
      by decide, by decide, rfl, by decide, by decide⟩,
    ⟨smallConv (biasOf 2 .Float32) [0, 0] [1, 2], smallConv (biasOf 0 .Float32) [0, 0] [1, 3],
      by decide, by decide, ?_, ?_, by decide, by decide, by decide⟩,
    ⟨smallConv (biasOf 2 .Float32) [0, 0] [1, 1], smallConv (biasOf 1 .Float32) [0, 0] [1, 1],
      by decide, by decide, ⟨rfl, rfl, rfl, rfl, rfl, rfl,
        rfl⟩, by decide +kernel, by decide +kernel⟩,
    ?_,
    ⟨emptyFactor, emptyBatch, ⟨⟨5, 4, 1⟩, by decide, by decide⟩, ⟨⟨0, 4, 1⟩, by decide, by decide⟩,
      by decide, by decide⟩⟩
  · constructor <;> decide
  · constructor <;> decide
  · exact exists_reaches [⟨smallConv (biasOf 2 .Float32) [0, 0] [1, 1], 0, 0, 4⟩,
      ⟨smallConv (biasOf 2 .Float16) [0, 0] [1, 1], 1, 0, 4⟩] (by decide)

/-- Three convolutions with one shape and two biases of one length. -/
theorem operator_graph_caches_three_calls :
    ∃ s, Runs (MemoTable.step (Conv2dCall.key (α := Unit)) Conv2dCall.build)
        (fun u req => req.call.check = .ok () ∧ ∀ c ∈ u.history, ¬ c.Clashes req.call) {} s ∧
      s.history.length = 3 ∧ ∀ r ∈ s.last, r.2 = r.1.build := by
  have hsome : (exec (MemoTable.step key build) {}
      [⟨smallConv (biasOf 2 .Float32) [0, 0] [1, 1], 0, 0, 4⟩,
        ⟨smallConv (biasOf 2 .Float32) [1, 1] [1, 1], 1, 0, 4⟩,
        ⟨smallConv (biasOf 2 .Float32) [0, 0] [1, 1], 2, 0, 4⟩]).any
      (fun s => decide (s.history.length = 3)) = true := by
    decide
  obtain ⟨s, hs, hlength⟩ := (Option.any_eq_true _ _).mp hsome
  have hguard : GuardedAlong (MemoTable.step (key (α := Unit)) build)
      (fun u req => req.call.check = .ok () ∧ ∀ c ∈ u.history, c.check = .ok () ∧
        (c.key = req.call.key → c.build = req.call.build)) {}
      [⟨smallConv (biasOf 2 .Float32) [0, 0] [1, 1], 0, 0, 4⟩,
        ⟨smallConv (biasOf 2 .Float32) [1, 1] [1, 1], 1, 0, 4⟩,
        ⟨smallConv (biasOf 2 .Float32) [0, 0] [1, 1], 2, 0, 4⟩] := by
    decide +kernel
  have hruns := (runs_exec hs hguard).mono
    (H := fun u req => req.call.check = .ok () ∧ ∀ c ∈ u.history, ¬ c.Clashes req.call)
    fun u req ⟨hcheck, hhistory⟩ => ⟨hcheck, fun c hc =>
      (separates_iff (hhistory c hc).1 hcheck).mp (hhistory c hc).2⟩
  exact ⟨s, hruns, of_decide_eq_true hlength, (operator_graph_caches Unit).2.2.2.1 s hruns⟩

end Examples

end MetalNative
