import MetalNative.Graph.FusionPatterns

namespace MetalNative

open List

/-!
# Longest matches of `FusionRegistry`

`find_all_fusions` takes the first registered pattern that matches; its documentation speaks of the
longest one.

* `Greedy` — what a greedy scan finds: matches in order that are longest where they start, and no
  pattern in between.
* `Visits` — the positions that a scan for longest matches comes to.
* `LongestFirst` — at each of them the first pattern that matches is a longest one and not empty.
* `findAllFusions_greedy` — the scan ends and is greedy exactly then.
* `LongestFirst.of_registry` — a registration order that is good for every sequence.
-/

variable {patterns : List FusionPattern} {ops : List OpType} {i : ℕ} {p q : FusionPattern}
  {m : FusionMatch} {ms : List FusionMatch}

/-! ### What is wanted -/

/-- No pattern that matches at `i` is longer than `n`. -/
def NoneLonger (patterns : List FusionPattern) (ops : List OpType) (i n : ℕ) : Prop :=
  ∀ q ∈ patterns, matchesAt ops i q = true → q.sequence.length ≤ n

instance (patterns : List FusionPattern) (ops : List OpType) (i n : ℕ) :
    Decidable (NoneLonger patterns ops i n) :=
  inferInstanceAs (Decidable (∀ q ∈ patterns, _))

/-- The position belongs to the match. -/
def FusionMatch.Covers (m : FusionMatch) (i : ℕ) : Prop :=
  m.startIndex ≤ i ∧ i < m.startIndex + m.length

/-- The matches of a greedy scan from position `i`. -/
structure GreedyFrom (patterns : List FusionPattern) (ops : List OpType) (i : ℕ)
    (ms : List FusionMatch) : Prop where
  valid : ∀ m ∈ ms, m.Valid patterns ops
  longest : ∀ m ∈ ms, NoneLonger patterns ops m.startIndex m.length
  start : ∀ m ∈ ms, i ≤ m.startIndex
  increasing : ms.Pairwise fun m m' => m.startIndex < m'.startIndex
  disjoint : ms.Pairwise fun m m' => m.startIndex + m.length ≤ m'.startIndex
  complete : ∀ j, i ≤ j → j < ops.length → (∀ m ∈ ms, ¬ m.Covers j) →
    ∀ q ∈ patterns, matchesAt ops j q = false

/-- The matches of a greedy scan. -/
def Greedy (patterns : List FusionPattern) (ops : List OpType) (ms : List FusionMatch) : Prop :=
  GreedyFrom patterns ops 0 ms

/-- The positions that a scan for longest matches comes to. -/
inductive Visits (patterns : List FusionPattern) (ops : List OpType) : ℕ → Prop
  | start : Visits patterns ops 0
  | skip {i : ℕ} : Visits patterns ops i → i < ops.length →
      (∀ q ∈ patterns, matchesAt ops i q = false) → Visits patterns ops (i + 1)
  | take {i : ℕ} {p : FusionPattern} : Visits patterns ops i → i < ops.length → p ∈ patterns →
      matchesAt ops i p = true → NoneLonger patterns ops i p.sequence.length →
      Visits patterns ops (i + p.sequence.length)

/-- Where such a scan comes to, the first pattern that matches is not empty and none is longer. -/
def LongestFirst (patterns : List FusionPattern) (ops : List OpType) : Prop :=
  ∀ i, Visits patterns ops i → i < ops.length →
    ∀ p, patterns.find? (matchesAt ops i) = some p →
      p.sequence ≠ [] ∧ NoneLonger patterns ops i p.sequence.length

/-! ### One round -/

/-- Nothing is found exactly where no pattern matches. -/
theorem tryFuse_eq_none (hi : i < ops.length) :
    tryFuse patterns ops i = none ↔ ∀ q ∈ patterns, matchesAt ops i q = false := by
  unfold tryFuse
  rw [if_neg (not_le.mpr hi), Option.map_eq_none_iff, find?_eq_none]
  simp only [Bool.not_eq_true]

/-- What is found is the first pattern that matches. -/
theorem tryFuse_eq_some (hi : i < ops.length) :
    tryFuse patterns ops i = some m ↔ ∃ p, patterns.find? (matchesAt ops i) = some p ∧
      m = ⟨i, p.sequence.length, p⟩ := by
  unfold tryFuse
  rw [if_neg (not_le.mpr hi), Option.map_eq_some_iff]
  constructor
  · rintro ⟨p, hp, rfl⟩
    exact ⟨p, hp, rfl⟩
  · rintro ⟨p, hp, rfl⟩
    exact ⟨p, hp, rfl⟩

variable {fuel : ℕ}

theorem scanFusions_skip (hi : i < ops.length)
    (hnone : ∀ q ∈ patterns, matchesAt ops i q = false) :
    scanFusions patterns ops (fuel + 1) i = scanFusions patterns ops fuel (i + 1) := by
  rw [scanFusions, if_pos hi, (tryFuse_eq_none hi).mpr hnone]

theorem scanFusions_take (hi : i < ops.length)
    (hp : patterns.find? (matchesAt ops i) = some p) :
    scanFusions patterns ops (fuel + 1) i
      = (scanFusions patterns ops fuel (i + p.sequence.length)).map
          (⟨i, p.sequence.length, p⟩ :: ·) := by
  rw [scanFusions, if_pos hi, (tryFuse_eq_some hi).mpr ⟨p, hp, rfl⟩]

/-- Beyond the sequence nothing is found. -/
theorem scanFusions_end (hi : ops.length ≤ i) :
    scanFusions patterns ops fuel i = some [] := by
  cases fuel with
  | zero | succ => rw [scanFusions, if_neg (not_lt.mpr hi)]

theorem scanFusions_zero (hi : i < ops.length) : scanFusions patterns ops 0 i = none := by
  rw [scanFusions, if_pos hi]

/-- At a position of the sequence either no pattern matches, or there is a first one that does. -/
theorem find_cases_at (patterns : List FusionPattern) (ops : List OpType) (i : ℕ) :
    (∀ q ∈ patterns, matchesAt ops i q = false) ∨
      ∃ p, patterns.find? (matchesAt ops i) = some p := by
  cases hfind : patterns.find? (matchesAt ops i) with
  | none =>
    left
    simpa using find?_eq_none.mp hfind
  | some p => exact .inr ⟨p, rfl⟩

/-- An empty pattern that is taken is taken forever. -/
theorem scanFusions_stuck (hi : i < ops.length)
    (hp : patterns.find? (matchesAt ops i) = some p) (hnil : p.sequence = []) (fuel : ℕ) :
    scanFusions patterns ops fuel i = none := by
  induction fuel with
  | zero => exact scanFusions_zero hi
  | succ fuel ih =>
    rw [scanFusions_take hi hp, hnil]
    show (scanFusions patterns ops fuel i).map _ = none
    rw [ih, Option.map_none]

/-! ### The condition is enough -/

/-- One more match in front of a greedy scan. -/
theorem GreedyFrom.cons (h : GreedyFrom patterns ops (i + p.sequence.length) ms)
    (hp : patterns.find? (matchesAt ops i) = some p) (hne : p.sequence ≠ [])
    (hlongest : NoneLonger patterns ops i p.sequence.length) :
    GreedyFrom patterns ops i (⟨i, p.sequence.length, p⟩ :: ms) := by
  have hpos := length_pos_of_ne_nil hne
  obtain ⟨hlong, hops⟩ := matchesAt_iff.mp (find?_some hp)
  refine ⟨?_, ?_, ?_, ?_, ?_, ?_⟩
  · intro m hm
    rcases mem_cons.mp hm with rfl | hm
    · exact ⟨mem_of_find?_eq_some hp, rfl, hlong, hops⟩
    · exact h.valid m hm
  · intro m hm
    rcases mem_cons.mp hm with rfl | hm
    · exact hlongest
    · exact h.longest m hm
  · intro m hm
    rcases mem_cons.mp hm with rfl | hm
    · exact le_rfl
    · have hstart := h.start m hm
      omega
  · refine pairwise_cons.mpr ⟨?_, h.increasing⟩
    intro m hm
    have hstart := h.start m hm
    show i < m.startIndex
    omega
  · exact pairwise_cons.mpr ⟨h.start, h.disjoint⟩
  · -- a position that no match covers is behind the first one
    intro j hij hj hcover
    have hhead := hcover _ mem_cons_self
    have hlater : i + p.sequence.length ≤ j := by
      by_contra hlt
      apply hhead
      exact ⟨hij, not_le.mp hlt⟩
    exact h.complete j hlater hj fun m hm => hcover m (mem_cons_of_mem _ hm)

/-- A position where nothing matches in front of a greedy scan. -/
theorem GreedyFrom.skip (h : GreedyFrom patterns ops (i + 1) ms)
    (hnone : ∀ q ∈ patterns, matchesAt ops i q = false) : GreedyFrom patterns ops i ms := by
  refine ⟨h.valid, h.longest, ?_, h.increasing, h.disjoint, ?_⟩
  · intro m hm
    have hstart := h.start m hm
    omega
  · intro j hij hj hcover
    rcases Nat.eq_or_lt_of_le hij with rfl | hlt
    · exact hnone
    · exact h.complete j hlt hj hcover

theorem GreedyFrom.nil (hi : ops.length ≤ i) : GreedyFrom patterns ops i [] := by
  refine ⟨by simp, by simp, by simp, .nil, .nil, ?_⟩
  intro j hij hj
  omega

/-- From a position that is visited the scan ends and is greedy. -/
theorem LongestFirst.scan (h : LongestFirst patterns ops) :
    ∀ (fuel i : ℕ), Visits patterns ops i → ops.length ≤ i + fuel →
      ∃ ms, scanFusions patterns ops fuel i = some ms ∧ GreedyFrom patterns ops i ms := by
  intro fuel
  induction fuel with
  | zero => exact fun i _ hi => ⟨[], scanFusions_end hi, .nil hi⟩
  | succ fuel ih =>
    intro i hvisit hfuel
    by_cases hi : i < ops.length
    · rcases find_cases_at patterns ops i with hnone | ⟨p, hp⟩
      · obtain ⟨ms, hms, hgreedy⟩ := ih (i + 1) (hvisit.skip hi hnone) (by omega)
        exact ⟨ms, (scanFusions_skip hi hnone).trans hms, hgreedy.skip hnone⟩
      · -- a match that is not empty takes the scan to another position that is visited
        obtain ⟨hne, hlongest⟩ := h i hvisit hi p hp
        have hpos := length_pos_of_ne_nil hne
        have hnext := hvisit.take hi (mem_of_find?_eq_some hp) (find?_some hp) hlongest
        obtain ⟨ms, hms, hgreedy⟩ := ih _ hnext (by omega)
        refine ⟨_, ?_, hgreedy.cons hp hne hlongest⟩
        rw [scanFusions_take hi hp, hms, Option.map_some]
    · exact ⟨[], scanFusions_end (not_lt.mp hi), .nil (not_lt.mp hi)⟩

/-! ### The condition is needed -/

/-- A scan whose matches are longest comes to every position that is visited. -/
theorem visits_scanned (h : scanFusions patterns ops fuel 0 = some ms)
    (hlongest : ∀ m ∈ ms, NoneLonger patterns ops m.startIndex m.length)
    (hvisit : Visits patterns ops i) :
    ∃ fuel' ms', scanFusions patterns ops fuel' i = some ms' ∧ ms' ⊆ ms := by
  induction hvisit with
  | start => exact ⟨fuel, ms, h, Subset.refl ms⟩
  | @skip i _ hi hnone ih =>
    obtain ⟨fuel', ms', hms', hsub⟩ := ih
    cases fuel' with
    | zero =>
      rw [scanFusions_zero hi] at hms'
      cases hms'
    | succ fuel' =>
      rw [scanFusions_skip hi hnone] at hms'
      exact ⟨fuel', ms', hms', hsub⟩
  | @take i p _ hi hp hmatch hnone ih =>
    obtain ⟨fuel', ms', hms', hsub⟩ := ih
    cases fuel' with
    | zero =>
      rw [scanFusions_zero hi] at hms'
      cases hms'
    | succ fuel' =>
      -- the scan takes the first pattern, which is as long as the longest one
      rcases find_cases_at patterns ops i with hnot | ⟨first, hfirst⟩
      · rw [hnot p hp] at hmatch
        cases hmatch
      · rw [scanFusions_take hi hfirst] at hms'
        obtain ⟨rest, hrest, rfl⟩ := Option.map_eq_some_iff.mp hms'
        have hle : p.sequence.length ≤ first.sequence.length :=
          hlongest _ (hsub mem_cons_self) p hp hmatch
        have hge : first.sequence.length ≤ p.sequence.length :=
          hnone first (mem_of_find?_eq_some hfirst) (find?_some hfirst)
        rw [le_antisymm hge hle] at hrest
        exact ⟨fuel', rest, hrest, fun m hm => hsub (mem_cons_of_mem _ hm)⟩

/-- **The scan** ends and is greedy exactly when the first pattern that matches is a longest one,
    and not empty, wherever a scan for longest matches comes to. -/
theorem findAllFusions_greedy (patterns : List FusionPattern) (ops : List OpType) :
    (∃ fuel ms, findAllFusions patterns ops fuel = some ms ∧ Greedy patterns ops ms) ↔
      LongestFirst patterns ops := by
  constructor
  · rintro ⟨fuel, ms, hms, hgreedy⟩
    intro i hvisit hi p hp
    obtain ⟨fuel', ms', hms', hsub⟩ := visits_scanned hms hgreedy.longest hvisit
    -- the scan comes to `i`, and what it takes there is `p`
    constructor
    · intro hnil
      rw [scanFusions_stuck hi hp hnil] at hms'
      cases hms'
    · cases fuel' with
      | zero =>
        rw [scanFusions_zero hi] at hms'
        cases hms'
      | succ fuel' =>
        rw [scanFusions_take hi hp] at hms'
        obtain ⟨rest, -, rfl⟩ := Option.map_eq_some_iff.mp hms'
        exact hgreedy.longest _ (hsub mem_cons_self)
  · intro h
    obtain ⟨ms, hms, hgreedy⟩ := h.scan ops.length 0 .start (by omega)
    exact ⟨ops.length, ms, hms, hgreedy⟩

/-! ### Runs on fixed registries -/

/-- The number of rounds does not matter. -/
theorem scanFusions_unique : ∀ (fuel fuel' i : ℕ) (ms ms' : List FusionMatch),
    scanFusions patterns ops fuel i = some ms → scanFusions patterns ops fuel' i = some ms' →
      ms = ms' := by
  intro fuel
  induction fuel with
  | zero =>
    intro fuel' i ms ms' h h'
    by_cases hi : i < ops.length
    · rw [scanFusions_zero hi] at h
      cases h
    · rw [scanFusions_end (not_lt.mp hi)] at h h'
      exact (Option.some.inj h).symm.trans (Option.some.inj h')
  | succ fuel ih =>
    intro fuel' i ms ms' h h'
    by_cases hi : i < ops.length
    · cases fuel' with
      | zero =>
        rw [scanFusions_zero hi] at h'
        cases h'
      | succ fuel' =>
        rcases find_cases_at patterns ops i with hnone | ⟨p, hp⟩
        · rw [scanFusions_skip hi hnone] at h h'
          exact ih fuel' (i + 1) ms ms' h h'
        · rw [scanFusions_take hi hp] at h h'
          obtain ⟨rest, hrest, rfl⟩ := Option.map_eq_some_iff.mp h
          obtain ⟨rest', hrest', rfl⟩ := Option.map_eq_some_iff.mp h'
          rw [ih fuel' _ rest rest' hrest hrest']
    · rw [scanFusions_end (not_lt.mp hi)] at h h'
      exact (Option.some.inj h).symm.trans (Option.some.inj h')

/-- A pattern that begins with a built-in one, registered after it. -/
def convReLUAdd : FusionPattern := ⟨[.Conv2D, .ReLU, .Add], "FusedConvReLUAdd"⟩

/-- The built-in pattern hides the longer one, and a registry with an empty pattern is scanned
    forever. -/
theorem findAllFusions_not_greedy :
    (¬ ∃ fuel ms, findAllFusions (builtinPatterns ++ [convReLUAdd]) convReLUAdd.sequence fuel
        = some ms ∧ Greedy (builtinPatterns ++ [convReLUAdd]) convReLUAdd.sequence ms) ∧
      ∀ fuel, findAllFusions [⟨[], "Empty"⟩] [.Add] fuel = none := by
  constructor
  · -- three rounds are enough to see the match; the scan returns no other
    rintro ⟨fuel, ms, hms, hgreedy⟩
    have hfound : (findAllFusions (builtinPatterns ++ [convReLUAdd]) convReLUAdd.sequence 3).any
        (fun ms => ms.any fun m => !decide (NoneLonger (builtinPatterns ++ [convReLUAdd])
          convReLUAdd.sequence m.startIndex m.length)) = true := by decide
    obtain ⟨ms', hms', hany⟩ := (Option.any_eq_true _ _).mp hfound
    obtain rfl := scanFusions_unique _ _ _ _ _ hms hms'
    obtain ⟨m, hm, hlonger⟩ := any_eq_true.mp hany
    have hlongest := hgreedy.longest m hm
    simp [hlongest] at hlonger
  · have hfirst : [(⟨[], "Empty"⟩ : FusionPattern)].find? (matchesAt [.Add] 0)
        = some ⟨[], "Empty"⟩ := by decide
    exact scanFusions_stuck (by decide) hfirst rfl

/-! ### Registration order -/

/-- No pattern is empty, and of the patterns that a registered one begins with the first is as long
    as that one. -/
def PrefixesLast (patterns : List FusionPattern) : Prop :=
  (∀ p ∈ patterns, p.sequence ≠ []) ∧
    ∀ q ∈ patterns, ∀ p ∈ patterns.find? fun p => p.sequence.isPrefixOf q.sequence,
      q.sequence.length ≤ p.sequence.length

instance (patterns : List FusionPattern) : Decidable (PrefixesLast patterns) :=
  inferInstanceAs (Decidable (_ ∧ _))

/-- A pattern matches where the sequence goes on with it. -/
theorem matchesAt_iff_prefix : matchesAt ops i p = true ↔
    i + p.sequence.length ≤ ops.length ∧ p.sequence <+: ops.drop i := by
  rw [matchesAt_iff]
  constructor
  · rintro ⟨hlong, hops⟩
    refine ⟨hlong, prefix_iff_getElem?.mpr ?_⟩
    intro j hj
    rw [getElem?_drop, hops j hj, getElem?_eq_getElem hj]
  · rintro ⟨hlong, hprefix⟩
    refine ⟨hlong, ?_⟩
    intro j hj
    rw [← getElem?_drop, prefix_iff_getElem?.mp hprefix j hj,
      getElem?_eq_getElem hj]

/-- With shorter patterns after the longer ones that begin with them, the first pattern is a longest
    one in every sequence. -/
theorem LongestFirst.of_registry (h : PrefixesLast patterns) (ops : List OpType) :
    LongestFirst patterns ops := by
  intro i _ _ p hp
  have hmem := mem_of_find?_eq_some hp
  refine ⟨h.1 p hmem, ?_⟩
  intro q hq hmatch
  by_contra hlonger
  rw [not_le] at hlonger
  obtain ⟨-, hprefix⟩ := matchesAt_iff_prefix.mp (find?_some hp)
  obtain ⟨hqlong, hqprefix⟩ := matchesAt_iff_prefix.mp hmatch
  -- `p` begins `q`, and it is the first pattern that does: the others before it do not match
  have hpq : p.sequence <+: q.sequence :=
    prefix_of_prefix_length_le hprefix hqprefix hlonger.le
  have hmatches : ∀ r : FusionPattern, r.sequence <+: q.sequence → matchesAt ops i r = true := by
    intro r hr
    have hlen := hr.length_le
    exact matchesAt_iff_prefix.mpr ⟨by omega, hr.trans hqprefix⟩
  have hfirst : patterns.find? (fun p => p.sequence.isPrefixOf q.sequence) = some p := by
    obtain ⟨-, before, after, hsplit, hbefore⟩ := find?_eq_some_iff_append.mp hp
    refine find?_eq_some_iff_append.mpr
      ⟨List.isPrefixOf_iff_prefix.mpr hpq, before, after, hsplit, ?_⟩
    intro r hr
    rw [Bool.not_eq_true', Bool.eq_false_iff]
    intro hprefixed
    have hmiss := hbefore r hr
    rw [hmatches r (List.isPrefixOf_iff_prefix.mp hprefixed)] at hmiss
    cases hmiss
  exact absurd (h.2 q hq p hfirst) (not_le.mpr hlonger)

/-- The built-in patterns are in such an order. -/
theorem builtinPatterns_prefixesLast : PrefixesLast builtinPatterns := by decide

/-- **Registered in such an order**, patterns are found greedily in every sequence. -/
theorem findAllFusions_prefixesLast (h : PrefixesLast patterns) (ops : List OpType) :
    ∃ ms, findAllFusions patterns ops ops.length = some ms ∧ Greedy patterns ops ms :=
  (LongestFirst.of_registry h ops).scan ops.length 0 .start (by omega)

theorem findAllFusions_prefixesLast_builtin :
    ∃ ms, findAllFusions builtinPatterns convReLUAdd.sequence 3 = some ms ∧
      Greedy builtinPatterns convReLUAdd.sequence ms :=
  findAllFusions_prefixesLast builtinPatterns_prefixesLast _

end MetalNative
