import MetalNative.Graph.NodeMap

namespace MetalNative

open List

/-!
# What `optimize_fusions` does to the graph

The pass rewrites the matched pairs one after the other, each time on the graph that the rewrites
before have left.  Its result is one simultaneous substitution: the nodes of the pairs go away,
one fused node for each pair comes in, and every reader of the second node of a pair reads the
fused node.

* `FusionPair`, `fusionPairs` — the pairs that a pass rewrites, with the ids of their fused nodes.
* `optimizeFusions_eq` — the pass rewrites these pairs.
* `Fusable` — what makes the rewrites independent of each other.
* `foldl_fusePair_nodes` — the result as a substitution.
-/

open LazyGraph

/-- The two patterns that the pass rewrites. -/
inductive FusionKind where
  | residualNorm
  | swiGLU
  deriving DecidableEq, Repr

namespace FusionKind

/-- The operations of the pattern. -/
def firstOp : FusionKind → OpType
  | residualNorm => .Add
  | swiGLU => .SiLU

def secondOp : FusionKind → OpType
  | residualNorm => .RMSNorm
  | swiGLU => .Mul

/-- The operation of the fused node. -/
def fusedOp : FusionKind → OpType
  | residualNorm => .FusedResidualRMSNorm
  | swiGLU => .SwiGLU

end FusionKind

/-- Two nodes to be fused, and the id of the fused node. -/
structure FusionPair where
  kind : FusionKind
  first : LazyNodeId
  second : LazyNodeId
  fused : LazyNodeId
  deriving DecidableEq, Repr

variable {τ : Type}

namespace FusionPair

/-- The node that the source builds for a pair of nodes `p` and `q`. -/
def build (pr : FusionPair) (p q : LazyNode τ) : LazyNode τ :=
  match pr.kind with
  | .residualNorm => fusedResidualRMSNorm pr.fused p q
  | .swiGLU => fusedSwiGLU pr.fused pr.first p q

/-- The inputs of `p` and `q` that the fused node does not read. -/
def dropped (pr : FusionPair) (p q : LazyNode τ) : List LazyNodeId :=
  match pr.kind with
  | .residualNorm => q.inputs.eraseIdx 1
  | .swiGLU => p.inputs.tail ++ q.inputs.filter fun inp => inp = pr.first

/-- The nodes of a pair in `g`. -/
def firstNode (pr : FusionPair) (g : LazyGraph τ) : LazyNode τ := (g.find pr.first).getD {}

def secondNode (pr : FusionPair) (g : LazyGraph τ) : LazyNode τ := (g.find pr.second).getD {}

/-- The fused node as the source builds it from the nodes in `g`. -/
def node (pr : FusionPair) (g : LazyGraph τ) : LazyNode τ :=
  pr.build (pr.firstNode g) (pr.secondNode g)

end FusionPair

/-- Rewrite one pair. -/
def fusePair (g : LazyGraph τ) (pr : FusionPair) : LazyGraph τ :=
  g.replacePair pr.first pr.second (pr.node g)

/-! ### The pairs of a pass -/

/-- The pair that the rewrite of a match is about, if it is about one. -/
def matchPair (nodeOrder : List LazyNodeId) (fused : LazyNodeId) (m : FusionMatch) :
    Option FusionPair :=
  if m.length < 2 then none
  else
    match (nodeOrder.drop m.startIndex).take m.length with
    | [first, second] =>
      if m.pattern.fusedName = "FusedResidualRMSNorm" then
        some ⟨.residualNorm, first, second, fused⟩
      else if m.pattern.fusedName = "FusedSwiGLU" then some ⟨.swiGLU, first, second, fused⟩
      else none
    | _ => none

/-- The pairs of some matches; fused ids are given out from `next` on. -/
def matchPairs (nodeOrder : List LazyNodeId) : LazyNodeId → List FusionMatch → List FusionPair
  | _, [] => []
  | next, m :: ms =>
    match matchPair nodeOrder next m with
    | some pr => pr :: matchPairs nodeOrder (next + 1) ms
    | none => matchPairs nodeOrder next ms

/-- The matches of a pass. -/
def fusionMatches (g : LazyGraph τ) : List FusionMatch :=
  let opSequence := g.pendingOps.map Prod.snd
  (findAllFusions builtinPatterns opSequence opSequence.length).getD []

/-- The pairs of a pass. -/
def fusionPairs (g : LazyGraph τ) : List FusionPair :=
  matchPairs (g.pendingOps.map Prod.fst) g.nextId (fusionMatches g)

variable {nodeOrder : List LazyNodeId} {pr : FusionPair} {next : LazyNodeId}

theorem matchPair_fused {m : FusionMatch}
    (h : matchPair nodeOrder next m = some pr) : pr.fused = next := by
  unfold matchPair at h
  by_cases hlen : m.length < 2
  · simp [hlen] at h
  · rw [if_neg hlen] at h
    split at h
    · split_ifs at h <;> exact (Option.some.inj h) ▸ rfl
    · cases h

/-- The rewrite of a match is the rewrite of its pair. -/
theorem applyMatch_eq (nodeOrder : List LazyNodeId) (g : LazyGraph τ) (count : ℕ)
    (m : FusionMatch) :
    applyMatch nodeOrder (g, count) m =
      match matchPair nodeOrder g.nextId m with
      | some pr => (fusePair g pr, count + 1)
      | none => (g, count) := by
  unfold applyMatch matchPair
  by_cases hlen : m.length < 2
  · simp [hlen]
  · simp only [hlen, if_false]
    generalize (nodeOrder.drop m.startIndex).take m.length = ids
    rcases ids with _ | ⟨first, _ | ⟨second, _ | ⟨third, rest⟩⟩⟩
    · rfl
    · rfl
    · simp only
      split_ifs <;> rfl
    · rfl

theorem foldl_applyMatch (nodeOrder : List LazyNodeId) :
    ∀ (ms : List FusionMatch) (g : LazyGraph τ) (count : ℕ),
      ms.foldl (applyMatch nodeOrder) (g, count) =
        ((matchPairs nodeOrder g.nextId ms).foldl fusePair g,
          count + (matchPairs nodeOrder g.nextId ms).length) := by
  intro ms
  induction ms with
  | nil => intro g count; rfl
  | cons m ms ih =>
    intro g count
    rw [foldl_cons, applyMatch_eq, matchPairs]
    cases hpair : matchPair nodeOrder g.nextId m with
    | none => exact ih g count
    | some pr =>
      simp only [foldl_cons, length_cons]
      rw [ih]
      have hnext : (fusePair g pr).nextId = g.nextId + 1 := rfl
      rw [hnext]
      congr 1
      omega

/-- **The pass rewrites its pairs.** -/
theorem optimizeFusions_eq (g : LazyGraph τ) :
    g.optimizeFusions = ((fusionPairs g).foldl fusePair g, (fusionPairs g).length) := by
  unfold optimizeFusions fusionPairs fusionMatches
  by_cases hpending : g.pendingOps = []
  · simp only [hpending, if_true]
    rfl
  · simp only [hpending, if_false]
    rw [foldl_applyMatch, Nat.zero_add]

/-! ### Where the pairs stand -/

open FusionPair

section Pairs

variable {g : LazyGraph τ}

theorem mem_pendingOps {id : LazyNodeId} {op : OpType} : (id, op) ∈ g.pendingOps ↔
    ∃ n ∈ g.nodes, n.status = .Pending ∧ n.id = id ∧ n.opType = op := by
  unfold pendingOps
  rw [mem_insertionSort, mem_map]
  simp only [mem_filter, decide_eq_true_eq, Prod.mk.injEq]
  constructor
  · rintro ⟨n, ⟨hn, hpending⟩, hid, hop⟩
    exact ⟨n, hn, hpending, hid, hop⟩
  · rintro ⟨n, hn, hpending, hid, hop⟩
    exact ⟨n, ⟨hn, hpending⟩, hid, hop⟩

/-- The pending ids are strictly increasing. -/
theorem pendingOps_sorted (hg : g.Keys) : (g.pendingOps.map Prod.fst).Pairwise (· < ·) := by
  have htotal : Std.Total (fun a b : LazyNodeId × OpType => a.1 ≤ b.1) :=
    ⟨fun a b => Nat.le_total a.1 b.1⟩
  have htrans : IsTrans (LazyNodeId × OpType) (fun a b => a.1 ≤ b.1) :=
    ⟨fun a b c hab hbc => Nat.le_trans hab hbc⟩
  have hsorted : (g.pendingOps.map Prod.fst).Pairwise (· ≤ ·) := by
    rw [pairwise_map]
    exact pairwise_insertionSort _ _
  have hnodup : (g.pendingOps.map Prod.fst).Nodup := by
    unfold pendingOps
    rw [((perm_insertionSort _ _).map Prod.fst).nodup_iff, map_map]
    exact hg.distinct.sublist (filter_sublist.map LazyNode.id)
  refine (hsorted.and hnodup).imp ?_
  rintro a b ⟨hle, hne⟩
  exact lt_of_le_of_ne hle hne

namespace FusionKind

/-- The name under which the pattern is registered. -/
def fusedName : FusionKind → String
  | residualNorm => "FusedResidualRMSNorm"
  | swiGLU => "FusedSwiGLU"

/-- The built-in pattern of that name. -/
theorem sequence_eq (kind : FusionKind) : ∀ p ∈ builtinPatterns, p.fusedName = kind.fusedName →
    p.sequence = [kind.firstOp, kind.secondOp] := by
  cases kind <;> decide

end FusionKind

theorem matchPair_spec {m : FusionMatch}
    (h : matchPair nodeOrder next m = some pr) :
    m.pattern.fusedName = pr.kind.fusedName ∧ nodeOrder[m.startIndex]? = some pr.first ∧
      nodeOrder[m.startIndex + 1]? = some pr.second := by
  unfold matchPair at h
  by_cases hlen : m.length < 2
  · simp [hlen] at h
  · rw [if_neg hlen] at h
    split at h
    · rename_i first second hids
      have hget : ∀ i, i < 2 → nodeOrder[m.startIndex + i]? = [first, second][i]? := by
        intro i hi
        rw [← hids, getElem?_take_of_lt (by omega), getElem?_drop]
      have hfirst : nodeOrder[m.startIndex]? = some first := hget 0 (by omega)
      have hsecond : nodeOrder[m.startIndex + 1]? = some second := hget 1 (by omega)
      split_ifs at h with hname hname'
      · obtain rfl := Option.some.inj h
        exact ⟨hname, hfirst, hsecond⟩
      · obtain rfl := Option.some.inj h
        exact ⟨hname', hfirst, hsecond⟩
    · cases h

theorem mem_matchPairs :
    ∀ {ms : List FusionMatch} {next : LazyNodeId}, pr ∈ matchPairs nodeOrder next ms →
      ∃ m ∈ ms, ∃ n, matchPair nodeOrder n m = some pr := by
  intro ms
  induction ms with
  | nil => intro next h; cases h
  | cons m ms ih =>
    intro next h
    rw [matchPairs] at h
    cases hpair : matchPair nodeOrder next m with
    | none =>
      rw [hpair] at h
      obtain ⟨m', hm', hn⟩ := ih h
      exact ⟨m', mem_cons_of_mem _ hm', hn⟩
    | some pr' =>
      rw [hpair] at h
      rcases mem_cons.mp h with rfl | h
      · exact ⟨m, mem_cons_self, next, hpair⟩
      · obtain ⟨m', hm', hn⟩ := ih h
        exact ⟨m', mem_cons_of_mem _ hm', hn⟩

/-- The fused ids are given out one after the other. -/
theorem matchPairs_numbered (nodeOrder : List LazyNodeId) :
    ∀ (ms : List FusionMatch) (next : LazyNodeId),
      (matchPairs nodeOrder next ms).map fused =
        range' next (matchPairs nodeOrder next ms).length := by
  intro ms
  induction ms with
  | nil => intro next; rfl
  | cons m ms ih =>
    intro next
    rw [matchPairs]
    cases hpair : matchPair nodeOrder next m with
    | none => exact ih next
    | some pr =>
      simp only [map_cons, length_cons, range'_succ]
      rw [ih, matchPair_fused hpair]

/-- The nodes of a pair are pending operations of its pattern, the first with the smaller id. -/
structure FusionPair.Fits (pr : FusionPair) (g : LazyGraph τ) : Prop where
  first_mem : g.find pr.first = some (pr.firstNode g)
  second_mem : g.find pr.second = some (pr.secondNode g)
  firstOp : (pr.firstNode g).opType = pr.kind.firstOp
  secondOp : (pr.secondNode g).opType = pr.kind.secondOp
  first_pending : (pr.firstNode g).status = .Pending
  second_pending : (pr.secondNode g).status = .Pending
  lt : pr.first < pr.second

/-- What stands in the pending operations at a position. -/
theorem pending_at (hg : g.Keys) {i : ℕ} {id : LazyNodeId} {op : OpType}
    (hid : (g.pendingOps.map Prod.fst)[i]? = some id)
    (hop : (g.pendingOps.map Prod.snd)[i]? = some op) :
    ∃ n, g.find id = some n ∧ n.opType = op ∧ n.status = .Pending := by
  rw [getElem?_map, Option.map_eq_some_iff] at hid hop
  obtain ⟨⟨id', op'⟩, hat, rfl⟩ := hid
  obtain ⟨x, hat', rfl⟩ := hop
  obtain rfl : (id', op') = x := Option.some.inj (hat.symm.trans hat')
  obtain ⟨n, hn, hpending, rfl, hop⟩ := mem_pendingOps.mp (mem_of_getElem? hat)
  exact ⟨n, hg.find_of_mem hn, hop, hpending⟩

theorem getElem?_lt {l : List LazyNodeId} (hl : l.Pairwise (· < ·)) {i j : ℕ} {a b : LazyNodeId}
    (hij : i < j) (ha : l[i]? = some a) (hb : l[j]? = some b) : a < b := by
  obtain ⟨hi, rfl⟩ := List.getElem?_eq_some_iff.mp ha
  obtain ⟨hj, rfl⟩ := List.getElem?_eq_some_iff.mp hb
  exact pairwise_iff_getElem.mp hl i j hi hj hij

/-- The matches of a pass are valid and do not overlap. -/
theorem fusionMatches_spec (g : LazyGraph τ) :
    (∀ m ∈ fusionMatches g, m.Valid builtinPatterns (g.pendingOps.map Prod.snd)) ∧
      (fusionMatches g).Pairwise fun m m' => m.startIndex + m.length ≤ m'.startIndex := by
  let ops := g.pendingOps.map Prod.snd
  have hends : (findAllFusions builtinPatterns ops ops.length).isSome :=
    findAllFusions_isSome builtinPatterns_ne_nil
  obtain ⟨ms, hms⟩ := Option.isSome_iff_exists.mp hends
  have heq : fusionMatches g = ms := by
    show (findAllFusions builtinPatterns _ _).getD [] = ms
    rw [hms]
    rfl
  rw [heq]
  exact findAllFusions_spec hms

/-- The pair of a valid match. -/
theorem Valid.fits (hg : g.Keys) {m : FusionMatch}
    (hm : m.Valid builtinPatterns (g.pendingOps.map Prod.snd))
    (hpair : matchPair (g.pendingOps.map Prod.fst) next m = some pr) :
    m.length = 2 ∧ pr.Fits g := by
  obtain ⟨hname, hfirst, hsecond⟩ := matchPair_spec hpair
  have hseq := pr.kind.sequence_eq _ hm.registered hname
  have hlen : m.length = 2 := by rw [hm.length_eq, hseq]; rfl
  have hop₁ := hm.ops_eq 0 (by omega)
  have hop₂ := hm.ops_eq 1 (by omega)
  rw [hseq] at hop₁ hop₂
  obtain ⟨p, hp, hpop, hpend⟩ := pending_at hg hfirst hop₁
  obtain ⟨q, hq, hqop, hqend⟩ := pending_at hg hsecond hop₂
  have hp' : pr.firstNode g = p := by unfold firstNode; rw [hp]; rfl
  have hq' : pr.secondNode g = q := by unfold secondNode; rw [hq]; rfl
  refine ⟨hlen, by rw [hp', hp], by rw [hq', hq], by rw [hp', hpop], by rw [hq', hqop],
    by rw [hp', hpend], by rw [hq', hqend], ?_⟩
  exact getElem?_lt (pendingOps_sorted hg) (Nat.lt_succ_self _) hfirst hsecond

theorem fusionPairs_fits (hg : g.Keys) : ∀ pr ∈ fusionPairs g, pr.Fits g := by
  intro pr hpr
  obtain ⟨m, hm, n, hpair⟩ := mem_matchPairs hpr
  exact (Valid.fits hg ((fusionMatches_spec g).1 m hm) hpair).2

/-- The pairs are in the order of their ids, without overlap. -/
theorem fusionPairs_sorted (hg : g.Keys) :
    (fusionPairs g).Pairwise fun a b => a.second < b.first := by
  obtain ⟨hvalid, hpair⟩ := fusionMatches_spec g
  unfold fusionPairs
  generalize g.nextId = next
  generalize fusionMatches g = ms at hvalid hpair ⊢
  induction ms generalizing next with
  | nil => exact Pairwise.nil
  | cons m ms ih =>
    obtain ⟨hhead, htail⟩ := pairwise_cons.mp hpair
    have hvalid' : ∀ m' ∈ ms, m'.Valid builtinPatterns (g.pendingOps.map Prod.snd) :=
      fun m' hm' => hvalid m' (mem_cons_of_mem _ hm')
    rw [matchPairs]
    cases hm : matchPair (g.pendingOps.map Prod.fst) next m with
    | none => exact ih next hvalid' htail
    | some pr =>
      refine pairwise_cons.mpr ⟨fun pr' hpr' => ?_, ih (next + 1) hvalid' htail⟩
      obtain ⟨m', hm', n, hpair'⟩ := mem_matchPairs hpr'
      have hlen := (Valid.fits hg (hvalid m mem_cons_self) hm).1
      have hstart := hhead m' hm'
      exact getElem?_lt (pendingOps_sorted hg) (by omega) (matchPair_spec hm).2.2
        (matchPair_spec hpair').2.1

end Pairs

/-! ### The result as a substitution -/

/-- Where a reader of `k` reads after the pairs have been rewritten. -/
def renamed (pairs : List FusionPair) (k : LazyNodeId) : LazyNodeId :=
  ((pairs.find? fun pr => pr.second = k).map FusionPair.fused).getD k

/-- A node whose inputs are renamed. -/
def renameInputs (pairs : List FusionPair) (n : LazyNode τ) : LazyNode τ :=
  { n with inputs := n.inputs.map (renamed pairs) }

/-- A node that the pairs leave in the graph. -/
def Kept (pairs : List FusionPair) (n : LazyNode τ) : Prop :=
  ∀ pr ∈ pairs, n.id ≠ pr.first ∧ n.id ≠ pr.second

instance (pairs : List FusionPair) (n : LazyNode τ) : Decidable (Kept pairs n) :=
  inferInstanceAs (Decidable (∀ pr ∈ pairs, _))

/-- Pairs that can be rewritten one after the other as if at once. -/
structure Fusable (g : LazyGraph τ) (pairs : List FusionPair) : Prop where
  fits : ∀ pr ∈ pairs, pr.Fits g
  sorted : pairs.Pairwise fun a b => a.second < b.first
  numbered : pairs.map FusionPair.fused = List.range' g.nextId pairs.length
  /-- The first node has an input. -/
  nonempty : ∀ pr ∈ pairs, (pr.firstNode g).inputs ≠ []
  /-- The fused node does not read the node that it replaces. -/
  acyclic : ∀ pr ∈ pairs, pr.second ∉ (pr.node g).inputs

section Substitution

variable {g : LazyGraph τ} {pairs : List FusionPair} {pr : FusionPair} {k : LazyNodeId}

@[simp] theorem build_id (pr : FusionPair) (p q : LazyNode τ) : (pr.build p q).id = pr.fused := by
  unfold build
  cases pr.kind <;> rfl

theorem renamed_of_not_mem (h : ∀ pr ∈ pairs, pr.second ≠ k) : renamed pairs k = k := by
  unfold renamed
  rw [find?_eq_none.mpr (by simpa using h)]
  rfl

/-- The second nodes of the pairs are distinct. -/
theorem Fusable.second_inj (h : Fusable g pairs) {a b : FusionPair} (ha : a ∈ pairs)
    (hb : b ∈ pairs) (hab : a.second = b.second) : a = b := by
  have hnodup : (pairs.map second).Nodup := by
    unfold Nodup
    rw [pairwise_map]
    refine h.sorted.imp_of_mem fun {x y} _ hy hlt => ?_
    exact (hlt.trans (h.fits y hy).lt).ne
  exact inj_on_of_nodup_map hnodup ha hb hab

theorem Fusable.renamed_second (h : Fusable g pairs) (hpr : pr ∈ pairs) :
    renamed pairs pr.second = pr.fused := by
  unfold renamed
  cases hfind : pairs.find? fun x => decide (x.second = pr.second) with
  | none =>
    have := find?_eq_none.mp hfind pr hpr
    simp at this
  | some x =>
    have hx : x.second = pr.second := by simpa using find?_some hfind
    rw [h.second_inj (mem_of_find?_eq_some hfind) hpr hx]
    rfl

/-- A first node is no pair's second node. -/
theorem Fusable.first_ne_second (h : Fusable g pairs) {a b : FusionPair} (ha : a ∈ pairs)
    (hb : b ∈ pairs) : a.first ≠ b.second := by
  have hfits := fun x hx => (h.fits x hx).lt
  by_cases hab : a = b
  · exact hab ▸ (hfits a ha).ne
  · intro heq
    obtain ⟨i, hi, rfl⟩ := mem_iff_getElem.mp ha
    obtain ⟨j, hj, rfl⟩ := mem_iff_getElem.mp hb
    have hi' := hfits _ ha
    have hj' := hfits _ hb
    rcases Nat.lt_trichotomy i j with hij | rfl | hij
    · have := pairwise_iff_getElem.mp h.sorted i j hi hj hij
      exact absurd heq (hi'.trans (this.trans hj')).ne
    · exact hab rfl
    · have := pairwise_iff_getElem.mp h.sorted j i hj hi hij
      exact absurd heq this.ne'

theorem Fusable.le_fused (h : Fusable g pairs) (hpr : pr ∈ pairs) : g.nextId ≤ pr.fused := by
  have hmem : pr.fused ∈ pairs.map fused := mem_map_of_mem hpr
  rw [h.numbered, mem_range'_1] at hmem
  exact hmem.1

theorem Fusable.first_lt (h : Fusable g pairs) (hg : g.Keys) (hpr : pr ∈ pairs) :
    pr.first < g.nextId :=
  hg.lt_of_isSome (by rw [(h.fits pr hpr).first_mem]; rfl)

theorem Fusable.second_lt (h : Fusable g pairs) (hg : g.Keys) (hpr : pr ∈ pairs) :
    pr.second < g.nextId :=
  hg.lt_of_isSome (by rw [(h.fits pr hpr).second_mem]; rfl)

/-- A renamed id is the fused id of its pair, or unchanged. -/
theorem renamed_cases (pairs : List FusionPair) (k : LazyNodeId) :
    (∃ pr ∈ pairs, pr.second = k ∧ renamed pairs k = pr.fused) ∨
      (∀ pr ∈ pairs, pr.second ≠ k) ∧ renamed pairs k = k := by
  unfold renamed
  cases hfind : pairs.find? fun x => decide (x.second = k) with
  | none =>
    refine .inr ⟨fun pr hpr => ?_, rfl⟩
    simpa using find?_eq_none.mp hfind pr hpr
  | some x =>
    exact .inl ⟨x, mem_of_find?_eq_some hfind, by simpa using find?_some hfind, rfl⟩

/-- Some of the pairs, from the first on. -/
theorem Fusable.of_append {rest : List FusionPair} (h : Fusable g (pairs ++ rest)) :
    Fusable g pairs where
  fits a ha := h.fits a (mem_append_left _ ha)
  sorted := (pairwise_append.mp h.sorted).1
  numbered := by
    have hall := h.numbered
    rw [map_append, length_append, ← range'_append_1] at hall
    exact (append_inj hall (by simp)).1
  nonempty a ha := h.nonempty a (mem_append_left _ ha)
  acyclic a ha := h.acyclic a (mem_append_left _ ha)

theorem Fusable.fused_last (h : Fusable g (pairs ++ [pr])) :
    pr.fused = g.nextId + pairs.length := by
  have hlast := congrArg getLast? h.numbered
  rw [map_append, length_append, length_singleton, range'_concat] at hlast
  simpa using hlast

/-- The rewrite of one more pair renames one more id. -/
theorem renamed_append (h : Fusable g (pairs ++ [pr])) (hg : g.Keys) (k : LazyNodeId) :
    (if renamed pairs k = pr.second then pr.fused else renamed pairs k)
      = renamed (pairs ++ [pr]) k := by
  have hlast : pr ∈ pairs ++ [pr] := mem_append_right _ (mem_singleton_self pr)
  rcases renamed_cases pairs k with ⟨a, ha, rfl, hk⟩ | ⟨hnot, hk⟩
  · have ha' : a ∈ pairs ++ [pr] := mem_append_left _ ha
    have hle := h.le_fused ha'
    have hlt := h.second_lt hg hlast
    rw [hk, if_neg (lt_of_lt_of_le hlt hle).ne', h.renamed_second ha']
  · rw [hk]
    split_ifs with hsecond
    · rw [hsecond, h.renamed_second hlast]
    · refine (renamed_of_not_mem fun a ha => ?_).symm
      rcases mem_append.mp ha with ha | ha
      · exact hnot a ha
      · rw [mem_singleton.mp ha]
        exact Ne.symm hsecond

/-- Building the fused node commutes with the renaming. -/
theorem build_rename (h : Fusable g (pairs ++ [pr])) (hg : g.Keys) :
    pr.build (renameInputs pairs (pr.firstNode g)) (renameInputs pairs (pr.secondNode g))
      = renameInputs pairs (pr.node g) := by
  have hlast : pr ∈ pairs ++ [pr] := mem_append_right _ (mem_singleton_self pr)
  -- only the first node itself is renamed to the first node
  have hfirst : ∀ k, renamed pairs k = pr.first ↔ k = pr.first := by
    intro k
    have hlt := h.first_lt hg hlast
    rcases renamed_cases pairs k with ⟨a, ha, rfl, hk⟩ | ⟨hnot, hk⟩
    · have hle := h.le_fused (mem_append_left _ ha)
      have hne := h.first_ne_second hlast (mem_append_left _ ha)
      rw [hk]
      exact iff_of_false (lt_of_lt_of_le hlt hle).ne' (Ne.symm hne)
    · rw [hk]
  unfold node build
  cases pr.kind with
  | residualNorm =>
    simp only [fusedResidualRMSNorm, renameInputs, map_append, getElem?_map]
    cases (pr.secondNode g).inputs[1]? <;> rfl
  | swiGLU =>
    simp only [fusedSwiGLU, renameInputs, map_cons, filter_map]
    congr 2
    · obtain ⟨k, ks, hks⟩ := exists_cons_of_ne_nil (h.nonempty pr hlast)
      rw [hks]
      rfl
    · congr 1
      refine filter_congr fun k _ => ?_
      simp only [Function.comp_apply, ne_eq, hfirst]

/-- One more remapping is one more renaming. -/
theorem remap_rename (h : Fusable g (pairs ++ [pr])) (hg : g.Keys) (n : LazyNode τ) :
    remapInputs pr.second pr.fused (renameInputs pairs n) = renameInputs (pairs ++ [pr]) n := by
  unfold remapInputs renameInputs
  congr 1
  rw [map_map]
  exact map_congr_left fun k _ => renamed_append h hg k

/-- The new fused node reads nothing that its own rewrite renames. -/
theorem rename_node_last (h : Fusable g (pairs ++ [pr])) (hg : g.Keys) :
    renameInputs pairs (pr.node g) = renameInputs (pairs ++ [pr]) (pr.node g) := by
  have hlast : pr ∈ pairs ++ [pr] := mem_append_right _ (mem_singleton_self pr)
  unfold renameInputs
  congr 1
  refine map_congr_left fun k hk => ?_
  rw [← renamed_append h hg k, if_neg]
  rcases renamed_cases pairs k with ⟨a, ha, rfl, hk'⟩ | ⟨-, hk'⟩
  · rw [hk']
    exact (lt_of_lt_of_le (h.second_lt hg hlast) (h.le_fused (mem_append_left _ ha))).ne'
  · rw [hk']
    rintro rfl
    exact h.acyclic pr hlast hk

theorem kept_append {n : LazyNode τ} :
    Kept (pairs ++ [pr]) n ↔ Kept pairs n ∧ n.id ≠ pr.first ∧ n.id ≠ pr.second := by
  unfold Kept
  constructor
  · intro h
    exact ⟨fun a ha => h a (mem_append_left _ ha),
      h pr (mem_append_right _ (mem_singleton_self pr))⟩
  · rintro ⟨h, hpr⟩ a ha
    rcases mem_append.mp ha with ha | ha
    · exact h a ha
    · rw [mem_singleton.mp ha]
      exact hpr

/-- The nodes of a later pair are still there. -/
theorem Fusable.kept_last (h : Fusable g (pairs ++ [pr])) :
    Kept pairs (pr.firstNode g) ∧ Kept pairs (pr.secondNode g) := by
  have hlast : pr ∈ pairs ++ [pr] := mem_append_right _ (mem_singleton_self pr)
  have hfits := h.fits pr hlast
  have hlt := hfits.lt
  have hafter : ∀ a ∈ pairs, a.first < a.second ∧ a.second < pr.first := by
    intro a ha
    refine ⟨(h.fits a (mem_append_left _ ha)).lt, ?_⟩
    exact (pairwise_append.mp h.sorted).2.2 a ha pr (mem_singleton_self pr)
  unfold Kept
  rw [find_id hfits.first_mem, find_id hfits.second_mem]
  constructor
  · intro a ha
    obtain ⟨h₁, h₂⟩ := hafter a ha
    exact ⟨(h₁.trans h₂).ne', h₂.ne'⟩
  · intro a ha
    obtain ⟨h₁, h₂⟩ := hafter a ha
    exact ⟨((h₁.trans h₂).trans hlt).ne', (h₂.trans hlt).ne'⟩

/-- The nodes after the rewrite of all pairs. -/
def substituted (g : LazyGraph τ) (pairs : List FusionPair) : List (LazyNode τ) :=
  (pairs.map fun pr => renameInputs pairs (pr.node g)).reverse ++
    (g.nodes.filter fun n => Kept pairs n).map (renameInputs pairs)

theorem mem_substituted {n : LazyNode τ} : n ∈ substituted g pairs ↔
    (∃ pr ∈ pairs, n = renameInputs pairs (pr.node g)) ∨
      ∃ m ∈ g.nodes, Kept pairs m ∧ n = renameInputs pairs m := by
  unfold substituted
  simp only [mem_append, mem_reverse, mem_map, mem_filter, decide_eq_true_eq,
    eq_comm (b := n), and_assoc]

/-- One more pair rewritten in a graph that is already a substitution. -/
theorem replacePair_substituted (h : Fusable g (pairs ++ [pr])) (hg : g.Keys) {g' : LazyGraph τ}
    (hg' : g'.Keys) (hnodes : g'.nodes = substituted g pairs) :
    (fusePair g' pr).nodes = substituted g (pairs ++ [pr]) := by
  have hlast : pr ∈ pairs ++ [pr] := mem_append_right _ (mem_singleton_self pr)
  have hfits := h.fits pr hlast
  obtain ⟨hkept₁, hkept₂⟩ := h.kept_last
  -- the two nodes, with the renamings so far
  have hfirst : g'.find pr.first = some (renameInputs pairs (pr.firstNode g)) := by
    refine hg'.find_iff.mpr ⟨?_, (find_id hfits.first_mem :)⟩
    rw [hnodes, mem_substituted]
    exact .inr ⟨_, find_mem hfits.first_mem, hkept₁, rfl⟩
  have hsecond : g'.find pr.second = some (renameInputs pairs (pr.secondNode g)) := by
    refine hg'.find_iff.mpr ⟨?_, (find_id hfits.second_mem :)⟩
    rw [hnodes, mem_substituted]
    exact .inr ⟨_, find_mem hfits.second_mem, hkept₂, rfl⟩
  have hnode : pr.node g' = renameInputs (pairs ++ [pr]) (pr.node g) := by
    rw [← rename_node_last h hg, ← build_rename h hg]
    unfold node firstNode secondNode
    rw [hfirst, hsecond]
    rfl
  -- the other fused nodes stay, and of the old nodes the two go
  have hmap : g'.nodes.map (remapInputs pr.second pr.fused) =
      (pairs.map fun a => renameInputs (pairs ++ [pr]) (a.node g)).reverse ++
        (g.nodes.filter fun n => Kept pairs n).map (renameInputs (pairs ++ [pr])) := by
    rw [hnodes]
    unfold substituted
    rw [map_append, map_reverse, map_map, map_map]
    congr 1
    · congr 1
      exact map_congr_left fun a _ => remap_rename h hg _
    · exact map_congr_left fun n _ => remap_rename h hg n
  have hfresh : ∀ a ∈ pairs, ∀ id, id < g.nextId → a.fused ≠ id := by
    intro a ha id hid
    exact (lt_of_lt_of_le hid (h.le_fused (mem_append_left _ ha))).ne'
  have herase : ∀ id, id < g.nextId →
      (pairs.map fun a => renameInputs (pairs ++ [pr]) (a.node g)).reverse.filter
          (fun n => decide (n.id ≠ id))
        = (pairs.map fun a => renameInputs (pairs ++ [pr]) (a.node g)).reverse := by
    intro id hid
    refine filter_eq_self.mpr fun n hn => ?_
    obtain ⟨a, ha, rfl⟩ := mem_map.mp (mem_reverse.mp hn)
    have hid' : (renameInputs (pairs ++ [pr]) (a.node g)).id = a.fused :=
      build_id a (a.firstNode g) (a.secondNode g)
    rw [decide_eq_true_eq, hid']
    exact hfresh a ha id hid
  have herased : Keyed.erase LazyNode.id (Keyed.erase LazyNode.id
      (g'.nodes.map (remapInputs pr.second pr.fused)) pr.first) pr.second =
        (pairs.map fun a => renameInputs (pairs ++ [pr]) (a.node g)).reverse ++
          (g.nodes.filter fun n => Kept (pairs ++ [pr]) n).map (renameInputs (pairs ++ [pr])) := by
    unfold Keyed.erase
    rw [hmap, filter_append, filter_append, herase _ (h.first_lt hg hlast),
      herase _ (h.second_lt hg hlast)]
    congr 1
    rw [filter_map, filter_map, filter_filter, filter_filter]
    congr 1
    refine filter_congr fun n _ => ?_
    rw [Bool.eq_iff_iff]
    simp only [Bool.and_eq_true, decide_eq_true_iff, Function.comp_apply, kept_append]
    show (n.id ≠ pr.second ∧ n.id ≠ pr.first) ∧ Kept pairs n ↔ _
    tauto
  show Keyed.insert LazyNode.id (Keyed.erase LazyNode.id (Keyed.erase LazyNode.id
    (g'.nodes.map (remapInputs pr.second (pr.node g').id)) pr.first) pr.second) (pr.node g') = _
  have hid : (pr.node g').id = pr.fused := build_id pr _ _
  rw [hid, herased, insert_fresh, hnode]
  · unfold substituted
    rw [map_append, reverse_append, map_singleton, reverse_singleton]
    rfl
  · intro n hn
    rw [hid]
    rcases mem_append.mp hn with hn | hn
    · obtain ⟨a, ha, rfl⟩ := mem_map.mp (mem_reverse.mp hn)
      have hid' : (renameInputs (pairs ++ [pr]) (a.node g)).id = a.fused :=
        build_id a (a.firstNode g) (a.secondNode g)
      rw [hid', h.fused_last]
      obtain ⟨i, hi, rfl⟩ := mem_iff_getElem.mp ha
      have hnum : (pairs.map fused)[i]? = (range' g.nextId pairs.length)[i]? := by
        rw [h.of_append.numbered]
      rw [getElem?_map, getElem?_eq_getElem hi, Option.map_some, getElem?_range' hi,
        Option.some.injEq] at hnum
      rw [hnum, Nat.one_mul]
      exact (Nat.add_lt_add_left hi g.nextId).ne
    · obtain ⟨m, hm, rfl⟩ := mem_map.mp hn
      have hlt := hg.lt_next m (mem_of_mem_filter hm)
      exact (lt_of_lt_of_le hlt (h.le_fused hlast)).ne

/-- **The pass is one substitution.** -/
theorem foldl_fusePair (hg : g.Keys) : ∀ pairs, Fusable g pairs →
    (pairs.foldl fusePair g).nodes = substituted g pairs ∧ (pairs.foldl fusePair g).Keys ∧
      (pairs.foldl fusePair g).nextId = g.nextId + pairs.length := by
  intro pairs
  induction pairs using reverseRecOn with
  | nil =>
    intro _
    refine ⟨?_, hg, rfl⟩
    have hkept : (g.nodes.filter fun n => decide (Kept [] n)) = g.nodes :=
      filter_eq_self.mpr fun n _ => decide_eq_true fun a ha => nomatch ha
    have hrename : ∀ n : LazyNode τ, renameInputs [] n = n := by
      intro n
      unfold renameInputs
      rw [show renamed [] = id from funext fun k => rfl, map_id]
    unfold substituted
    rw [hkept, map_congr_left fun n _ => hrename n]
    simp
  | append_singleton pairs pr ih =>
    intro h
    obtain ⟨hnodes, hkeys, hnext⟩ := ih h.of_append
    rw [foldl_append, foldl_cons, foldl_nil]
    have hafter := replacePair_substituted h hg hkeys hnodes
    refine ⟨hafter, ⟨?_, ?_⟩, ?_⟩
    · refine Keyed.Distinct.insert (Keyed.Distinct.erase (Keyed.Distinct.erase ?_ _) _) _
      exact hkeys.distinct.map fun n => rfl
    · intro n hn
      have hnext' : (fusePair (pairs.foldl fusePair g) pr).nextId = g.nextId +
          pairs.length + 1 := by
        show (pairs.foldl fusePair g).nextId + 1 = _
        rw [hnext]
      rw [hnext']
      rw [hafter, mem_substituted] at hn
      rcases hn with ⟨a, ha, rfl⟩ | ⟨m, hm, -, rfl⟩
      · have hmem : a.fused ∈ (pairs ++ [pr]).map fused := mem_map_of_mem ha
        rw [h.numbered, mem_range'_1, length_append] at hmem
        have hid : (renameInputs (pairs ++ [pr]) (a.node g)).id = a.fused :=
          build_id a (a.firstNode g) (a.secondNode g)
        rw [hid]
        exact hmem.2
      · have hlt : m.id < g.nextId := hg.lt_next m hm
        exact hlt.trans_le (Nat.le_add_right g.nextId (pairs.length + 1))
    · show (pairs.foldl fusePair g).nextId + 1 = _
      rw [hnext, length_append]
      rfl

end Substitution

end MetalNative
