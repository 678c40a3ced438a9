import MetalNative.Kernels.JITFusion
import MetalNative.Lib.LinkedMap
import MetalNative.Lib.Run

namespace MetalNative

open LinkedMap Run List

/-!
# The cache of fused pipelines

A translation of the second half of `jit_fusion.mm`.  `get_pipeline` holds `mu` until the key is
pending, and then dispatches a block that compiles; the block takes `mu` again for one section, when
the compilation has failed or there is a pipeline.  The members change in these sections only.

* `JITFusionCompiler` — the members of `Impl`; `touchLru`, `evictIfNeeded` are its helpers.
* `getPipeline`, `finish`, `setEnabled`, `invalidateAll` — the sections.
* `JITSystem.step` — a section of a client or of a block, with a record of the requests.
* `jit_cache_invariant` — what holds in every run.
* `invalidated_request_returned` — `invalidate_all` lets the compilations in flight finish.
-/

/-- The pipeline that the compilation of a request has made. -/
structure ComputePipelineState where
  request : ℕ
  deriving DecidableEq, Repr

/-- The members of `JITFusionCompiler::Impl`; `lru` is `lru_list` with `lru_map`, and `device` is
    whether there is one. -/
structure JITFusionCompiler where
  enabled : Bool := true
  cache : List (FusionKey × ComputePipelineState) := []
  lru : LinkedMap FusionKey Unit := {}
  pending : Finset FusionKey := ∅
  device : Bool

/-- How a compilation ends: with an error, without a library, without the kernel's function, without
    a pipeline, or with one. -/
inductive CompileResult where
  | error
  | noLibrary
  | noFunction
  | noPipeline
  | pipeline
  deriving DecidableEq, Repr

namespace JITFusionCompiler

/-- `MAX_CACHE_SIZE`. -/
def MAX_CACHE_SIZE : ℕ := 128

/-- `MAX_PENDING`. -/
def MAX_PENDING : ℕ := 16

/-- `touch_lru`. -/
def touchLru (c : JITFusionCompiler) (key : FusionKey) : JITFusionCompiler :=
  let lru :=
    match c.lru.iterator key with
    | some it => c.lru.eraseNode it
    | none => c.lru
  { c with lru := lru.pushFront key () }

/-- The loop of `evict_if_needed`; the fuel is the number of nodes. -/
def evictLoop : ℕ → JITFusionCompiler → JITFusionCompiler
  | 0, c => c
  | fuel + 1, c =>
    match c.lru.order.getLast? with
    | none => c
    | some old =>
      if c.cache.length ≥ MAX_CACHE_SIZE then
        evictLoop fuel
          { c with cache := Keyed.erase Prod.fst c.cache old.key, lru := c.lru.popBack }
      else c

/-- `evict_if_needed`. -/
def evictIfNeeded (c : JITFusionCompiler) : JITFusionCompiler := evictLoop c.lru.order.length c

/-- The section of `get_pipeline`: what it returns, and whether it goes on to compile. -/
def getPipeline (c : JITFusionCompiler) (key : FusionKey) :
    Option ComputePipelineState × Bool × JITFusionCompiler :=
  if c.enabled = false then (none, false, c)
  else if c.device = false then (none, false, c)
  else
    match Keyed.find Prod.fst c.cache key with
    | some (_, pipeline) => (some pipeline, false, c.touchLru key)
    | none =>
      if key ∈ c.pending then (none, false, c)
      else if c.pending.card ≥ MAX_PENDING then (none, false, c)
      else (none, true, { c with pending := insert key c.pending })

/-- The section of a block whose compilation has ended. -/
def finish (c : JITFusionCompiler) (key : FusionKey) (request : ℕ) :
    CompileResult → JITFusionCompiler
  | .pipeline =>
    let c := c.evictIfNeeded
    let c := { c with cache := Keyed.insert Prod.fst c.cache (key, ⟨request⟩) }
    let c := c.touchLru key
    { c with pending := c.pending.erase key }
  | .error | .noLibrary | .noFunction | .noPipeline => { c with pending := c.pending.erase key }

/-- `set_enabled`. -/
def setEnabled (c : JITFusionCompiler) (enable : Bool) : JITFusionCompiler :=
  { c with enabled := enable }

/-- `invalidate_all`; the compilations in flight stay pending. -/
def invalidateAll (c : JITFusionCompiler) : JITFusionCompiler :=
  { c with cache := [], lru := c.lru.clear }

end JITFusionCompiler

/-! ### Clients and blocks -/

/-- A block that has been dispatched and has not finished. -/
structure Compilation where
  key : FusionKey
  request : ℕ
  deriving DecidableEq, Repr

/-- The compiler, the blocks in flight, and the number of requests that have begun to compile; with
    the uses of keys, latest first, the requests whose key has left `pending`, and those that had
    left it, or had begun, at the last `invalidate_all`. -/
structure JITSystem where
  compiler : JITFusionCompiler
  inFlight : List Compilation := []
  requests : ℕ := 0
  uses : List FusionKey := []
  left : List ℕ := []
  finishedBefore : List ℕ := []
  begunBefore : ℕ := 0

/-- A section of a client, or the end of the `i`-th compilation in flight. -/
inductive JITAction where
  | getPipeline (key : FusionKey)
  | setEnabled (enable : Bool)
  | invalidateAll
  | finish (i : ℕ) (result : CompileResult)
  deriving DecidableEq, Repr

namespace JITSystem

/-- Nothing is cached, and nothing in flight. -/
def init (device : Bool) : JITSystem := { compiler := { device } }

/-- The pipeline that `get_pipeline` returns. -/
def returned (s : JITSystem) (key : FusionKey) : Option ComputePipelineState :=
  (s.compiler.getPipeline key).1

/-- One step. -/
def step (s : JITSystem) : JITAction → Option JITSystem
  | .getPipeline key =>
    let compiles := (s.compiler.getPipeline key).2.1
    some { s with
      compiler := (s.compiler.getPipeline key).2.2
      inFlight := if compiles then s.inFlight ++ [⟨key, s.requests⟩] else s.inFlight
      requests := if compiles then s.requests + 1 else s.requests
      uses := if (s.returned key).isSome then key :: s.uses else s.uses }
  | .setEnabled enable => some { s with compiler := s.compiler.setEnabled enable }
  | .invalidateAll =>
    some { s with
      compiler := s.compiler.invalidateAll
      finishedBefore := s.left
      begunBefore := s.requests }
  | .finish i result =>
    s.inFlight[i]?.map fun c =>
      { s with
        compiler := s.compiler.finish c.key c.request result
        inFlight := s.inFlight.eraseIdx i
        uses := if result = .pipeline then c.key :: s.uses else s.uses
        left := c.request :: s.left }

end JITSystem

/-! ### What the helpers do -/

namespace JITFusionCompiler

variable {c : JITFusionCompiler} {key : FusionKey}

/-- The pipelines, the list and the index hold the same keys once each. -/
structure Agree (c : JITFusionCompiler) : Prop where
  coherent : c.lru.Coherent
  distinct : Keyed.Distinct Prod.fst c.cache
  same : (c.cache.map Prod.fst).Perm c.lru.keys

/-- The key comes to the front of the list, or is new there. -/
theorem touchLru_spec (h : c.lru.Coherent) (key : FusionKey) :
    (c.touchLru key).lru.Coherent ∧
      (c.touchLru key).lru.keys = key :: c.lru.keys.filter (· ≠ key) := by
  unfold touchLru
  cases hit : c.lru.iterator key with
  | some it =>
    obtain ⟨n, hn, rfl, rfl⟩ := h.iterator_eq_some.mp hit
    have herase := h.erase n.key
    rw [← h.erase_id hn] at herase
    have hgone : ∀ m ∈ (c.lru.eraseNode n.id).order, m.key ≠ n.key := by
      intro m hm
      have hm' : m ∈ Keyed.erase Node.id c.lru.order n.id := hm
      rw [h.erase_id hn] at hm'
      exact (Keyed.mem_erase.mp hm').2
    have hnew : n.key ∉ ((c.lru.eraseNode n.id).eraseKey n.key).keys := by
      intro hmem
      obtain ⟨m, hm, hk⟩ := mem_map.mp hmem
      exact hgone m hm hk
    constructor
    · simp only
      rw [← pushFront_eraseKey]
      exact herase.pushFront hnew ()
    · simp only [keys_pushFront]
      congr 1
      show (Keyed.erase Node.id c.lru.order n.id).map Node.key = _
      rw [h.erase_id hn, Keyed.map_key_erase]
      rfl
  | none =>
    have hnew := h.iterator_eq_none.mp hit
    refine ⟨h.pushFront hnew (), ?_⟩
    rw [keys_pushFront, filter_eq_self.mpr]
    intro k hk
    simpa using fun heq : k = key => hnew (heq ▸ hk)

/-- The last node of the list goes with its pipeline. -/
theorem Agree.pop (h : Agree c) {old : Node FusionKey Unit}
    (hold : c.lru.order.getLast? = some old) :
    Agree { c with cache := Keyed.erase Prod.fst c.cache old.key, lru := c.lru.popBack } where
  coherent := h.coherent.popBack
  distinct := h.distinct.erase _
  same := by
    have hkeys : c.lru.popBack.keys = c.lru.keys.filter (· ≠ old.key) := by
      unfold LinkedMap.keys
      rw [order_popBack, h.coherent.dropLast_eq hold, Keyed.map_key_erase]
    rw [hkeys, Keyed.map_key_erase]
    exact h.same.filter _

/-- Room is made from the end of the list. -/
theorem evictLoop_spec (h : Agree c) {fuel : ℕ} (hfuel : c.lru.order.length ≤ fuel) :
    Agree (evictLoop fuel c) ∧ (evictLoop fuel c).lru.keys <+: c.lru.keys ∧
      (evictLoop fuel c).cache.Sublist c.cache ∧
      (evictLoop fuel c).cache.length < MAX_CACHE_SIZE ∧
      (evictLoop fuel c).pending = c.pending := by
  have hlen : c.cache.length = c.lru.order.length := by
    have hperm := h.same.length_eq
    simpa [LinkedMap.keys] using hperm
  induction fuel generalizing c with
  | zero =>
    refine ⟨h, prefix_rfl, Sublist.refl _, ?_, rfl⟩
    show c.cache.length < MAX_CACHE_SIZE
    rw [hlen, Nat.le_zero.mp hfuel]
    decide
  | succ fuel ih =>
    unfold evictLoop
    cases hold : c.lru.order.getLast? with
    | none =>
      refine ⟨h, prefix_rfl, Sublist.refl _, ?_, rfl⟩
      show c.cache.length < MAX_CACHE_SIZE
      rw [hlen, getLast?_eq_none_iff.mp hold]
      decide
    | some old =>
      simp only
      split_ifs with hfull
      · have hpop := h.pop hold
        have hpopped : c.lru.popBack.order.length ≤ fuel := by
          rw [length_popBack]
          omega
        have hlen' : (Keyed.erase Prod.fst c.cache old.key).length =
            c.lru.popBack.order.length := by
          have hperm := hpop.same.length_eq
          simpa [LinkedMap.keys] using hperm
        obtain ⟨hagree, hpre, hsub, hroom, hpending⟩ := ih hpop hpopped hlen'
        refine ⟨hagree, hpre.trans ?_, hsub.trans filter_sublist, hroom, hpending⟩
        show c.lru.popBack.order.map Node.key <+: c.lru.order.map Node.key
        rw [order_popBack]
        exact (List.dropLast_prefix _).map _
      · exact ⟨h, prefix_rfl, Sublist.refl _, not_le.mp hfull, rfl⟩

end JITFusionCompiler

/-! ### The invariant -/

open Compilation

namespace JITSystem

open JITFusionCompiler

variable {s s' : JITSystem} {key : FusionKey}

/-- The keys in the order of the list. -/
def keys (s : JITSystem) : List FusionKey := s.compiler.lru.keys

/-- The containers agree and are bounded, the pending keys are those of the compilations in flight,
    each request is in flight or has left `pending` once, and the pipelines are of requests that
    left it since the last `invalidate_all`. -/
structure JITInv (s : JITSystem) : Prop where
  agree : Agree s.compiler
  size : s.compiler.cache.length ≤ JITFusionCompiler.MAX_CACHE_SIZE
  pendingSize : s.compiler.pending.card ≤ MAX_PENDING
  disjoint : ∀ k ∈ s.compiler.pending, k ∉ s.keys
  inFlight : (s.inFlight.map Compilation.key).Nodup
  pending : ∀ k, k ∈ s.compiler.pending ↔ k ∈ s.inFlight.map Compilation.key
  requests : (s.inFlight.map Compilation.request ++ s.left).Perm (List.range s.requests)
  ranked : Ranked s.uses s.keys
  finished : ∀ e ∈ s.compiler.cache, e.2.request ∈ s.left ∧ e.2.request ∉ s.finishedBefore
  finishedBefore : ∀ r ∈ s.finishedBefore, r ∈ s.left

theorem JITInv.init (device : Bool) : JITInv (init device) := by
  refine ⟨⟨.empty, nodup_nil, Perm.nil⟩, Nat.zero_le _, Nat.zero_le _, ?_,
    nodup_nil, ?_, Perm.nil, .nil _, ?_, ?_⟩ <;> simp [JITSystem.init]

/-- What `get_pipeline` does: nothing, a use of a cached key, or a new compilation. -/
theorem getPipeline_cases (c : JITFusionCompiler) (key : FusionKey) :
    c.getPipeline key = (none, false, c) ∨
    (∃ e ∈ c.cache, e.1 = key ∧ c.getPipeline key = (some e.2, false, c.touchLru key)) ∨
    (key ∉ c.cache.map Prod.fst ∧ key ∉ c.pending ∧ c.pending.card < MAX_PENDING ∧
      c.getPipeline key = (none, true, { c with pending := insert key c.pending })) := by
  unfold getPipeline
  by_cases henabled : c.enabled = false
  · exact .inl (if_pos henabled)
  by_cases hdevice : c.device = false
  · rw [if_neg henabled]
    exact .inl (if_pos hdevice)
  rw [if_neg henabled, if_neg hdevice]
  cases hfind : Keyed.find Prod.fst c.cache key with
  | some e =>
    refine .inr (.inl ⟨e, Keyed.find_mem hfind, Keyed.find_key hfind, rfl⟩)
  | none =>
    have hkey : key ∉ c.cache.map Prod.fst := by
      intro hmem
      obtain ⟨e, he, hk⟩ := mem_map.mp hmem
      exact Keyed.find_eq_none.mp hfind e he hk
    simp only
    by_cases hpending : key ∈ c.pending
    · exact .inl (if_pos hpending)
    by_cases hmany : c.pending.card ≥ MAX_PENDING
    · rw [if_neg hpending]
      exact .inl (if_pos hmany)
    · rw [if_neg hpending, if_neg hmany]
      exact .inr (.inr ⟨hkey, hpending, not_le.mp hmany, rfl⟩)

variable {c : JITFusionCompiler}

/-- A key is used that is there. -/
theorem Agree.touch (h : Agree c) (hkey : key ∈ c.cache.map Prod.fst) :
    Agree (c.touchLru key) where
  coherent := (touchLru_spec h.coherent key).1
  distinct := h.distinct
  same := by
    have hmem : key ∈ c.lru.keys := h.same.mem_iff.mp hkey
    have hnodup : c.lru.keys.Nodup := h.coherent.keys
    rw [(touchLru_spec h.coherent key).2]
    have herase : c.lru.keys.filter (· ≠ key) = c.lru.keys.erase key := by
      rw [hnodup.erase_eq_filter]
      refine filter_congr fun k _ => ?_
      by_cases hk : k = key <;> simp [hk]
    rw [herase]
    exact h.same.trans (perm_cons_erase hmem)

theorem JITInv.getPipeline (h : JITInv s) {key : FusionKey}
    (hstep : s.step (.getPipeline key) = some s') : JITInv s' := by
  obtain rfl := Option.some.inj hstep
  rcases getPipeline_cases s.compiler key with
    heq | ⟨e, he, rfl, heq⟩ | ⟨hcached, hpending, hroom, heq⟩
  · simp only [returned, heq]
    exact h
  · simp only [returned, heq]
    have hin : e.1 ∈ s.compiler.cache.map Prod.fst := mem_map_of_mem he
    have hkeys := (touchLru_spec h.agree.coherent e.1).2
    refine ⟨Agree.touch h.agree hin, h.size, h.pendingSize, ?_, h.inFlight, h.pending, h.requests,
      ?_, h.finished, h.finishedBefore⟩
    · intro k hk hmem
      have hmem' : k ∈ e.1 :: s.keys.filter (· ≠ e.1) := hkeys ▸ hmem
      rcases mem_cons.mp hmem' with rfl | hmem'
      · exact h.disjoint _ hk (h.agree.same.mem_iff.mp hin)
      · exact h.disjoint k hk (mem_of_mem_filter hmem')
    · show Ranked (e.1 :: s.uses) (s.compiler.touchLru e.1).lru.keys
      rw [hkeys]
      exact h.ranked.use e.1
  · simp only [returned, heq]
    have hnew : key ∉ s.inFlight.map Compilation.key := fun hmem =>
        hpending ((h.pending key).mpr hmem)
    refine ⟨⟨h.agree.coherent, h.agree.distinct, h.agree.same⟩, h.size, ?_, ?_, ?_, ?_, ?_,
      h.ranked, h.finished, h.finishedBefore⟩
    · show (insert key s.compiler.pending).card ≤ MAX_PENDING
      rw [Finset.card_insert_of_notMem hpending]
      exact hroom
    · intro k hk
      rcases Finset.mem_insert.mp hk with rfl | hk
      · exact fun hmem => hcached (h.agree.same.mem_iff.mpr hmem)
      · exact h.disjoint k hk
    · simp only [if_true, map_append, map_cons, map_nil]
      exact nodup_append.mpr ⟨h.inFlight, by simp, by simpa using hnew⟩
    · intro k
      simp [Finset.mem_insert, h.pending k, or_comm]
    · -- the new request has the next number
      simp only [if_true, map_append, map_cons, map_nil, range_succ]
      have hperm := h.requests.append_right [s.requests]
      refine Perm.trans ?_ hperm
      rw [append_assoc, append_assoc]
      exact (perm_append_comm).append_left _

/-- Each end of a compilation takes its key out of `pending`. -/
theorem finish_pending (h : Agree c) (key : FusionKey) (request : ℕ)
    (result : CompileResult) : (c.finish key request result).pending = c.pending.erase key := by
  cases result with
  | error | noLibrary | noFunction | noPipeline => rfl
  | pipeline =>
    show (evictIfNeeded c).pending.erase key = _
    rw [evictIfNeeded, (evictLoop_spec h (le_refl _)).2.2.2.2]

/-- A pipeline comes in front of the ones that are kept. -/
theorem finish_pipeline (h : Agree c) (hkey : key ∉ c.lru.keys)
    (request : ℕ) :
    Agree (c.finish key request .pipeline) ∧
      (c.finish key request .pipeline).cache.length ≤ JITFusionCompiler.MAX_CACHE_SIZE ∧
      (∃ kept, kept <+: c.lru.keys ∧ (c.finish key request .pipeline).lru.keys = key :: kept) ∧
      ∀ e ∈ (c.finish key request .pipeline).cache, e = (key, ⟨request⟩) ∨ e ∈ c.cache := by
  obtain ⟨hagree, hpre, hsub, hroom, -⟩ := evictLoop_spec h (le_refl c.lru.order.length)
  have hnew : key ∉ (evictIfNeeded c).lru.keys := fun hmem => hkey (hpre.subset hmem)
  obtain ⟨hco, hkeys⟩ := touchLru_spec hagree.coherent key
  have hkept : (evictIfNeeded c).lru.keys.filter (· ≠ key) = (evictIfNeeded c).lru.keys := by
    refine filter_eq_self.mpr fun k hk => ?_
    simpa using fun heq : k = key => hnew (heq ▸ hk)
  have hcache : Keyed.insert Prod.fst (evictIfNeeded c).cache (key, ⟨request⟩)
      = (key, ⟨request⟩) :: (evictIfNeeded c).cache := by
    unfold Keyed.insert
    rw [Keyed.erase_eq_self]
    refine Keyed.find_eq_none.mpr fun e he hk => hnew ?_
    have hk' : e.1 = key := hk
    exact hagree.same.mem_iff.mp (hk' ▸ mem_map_of_mem he)
  have hlist : (c.finish key request .pipeline).lru.keys = key :: (evictIfNeeded c).lru.keys :=
    hkeys.trans (congrArg (key :: ·) hkept)
  have hmap : (c.finish key request .pipeline).cache =
      (key, ⟨request⟩) :: (evictIfNeeded c).cache :=
    hcache
  refine ⟨⟨hco, ?_, ?_⟩, ?_, ⟨_, hpre, hlist⟩, ?_⟩
  · exact hagree.distinct.insert _
  · rw [hlist, hmap, map_cons]
    exact hagree.same.cons _
  · rw [hmap, length_cons]
    exact hroom
  · intro e he
    rw [hmap] at he
    exact (mem_cons.mp he).imp_right fun he => hsub.subset he

theorem JITInv.finish (h : JITInv s) {i : ℕ} {result : CompileResult}
    (hstep : s.step (.finish i result) = some s') : JITInv s' := by
  obtain ⟨c, hc, rfl⟩ := Option.map_eq_some_iff.mp hstep
  have hmem : c ∈ s.inFlight := mem_of_getElem? hc
  have hperm : s.inFlight.Perm (c :: s.inFlight.eraseIdx i) := by
    obtain ⟨hi, rfl⟩ := List.getElem?_eq_some_iff.mp hc
    exact (getElem_cons_eraseIdx_perm hi).symm
  have hnodup : c.key ∉ (s.inFlight.eraseIdx i).map key ∧
      ((s.inFlight.eraseIdx i).map key).Nodup := by
    have hcons := (hperm.map key).nodup_iff.mp h.inFlight
    exact nodup_cons.mp hcons
  have hpendingEq := finish_pending h.agree c.key c.request result
  -- the key was pending, so it was not cached
  have hout : c.key ∉ s.keys :=
    h.disjoint c.key ((h.pending c.key).mpr (mem_map_of_mem hmem))
  have hfresh : c.request ∉ s.left := by
    have hall := h.requests.nodup_iff.mpr nodup_range
    rw [nodup_append] at hall
    exact fun hleft => hall.2.2 c.request (mem_map_of_mem hmem) c.request hleft rfl
  have hleft : ((s.inFlight.eraseIdx i).map request ++ c.request :: s.left).Perm
      (range s.requests) := by
    refine Perm.trans ?_ h.requests
    refine perm_middle.trans ?_
    exact ((hperm.map request).append_right s.left).symm
  have hpending : ∀ k, k ∈ (s.compiler.finish c.key c.request result).pending ↔
      k ∈ (s.inFlight.eraseIdx i).map key := by
    intro k
    have hiff := (hperm.map key).mem_iff (a := k)
    rw [map_cons, mem_cons] at hiff
    rw [hpendingEq, Finset.mem_erase, h.pending k, hiff]
    constructor
    · rintro ⟨hne, rfl | hk⟩
      · exact absurd rfl hne
      · exact hk
    · intro hk
      exact ⟨fun heq => hnodup.1 (heq ▸ hk), .inr hk⟩
  have hcard : (s.compiler.finish c.key c.request result).pending.card ≤ MAX_PENDING := by
    rw [hpendingEq]
    exact (Finset.card_erase_le).trans h.pendingSize
  have hbefore : ∀ r ∈ s.finishedBefore, r ∈ c.request :: s.left :=
    fun r hr => mem_cons_of_mem _ (h.finishedBefore r hr)
  have hkept : ∀ e ∈ s.compiler.cache, e.2.request ∈ c.request :: s.left ∧
      e.2.request ∉ s.finishedBefore :=
    fun e he => ⟨mem_cons_of_mem _ (h.finished e he).1, (h.finished e he).2⟩
  have hdisjoint : ∀ k ∈ (s.compiler.finish c.key c.request result).pending,
      k ≠ c.key ∧ k ∉ s.keys := by
    intro k hk
    rw [hpendingEq, Finset.mem_erase] at hk
    exact ⟨hk.1, h.disjoint k hk.2⟩
  cases result with
  | error | noLibrary | noFunction | noPipeline =>
    exact ⟨⟨h.agree.coherent, h.agree.distinct, h.agree.same⟩, h.size, hcard,
      fun k hk => (hdisjoint k hk).2, hnodup.2, hpending, hleft, h.ranked, hkept, hbefore⟩
  | pipeline =>
    obtain ⟨hagree, hsize, ⟨kept, hpre, hkeys⟩, hcache⟩ := finish_pipeline h.agree hout c.request
    refine ⟨hagree, hsize, hcard, fun k hk hmem => ?_, hnodup.2, hpending, hleft, ?_, ?_, hbefore⟩
    · have hmem' : k ∈ c.key :: kept := hkeys ▸ hmem
      rcases mem_cons.mp hmem' with rfl | hmem'
      · exact (hdisjoint _ hk).1 rfl
      · exact (hdisjoint k hk).2 (hpre.subset hmem')
    · show Ranked (c.key :: s.uses) (s.compiler.finish c.key c.request .pipeline).lru.keys
      rw [hkeys]
      exact (h.ranked.sublist hpre.sublist).push fun hmem => hout (hpre.subset hmem)
    · intro e he
      rcases hcache e he with rfl | he
      · exact ⟨mem_cons_self .., fun hr => hfresh (h.finishedBefore _ hr)⟩
      · exact hkept e he

/-- **One step.** -/
theorem JITInv.step (h : JITInv s) {a : JITAction} (hstep : JITSystem.step s a = some s') :
    JITInv s' := by
  cases a with
  | getPipeline key => exact h.getPipeline hstep
  | finish i result => exact h.finish hstep
  | setEnabled enable =>
    obtain rfl := Option.some.inj hstep
    exact ⟨⟨h.agree.coherent, h.agree.distinct, h.agree.same⟩, h.size, h.pendingSize, h.disjoint,
      h.inFlight, h.pending, h.requests, h.ranked, h.finished, h.finishedBefore⟩
  | invalidateAll =>
    obtain rfl := Option.some.inj hstep
    refine ⟨⟨.clear _, nodup_nil, Perm.nil⟩, Nat.zero_le _, h.pendingSize, ?_,
      h.inFlight, h.pending, h.requests, .nil _, ?_, fun r hr => hr⟩
    · exact fun k _ hmem => absurd hmem not_mem_nil
    · exact fun e he => absurd he not_mem_nil

/-! ### Evictions and results -/

/-- Every key that leaves the list was used before all keys that are in it afterwards. -/
def EvictsOldest (s s' : JITSystem) : Prop :=
  ∀ gone ∈ s.keys, gone ∉ s'.keys → ∀ kept ∈ s'.keys, age s'.uses kept < age s'.uses gone

theorem JITInv.evictsOldest (h : JITInv s) {a : JITAction}
    (hstep : JITSystem.step s a = some s') : EvictsOldest s s' := by
  cases a with
  | getPipeline key =>
    obtain rfl := Option.some.inj hstep
    intro gone hgone hout
    refine absurd ?_ hout
    show gone ∈ (s.compiler.getPipeline key).2.2.lru.keys
    rcases getPipeline_cases s.compiler key with heq | ⟨e, he, rfl, heq⟩ | ⟨-, -, -, heq⟩
    · rw [heq]
      exact hgone
    · rw [heq, (touchLru_spec h.agree.coherent e.1).2]
      by_cases hkey : gone = e.1
      · simp [hkey]
      · have hgone' : gone ∈ s.compiler.lru.keys := hgone
        simp [hkey, hgone']
    · rw [heq]
      exact hgone
  | setEnabled enable =>
    obtain rfl := Option.some.inj hstep
    exact fun gone hgone hout => absurd hgone hout
  | invalidateAll =>
    obtain rfl := Option.some.inj hstep
    exact fun gone _ _ kept hkept => absurd hkept not_mem_nil
  | finish i result =>
    obtain ⟨c, hc, rfl⟩ := Option.map_eq_some_iff.mp hstep
    have hmem : c ∈ s.inFlight := mem_of_getElem? hc
    have hout : c.key ∉ s.keys :=
      h.disjoint c.key ((h.pending c.key).mpr (mem_map_of_mem hmem))
    cases result with
    | error | noLibrary | noFunction | noPipeline => exact fun gone hgone hnot => absurd hgone hnot
    | pipeline =>
      obtain ⟨-, -, ⟨kept, hpre, hkeys⟩, -⟩ := finish_pipeline h.agree hout c.request
      intro gone hgone hnot k hk
      have hnot' : gone ∉ c.key :: kept := hkeys ▸ hnot
      have hk' : k ∈ c.key :: kept := hkeys ▸ hk
      -- the list is the first part of the new key and the old list
      exact (h.ranked.push hout).age_lt ((prefix_cons_inj c.key).mpr hpre) hk'
        (mem_cons_of_mem _ hgone) hnot'

/-- A pipeline that is returned is in the cache. -/
theorem mem_of_returned {p : ComputePipelineState} (h : s.returned key = some p) :
    ∃ e ∈ s.compiler.cache, e.1 = key ∧ e.2 = p := by
  unfold returned at h
  rcases getPipeline_cases s.compiler key with heq | ⟨e, he, hk, heq⟩ | ⟨-, -, -, heq⟩
  · rw [heq] at h
    cases h
  · rw [heq] at h
    exact ⟨e, he, hk, Option.some.inj h⟩
  · rw [heq] at h
    cases h

/-- **The cache of fused pipelines.**  In every run the pipelines, the list and the index hold the
    same keys once each, no more than `MAX_CACHE_SIZE`; at most `MAX_PENDING` keys are pending, none
    of them cached; these are the keys of the compilations in flight, and every request that has
    begun is in flight or has left `pending`, once; an eviction takes the keys used least recently;
    and no pipeline whose compilation had finished before the last `invalidate_all` is returned. -/
theorem jit_cache_invariant {device : Bool} (h : Reaches step (init device) s) :
    (Agree s.compiler ∧ s.compiler.cache.length ≤ JITFusionCompiler.MAX_CACHE_SIZE) ∧
    (s.compiler.pending.card ≤ MAX_PENDING ∧
      ∀ k ∈ s.compiler.pending, k ∉ s.compiler.cache.map Prod.fst) ∧
    ((s.inFlight.map Compilation.key).Nodup ∧
      ∀ k, k ∈ s.compiler.pending ↔ k ∈ s.inFlight.map Compilation.key) ∧
    (s.inFlight.map Compilation.request ++ s.left).Perm (List.range s.requests) ∧
    (∀ a s', step s a = some s' → EvictsOldest s s') ∧
    ∀ key p, s.returned key = some p → p.request ∉ s.finishedBefore := by
  have hinv : JITInv s := h.invariant (.init device) fun _ _ _ hu _ hstep => hu.step hstep
  refine ⟨⟨hinv.agree, hinv.size⟩, ⟨hinv.pendingSize, fun k hk hmem => ?_⟩,
    ⟨hinv.inFlight, hinv.pending⟩, hinv.requests, fun a s' hstep => hinv.evictsOldest hstep, ?_⟩
  · exact hinv.disjoint k hk (hinv.agree.same.mem_iff.mp hmem)
  · intro key p hp
    obtain ⟨e, he, -, rfl⟩ := mem_of_returned hp
    exact (hinv.finished e he).2

/-- One operation on one input. -/
def reluKey : FusionKey := ⟨[.ReLU], .Float32, 1⟩

/-- A compilation that fails, and one that is cached. -/
def compileTwice : List JITAction :=
  [.getPipeline reluKey, .finish 0 .error, .getPipeline reluKey, .finish 0 .pipeline]

theorem jit_cache_invariant_second :
    ∃ s : JITSystem, s.returned reluKey = some ⟨1⟩ ∧
      ∀ key p, s.returned key = some p → p.request ∉ s.finishedBefore := by
  have hsome : (exec step (init true) compileTwice).any
      (fun s : JITSystem => decide (s.returned reluKey = some ⟨1⟩)) = true := by
    decide
  obtain ⟨s, hs, hP⟩ := (Option.any_eq_true _ _).mp hsome
  exact ⟨s, of_decide_eq_true hP, (jit_cache_invariant (reaches_exec hs)).2.2.2.2.2⟩

/-- A compilation in flight when everything is invalidated ends, and its pipeline is returned. -/
theorem invalidated_request_returned :
    ∃ s : JITSystem, Reaches step (init true) s ∧
      ∃ p, s.returned reluKey = some p ∧ p.request < s.begunBefore := by
  obtain ⟨s, hs, hreturned, hbegun⟩ := exists_reaches
    (P := fun s : JITSystem => s.returned reluKey = some ⟨0⟩ ∧ 0 < s.begunBefore)
    [.getPipeline reluKey, .invalidateAll, .finish 0 .pipeline]
    (show (exec step (init true) _).any _ = true by decide)
  exact ⟨s, hs, ⟨0⟩, hreturned, hbegun⟩

end JITSystem

end MetalNative
