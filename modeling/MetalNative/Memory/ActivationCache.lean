import MetalNative.Core.Tensor
import MetalNative.Lib.LinkedMap
import MetalNative.Lib.Rounding
import MetalNative.Memory.BudgetController

namespace MetalNative

open LinkedMap Run List Option

/-!
# `ActivationCache`: activations in the order of their use

A translation of `activation_cache.mm`.  Every member function holds `mu` from its first statement
to its last, so the calls of all threads are a sequence; the pressure changes between them.

* `ActivationCache.effectiveMax` — the capacity under a pressure, in single precision.
* `store`, `lookup`, `evictToBudget`, `clear` — the member functions.
* `ActivationRun.step` — a call or a change of the pressure, with a record of the uses of keys, and
  of what was stored and evicted.
* `activation_cache_bounded_lru` — the containers agree, a lookup finds the latest tensor stored and
  not evicted, the keys that are evicted are those used least recently, and what bounds the size and
  the bytes.
* `size_exceeds_max_entries` — a cache for one entry keeps two.
-/

/-- `nbytes`. -/
def MNTensor.nbytes {α : Type} (t : MNTensor α) : UInt64 :=
  UInt64.ofNat (toSizeT t.numel) * UInt64.ofNat (dtypeSize t.dtype)

/-- What an `Entry` has besides its key. -/
structure ActivationCache.Entry (α : Type) where
  tensor : MNTensor α
  byte_size : UInt64

/-- The members of `ActivationCache::Impl`; `list` is `order` with `map`. -/
structure ActivationCache (α : Type) where
  max_entries : ℕ
  list : LinkedMap String (ActivationCache.Entry α) := {}

namespace ActivationCache

variable {α : Type}

/-- A `float` as a `size_t`; out of range the conversion is not defined. -/
def floatToSizeT (undefinedSize : ℚ → ℕ) (x : ℚ) : ℕ :=
  if x < sizeTRange then ⌊x⌋₊ else undefinedSize x

/-- `effective_max` of `store`. -/
def effectiveMax (undefinedSize : ℚ → ℕ) (max_entries : ℕ) (pressure : MemoryPressureLevel) : ℕ :=
  let mult := pressureMultiplier pressure
  max 2 (floatToSizeT undefinedSize (Rounding.round 24 (Rounding.round 24 max_entries * mult)))

/-- The bytes that `store` counts for a tensor. -/
def byteSize (activation : MNTensor α) : UInt64 :=
  let dtype_size := if activation.dtype = .Float16 then 2 else 4
  UInt64.ofNat (toSizeT activation.numel) * dtype_size

/-- `store`, up to the insertion: an entry with the key goes, and then the last ones while there are
    `effective_max`. -/
def makeRoom (c : ActivationCache α) (effective_max : ℕ) (key : String) :
    LinkedMap String (Entry α) :=
  let list :=
    match c.list.iterator key with
    | some it => (c.list.eraseNode it).eraseKey key
    | none => c.list
  list.popWhile (fun l => l.order.length ≥ effective_max) list.order.length

/-- `store`. -/
def store (undefinedSize : ℚ → ℕ) (c : ActivationCache α) (pressure : MemoryPressureLevel)
    (key : String) (activation : MNTensor α) : ActivationCache α :=
  let effective_max := effectiveMax undefinedSize c.max_entries pressure
  let list := c.makeRoom effective_max key
  { c with list := list.pushFront key ⟨activation, byteSize activation⟩ }

/-- `lookup`. -/
def lookup (c : ActivationCache α) (key : String) : Option (MNTensor α) × ActivationCache α :=
  match c.list.iterator key with
  | none => (none, c)
  | some list_it =>
    let list :=
      if c.list.order.head?.map Node.id ≠ some list_it then c.list.splice list_it else c.list
    ((list.node list_it).map fun entry => entry.value.tensor, { c with list })

/-- The loop that adds up the bytes of the entries. -/
def totalBytes (order : List (Node String (Entry α))) : UInt64 :=
  order.foldl (fun total e => total + e.value.byte_size) 0

/-- The loop of `evict_to_budget`; the fuel is the number of entries. -/
def evictLoop (max_bytes : UInt64) : ℕ → UInt64 → LinkedMap String (Entry α) →
    LinkedMap String (Entry α)
  | 0, _, l => l
  | fuel + 1, total, l =>
    match l.order.getLast? with
    | none => l
    | some back =>
      if total > max_bytes then evictLoop max_bytes fuel (total - back.value.byte_size) l.popBack
      else l

/-- `evict_to_budget`. -/
def evictToBudget (c : ActivationCache α) (max_bytes : UInt64) : ActivationCache α :=
  { c with list := evictLoop max_bytes c.list.order.length (totalBytes c.list.order) c.list }

/-- `clear`. -/
def clear (c : ActivationCache α) : ActivationCache α := { c with list := c.list.clear }

/-- `memory_footprint`. -/
def memoryFootprint (c : ActivationCache α) : UInt64 := totalBytes c.list.order

/-- `size`. -/
def size (c : ActivationCache α) : ℕ := c.list.order.length

end ActivationCache

/-! ### Calls and changes of the pressure -/

/-- What has become of a key. -/
inductive ActivationEvent (α : Type) where
  | stored (key : String) (activation : MNTensor α)
  | evicted (key : String)
  | cleared

/-- The tensor of the latest store of a key that has not been evicted, from the events, latest
    first. -/
def latestStore {α : Type} : List (ActivationEvent α) → String → Option (MNTensor α)
  | [], _ => none
  | .stored k activation :: events, key =>
    if k = key then some activation else latestStore events key
  | .evicted k :: events, key => if k = key then none else latestStore events key
  | .cleared :: _, _ => none

/-- The cache and the pressure, with the keys stored or found and the events, both latest first. -/
structure ActivationRun (α : Type) where
  cache : ActivationCache α
  pressure : MemoryPressureLevel := .Normal
  uses : List String := []
  events : List (ActivationEvent α) := []

/-- The calls of the clients, and a change of the pressure. -/
inductive ActivationAction (α : Type) where
  | store (key : String) (activation : MNTensor α)
  | lookup (key : String)
  | evictToBudget (max_bytes : UInt64)
  | clear
  | setPressure (level : MemoryPressureLevel)

namespace ActivationRun

variable {α : Type}

/-- An empty cache. -/
def init (max_entries : ℕ) : ActivationRun α := { cache := { max_entries } }

/-- The keys that are in the first list only. -/
def leaving (before after : LinkedMap String (ActivationCache.Entry α)) : List String :=
  before.keys.filter (· ∉ after.keys)

/-- One step. -/
def step (undefinedSize : ℚ → ℕ) (s : ActivationRun α) :
    ActivationAction α → Option (ActivationRun α)
  | .store key activation =>
    let cache := s.cache.store undefinedSize s.pressure key activation
    some { s with
      cache
      uses := key :: s.uses
      events := .stored key activation ::
        ((leaving s.cache.list cache.list).map .evicted ++ s.events) }
  | .lookup key =>
    let (found, cache) := s.cache.lookup key
    some { s with cache, uses := if found.isSome then key :: s.uses else s.uses }
  | .evictToBudget max_bytes =>
    let cache := s.cache.evictToBudget max_bytes
    some { s with
      cache
      events := (leaving s.cache.list cache.list).map .evicted ++ s.events }
  | .clear => some { s with cache := s.cache.clear, events := .cleared :: s.events }
  | .setPressure level => some { s with pressure := level }

end ActivationRun

/-! ### What the member functions do -/

namespace ActivationCache

variable {α : Type} (undefinedSize : ℚ → ℕ) {c : ActivationCache α} {key : String}

/-- The tensor under a key. -/
def held (order : List (Node String (Entry α))) (key : String) : Option (MNTensor α) :=
  (Keyed.find Node.key order key).map fun entry => entry.value.tensor

theorem held_eq_none {order : List (Node String (Entry α))} (h : key ∉ order.map Node.key) :
    held order key = none := by
  have hnone : Keyed.find Node.key order key = none :=
    Keyed.find_eq_none.mpr fun n hn hkey => h (hkey ▸ mem_map_of_mem hn)
  simp [held, hnone]

/-- An entry with the key goes, and then entries from the end, until there is room. -/
theorem makeRoom_spec (h : c.list.Coherent) (effective_max : ℕ) (key : String) :
    (c.makeRoom effective_max key).Coherent ∧
      (c.makeRoom effective_max key).order <+: Keyed.erase Node.key c.list.order key ∧
      ((c.makeRoom effective_max key).order.length < effective_max ∨
        (c.makeRoom effective_max key).order = []) := by
  -- the list that the loop starts from
  have hstart : ∃ l : LinkedMap String (Entry α), l.Coherent ∧
      l.order = Keyed.erase Node.key c.list.order key ∧
      c.makeRoom effective_max key
        = l.popWhile (fun l => l.order.length ≥ effective_max) l.order.length := by
    unfold makeRoom
    cases hit : c.list.iterator key with
    | some it =>
      obtain ⟨n, hn, rfl, rfl⟩ := h.iterator_eq_some.mp hit
      refine ⟨_, ?_, h.erase_id hn, rfl⟩
      have herase := h.erase n.key
      rwa [← h.erase_id hn] at herase
    | none =>
      have hkey := h.iterator_eq_none.mp hit
      have hsame : Keyed.erase Node.key c.list.order key = c.list.order := by
        refine Keyed.erase_eq_self (Keyed.find_eq_none.mpr fun n hn hk => hkey ?_)
        exact hk ▸ mem_map_of_mem hn
      exact ⟨c.list, h, hsame.symm, rfl⟩
  obtain ⟨l, hl, horder, heq⟩ := hstart
  rw [heq, ← horder]
  refine ⟨hl.popWhile _ _, popWhile_prefix _ _ _, ?_⟩
  rcases popWhile_done (fun l : LinkedMap String (Entry α) => l.order.length ≥ effective_max)
    (le_refl l.order.length) with hdone | hnil
  · exact .inl (by simpa using hdone)
  · exact .inr hnil

theorem two_le_effectiveMax (max_entries : ℕ) (pressure : MemoryPressureLevel) :
    2 ≤ effectiveMax undefinedSize max_entries pressure := le_max_left _ _

/-- As long as single precision has the number itself, there is room for no more than
    `max_entries`, and for two. -/
theorem effectiveMax_le {max_entries : ℕ} (h : max_entries ≤ 2 ^ 24)
    (pressure : MemoryPressureLevel) :
    effectiveMax undefinedSize max_entries pressure ≤ max 2 max_entries := by
  have hexact : Rounding.round 24 (max_entries : ℚ) = max_entries :=
    Rounding.round_natCast (by decide) h
  have hle : Rounding.round 24 ((max_entries : ℚ) * pressureMultiplier pressure) ≤ max_entries := by
    rcases Nat.eq_zero_or_pos max_entries with hzero | hpos
    · simp [hzero]
    · have hentries : (0 : ℚ) < max_entries := by exact_mod_cast hpos
      calc Rounding.round 24 ((max_entries : ℚ) * pressureMultiplier pressure)
          ≤ Rounding.round 24 (max_entries : ℚ) := by
            apply Rounding.round_mono (by decide)
            · exact mul_pos hentries (BudgetRun.pressureMultiplier_pos pressure)
            · exact mul_le_of_le_one_right hentries.le
                (BudgetRun.pressureMultiplier_le_one pressure)
        _ = max_entries := hexact
  have hrange : Rounding.round 24 ((max_entries : ℚ) * pressureMultiplier pressure) <
      sizeTRange := by
    have hsmall : (max_entries : ℚ) ≤ 2 ^ 24 := by exact_mod_cast h
    refine (hle.trans hsmall).trans_lt ?_
    norm_num [sizeTRange]
  unfold effectiveMax
  simp only [hexact, floatToSizeT, if_pos hrange]
  exact max_le_max (le_refl 2) (Nat.floor_le_of_le hle)

/-- What is in front of the kept entries after a `store`. -/
theorem store_spec (h : c.list.Coherent) (pressure : MemoryPressureLevel) (key : String)
    (activation : MNTensor α) :
    (c.store undefinedSize pressure key activation).list.Coherent ∧
      ∃ n kept, (c.store undefinedSize pressure key activation).list.order = n :: kept ∧
        n.key = key ∧ n.value = ⟨activation, byteSize activation⟩ ∧
        kept <+: Keyed.erase Node.key c.list.order key ∧
        (n :: kept).length ≤ effectiveMax undefinedSize c.max_entries pressure := by
  obtain ⟨hl, hpre, hroom⟩ :=
    makeRoom_spec h (effectiveMax undefinedSize c.max_entries pressure) key
  have hnew : key ∉ (c.makeRoom (effectiveMax undefinedSize c.max_entries pressure) key).keys := by
    intro hmem
    obtain ⟨n, hn, hkey⟩ := mem_map.mp hmem
    exact (Keyed.mem_erase.mp (hpre.subset hn)).2 hkey
  refine ⟨hl.pushFront hnew _, _, _, rfl, rfl, rfl, hpre, ?_⟩
  have htwo := two_le_effectiveMax undefinedSize c.max_entries pressure
  rcases hroom with hlt | hnil
  · exact hlt
  · rw [hnil]
    simpa using (by omega : 1 ≤ effectiveMax undefinedSize c.max_entries pressure)

/-- `lookup` finds the entry with the key and puts it in front, or there is none. -/
theorem lookup_spec (h : c.list.Coherent) (key : String) :
    (c.lookup key).1 = held c.list.order key ∧
      ((∃ n ∈ c.list.order, n.key = key ∧ (c.lookup key).2.list = c.list.splice n.id) ∨
        key ∉ c.list.keys ∧ (c.lookup key).2 = c) := by
  unfold lookup held
  cases hit : c.list.iterator key with
  | none =>
    have hkey : key ∉ c.list.keys := h.iterator_eq_none.mp hit
    exact ⟨(held_eq_none hkey).symm, .inr ⟨hkey, rfl⟩⟩
  | some it =>
    obtain ⟨n, hn, rfl, rfl⟩ := h.iterator_eq_some.mp hit
    have hsame : (if c.list.order.head?.map Node.id ≠ some n.id then c.list.splice n.id
        else c.list) = c.list.splice n.id := by
      split_ifs with hfront
      · rfl
      · exact (h.splice_front hn (not_not.mp hfront)).symm
    have hfind : Keyed.find Node.key c.list.order n.key = some n :=
        h.keys.find_eq_some.mpr ⟨hn, rfl⟩
    have hnode : (c.list.splice n.id).node n.id = some n := by
      unfold LinkedMap.node
      rw [h.splice_order hn]
      simp [Keyed.find]
    refine ⟨?_, .inl ⟨n, hn, rfl, ?_⟩⟩
    · simp only [hsame, hnode, hfind]
    · simp only [hsame]

/-- The bytes without the last entry. -/
theorem totalBytes_dropLast {order : List (Node String (Entry α))} {back : Node String (Entry α)}
    (hback : order.getLast? = some back) :
    totalBytes order - back.value.byte_size = totalBytes order.dropLast := by
  obtain ⟨init, rfl⟩ := getLast?_eq_some_iff.mp hback
  unfold totalBytes
  rw [dropLast_concat, foldl_append]
  exact UInt64.add_sub_cancel _ _

/-- The loop of `evict_to_budget` keeps the first entries, and stops within the budget. -/
theorem evictLoop_spec (max_bytes : UInt64) {fuel : ℕ} {l : LinkedMap String (Entry α)}
    (h : l.Coherent) (hfuel : l.order.length ≤ fuel) :
    (evictLoop max_bytes fuel (totalBytes l.order) l).Coherent ∧
      (evictLoop max_bytes fuel (totalBytes l.order) l).order <+: l.order ∧
      totalBytes (evictLoop max_bytes fuel (totalBytes l.order) l).order ≤ max_bytes := by
  have hzero : totalBytes ([] : List (Node String (Entry α))) ≤ max_bytes := UInt64.zero_le
  induction fuel generalizing l with
  | zero =>
    have hnil : l.order = [] := eq_nil_of_length_eq_zero (Nat.le_zero.mp hfuel)
    refine ⟨h, prefix_rfl, ?_⟩
    simp only [evictLoop]
    rwa [hnil]
  | succ fuel ih =>
    unfold evictLoop
    cases hback : l.order.getLast? with
    | none =>
      refine ⟨h, prefix_rfl, ?_⟩
      simpa [getLast?_eq_none_iff.mp hback] using hzero
    | some back =>
      simp only
      split_ifs with hover
      · have hlen : l.popBack.order.length ≤ fuel := by
          rw [length_popBack]
          omega
        obtain ⟨hco, hpre, hle⟩ := ih h.popBack hlen
        -- the running total is the total of what is left
        rw [totalBytes_dropLast hback, ← order_popBack]
        exact ⟨hco, hpre.trans (order_popBack l ▸ dropLast_prefix _), hle⟩
      · exact ⟨h, prefix_rfl, UInt64.not_lt.mp hover⟩

end ActivationCache

/-! ### The invariant -/

/-- Events that evict keys, in front of others. -/
theorem latestStore_evicted {α : Type} (ks : List String) (events : List (ActivationEvent α))
    (key : String) :
    latestStore (ks.map .evicted ++ events) key
      = if key ∈ ks then none else latestStore events key := by
  induction ks with
  | nil => simp
  | cons k ks ih =>
    rw [map_cons, cons_append, latestStore]
    by_cases hk : k = key
    · simp [hk]
    · have hne : key ≠ k := fun h => hk h.symm
      simp [hk, hne, ih]

namespace ActivationRun

open ActivationCache

variable {α : Type} {undefinedSize : ℚ → ℕ} {s s' : ActivationRun α}

/-- The list and the map agree, the entries stand in the order of their uses, each key has the
    tensor that was stored last and not evicted, and each entry has the bytes counted for its
    tensor. -/
structure ActivationInv (s : ActivationRun α) : Prop where
  coherent : s.cache.list.Coherent
  ranked : Ranked s.uses s.cache.list.keys
  held : ∀ key, ActivationCache.held s.cache.list.order key = latestStore s.events key
  bytes : ∀ n ∈ s.cache.list.order, n.value.byte_size = byteSize n.value.tensor

theorem ActivationInv.init (max_entries : ℕ) : ActivationInv (init max_entries : ActivationRun α) :=
  ⟨.empty, .nil _, fun _ => rfl, by simp [ActivationRun.init]⟩

variable {key : String}

/-- What is held under a key whose entry, if it has one, was there before. -/
theorem held_leaving {before after : LinkedMap String (Entry α)} (hb : before.Coherent)
    (ha : after.Coherent)
    (hold : ∀ n ∈ after.order, n.key = key → n ∈ before.order) :
    ActivationCache.held after.order key
      = if key ∈ leaving before after then none
        else ActivationCache.held before.order key := by
  by_cases hafter : key ∈ after.keys
  · obtain ⟨n, hn, rfl⟩ := mem_map.mp hafter
    have hin : n.key ∉ leaving before after := by
      simp [leaving, hafter]
    unfold ActivationCache.held
    rw [if_neg hin, ha.keys.find_eq_some.mpr ⟨hn, rfl⟩,
      hb.keys.find_eq_some.mpr ⟨hold n hn rfl, rfl⟩]
  · have hgone : ActivationCache.held after.order key = none := held_eq_none hafter
    rw [hgone]
    split_ifs with hleft
    · rfl
    · -- the key is in neither list
      have hbefore : key ∉ before.keys := by
        intro hmem
        exact hleft (by simp [leaving, hmem, hafter])
      exact (held_eq_none hbefore).symm

theorem ActivationInv.store (h : ActivationInv s) {activation : MNTensor α}
    (hstep : step undefinedSize s (.store key activation) = some s') : ActivationInv s' := by
  obtain rfl := some.inj hstep
  obtain ⟨hco, n, kept, horder, rfl, hvalue, hpre, -⟩ :=
    store_spec undefinedSize h.coherent s.pressure key activation
  refine ⟨hco, ?_, fun k => ?_, fun m hm => ?_⟩
  · -- the kept entries are the first of those with other keys
    show Ranked (n.key :: s.uses) ((s.cache.store undefinedSize s.pressure n.key
      activation).list.keys)
    unfold LinkedMap.keys
    rw [horder, map_cons]
    refine (h.ranked.use n.key).sublist (Sublist.cons_cons _ ?_)
    have hkept := (hpre.sublist).map Node.key
    rwa [Keyed.map_key_erase] at hkept
  · show ActivationCache.held (s.cache.store undefinedSize s.pressure n.key
      activation).list.order k = _
    rw [latestStore]
    by_cases hk : n.key = k
    · rw [horder]
      simp [ActivationCache.held, Keyed.find, hk, hvalue]
    · rw [if_neg hk, latestStore_evicted, ← h.held k]
      refine held_leaving h.coherent hco fun m hm hmk => ?_
      rw [horder] at hm
      rcases mem_cons.mp hm with rfl | hm
      · exact absurd hmk hk
      · exact (Keyed.mem_erase.mp (hpre.subset hm)).1
  · have hm' : m ∈ n :: kept := horder ▸ hm
    rcases mem_cons.mp hm' with rfl | hm'
    · rw [hvalue]
    · exact h.bytes m (Keyed.mem_erase.mp (hpre.subset hm')).1

/-- `lookup` changes the order of the entries, and nothing else. -/
theorem lookup_order (h : s.cache.list.Coherent) (key : String) :
    s.cache.list.order.Perm (s.cache.lookup key).2.list.order := by
  rcases (lookup_spec h key).2 with ⟨n, hn, -, hlist⟩ | ⟨-, hsame⟩
  · rw [hlist, h.splice_order hn]
    exact h.keys.perm_cons_erase (h.keys.find_eq_some.mpr ⟨hn, rfl⟩)
  · rw [hsame]

theorem ActivationInv.lookup (h : ActivationInv s)
    (hstep : step undefinedSize s (.lookup key) = some s') : ActivationInv s' := by
  obtain rfl := some.inj hstep
  have hperm := lookup_order h.coherent key
  obtain ⟨hfound, hway⟩ := lookup_spec h.coherent key
  have hheld : ∀ k, ActivationCache.held (s.cache.lookup key).2.list.order k
      = ActivationCache.held s.cache.list.order k := by
    intro k
    unfold ActivationCache.held
    rw [h.coherent.keys.find_perm hperm]
  refine ⟨?_, ?_, fun k => (hheld k).trans (h.held k),
    fun n hn => h.bytes n (hperm.mem_iff.mpr hn)⟩
  · show (s.cache.lookup key).2.list.Coherent
    rcases hway with ⟨n, hn, -, hlist⟩ | ⟨-, hsame⟩
    · rw [hlist]
      exact h.coherent.splice n.id
    · rw [hsame]
      exact h.coherent
  · show Ranked (if (s.cache.lookup key).1.isSome then key :: s.uses else s.uses)
      (s.cache.lookup key).2.list.keys
    rw [hfound]
    rcases hway with ⟨n, hn, rfl, hlist⟩ | ⟨hout, hsame⟩
    · have hsome : (ActivationCache.held s.cache.list.order n.key).isSome = true := by
        simp [ActivationCache.held, h.coherent.keys.find_eq_some.mpr ⟨hn, rfl⟩]
      rw [if_pos hsome, hlist, h.coherent.keys_splice hn]
      exact h.ranked.use n.key
    · rw [held_eq_none hout, hsame]
      exact h.ranked

theorem ActivationInv.evictToBudget (h : ActivationInv s) {max_bytes : UInt64}
    (hstep : step undefinedSize s (.evictToBudget max_bytes) = some s') : ActivationInv s' := by
  obtain rfl := some.inj hstep
  obtain ⟨hco, hpre, -⟩ := evictLoop_spec max_bytes h.coherent (le_refl _)
  refine ⟨hco, h.ranked.sublist (hpre.sublist.map _), fun k => ?_,
    fun n hn => h.bytes n (hpre.subset hn)⟩
  show ActivationCache.held (s.cache.evictToBudget max_bytes).list.order k = _
  rw [latestStore_evicted, ← h.held k]
  exact held_leaving h.coherent hco fun n hn _ => hpre.subset hn

variable {a : ActivationAction α}

/-- **One step.** -/
theorem ActivationInv.step (h : ActivationInv s)
    (hstep : step undefinedSize s a = some s') : ActivationInv s' := by
  cases a with
  | store key activation => exact h.store hstep
  | lookup key => exact h.lookup hstep
  | evictToBudget max_bytes => exact h.evictToBudget hstep
  | clear =>
    obtain rfl := some.inj hstep
    refine ⟨.clear _, .nil _, fun k => rfl, fun n hn => ?_⟩
    exact absurd hn not_mem_nil
  | setPressure level =>
    obtain rfl := some.inj hstep
    exact ⟨h.coherent, h.ranked, h.held, h.bytes⟩

/-! ### What a step evicts, and the bounds -/

/-- Every key that a step evicts was used before all keys that stay. -/
def EvictsOldest (s s' : ActivationRun α) : Prop :=
  ∀ gone ∈ leaving s.cache.list s'.cache.list, ∀ kept ∈ s'.cache.list.keys,
    age s'.uses kept < age s'.uses gone

theorem mem_leaving {before after : LinkedMap String (Entry α)} :
    key ∈ leaving before after ↔ key ∈ before.keys ∧ key ∉ after.keys := by
  simp [leaving]

/-- Where no key leaves, none is evicted. -/
theorem evictsOldest_of_subset (h : ∀ key ∈ s.cache.list.keys, key ∈ s'.cache.list.keys) :
    EvictsOldest s s' := by
  intro gone hgone
  obtain ⟨hin, hout⟩ := mem_leaving.mp hgone
  exact absurd (h gone hin) hout

theorem ActivationInv.evictsOldest (h : ActivationInv s)
    (hstep : ActivationRun.step undefinedSize s a = some s') : EvictsOldest s s' := by
  cases a with
  | store key activation =>
    obtain rfl := some.inj hstep
    obtain ⟨-, n, kept, horder, rfl, -, hpre, -⟩ :=
      store_spec undefinedSize h.coherent s.pressure key activation
    intro gone hgone k hk
    obtain ⟨hin, hout⟩ := mem_leaving.mp hgone
    have hkeys : (s.cache.store undefinedSize s.pressure n.key activation).list.keys
        = n.key :: kept.map Node.key := by
      unfold LinkedMap.keys
      rw [horder, map_cons]
    -- the keys that stay are the first of the new key and the old ones
    have hpre' : (n.key :: kept.map Node.key) <+: n.key :: s.cache.list.keys.filter
        (· ≠ n.key) := by
      have hmap := IsPrefix.map Node.key hpre
      rw [Keyed.map_key_erase] at hmap
      exact (prefix_cons_inj n.key).mpr hmap
    rw [hkeys] at hout hk
    refine (h.ranked.use n.key).age_lt hpre' hk ?_ hout
    refine mem_cons_of_mem _ (mem_filter.mpr ⟨hin, ?_⟩)
    simpa using fun heq : gone = n.key => hout (heq ▸ mem_cons_self ..)
  | lookup key =>
    obtain rfl := some.inj hstep
    refine evictsOldest_of_subset fun k hk => ?_
    exact (((lookup_order h.coherent key).map Node.key).mem_iff).mp hk
  | evictToBudget max_bytes =>
    obtain rfl := some.inj hstep
    obtain ⟨-, hpre, -⟩ := evictLoop_spec max_bytes h.coherent (le_refl _)
    intro gone hgone k hk
    obtain ⟨hin, hout⟩ := mem_leaving.mp hgone
    exact h.ranked.age_lt (IsPrefix.map Node.key hpre) hk hin hout
  | clear =>
    obtain rfl := some.inj hstep
    intro gone _ k hk
    exact absurd hk not_mem_nil
  | setPressure level =>
    obtain rfl := some.inj hstep
    exact evictsOldest_of_subset fun _ hk => hk

/-- The entries' own bytes are those that `nbytes` gives, where `store` knows the data type. -/
theorem ActivationInv.footprint (h : ActivationInv s)
    (hdtype : ∀ n ∈ s.cache.list.order,
      n.value.tensor.dtype = .Float16 ∨ dtypeSize n.value.tensor.dtype = 4) :
    s.cache.memoryFootprint
      = (s.cache.list.order.map fun n => n.value.tensor.nbytes).foldl (· + ·) 0 := by
  have hbytes : ∀ n ∈ s.cache.list.order, n.value.byte_size = n.value.tensor.nbytes := by
    intro n hn
    rw [h.bytes n hn]
    unfold byteSize MNTensor.nbytes
    rcases hdtype n hn with hhalf | hfour
    · rw [hhalf]
      rfl
    · have hne : n.value.tensor.dtype ≠ .Float16 := by
        intro heq
        rw [heq] at hfour
        exact absurd hfour (by decide)
      rw [if_neg hne, hfour]
      rfl
  unfold ActivationCache.memoryFootprint ActivationCache.totalBytes
  rw [← map_congr_left hbytes, foldl_map]

/-- The capacity is the constructor's. -/
theorem step_max_entries (hstep : step undefinedSize s a = some s') :
    s'.cache.max_entries = s.cache.max_entries := by
  cases a with
  | lookup key =>
    obtain rfl := some.inj hstep
    show (s.cache.lookup key).2.max_entries = _
    unfold ActivationCache.lookup
    split <;> rfl
  | store key activation | evictToBudget max_bytes | clear | setPressure level =>
    obtain rfl := some.inj hstep
    rfl

/-- **A bounded LRU cache.**  In every run the list and the map hold the same keys once each, with
    iterators to the nodes; a lookup finds the tensor of the latest store of the key that has not
    been evicted; the footprint is the sum of the tensors' bytes when they are of type `Float16` or
    take four bytes an element.  Every step evicts the keys used least recently; right after a store
    there are no more than `effective_max` entries, which is at most two or `max_entries` while
    single precision has that number; and `evict_to_budget` leaves no more than its budget. -/
theorem activation_cache_bounded_lru {max_entries : ℕ} {s : ActivationRun α}
    (h : Reaches (step undefinedSize) (init max_entries) s) :
    s.cache.list.Coherent ∧
    (∀ key, (s.cache.lookup key).1 = latestStore s.events key) ∧
    ((∀ n ∈ s.cache.list.order,
        n.value.tensor.dtype = .Float16 ∨ dtypeSize n.value.tensor.dtype = 4) →
      s.cache.memoryFootprint
        = (s.cache.list.order.map fun n => n.value.tensor.nbytes).foldl (· + ·) 0) ∧
    ∀ a s', step undefinedSize s a = some s' →
      EvictsOldest s s' ∧
      (∀ key activation, a = .store key activation →
        s'.cache.size ≤ effectiveMax undefinedSize max_entries s.pressure ∧
          (max_entries ≤ 2 ^ 24 → s'.cache.size ≤ max 2 max_entries)) ∧
      ∀ max_bytes, a = .evictToBudget max_bytes → s'.cache.memoryFootprint ≤ max_bytes := by
  obtain ⟨hinv, hmax⟩ : ActivationInv s ∧ s.cache.max_entries = max_entries := by
    refine h.invariant (P := fun u => ActivationInv u ∧ u.cache.max_entries = max_entries)
      ⟨.init max_entries, rfl⟩ ?_
    rintro u a v ⟨hu, hcap⟩ - hstep
    exact ⟨hu.step hstep, (step_max_entries hstep).trans hcap⟩
  refine ⟨hinv.coherent, fun key => ?_, hinv.footprint, fun a s' hstep => ⟨hinv.evictsOldest hstep,
    ?_, ?_⟩⟩
  · rw [(lookup_spec hinv.coherent key).1, hinv.held]
  · rintro key activation rfl
    obtain rfl := some.inj hstep
    obtain ⟨-, n, kept, horder, -, -, -, hlen⟩ :=
      store_spec undefinedSize hinv.coherent s.pressure key activation
    rw [← horder, hmax] at hlen
    exact ⟨hlen, fun hsmall => hlen.trans (effectiveMax_le undefinedSize hsmall s.pressure)⟩
  · rintro max_bytes rfl
    obtain rfl := some.inj hstep
    exact (evictLoop_spec max_bytes hinv.coherent (le_refl _)).2.2

/-- A number. -/
def scalar : MNTensor ℕ where
  buffer := id
  dims := []
  strides := []
  dtype := .Float32
  dims_lt := by simp
  numel_lt := by simp

/-- A tensor that has been stored is found. -/
theorem activation_cache_bounded_lru_found :
    ∃ s : ActivationRun ℕ, (s.cache.lookup "a").1 = some scalar ∧ s.cache.list.Coherent := by
  have hstep : step (fun _ => 0) (init 4) (.store "a" scalar) = some _ := rfl
  obtain ⟨hco, hlookup, -⟩ := activation_cache_bounded_lru (.tail .refl trivial hstep)
  refine ⟨_, (hlookup "a").trans ?_, hco⟩
  simp [latestStore]

/-- A cache for one entry keeps two. -/
theorem size_exceeds_max_entries :
    ∃ s s' : ActivationRun ℕ, Reaches (step fun _ => 0) (init 1) s ∧
      step (fun _ => 0) s (.store "b" scalar) = some s' ∧ ¬ s'.cache.size ≤ max 1 1 := by
  have htwo : effectiveMax (fun _ => 0) 1 .Normal = 2 := by
    apply le_antisymm
    · exact effectiveMax_le _ (by decide) .Normal
    · exact two_le_effectiveMax _ 1 .Normal
  refine ⟨_, _, .tail .refl trivial (a := .store "a" scalar) rfl, rfl, ?_⟩
  simp only [ActivationCache.size, ActivationRun.init, ActivationCache.store, htwo]
  decide

end ActivationRun

end MetalNative
