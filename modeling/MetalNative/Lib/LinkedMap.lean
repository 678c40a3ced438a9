import MetalNative.Lib.Keyed
import Mathlib.Data.Finset.Card

/-!
# A list with a map of iterators into it

The usual implementation of an LRU cache keeps its entries in a linked list and, in a hash map, the
iterator of the node that holds a key.  Here a node is known by an `id` that stands for its address,
and an iterator is the `id` of a node.

* `LinkedMap` — the two containers, with the operations of each.
* `Coherent` — no node and no key occurs twice, and the map has exactly one iterator for each node.
* `Coherent.erase`, `Coherent.pushFront`, `Coherent.popBack`, `Coherent.splice` — the operations
  that an LRU cache is made of keep the containers together.
* `age`, `Ranked` — how long ago a key was used, and a list in the order of the uses.
-/

/-- A node of the list. -/
structure LinkedMap.Node (κ β : Type*) where
  id : ℕ
  key : κ
  value : β
  deriving DecidableEq, Repr

/-- The list, the map from keys to iterators, and the next address. -/
structure LinkedMap (κ β : Type*) where
  order : List (LinkedMap.Node κ β) := []
  map : List (κ × ℕ) := []
  next : ℕ := 0
  deriving DecidableEq, Repr

namespace LinkedMap

variable {κ β : Type*} [DecidableEq κ]

/-! ### The operations of the containers -/

/-- `map.find`. -/
def iterator (l : LinkedMap κ β) (k : κ) : Option ℕ := (Keyed.find Prod.fst l.map k).map Prod.snd

/-- The node that an iterator points at. -/
def node (l : LinkedMap κ β) (i : ℕ) : Option (Node κ β) := Keyed.find Node.id l.order i

/-- `list.erase(it)`. -/
def eraseNode (l : LinkedMap κ β) (i : ℕ) : LinkedMap κ β :=
  { l with order := Keyed.erase Node.id l.order i }

/-- `map.erase(key)`. -/
def eraseKey (l : LinkedMap κ β) (k : κ) : LinkedMap κ β :=
  { l with map := Keyed.erase Prod.fst l.map k }

/-- `list.pop_back()`, after `map.erase(list.back().key)`. -/
def popBack (l : LinkedMap κ β) : LinkedMap κ β :=
  match l.order.getLast? with
  | none => l
  | some back => { l.eraseKey back.key with order := l.order.dropLast }

/-- `list.push_front(..)` and `map[key] = list.begin()`. -/
def pushFront (l : LinkedMap κ β) (k : κ) (v : β) : LinkedMap κ β :=
  { order := ⟨l.next, k, v⟩ :: l.order
    map := Keyed.insert Prod.fst l.map (k, l.next)
    next := l.next + 1 }

/-- `list.splice(list.begin(), list, it)`. -/
def splice (l : LinkedMap κ β) (i : ℕ) : LinkedMap κ β :=
  match l.node i with
  | none => l
  | some n => { l with order := n :: Keyed.erase Node.id l.order i }

/-- The value of the node at an iterator is changed. -/
def modify (l : LinkedMap κ β) (i : ℕ) (f : β → β) : LinkedMap κ β :=
  { l with order := l.order.map fun n => if n.id = i then { n with value := f n.value } else n }

/-- A walk through nodes that takes out those with `gone`, by `map.erase(it->key)` and
    `list.erase(it)`. -/
def eraseEach (l : LinkedMap κ β) (gone : Node κ β → Bool) (nodes : List (Node κ β)) :
    LinkedMap κ β :=
  nodes.foldl (fun l it => if gone it then (l.eraseKey it.key).eraseNode it.id else l) l

/-- `list.clear()` and `map.clear()`. -/
def clear (l : LinkedMap κ β) : LinkedMap κ β := { l with order := [], map := [] }

/-- The last nodes go while `full` holds of the containers; the fuel is the number of nodes. -/
def popWhile (full : LinkedMap κ β → Bool) : ℕ → LinkedMap κ β → LinkedMap κ β
  | 0, l => l
  | fuel + 1, l => if full l then popWhile full fuel l.popBack else l

/-- The keys in the order of the list. -/
def keys (l : LinkedMap κ β) : List κ := l.order.map Node.key

/-! ### Coherence -/

/-- No two nodes share an address or a key, and the map has one iterator for each node. -/
structure Coherent (l : LinkedMap κ β) : Prop where
  ids : Keyed.Distinct Node.id l.order
  keys : Keyed.Distinct Node.key l.order
  iterators : l.map.Perm (l.order.map fun n => (n.key, n.id))
  allocated : ∀ n ∈ l.order, n.id < l.next

open LinkedMap

namespace Coherent

variable {l : LinkedMap κ β} {n : Node κ β} {k : κ} {v : β}

omit [DecidableEq κ] in
theorem empty : ({} : LinkedMap κ β).Coherent := by
  refine ⟨List.nodup_nil, List.nodup_nil, List.Perm.nil, ?_⟩
  simp

omit [DecidableEq κ] in
/-- The map has no key twice. -/
theorem mapKeys (h : l.Coherent) : Keyed.Distinct Prod.fst l.map := by
  have hkeys : Keyed.Distinct Prod.fst (l.order.map fun n => (n.key, n.id)) := by
    unfold Keyed.Distinct
    rw [List.map_map]
    exact h.keys
  exact hkeys.perm h.iterators.symm

omit [DecidableEq κ] in
/-- The list and the map hold the same keys. -/
theorem keys_perm (h : l.Coherent) : (l.map.map Prod.fst).Perm l.keys := by
  have hperm := h.iterators.map Prod.fst
  rwa [List.map_map] at hperm

omit [DecidableEq κ] in
theorem length_map (h : l.Coherent) : l.map.length = l.order.length := by
  rw [h.iterators.length_eq, List.length_map]

theorem iterator_eq_some (h : l.Coherent) {i : ℕ} :
    l.iterator k = some i ↔ ∃ n ∈ l.order, n.key = k ∧ n.id = i := by
  unfold iterator
  simp only [Option.map_eq_some_iff, h.mapKeys.find_eq_some, h.iterators.mem_iff, List.mem_map]
  constructor
  · rintro ⟨_, ⟨⟨n, hn, rfl⟩, rfl⟩, rfl⟩
    exact ⟨n, hn, rfl, rfl⟩
  · rintro ⟨n, hn, rfl, rfl⟩
    exact ⟨(n.key, n.id), ⟨⟨n, hn, rfl⟩, rfl⟩, rfl⟩

/-- A key without an iterator is not in the list. -/
theorem iterator_eq_none (h : l.Coherent) : l.iterator k = none ↔ k ∉ l.keys := by
  constructor
  · intro hit hmem
    obtain ⟨n, hn, hk⟩ := List.mem_map.mp hmem
    rw [h.iterator_eq_some.mpr ⟨n, hn, hk, rfl⟩] at hit
    cases hit
  · intro hk
    refine Option.eq_none_iff_forall_ne_some.mpr fun i hi => hk ?_
    obtain ⟨n, hn, hkey, -⟩ := h.iterator_eq_some.mp hi
    exact hkey ▸ List.mem_map_of_mem hn

/-! ### What keeps it -/

/-- The node of a key and its iterator are taken out together. -/
theorem erase (h : l.Coherent) (k : κ) :
    Coherent { l with
      order := Keyed.erase Node.key l.order k
      map := Keyed.erase Prod.fst l.map k } where
  ids := h.ids.sublist (List.filter_sublist.map _)
  keys := h.keys.erase k
  iterators := by
    have hperm := h.iterators.filter fun e => decide (e.1 ≠ k)
    rw [List.filter_map] at hperm
    exact hperm
  allocated n hn := h.allocated n (Keyed.mem_erase.mp hn).1

/-- Taking out a node by its iterator is taking out its key. -/
theorem erase_id (h : l.Coherent) (hn : n ∈ l.order) :
    Keyed.erase Node.id l.order n.id = Keyed.erase Node.key l.order n.key := by
  refine List.filter_congr fun m hm => ?_
  have hiff : m.id = n.id ↔ m.key = n.key := by
    constructor
    · exact fun hid => congrArg Node.key (h.ids.eq_of_key hm hn hid)
    · exact fun hkey => congrArg Node.id (h.keys.eq_of_key hm hn hkey)
  simp only [ne_eq, hiff]

/-- The last node is taken out with its key. -/
theorem dropLast_eq (h : l.Coherent) (hn : l.order.getLast? = some n) :
    l.order.dropLast = Keyed.erase Node.key l.order n.key := by
  obtain ⟨init, hinit⟩ := List.getLast?_eq_some_iff.mp hn
  have hkeys := h.keys
  rw [hinit] at hkeys ⊢
  rw [hkeys.erase_append_cons, List.dropLast_concat, List.append_nil]

theorem popBack (h : l.Coherent) : l.popBack.Coherent := by
  unfold LinkedMap.popBack
  split
  · exact h
  · rename_i back hback
    have herase := h.erase back.key
    rwa [← h.dropLast_eq hback] at herase

/-- A new key in front. -/
theorem pushFront (h : l.Coherent) (hk : k ∉ l.keys) (v : β) : (l.pushFront k v).Coherent where
  ids := by
    refine List.nodup_cons.mpr ⟨fun hmem => ?_, h.ids⟩
    obtain ⟨n, hn, hid⟩ := List.mem_map.mp hmem
    have hlt := h.allocated n hn
    rw [hid] at hlt
    exact Nat.lt_irrefl _ hlt
  keys := List.nodup_cons.mpr ⟨hk, h.keys⟩
  iterators := by
    have hnone : Keyed.find Prod.fst l.map k = none := by
      refine Keyed.find_eq_none.mpr fun e he hek => hk ?_
      exact h.keys_perm.mem_iff.mp (hek ▸ List.mem_map_of_mem he)
    show (Keyed.insert Prod.fst l.map (k, l.next)).Perm _
    unfold Keyed.insert
    rw [Keyed.erase_eq_self hnone]
    exact h.iterators.cons _
  allocated m hm := by
    rcases List.mem_cons.mp hm with rfl | hm
    · exact Nat.lt_succ_self _
    · exact Nat.lt_succ_of_lt (h.allocated m hm)

omit [DecidableEq κ] in
/-- The same nodes in another order. -/
theorem perm (h : l.Coherent) {order : List (Node κ β)} (hperm : l.order.Perm order) :
    Coherent { l with order } where
  ids := h.ids.perm hperm
  keys := h.keys.perm hperm
  iterators := h.iterators.trans (hperm.map _)
  allocated m hm := h.allocated m (hperm.mem_iff.mpr hm)

theorem splice_order (h : l.Coherent) (hn : n ∈ l.order) :
    (l.splice n.id).order = n :: Keyed.erase Node.key l.order n.key := by
  have hnode : l.node n.id = some n := h.ids.find_eq_some.mpr ⟨hn, rfl⟩
  unfold splice
  rw [hnode, ← h.erase_id hn]

omit [DecidableEq κ] in
/-- The first node stays where it is. -/
theorem splice_front (h : l.Coherent) (hn : n ∈ l.order)
    (hfront : l.order.head?.map Node.id = some n.id) : l.splice n.id = l := by
  have hnode : l.node n.id = some n := h.ids.find_eq_some.mpr ⟨hn, rfl⟩
  obtain ⟨m, hm, hid⟩ := Option.map_eq_some_iff.mp hfront
  obtain ⟨rest, hrest⟩ := List.head?_eq_some_iff.mp hm
  have hmem : m ∈ l.order := hrest ▸ List.mem_cons_self ..
  obtain rfl := h.ids.eq_of_key hmem hn hid
  have hothers : Keyed.erase Node.id l.order m.id = rest := by
    have hids := h.ids
    rw [hrest] at hids ⊢
    exact hids.erase_append_cons (l := [])
  unfold splice
  rw [hnode]
  simp only [hothers, ← hrest]

omit [DecidableEq κ] in
theorem splice (h : l.Coherent) (i : ℕ) : (l.splice i).Coherent := by
  unfold LinkedMap.splice
  split
  · exact h
  · rename_i m hnode
    exact h.perm (h.ids.perm_cons_erase hnode)

omit [DecidableEq κ] in
theorem modify (h : l.Coherent) (i : ℕ) (f : β → β) : (l.modify i f).Coherent := by
  have hid : ∀ n : Node κ β, (if n.id = i then { n with value := f n.value } else n).id = n.id := by
    intro n
    split <;> rfl
  have hkey : ∀ n : Node κ β,
      (if n.id = i then { n with value := f n.value } else n).key = n.key := by
    intro n
    split <;> rfl
  refine ⟨h.ids.map hid, h.keys.map hkey, ?_, fun n hn => ?_⟩
  · unfold LinkedMap.modify
    rw [List.map_map]
    simp only [Function.comp_def, hid, hkey]
    exact h.iterators
  · obtain ⟨m, hm, rfl⟩ := List.mem_map.mp hn
    rw [hid]
    exact h.allocated m hm

/-- A node is changed and put in front. -/
theorem order_modify_splice (h : l.Coherent) (hn : n ∈ l.order) (f : β → β) :
    ((l.modify n.id f).splice n.id).order
      = { n with value := f n.value } :: Keyed.erase Node.key l.order n.key := by
  have hnew : { n with value := f n.value } ∈ (l.modify n.id f).order := by
    refine List.mem_map.mpr ⟨n, hn, ?_⟩
    simp
  rw [(h.modify n.id f).splice_order hnew]
  congr 1
  -- the nodes with other keys have other iterators
  unfold LinkedMap.modify Keyed.erase
  rw [List.filter_map]
  have hcongr : ∀ m ∈ (l.order.filter fun m => decide (m.key ≠ n.key)),
      (if m.id = n.id then { m with value := f m.value } else m) = m := by
    intro m hm
    obtain ⟨hm, hk⟩ := List.mem_filter.mp hm
    have hne : m.id ≠ n.id := by
      intro hid
      rw [h.ids.eq_of_key hm hn hid] at hk
      simp at hk
    rw [if_neg hne]
  have hkeys : (fun m : Node κ β => decide (m.key ≠ n.key))
      ∘ (fun m => if m.id = n.id then { m with value := f m.value } else m)
      = fun m => decide (m.key ≠ n.key) := by
    funext m
    simp only [Function.comp_apply]
    split <;> rfl
  rw [hkeys, List.map_congr_left hcongr, List.map_id']

/-- The nodes with `gone` are taken out with their keys; the walk is at `ns`, and has kept the nodes
    before. -/
theorem eraseEach (h : l.Coherent) (gone : Node κ β → Bool) {kept ns : List (Node κ β)}
    (horder : l.order = kept ++ ns) :
    (l.eraseEach gone ns).Coherent ∧
      (l.eraseEach gone ns).order = kept ++ ns.filter fun n => !gone n := by
  induction ns generalizing l kept with
  | nil => exact ⟨h, by simpa [eraseEach] using horder⟩
  | cons n ns ih =>
    unfold eraseEach
    rw [List.foldl_cons]
    have hn : n ∈ l.order := horder ▸ List.mem_append_right _ (List.mem_cons_self ..)
    by_cases hgone : gone n = true
    · rw [if_pos hgone, List.filter_cons_of_neg (by simp [hgone])]
      have herase := h.erase n.key
      have hrest : Keyed.erase Node.key l.order n.key = kept ++ ns := by
        have hkeys := h.keys
        rw [horder] at hkeys ⊢
        exact hkeys.erase_append_cons
      rw [← h.erase_id hn] at herase hrest
      exact ih herase hrest
    · rw [if_neg hgone, List.filter_cons_of_pos (by simp [hgone])]
      have horder' : l.order = kept ++ [n] ++ ns := by simpa using horder
      have hrest := ih h horder'
      rw [List.append_assoc, List.singleton_append] at hrest
      exact hrest

omit [DecidableEq κ] in
theorem clear (l : LinkedMap κ β) : l.clear.Coherent := by
  refine ⟨List.nodup_nil, List.nodup_nil, List.Perm.nil, ?_⟩
  simp [LinkedMap.clear]

theorem popWhile (h : l.Coherent) (full : LinkedMap κ β → Bool) (fuel : ℕ) :
    (l.popWhile full fuel).Coherent := by
  induction fuel generalizing l with
  | zero => exact h
  | succ fuel ih =>
    unfold popWhile
    split
    · exact ih h.popBack
    · exact h

end Coherent

/-! ### What the operations do to the keys -/

variable {l : LinkedMap κ β} {n : Node κ β} {k : κ}

@[simp] theorem keys_pushFront (l : LinkedMap κ β) (k : κ) (v : β) :
    (l.pushFront k v).keys = k :: l.keys := rfl

/-- The iterator of a key is overwritten. -/
theorem pushFront_eraseKey (l : LinkedMap κ β) (k : κ) (v : β) :
    (l.eraseKey k).pushFront k v = l.pushFront k v := by
  have hidem : Keyed.erase Prod.fst (Keyed.erase Prod.fst l.map k) k
      = Keyed.erase Prod.fst l.map k :=
    Keyed.erase_eq_self Keyed.find_erase_self
  unfold pushFront eraseKey Keyed.insert
  rw [hidem]

@[simp] theorem order_popBack (l : LinkedMap κ β) : l.popBack.order = l.order.dropLast := by
  unfold popBack
  split
  · rename_i hnone
    rw [List.getLast?_eq_none_iff.mp hnone, List.dropLast_nil]
  · rfl

theorem length_popBack (l : LinkedMap κ β) : l.popBack.order.length = l.order.length - 1 := by
  simp

theorem Coherent.keys_splice (h : l.Coherent) (hn : n ∈ l.order) :
    (l.splice n.id).keys = n.key :: l.keys.filter (· ≠ n.key) := by
  unfold LinkedMap.keys
  rw [h.splice_order hn, List.map_cons, Keyed.map_key_erase]

/-- The nodes that are left are the first ones. -/
theorem popWhile_prefix (full : LinkedMap κ β → Bool) (fuel : ℕ) (l : LinkedMap κ β) :
    (l.popWhile full fuel).order <+: l.order := by
  induction fuel generalizing l with
  | zero => exact List.prefix_rfl
  | succ fuel ih =>
    unfold popWhile
    split
    · exact (ih l.popBack).trans (order_popBack l ▸ List.dropLast_prefix _)
    · exact List.prefix_rfl

/-- With fuel for every node the loop ends because its condition fails, or there is no node. -/
theorem popWhile_done (full : LinkedMap κ β → Bool) {fuel : ℕ} (hfuel : l.order.length ≤ fuel) :
    full (l.popWhile full fuel) = false ∨ (l.popWhile full fuel).order = [] := by
  induction fuel generalizing l with
  | zero => exact .inr (List.eq_nil_of_length_eq_zero (Nat.le_zero.mp hfuel))
  | succ fuel ih =>
    unfold popWhile
    by_cases hfull : full l
    · rw [if_pos hfull]
      apply ih
      rw [length_popBack]
      omega
    · rw [if_neg hfull]
      exact .inl (by simpa using hfull)

/-- A loop on the size of the map keeps as many nodes as the map may have. -/
theorem Coherent.popDownTo (h : l.Coherent) (m : ℕ) {fuel : ℕ} (hfuel : l.order.length ≤ fuel) :
    (l.popWhile (fun l => l.map.length > m) fuel).order = l.order.take m := by
  induction fuel generalizing l with
  | zero =>
    have hnil : l.order = [] := List.eq_nil_of_length_eq_zero (Nat.le_zero.mp hfuel)
    simp [LinkedMap.popWhile, hnil]
  | succ fuel ih =>
    unfold LinkedMap.popWhile
    rw [h.length_map]
    by_cases hover : l.order.length > m
    · have hlen : l.popBack.order.length ≤ fuel := by
        rw [length_popBack]
        omega
      rw [if_pos (by simpa using hover), ih h.popBack hlen, order_popBack, List.dropLast_eq_take,
        List.take_take]
      congr 1
      omega
    · rw [if_neg (by simpa using hover), List.take_of_length_le (by omega)]

/-! ### Recency -/

/-- The number of uses since the last use of a key, of the uses of keys with the latest first. -/
def age (uses : List κ) (k : κ) : ℕ := uses.idxOf k

/-- The keys of a list have been used, each later than those behind it. -/
def Ranked (uses l : List κ) : Prop :=
  l.Pairwise (fun a b => age uses a < age uses b) ∧ ∀ k ∈ l, k ∈ uses

namespace Ranked

variable {uses l l' : List κ} {k : κ}

theorem nil (uses : List κ) : Ranked uses [] := ⟨List.Pairwise.nil, by simp⟩

theorem sublist (h : Ranked uses l) (hsub : l'.Sublist l) : Ranked uses l' :=
  ⟨h.1.sublist hsub, fun k hk => h.2 k (hsub.subset hk)⟩

/-- **Use.**  The key that is used comes to the front. -/
theorem use (h : Ranked uses l) (k : κ) : Ranked (k :: uses) (k :: l.filter (· ≠ k)) := by
  have hself : age (k :: uses) k = 0 := List.idxOf_cons_self
  have hother : ∀ a, a ≠ k → age (k :: uses) a = age uses a + 1 := by
    intro a ha
    exact List.idxOf_cons_ne _ (fun h => ha h.symm)
  constructor
  · refine List.pairwise_cons.mpr ⟨fun a ha => ?_, ?_⟩
    · rw [hself, hother a (by simpa using (List.mem_filter.mp ha).2)]
      exact Nat.succ_pos _
    · -- the others have become older by one use, all alike
      refine (h.1.filter _).imp_of_mem fun {a b} ha hb hab => ?_
      rw [hother a (by simpa using (List.mem_filter.mp ha).2),
        hother b (by simpa using (List.mem_filter.mp hb).2)]
      exact Nat.succ_lt_succ hab
  · intro a ha
    rcases List.mem_cons.mp ha with rfl | ha
    · exact List.mem_cons_self ..
    · exact List.mem_cons_of_mem _ (h.2 a (List.mem_of_mem_filter ha))

/-- A key that was not there comes to the front. -/
theorem push (h : Ranked uses l) (hk : k ∉ l) : Ranked (k :: uses) (k :: l) := by
  have huse := h.use k
  rwa [List.filter_eq_self.mpr fun a ha => by simpa using fun hak : a = k => hk (hak ▸ ha)] at huse

/-- What is cut off at the end was used before everything that stays. -/
theorem age_lt (h : Ranked uses l) (hpre : l' <+: l) {a b : κ} (ha : a ∈ l') (hb : b ∈ l)
    (hout : b ∉ l') : age uses a < age uses b := by
  obtain ⟨rest, rfl⟩ := hpre
  have hrest : b ∈ rest := (List.mem_append.mp hb).resolve_left hout
  exact (List.pairwise_append.mp h.1).2.2 a ha b hrest

theorem nodup (h : Ranked uses l) : l.Nodup := by
  refine List.Pairwise.imp ?_ h.1
  rintro a _ hlt rfl
  exact Nat.lt_irrefl _ hlt

/-- **Eviction.**  When a new key takes the place of the last one, that one leaves and no other, and
    it was used before all others. -/
theorem evict_last (h : Ranked uses l) (hne : l ≠ []) (hk : k ∉ l) :
    ∃ old, l.filter (· ∉ k :: l.dropLast) = [old] ∧
      ∀ other ∈ l, other ≠ old → age uses other < age uses old := by
  obtain ⟨init, old, rfl⟩ : ∃ init old, l = init ++ [old] :=
    ⟨_, _, (List.dropLast_append_getLast hne).symm⟩
  have hold : old ∉ init := by
    have hnodup := h.nodup
    rw [List.nodup_append] at hnodup
    exact fun hmem => hnodup.2.2 old hmem old (by simp) rfl
  have holdk : old ≠ k := fun heq => hk (by simp [heq])
  refine ⟨old, ?_, fun other hother hne => ?_⟩
  · have hinit : init.filter (· ∉ k :: init) = [] := by
      refine List.filter_eq_nil_iff.mpr fun a ha => ?_
      simp [ha]
    rw [List.dropLast_concat, List.filter_append, hinit]
    simp [hold, holdk]
  · have hin : other ∈ init := by
      simpa [hne] using hother
    exact h.age_lt (List.prefix_append _ _) hin (by simp) hold

end Ranked

end LinkedMap
