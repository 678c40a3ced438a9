import MetalNative.Graph.Meaning
import MetalNative.Graph.WellFormed
import Mathlib.Order.WellFoundedSet

namespace MetalNative

open Denotation LazyGraph List Option

/-!
# Dead-code elimination is exact

`eliminate_dead_code` removes nodes with no readers round by round, in the iteration order of a hash
map.

* `Live` — an anchored node (an output, a node that is not pending, an input) is reached along
  consumer edges; `survivor` — what should be left under an id.
* `eliminateWith` — the rounds, each in an order of its own.
* `Pruned` — the invariant: what is gone was not live, what is left is as it was, and the counts are
  those of what is left.
* `eliminateWith_exact` — every order of the rounds ends with the survivors.
-/

variable {τ : Type} {g h : LazyGraph τ} {n m : LazyNode τ} {k id : LazyNodeId}

/-! ### What should be left -/

/-- A node that stays whoever reads it. -/
def LazyNode.Anchored (n : LazyNode τ) : Prop :=
  n.status ≠ .Pending ∨ n.isOutput = true ∨ n.opType = .Unknown

/-- Node `b` consumes node `a`. -/
def ConsumedBy (g : LazyGraph τ) (a b : LazyNodeId) : Prop := Reads g b a

/-- An anchored node is reached along consumer edges. -/
def Live (g : LazyGraph τ) (k : LazyNodeId) : Prop :=
  ∃ j n, Relation.ReflTransGen (ConsumedBy g) k j ∧ g.find j = some n ∧ n.Anchored

/-- The inputs of the live nodes. -/
noncomputable def liveSlots (g : LazyGraph τ) : List LazyNodeId :=
  open Classical in (g.nodes.filter fun n => Live g n.id).flatMap LazyNode.inputs

/-- What is left under an id: the node, when it is live, with the number of live readers. -/
noncomputable def survivor (g : LazyGraph τ) (k : LazyNodeId) : Option (LazyNode τ) :=
  open Classical in
  if Live g k then
    (g.find k).map fun n => { n with refCount := UInt32.ofNat ((liveSlots g).count k) }
  else none

/-- The number of nodes that are not live. -/
noncomputable def deadCount (g : LazyGraph τ) : ℕ :=
  open Classical in (g.nodes.filter fun n => ¬ Live g n.id).length

/-! ### The rounds in any order -/

namespace LazyGraph

/-- The nodes that a round finds. -/
def deadIds (g : LazyGraph τ) : List LazyNodeId := (g.nodes.filter isDead).map LazyNode.id

/-- The rounds, each over its dead nodes in the order that `order` gives; `none` when they are not
    over after `fuel` rounds. -/
def eliminateWith (order : LazyGraph τ → List LazyNodeId) :
    ℕ → LazyGraph τ × ℕ → Option (LazyGraph τ × ℕ)
  | 0, _ => none
  | fuel + 1, (g, eliminated) =>
    let (g', removed) := (order g).foldl removeNode (g, 0)
    if removed = 0 then some (g', eliminated)
    else eliminateWith order fuel (g', eliminated + removed)

end LazyGraph

/-- A dead node is not anchored, and nobody counts it. -/
theorem isDead_iff : isDead n = true ↔ ¬ n.Anchored ∧ n.refCount = 0 := by
  unfold isDead LazyNode.Anchored
  rw [decide_eq_true_eq]
  constructor
  · rintro ⟨hpending, hzero, hplain, hop⟩
    simp [hpending, hzero, hplain, hop]
  · rintro ⟨hfree, hzero⟩
    push Not at hfree
    exact ⟨hfree.1, hzero, by simpa using hfree.2.1, hfree.2.2⟩

/-! ### The invariant -/

/-- A graph on the way: some nodes of `g` that are not live have been removed. -/
structure Pruned (g h : LazyGraph τ) : Prop where
  distinct : Keyed.Distinct LazyNode.id h.nodes
  closed : ∀ n ∈ h.nodes, ∀ k ∈ n.inputs, (h.find k).isSome
  counted : CountsTo h h.slots
  kept : ∀ k m, h.find k = some m → ∃ n, g.find k = some n ∧ m = { n with refCount := m.refCount }
  gone : ∀ k, (g.find k).isSome → h.find k = none → ¬ Live g k

theorem Pruned.refl (hd : Keyed.Distinct LazyNode.id g.nodes) (hw : WellFormed g) :
    Pruned g g where
  distinct := hd
  closed := hw.closed
  counted := hw.counted
  kept k m hm := ⟨m, hm, rfl⟩
  gone k hk hnone := by simp [hnone] at hk

/-- A node that is left reads what it read. -/
theorem Pruned.reads (hp : Pruned g h) {a b : LazyNodeId} (hread : Reads h a b) : Reads g a b := by
  obtain ⟨m, hm, hb⟩ := hread
  obtain ⟨n, hn, heq⟩ := hp.kept a m hm
  rw [heq] at hb
  exact ⟨n, hn, hb⟩

/-- A slot of the graph has a reader. -/
theorem exists_reader (hd : Keyed.Distinct LazyNode.id h.nodes) (hk : k ∈ h.slots) :
    ∃ a, Reads h a k := by
  obtain ⟨m, hm, hkm⟩ := mem_slots.mp hk
  exact ⟨m.id, m, hd.find_eq_some.mpr ⟨hm, rfl⟩, hkm⟩

/-- Nobody who is left reads a dead node. -/
theorem Pruned.unread (hp : Pruned g h) (hm : h.find k = some m) (hdead : isDead m = true) :
    k ∉ h.slots := by
  have hcount := hp.counted m (find_mem hm)
  rw [(isDead_iff.mp hdead).2, find_id hm, UInt32.toNat_zero] at hcount
  exact count_eq_zero.mp hcount.symm

/-- A dead node is not live: its readers are gone, and were not live. -/
theorem Pruned.dead_not_live (hp : Pruned g h) (hm : h.find k = some m) (hdead : isDead m = true) :
    ¬ Live g k := by
  obtain ⟨n, hn, heq⟩ := hp.kept k m hm
  rintro ⟨j, a, hpath, ha, hanchor⟩
  rcases hpath.cases_head with rfl | ⟨b, hread, hrest⟩
  · -- an anchored node is never dead
    obtain rfl : n = a := some.inj (hn.symm.trans ha)
    apply (isDead_iff.mp hdead).1
    rw [heq]
    exact hanchor
  · -- its reader `b` is live: it has not been removed, and so it still counts
    obtain ⟨c, hc, hkc⟩ := hread
    have hlive : Live g b := ⟨j, a, hrest, ha, hanchor⟩
    cases hb : h.find b with
    | none =>
      have hpresent : (g.find b).isSome := by simp [hc]
      exact hp.gone b hpresent hb hlive
    | some d =>
      obtain ⟨c', hc', hd⟩ := hp.kept b d hb
      obtain rfl : c = c' := some.inj (hc.symm.trans hc')
      have hslot : k ∈ d.inputs := by
        rw [hd]
        exact hkc
      exact hp.unread hm hdead (mem_slots.mpr ⟨d, find_mem hb, hslot⟩)

/-! ### Removing one node -/

theorem find_foldl_dropRef (l : List LazyNodeId) : ∀ (h : LazyGraph τ) (k : LazyNodeId)
    (m : LazyNode τ), (l.foldl dropRef h).find k = some m →
      ∃ n, h.find k = some n ∧ m = { n with refCount := m.refCount } := by
  induction l with
  | nil => exact fun h k m hm => ⟨m, hm, rfl⟩
  | cons j l ih =>
    intro h k m hm
    obtain ⟨n, hn, heq⟩ := ih _ k m hm
    unfold dropRef at hn
    rw [find_modify (fun n => by split_ifs <;> rfl)] at hn
    by_cases hkj : k = j
    · rw [if_pos hkj] at hn
      obtain ⟨n₀, hn₀, rfl⟩ := map_eq_some_iff.mp hn
      refine ⟨n₀, hn₀, ?_⟩
      rw [heq]
      split_ifs <;> rfl
    · rw [if_neg hkj] at hn
      exact ⟨n, hn, heq⟩

theorem find_dropNode_ne (hne : k ≠ id) : (dropNode h id n).find k
    = (n.inputs.foldl dropRef h).find k := by
  show Keyed.find LazyNode.id (Keyed.erase LazyNode.id _ id) k = _
  rw [Keyed.find_erase_ne hne]
  rfl

theorem find_dropNode_self : (dropNode h id n).find id = none := Keyed.find_erase_self

/-- **Removing a dead node.** -/
theorem Pruned.dropNode (hp : Pruned g h) (hm : h.find id = some m) (hdead : isDead m = true) :
    Pruned g (MetalNative.dropNode h id m) ∧
      h.nodes.length = (MetalNative.dropNode h id m).nodes.length + 1 := by
  have hsame := foldl_dropRef_sameShape m.inputs h
  have hunread := hp.unread hm hdead
  have hfind : (m.inputs.foldl dropRef h).find id = some m :=
    foldl_dropRef_find hdead m.inputs h hm
  have hdistinct : Keyed.Distinct LazyNode.id (m.inputs.foldl dropRef h).nodes := by
    unfold Keyed.Distinct
    rw [hsame.ids]
    exact hp.distinct
  have hperm := hdistinct.perm_cons_erase hfind
  -- the slots that are left are those of the other nodes
  have hslots : h.slots.Perm (m.inputs ++ (MetalNative.dropNode h id m).slots) := by
    rw [← hsame.slots]
    exact hperm.flatMap_right LazyNode.inputs
  have hmem : ∀ x ∈ (MetalNative.dropNode h id m).nodes,
      x ∈ (m.inputs.foldl dropRef h).nodes ∧ x.id ≠ id := fun x hx => Keyed.mem_erase.mp hx
  refine ⟨⟨hdistinct.erase id, ?_, ?_, ?_, ?_⟩, ?_⟩
  · -- what an input names is left: the node that goes has no readers
    intro x hx k hk
    have hslot : k ∈ (MetalNative.dropNode h id m).slots := mem_slots.mpr ⟨x, hx, hk⟩
    have hold : k ∈ h.slots := hslots.mem_iff.mpr (mem_append_right _ hslot)
    have hne : k ≠ id := fun heq => hunread (heq ▸ hold)
    obtain ⟨y, hy, hky⟩ := mem_slots.mp hold
    have hpresent := hp.closed y hy k hky
    rw [find_dropNode_ne hne, find_isSome_iff, hsame.ids, ← find_isSome_iff]
    exact hpresent
  · -- the counts lose one for each slot of the node
    have hcounts := foldl_dropRef_counts m.inputs h (hp.counted.perm hslots)
    intro x hx
    exact hcounts x (hmem x hx).1
  · -- the nodes that are left have changed their counts only
    intro k x hx
    by_cases hk : k = id
    · rw [hk, find_dropNode_self] at hx
      cases hx
    · rw [find_dropNode_ne hk] at hx
      obtain ⟨y, hy, hxy⟩ := find_foldl_dropRef _ _ _ _ hx
      obtain ⟨z, hz, hyz⟩ := hp.kept k y hy
      refine ⟨z, hz, ?_⟩
      rw [hxy, hyz]
  · -- what is gone is the node, or was gone before
    intro k hk hnone
    by_cases hkid : k = id
    · rw [hkid]
      exact hp.dead_not_live hm hdead
    · rw [find_dropNode_ne hkid] at hnone
      apply hp.gone k hk
      cases hfound : h.find k with
      | none => rfl
      | some x =>
        have hpresent : (h.find k).isSome := by simp [hfound]
        rw [find_isSome_iff, ← hsame.ids, ← find_isSome_iff, hnone] at hpresent
        cases hpresent
  · have hlen := hperm.length_eq
    rw [length_cons] at hlen
    have hids := congrArg length hsame.ids
    rw [length_map, length_map] at hids
    show h.nodes.length = (Keyed.erase LazyNode.id _ id).length + 1
    omega

/-- Removing some dead nodes. -/
theorem Pruned.removeAll : ∀ (ids : List LazyNodeId) (h : LazyGraph τ) (count : ℕ),
    Removable h ids → Pruned g h →
      Pruned g (ids.foldl removeNode (h, count)).1 ∧
        (ids.foldl removeNode (h, count)).2 = count + ids.length ∧
        h.nodes.length = (ids.foldl removeNode (h, count)).1.nodes.length + ids.length := by
  intro ids
  induction ids with
  | nil => exact fun h count _ hp => ⟨hp, rfl, rfl⟩
  | cons id ids ih =>
    intro h count hids hp
    obtain ⟨node, hn, hdead⟩ := hids.2 id mem_cons_self
    obtain ⟨hp', hlen'⟩ := hp.dropNode hn hdead
    obtain ⟨hpruned, hcount, hlen⟩ := ih _ (count + 1) hids.tail hp'
    rw [foldl_cons, removeNode_eq hn, length_cons]
    exact ⟨hpruned, by omega, by omega⟩

/-! ### One round -/

/-- The nodes that a round finds, in any order. -/
theorem Removable.of_perm {ids : List LazyNodeId} (hd : Keyed.Distinct LazyNode.id h.nodes)
    (hids : ids.Perm h.deadIds) : Removable h ids := by
  constructor
  · rw [hids.nodup_iff]
    exact hd.sublist (List.filter_sublist.map LazyNode.id)
  · intro id hid
    obtain ⟨x, hx, rfl⟩ := mem_map.mp (hids.mem_iff.mp hid)
    obtain ⟨hx, hdead⟩ := mem_filter.mp hx
    exact ⟨x, hd.find_eq_some.mpr ⟨hx, rfl⟩, hdead⟩

variable {order : LazyGraph τ → List LazyNodeId}

/-- **The rounds** end, with no dead node left. -/
theorem Pruned.rounds (horder : ∀ h, (order h).Perm h.deadIds) :
    ∀ (fuel : ℕ) (h : LazyGraph τ) (count : ℕ), Pruned g h → h.nodes.length < fuel →
      ∃ h' removed, eliminateWith order fuel (h, count) = some (h', count + removed) ∧
        Pruned g h' ∧ h'.deadIds = [] ∧ h.nodes.length = h'.nodes.length + removed := by
  intro fuel
  induction fuel with
  | zero =>
    intro h count _ hlt
    omega
  | succ fuel ih =>
    intro h count hp hlt
    have hids := Removable.of_perm hp.distinct (horder h)
    obtain ⟨hp', hcount, hlen⟩ := Pruned.removeAll (order h) h 0 hids hp
    rw [Nat.zero_add] at hcount
    unfold eliminateWith
    by_cases hzero : (order h).length = 0
    · -- the round has found nothing, which ends the loop
      have hnil := List.length_eq_zero_iff.mp hzero
      have hnone : h.deadIds = [] := by
        have hperm := horder h
        rw [hnil] at hperm
        exact hperm.nil_eq.symm
      refine ⟨h, 0, ?_, hp, hnone, rfl⟩
      simp [hnil]
    · -- the round has made the graph smaller, so the fuel is enough for the others
      obtain ⟨h', removed, hrun, hpruned, hnone, hlen'⟩ := ih _ (count + (order h).length) hp'
        (by omega)
      refine ⟨h', (order h).length + removed, ?_, hpruned, hnone, by omega⟩
      dsimp only
      rw [hcount, if_neg hzero, ← Nat.add_assoc]
      exact hrun

/-! ### What is left is live -/

/-- In an acyclic graph every node that is left is live once no dead node is left. -/
theorem Pruned.live (hp : Pruned g h) (hacyclic : ∀ a, ¬ Relation.TransGen (Reads g) a a)
    (hnone : h.deadIds = []) (hk : (h.find k).isSome) : Live g k := by
  let ids : Set LazyNodeId := {k | k ∈ h.nodes.map LazyNode.id}
  have : IsTrans LazyNodeId (Relation.TransGen (Reads g)) := ⟨fun _ _ _ => .trans⟩
  have : Std.Irrefl (Relation.TransGen (Reads g)) := ⟨hacyclic⟩
  have : IsStrictOrder LazyNodeId (Relation.TransGen (Reads g)) := {}
  have hwf : ids.WellFoundedOn (Relation.TransGen (Reads g)) :=
    (List.finite_toSet (h.nodes.map LazyNode.id)).wellFoundedOn
  -- readers come first in this order, so a node is looked at after everybody who reads it
  refine hwf.induction (P := Live g) (find_isSome_iff.mp hk) ?_
  intro k hk ih
  obtain ⟨m, hm⟩ := isSome_iff_exists.mp (find_isSome_iff.mpr hk)
  obtain ⟨n, hn, heq⟩ := hp.kept k m hm
  by_cases hanchor : n.Anchored
  · exact ⟨k, n, .refl, hn, hanchor⟩
  · have hanchor' : ¬ m.Anchored := by
      rw [heq]
      exact hanchor
    -- not anchored and not dead: somebody who is left reads it
    have hread : k ∈ h.slots := by
      by_contra hunread
      have hcount := hp.counted m (find_mem hm)
      rw [find_id hm, count_eq_zero.mpr hunread] at hcount
      have hzero : m.refCount = 0 := UInt32.toNat_inj.mp hcount
      have hdead : isDead m = true := isDead_iff.mpr ⟨hanchor', hzero⟩
      have hmem : m.id ∈ h.deadIds :=
        mem_map_of_mem (mem_filter.mpr ⟨find_mem hm, hdead⟩)
      rw [hnone] at hmem
      cases hmem
    obtain ⟨a, ha⟩ := exists_reader hp.distinct hread
    have hpresent : a ∈ ids := by
      obtain ⟨x, hx, -⟩ := ha
      show a ∈ h.nodes.map LazyNode.id
      rw [← find_isSome_iff, hx]
      rfl
    obtain ⟨j, b, hpath, hb, hb'⟩ := ih a hpresent (.single (hp.reads ha))
    exact ⟨j, b, hpath.head (hp.reads ha), hb, hb'⟩

section Survivors

variable (hd : Keyed.Distinct LazyNode.id g.nodes)
  (hacyclic : ∀ a, ¬ Relation.TransGen (Reads g) a a) (hp : Pruned g h) (hnone : h.deadIds = [])

include hacyclic hp hnone

/-- The ids that are left are those of the live nodes. -/
theorem Pruned.find_isSome_iff_live : (h.find k).isSome ↔ (g.find k).isSome ∧ Live g k := by
  constructor
  · intro hk
    obtain ⟨m, hm⟩ := isSome_iff_exists.mp hk
    obtain ⟨n, hn, -⟩ := hp.kept k m hm
    exact ⟨by simp [hn], hp.live hacyclic hnone hk⟩
  · rintro ⟨hk, hlive⟩
    by_contra hgone
    exact hp.gone k hk (not_isSome_iff_eq_none.mp hgone) hlive

include hd

open Classical in
/-- The ids and inputs that are left are those of the live nodes. -/
theorem Pruned.entries_perm : (h.nodes.map fun n => (n.id, n.inputs)).Perm
    ((g.nodes.filter fun n => Live g n.id).map fun n => (n.id, n.inputs)) := by
  have hnodup : ∀ l : List (LazyNode τ), Keyed.Distinct LazyNode.id l →
      (l.map fun n => (n.id, n.inputs)).Nodup := by
    intro l hl
    refine Nodup.of_map Prod.fst ?_
    rw [List.map_map]
    exact hl
  -- no id is there twice, so that the members decide
  refine (perm_ext_iff_of_nodup (hnodup _ hp.distinct) (hnodup _ ?_)).mpr ?_
  · exact hd.sublist (List.filter_sublist.map LazyNode.id)
  · intro entry
    simp only [List.mem_map, List.mem_filter, decide_eq_true_eq]
    constructor
    · rintro ⟨m, hm, rfl⟩
      have hfind : h.find m.id = some m := hp.distinct.find_eq_some.mpr ⟨hm, rfl⟩
      obtain ⟨n, hn, heq⟩ := hp.kept m.id m hfind
      have hinputs : n.inputs = m.inputs := by rw [heq]
      have hlive := hp.live hacyclic hnone (k := m.id) (by simp [hfind])
      exact ⟨n, ⟨find_mem hn, (find_id hn).symm ▸ hlive⟩, by rw [find_id hn, hinputs]⟩
    · rintro ⟨n, ⟨hn, hlive⟩, rfl⟩
      have hfind : g.find n.id = some n := hd.find_eq_some.mpr ⟨hn, rfl⟩
      have hleft : (h.find n.id).isSome :=
        (hp.find_isSome_iff_live hacyclic hnone).mpr ⟨by simp [hfind], hlive⟩
      obtain ⟨m, hm⟩ := isSome_iff_exists.mp hleft
      obtain ⟨n', hn', heq⟩ := hp.kept n.id m hm
      obtain rfl : n = n' := some.inj (hfind.symm.trans hn')
      have hinputs : m.inputs = n.inputs := by rw [heq]
      exact ⟨m, find_mem hm, by rw [find_id hm, hinputs]⟩

/-- Under every id the survivor is left. -/
theorem Pruned.find_eq_survivor (k : LazyNodeId) : h.find k = survivor g k := by
  have hslots : h.slots.Perm (liveSlots g) := by
    have hperm := (hp.entries_perm hd hacyclic hnone).flatMap_right Prod.snd
    rw [flatMap_map, flatMap_map] at hperm
    exact hperm
  have hiff := hp.find_isSome_iff_live hacyclic hnone (k := k)
  unfold survivor
  cases hm : h.find k with
  | none =>
    rw [hm] at hiff
    split_ifs with hlive
    · have hmissing : g.find k = none := by
        by_contra hne
        have hpresent := ne_none_iff_isSome.mp hne
        cases hiff.mpr ⟨hpresent, hlive⟩
      rw [hmissing, map_none]
    · rfl
  | some m =>
    obtain ⟨n, hn, heq⟩ := hp.kept k m hm
    rw [hm] at hiff
    rw [if_pos (hiff.mp rfl).2, hn, map_some]
    have hcount := hp.counted m (find_mem hm)
    rw [find_id hm, hslots.count_eq] at hcount
    have href : m.refCount = UInt32.ofNat ((liveSlots g).count k) := by
      rw [← hcount, UInt32.ofNat_toNat]
    rw [heq, href]

/-- The nodes that are not left are those that are not live. -/
theorem Pruned.deadCount_eq : g.nodes.length = h.nodes.length + deadCount g := by
  classical
  have hlen := (hp.entries_perm hd hacyclic hnone).length_eq
  rw [length_map, length_map] at hlen
  have hsplit := (filter_append_perm (fun n => decide (Live g n.id)) g.nodes).length_eq
  rw [length_append] at hsplit
  unfold deadCount
  simp only [decide_not]
  simp only [hlen]
  omega

end Survivors

/-- What is left is well formed. -/
theorem Pruned.wellFormed (hp : Pruned g h)
    (hacyclic : ∀ a, ¬ Relation.TransGen (Reads g) a a) : WellFormed h where
  closed := hp.closed
  acyclic a hcycle := hacyclic a (hcycle.lift id fun _ _ => hp.reads)
  counted := hp.counted

/-! ### The whole pass -/

/-- The pass over `g` is exact: it ends with the survivors in a well-formed graph, counts the nodes
    that are gone, and finds nothing when it is run again, in whatever order. -/
structure EliminatesDead (g : LazyGraph τ) (order : LazyGraph τ → List LazyNodeId)
    (g' : LazyGraph τ) (eliminated : ℕ) : Prop where
  terminates : eliminateWith order (g.nodes.length + 1) (g, 0) = some (g', eliminated)
  nodes : ∀ k, g'.find k = survivor g k
  number : eliminated = deadCount g
  distinct : Keyed.Distinct LazyNode.id g'.nodes
  wellFormed : WellFormed g'
  again : ∀ order' : LazyGraph τ → List LazyNodeId, (∀ h, (order' h).Perm h.deadIds) →
    eliminateWith order' (g'.nodes.length + 1) (g', 0) = some (g', 0)

/-- The rounds of the pass are those in the order of the map. -/
theorem eliminateRounds_eq : ∀ (fuel : ℕ) (st st' : LazyGraph τ × ℕ),
    eliminateWith deadIds fuel st = some st' → eliminateRounds fuel st = st' := by
  intro fuel
  induction fuel with
  | zero =>
    intro st st' h
    cases h
  | succ fuel ih =>
    intro st st' h
    obtain ⟨g, eliminated⟩ := st
    unfold eliminateWith at h
    unfold eliminateRounds eliminateRound
    dsimp only at h ⊢
    unfold deadIds at h
    split_ifs at h ⊢ with hzero
    · exact some.inj h
    · exact ih _ _ h

/-- **Dead-code elimination is exact**, in whatever order the map is iterated in each round. -/
theorem eliminateWith_exact (hd : Keyed.Distinct LazyNode.id g.nodes) (hw : WellFormed g)
    (horder : ∀ h, (order h).Perm h.deadIds) :
    ∃ g', EliminatesDead g order g' (deadCount g) := by
  obtain ⟨g', removed, hrun, hp, hnone, hlen⟩ :=
    Pruned.rounds horder (g.nodes.length + 1) g 0 (.refl hd hw) (Nat.lt_succ_self _)
  have hdead := hp.deadCount_eq hd hw.acyclic hnone
  obtain rfl : removed = deadCount g := by omega
  rw [Nat.zero_add] at hrun
  have hwf := hp.wellFormed hw.acyclic
  refine ⟨g', hrun, hp.find_eq_survivor hd hw.acyclic hnone, rfl, hp.distinct, hwf, ?_⟩
  intro order' horder'
  have hnil : order' g' = [] := by
    have hperm := horder' g'
    rw [hnone] at hperm
    exact hperm.eq_nil
  unfold eliminateWith
  simp [hnil]

/-- **`eliminate_dead_code`** removes exactly the nodes from which no anchored node is reached, and
    every other iteration order leaves the same nodes and removes as many. -/
theorem eliminateDeadCode_exact (hd : Keyed.Distinct LazyNode.id g.nodes) (hw : WellFormed g) :
    EliminatesDead g deadIds g.eliminateDeadCode.1 g.eliminateDeadCode.2 ∧
      ∀ order : LazyGraph τ → List LazyNodeId, (∀ h, (order h).Perm h.deadIds) →
        ∃ g', EliminatesDead g order g' g.eliminateDeadCode.2 := by
  have horder : ∀ h : LazyGraph τ, (deadIds h).Perm h.deadIds := fun h => .refl _
  obtain ⟨g', hexact⟩ := eliminateWith_exact hd hw horder
  have hcode : g.eliminateDeadCode = (g', deadCount g) :=
    eliminateRounds_eq _ _ _ hexact.terminates
  rw [hcode]
  exact ⟨hexact, fun order horder => eliminateWith_exact hd hw horder⟩

/-! ### What is left means what it meant -/

/-- A node that is left has the expression that it had. -/
theorem Pruned.view_eq (hp : Pruned g h) (hk : (h.find k).isSome) : h.view k = g.view k := by
  obtain ⟨m, hm⟩ := isSome_iff_exists.mp hk
  obtain ⟨n, hn, heq⟩ := hp.kept k m hm
  unfold LazyGraph.view
  rw [hm, hn, heq]
  rfl

/-- Its meaning is the same: all that it needs is left. -/
theorem Pruned.denotes_iff {β : Type} {leafVal : τ → β} {I : Operator → List β → Option β} {v : β}
    (hp : Pruned g h) (hk : (h.find k).isSome) :
    Denotes g.view leafVal I k v ↔ Denotes h.view leafVal I k v := by
  constructor
  · refine Denotes.restrict (S := fun j => (h.find j).isSome) (fun j hj => (hp.view_eq hj).symm)
      ?_ hk
    intro j op args hj hview i hi
    obtain ⟨n, hn, hn'⟩ := view_eq_some.mp hview
    obtain rfl := inputs_of_view hn'
    exact hp.closed n (find_mem hn) i hi
  · refine Denotes.extend fun j w hw => ?_
    have hj : (h.find j).isSome := by
      rw [← view_isSome, hw]
      rfl
    rw [← hp.view_eq hj, hw]

/-- What the pass leaves of a well-formed graph. -/
theorem GraphInv.pruned (hg : GraphInv g) : Pruned g g.eliminateDeadCode.1 := by
  obtain ⟨g', removed, hrounds, hp, -⟩ := Pruned.rounds (fun h => .refl (deadIds h))
    (g.nodes.length + 1) g 0 (.refl hg.shape.keys.distinct hg.wellFormed) (Nat.lt_succ_self _)
  have hcode : g.eliminateDeadCode = (g', 0 + removed) := eliminateRounds_eq _ _ _ hrounds
  rw [hcode]
  exact hp

/-- A node that is read twice by a dead one, and a chain that ends in an output. -/
def deadSquareCalls : List (GraphOp ℤ) :=
  [.recordInput 3, .recordUnary .Neg 1 [1] .Int64, .recordBinary .Mul 2 2 [1] .Int64,
    .recordUnary .Abs 1 [1] .Int64, .recordUnary .Neg 4 [1] .Int64, .markOutput 5,
    .rehash [3, 5, 1, 2, 4]]

theorem eliminateDeadCode_exact_square :
    ∃ g, Run.exec (graphStep scalarKernels) {} deadSquareCalls = some g ∧
      g.eliminateDeadCode.2 = 2 ∧ g.eliminateDeadCode.1.nodes.map LazyNode.id = [5, 1, 4] ∧
      EliminatesDead g deadIds g.eliminateDeadCode.1 g.eliminateDeadCode.2 := by
  have hsome : (Run.exec (graphStep scalarKernels) {} deadSquareCalls).isSome = true := by decide
  obtain ⟨g, hg⟩ := isSome_iff_exists.mp hsome
  have hkeep : Run.GuardedAlong (graphStep scalarKernels) KeepsCounts {} deadSquareCalls := by
    decide
  have hafter : (Run.exec (graphStep scalarKernels) {} deadSquareCalls).map
      (fun g => (g.eliminateDeadCode.2, g.eliminateDeadCode.1.nodes.map LazyNode.id))
        = some (2, [5, 1, 4]) := by decide
  rw [hg, map_some, some.injEq, Prod.mk.injEq] at hafter
  have hinv : GraphInv g := (Run.runs_exec hg hkeep).invariant GraphInv.init
    fun u op v hu hop hs => hu.step scalarKernels hop hs
  exact ⟨g, hg, hafter.1, hafter.2,
    (eliminateDeadCode_exact hinv.shape.keys.distinct hinv.wellFormed).1⟩

end MetalNative
