import MetalNative.Graph.LazyGraph

namespace MetalNative

/-!
# The node map of a lazy graph

How the operations on the map of `LazyGraph` act on its lookups, on its keys and on the list of
all input slots.

* `LazyGraph.Keys` — ids are distinct and below the next id.
* `find_modify`, `find_addNode` — lookups after an update.
* `LazyGraph.slots` — the inputs of all nodes, with multiplicity.
-/

variable {τ : Type} {g : LazyGraph τ} {n : LazyNode τ} {k id : LazyNodeId}

namespace LazyGraph

/-- Ids are distinct, and `allocate_id` has given out all of them. -/
structure Keys (g : LazyGraph τ) : Prop where
  distinct : Keyed.Distinct LazyNode.id g.nodes
  lt_next : ∀ n ∈ g.nodes, n.id < g.nextId

/-- The inputs of all nodes. -/
def slots (g : LazyGraph τ) : List LazyNodeId := g.nodes.flatMap LazyNode.inputs

/-! ### Lookups -/

theorem find_mem (h : g.find id = some n) : n ∈ g.nodes := Keyed.find_mem h

theorem find_id (h : g.find id = some n) : n.id = id := Keyed.find_key h

theorem find_isSome : (g.find id).isSome ↔ ∃ n ∈ g.nodes, n.id = id := Keyed.find_isSome

theorem Keys.find_of_mem (hg : g.Keys) (hn : n ∈ g.nodes) : g.find n.id = some n :=
  hg.distinct.find_eq_some.mpr ⟨hn, rfl⟩

theorem Keys.find_iff (hg : g.Keys) : g.find id = some n ↔ n ∈ g.nodes ∧ n.id = id :=
  hg.distinct.find_eq_some

theorem Keys.lt_of_isSome (hg : g.Keys) (h : (g.find id).isSome) : id < g.nextId := by
  obtain ⟨n, hn, rfl⟩ := find_isSome.mp h
  exact hg.lt_next n hn

/-! ### Updates in place -/

section Modify

variable {f : LazyNode τ → LazyNode τ}

theorem find_modify (hf : ∀ n, (f n).id = n.id) (g : LazyGraph τ) (id k : LazyNodeId) :
    (g.modify id f).find k = if k = id then (g.find k).map f else g.find k := by
  have hkey : ∀ n : LazyNode τ, (if n.id = id then f n else n).id = n.id := by
    intro n
    split_ifs
    · exact hf n
    · rfl
  unfold find modify
  rw [Keyed.find_map hkey]
  cases hfind : Keyed.find LazyNode.id g.nodes k with
  | none => simp
  | some n =>
    have hk := Keyed.find_key hfind
    by_cases h : k = id
    · rw [if_pos h, Option.map_some, Option.map_some, if_pos (hk.trans h)]
    · rw [if_neg h, Option.map_some, if_neg (hk ▸ h)]

/-- What an update of nodes does not touch stays. -/
theorem map_modify {α : Type} (proj : LazyNode τ → α) (hf : ∀ n, proj (f n) = proj n)
    (g : LazyGraph τ) (id : LazyNodeId) : (g.modify id f).nodes.map proj = g.nodes.map proj := by
  unfold modify
  rw [List.map_map]
  refine List.map_congr_left fun n _ => ?_
  simp only [Function.comp_apply]
  split_ifs
  · exact hf n
  · rfl

theorem mem_modify : n ∈ (g.modify id f).nodes ↔
    ∃ m ∈ g.nodes, n = if m.id = id then f m else m := by
  simp only [modify, List.mem_map, eq_comm]

/-- A graph with the same ids has good keys too. -/
theorem Keys.of_ids {g' : LazyGraph τ} (hg : g.Keys)
    (hids : g'.nodes.map LazyNode.id = g.nodes.map LazyNode.id) (hnext : g'.nextId = g.nextId) :
    g'.Keys := by
  refine ⟨by unfold Keyed.Distinct; rw [hids]; exact hg.distinct, fun n hn => ?_⟩
  have hmem : n.id ∈ g.nodes.map LazyNode.id := hids ▸ List.mem_map_of_mem hn
  obtain ⟨m, hm, hid⟩ := List.mem_map.mp hmem
  rw [hnext, ← hid]
  exact hg.lt_next m hm

theorem slots_eq (g : LazyGraph τ) : g.slots = (g.nodes.map LazyNode.inputs).flatten :=
  List.flatMap_def

end Modify

/-! ### Adding and erasing -/

theorem find_addNode (g : LazyGraph τ) (n : LazyNode τ) (k : LazyNodeId) :
    (g.addNode n).find k = if k = n.id then some n else g.find k := by
  unfold find addNode
  split_ifs with h
  · rw [h]
    exact Keyed.find_insert_self
  · exact Keyed.find_insert_ne h

/-- A node with a new id is put in front. -/
theorem insert_fresh {nodes : List (LazyNode τ)} (h : ∀ m ∈ nodes, m.id ≠ n.id) :
    Keyed.insert LazyNode.id nodes n = n :: nodes := by
  unfold Keyed.insert
  rw [Keyed.erase_eq_self (Keyed.find_eq_none.mpr h)]

theorem Keys.addNode_nodes (hg : g.Keys) (hn : n.id = g.nextId) :
    (g.addNode n).nodes = n :: g.nodes :=
  insert_fresh fun m hm => hn ▸ (hg.lt_next m hm).ne

theorem Keys.addNode (hg : g.Keys) (hn : n.id = g.nextId) : (g.addNode n).Keys := by
  refine ⟨hg.distinct.insert n, fun m hm => ?_⟩
  rw [hg.addNode_nodes hn] at hm
  show m.id < g.nextId + 1
  rcases List.mem_cons.mp hm with rfl | hm
  · exact hn ▸ Nat.lt_succ_self _
  · exact Nat.lt_succ_of_lt (hg.lt_next m hm)

theorem Keys.slots_addNode (hg : g.Keys) (hn : n.id = g.nextId) :
    (g.addNode n).slots = n.inputs ++ g.slots := by
  unfold slots
  rw [hg.addNode_nodes hn, List.flatMap_cons]

theorem mem_slots : k ∈ g.slots ↔ ∃ n ∈ g.nodes, k ∈ n.inputs := List.mem_flatMap

/-- The slots of a node are taken away with it. -/
theorem Keys.slots_perm (hg : g.Keys) (hn : g.find id = some n) :
    g.slots.Perm (n.inputs ++ (Keyed.erase LazyNode.id g.nodes id).flatMap LazyNode.inputs) :=
  (hg.distinct.perm_cons_erase hn).flatMap_right _

end LazyGraph

end MetalNative
