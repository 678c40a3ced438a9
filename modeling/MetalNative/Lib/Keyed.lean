import Mathlib.Data.List.Nodup
import Mathlib.Algebra.BigOperators.Group.List.Basic
import Mathlib.Algebra.GroupWithZero.Nat

namespace Keyed

/-!
# Finite maps as lists of keyed entries

A hash map whose entries know their key is a list of entries with a key function; the order of
the list is the iteration order.  `find`, `erase` and `insert` are the map's operations and
`Distinct` is the invariant that no key occurs twice.  Every lemma about `find` says what an
operation does to the map as a function of the key, so a proof never looks at the order.
-/

variable {κ β : Type*} [DecidableEq κ] (key : β → κ)

/-- The entry stored under `k`. -/
def find (l : List β) (k : κ) : Option β := l.find? (fun b => decide (key b = k))

/-- The map without its entry under `k`. -/
def erase (l : List β) (k : κ) : List β := l.filter (fun b => decide (key b ≠ k))

/-- The map with `b` stored under its key. -/
def insert (l : List β) (b : β) : List β := b :: erase key l (key b)

/-- No two entries share a key. -/
def Distinct (l : List β) : Prop := (l.map key).Nodup

variable {key} {l m : List β} {b : β} {k k' : κ}

/-! ### Lookups -/

theorem find_mem (h : find key l k = some b) : b ∈ l := List.mem_of_find?_eq_some h

theorem find_key (h : find key l k = some b) : key b = k := by
  simpa using List.find?_some h

theorem find_eq_none : find key l k = none ↔ ∀ b ∈ l, key b ≠ k := by
  simp [find]

theorem find_isSome : (find key l k).isSome ↔ ∃ b ∈ l, key b = k := by
  simp [find]

/-- In a map with distinct keys an entry is found under its key. -/
theorem Distinct.find_eq_some (hl : Distinct key l) :
    find key l k = some b ↔ b ∈ l ∧ key b = k := by
  refine ⟨fun h => ⟨find_mem h, find_key h⟩, ?_⟩
  rintro ⟨hb, rfl⟩
  induction l with
  | nil => simp at hb
  | cons c l ih =>
    obtain ⟨hc, hl⟩ := List.nodup_cons.mp hl
    rcases List.mem_cons.mp hb with rfl | hb
    · simp [find]
    · have hne : key c ≠ key b := fun h => hc (h ▸ List.mem_map_of_mem hb)
      have ih' := ih hl hb
      simpa [find, hne] using ih'

theorem Distinct.eq_of_key (hl : Distinct key l) {c : β} (hb : b ∈ l) (hc : c ∈ l)
    (h : key b = key c) : b = c := by
  have h1 := hl.find_eq_some.mpr ⟨hb, rfl⟩
  have h2 := hl.find_eq_some.mpr ⟨hc, rfl⟩
  rw [h, h2] at h1
  exact (Option.some.inj h1).symm

/-! ### Iteration order -/

omit [DecidableEq κ] in
theorem Distinct.perm (hl : Distinct key l) (h : l.Perm m) : Distinct key m :=
  (h.map key).nodup_iff.mp hl

/-- A map's contents do not depend on the iteration order. -/
theorem Distinct.find_perm (hl : Distinct key l) (h : l.Perm m) (k : κ) :
    find key m k = find key l k := by
  ext b
  rw [hl.find_eq_some, (hl.perm h).find_eq_some, h.mem_iff]

/-! ### Erasing and inserting -/

theorem mem_erase : b ∈ erase key l k ↔ b ∈ l ∧ key b ≠ k := by simp [erase]

/-- The keys that are left. -/
theorem map_key_erase (l : List β) (k : κ) :
    (erase key l k).map key = (l.map key).filter (· ≠ k) := by
  unfold erase
  rw [List.filter_map]
  rfl

theorem mem_insert {c : β} : c ∈ insert key l b ↔ c = b ∨ c ∈ l ∧ key c ≠ key b := by
  simp [insert, mem_erase]

theorem Distinct.erase (hl : Distinct key l) (k : κ) : Distinct key (erase key l k) :=
  hl.sublist (List.filter_sublist.map key)

theorem Distinct.insert (hl : Distinct key l) (b : β) : Distinct key (insert key l b) := by
  refine List.nodup_cons.mpr ⟨fun h => ?_, hl.erase _⟩
  obtain ⟨c, hc, hkey⟩ := List.mem_map.mp h
  exact (mem_erase.mp hc).2 hkey

@[simp] theorem find_erase_self : find key (erase key l k) k = none := by
  rw [find_eq_none]
  exact fun b hb => (mem_erase.mp hb).2

theorem find_erase_ne (h : k' ≠ k) : find key (erase key l k) k' = find key l k' := by
  induction l with
  | nil => rfl
  | cons c l ih =>
    simp only [find, erase] at ih ⊢
    by_cases hc : key c = k
    · have hck : key c ≠ k' := fun h' => h (h'.symm.trans hc)
      rw [List.filter_cons_of_neg (by simp [hc]), List.find?_cons_of_neg (by simp [hck]), ih]
    · rw [List.filter_cons_of_pos (by simp [hc]), List.find?_cons, List.find?_cons, ih]

@[simp] theorem find_insert_self : find key (insert key l b) (key b) = some b := by
  simp [find, insert]

theorem find_insert_ne (h : k ≠ key b) : find key (insert key l b) k = find key l k := by
  have hb : key b ≠ k := fun h' => h h'.symm
  rw [← find_erase_ne (l := l) h]
  simp [find, insert, hb]

/-- Erasing a key that does not occur. -/
theorem erase_eq_self (h : find key l k = none) : erase key l k = l := by
  refine List.filter_eq_self.mpr fun b hb => ?_
  simpa using find_eq_none.mp h b hb

/-- An entry is the only one with its key. -/
theorem Distinct.erase_append_cons (hl : Distinct key (l ++ b :: m)) :
    Keyed.erase key (l ++ b :: m) (key b) = l ++ m := by
  unfold Distinct at hl
  rw [List.map_append, List.map_cons, List.nodup_append, List.nodup_cons] at hl
  obtain ⟨-, ⟨hafter, -⟩, hbefore⟩ := hl
  have hl' : l.filter (fun c => decide (key c ≠ key b)) = l := by
    refine List.filter_eq_self.mpr fun c hc => ?_
    simpa using hbefore (key c) (List.mem_map_of_mem hc) (key b) (by simp)
  have hm' : m.filter (fun c => decide (key c ≠ key b)) = m := by
    refine List.filter_eq_self.mpr fun c hc => ?_
    simpa using fun h : key c = key b => hafter (h ▸ List.mem_map_of_mem hc)
  rw [Keyed.erase, List.filter_append, List.filter_cons_of_neg (by simp), hl', hm']

/-- Taking an entry out leaves the others. -/
theorem Distinct.perm_cons_erase (hl : Distinct key l) (h : find key l k = some b) :
    l.Perm (b :: Keyed.erase key l k) := by
  induction l with
  | nil => simp [find] at h
  | cons c l ih =>
    obtain ⟨hc, hl⟩ := List.nodup_cons.mp hl
    by_cases hck : key c = k
    · have hcb : c = b := by simpa [find, hck] using h
      have hrest : Keyed.erase key l k = l := by
        refine erase_eq_self (find_eq_none.mpr fun d hd hdk => hc ?_)
        rw [hck, ← hdk]
        exact List.mem_map_of_mem hd
      rw [Keyed.erase, List.filter_cons_of_neg (by simp [hck]), hcb]
      exact (List.Perm.of_eq hrest.symm).cons b
    · have hfind : find key l k = some b := by
        unfold find at h ⊢
        rwa [List.find?_cons_of_neg (by simp [hck])] at h
      rw [Keyed.erase, List.filter_cons_of_pos (by simp [hck])]
      exact ((ih hl hfind).cons c).trans (List.Perm.swap b c _)

/-! ### Updating the entries in place -/

variable {f : β → β}

omit [DecidableEq κ] in
theorem Distinct.map (hl : Distinct key l) (hf : ∀ b, key (f b) = key b) :
    Distinct key (l.map f) := by
  have : (l.map f).map key = l.map key := by
    rw [List.map_map]
    exact List.map_congr_left fun b _ => hf b
  unfold Distinct
  rwa [this]

theorem find_map (hf : ∀ b, key (f b) = key b) (k : κ) :
    find key (l.map f) k = (find key l k).map f := by
  have : (fun b => decide (key (f b) = k)) = fun b => decide (key b = k) :=
    funext fun b => by rw [hf]
  rw [find, List.find?_map]
  simp only [Function.comp_def, this, find]

/-! ### Replacing one entry of a vector -/

omit [DecidableEq κ] in
/-- After storing `c` at position `i`, an entry is `c` or an old one with another key. -/
theorem Distinct.mem_set (hl : Distinct key l) {i : ℕ} {c x : β} (hi : l[i]? = some b)
    (hx : x ∈ l.set i c) : x = c ∨ (x ∈ l ∧ key x ≠ key b) := by
  obtain ⟨j, hj⟩ := List.mem_iff_getElem?.mp hx
  rw [List.getElem?_set] at hj
  split at hj
  · split at hj
    · exact .inl (Option.some.inj hj).symm
    · cases hj
  · rename_i hij
    refine .inr ⟨List.mem_of_getElem? hj, fun hkey => hij ?_⟩
    have hmi : (l.map key)[i]? = some (key b) := by simp [hi]
    have hmj : (l.map key)[j]? = some (key b) := by simp [hj, hkey]
    exact (List.getElem?_inj (List.getElem?_eq_some_iff.mp hmi).1 hl).mp (hmi.trans hmj.symm)

omit [DecidableEq κ] in
theorem Distinct.set (hl : Distinct key l) {i : ℕ} {c : β} (hi : l[i]? = some b)
    (hc : key c = key b) : Distinct key (l.set i c) := by
  have hmap : (l.set i c).map key = l.map key := by
    obtain ⟨hlt, rfl⟩ := List.getElem?_eq_some_iff.mp hi
    rw [List.map_set, hc, ← List.getElem_map key (h := by simpa using hlt)]
    exact List.set_getElem_self _
  unfold Distinct
  rwa [hmap]

/-! ### Summing over the entries -/

/-- Exactly one entry of a list with distinct keys has a key that occurs. -/
theorem Distinct.sum_ite (hl : Distinct key l) {k : κ} (hk : ∃ b ∈ l, key b = k) (n : ℕ) :
    (l.map fun b => if key b = k then n else 0).sum = n := by
  induction l with
  | nil => simp at hk
  | cons c l ih =>
    obtain ⟨hc, hl⟩ := List.nodup_cons.mp hl
    rw [List.map_cons, List.sum_cons]
    by_cases h : key c = k
    · have hrest : (l.map fun b => if key b = k then n else 0).sum = 0 := by
        rw [List.sum_eq_zero]
        intro x hx
        obtain ⟨b, hb, rfl⟩ := List.mem_map.mp hx
        rw [if_neg fun hb' => hc ?_]
        rw [h, ← hb']
        exact List.mem_map_of_mem hb
      rw [if_pos h, hrest, Nat.add_zero]
    · obtain ⟨b, hb, hbk⟩ := hk
      have hb' : b ∈ l := by
        rcases List.mem_cons.mp hb with rfl | hb
        · exact absurd hbk h
        · exact hb
      rw [if_neg h, Nat.zero_add, ih hl ⟨b, hb', hbk⟩]

/-- Items that each refer to an entry are summed by summing the items of every entry. -/
theorem Distinct.sum_fibers {γ : Type*} (hl : Distinct key l) (k : γ → Option κ) (f : γ → ℕ)
    {xs : List γ} (hx : ∀ x ∈ xs, ∃ b ∈ l, k x = some (key b)) :
    (l.map fun b => ((xs.filter fun x => decide (k x = some (key b))).map f).sum).sum
      = (xs.map f).sum := by
  induction xs with
  | nil => simp
  | cons x xs ih =>
    obtain ⟨c, hc, hkx⟩ := hx x (by simp)
    have hfiber : ∀ b, (((x :: xs).filter fun x => decide (k x = some (key b))).map f).sum
        = (if key b = key c then f x else 0)
          + ((xs.filter fun x => decide (k x = some (key b))).map f).sum := by
      intro b
      by_cases hb : key b = key c
      · rw [if_pos hb, List.filter_cons_of_pos (by simp [hkx, hb]), List.map_cons, List.sum_cons]
      · have hne : k x ≠ some (key b) := by
          rw [hkx]
          exact fun h => hb (Option.some.inj h).symm
        rw [if_neg hb, List.filter_cons_of_neg (by simp [hne]), Nat.zero_add]
    simp only [hfiber]
    rw [List.sum_map_add, hl.sum_ite ⟨c, hc, rfl⟩, ih fun y hy => hx y (by simp [hy]),
      List.map_cons, List.sum_cons]

end Keyed
