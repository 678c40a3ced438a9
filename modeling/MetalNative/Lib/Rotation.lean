import Mathlib.Data.Finset.Card
import Mathlib.Tactic.LinearCombination

/-!
# Rotations of pairs

Threads that each rotate one pair: a thread reads two numbers, a cosine and a sine, and stores the
two components of the rotation.

* `rotate`, `component` — a rotation and its components, over any commutative ring.
* `Reads` — where the four numbers are read.  `component_rotation_eq_iff`: a component tells them,
  once it is known for all contents of the tables.
* `writes` — stores, one for each item of a list.  `exists_of_touching`: where exactly one of them
  touches a place, with a value that depends on some contents, its item does not depend on them.
* `stores` — those of threads that rotate.  `touching_eq_iff`: what it takes that exactly one of them
  touches a place, with a component of a given rotation.
-/

namespace Rotation

/-! ### Rotations -/

variable {R : Type*} [CommRing R]

/-- The pair `(x, y)`, rotated by the angle with this cosine and this sine. -/
def rotate (x y c s : R) : R × R := (x * c - y * s, x * s + y * c)

/-- One of the two components of a pair. -/
def component {R : Type*} (second : Bool) (pair : R × R) : R := if second then pair.2 else pair.1

section Keys

variable {K L M : Type*}

/-- Where a rotation has its pair and its angle from. -/
@[ext] structure Reads (K L M : Type*) where
  first : K
  second : K
  cos : L
  sin : M

/-- The rotation of what is read there. -/
def Reads.rotation (r : Reads K L M) (f : K → R) (g : L → R) (g' : M → R) : R × R :=
  rotate (f r.first) (f r.second) (g r.cos) (g' r.sin)

/-- A table that is read at two keys with the same result, whatever it holds. -/
theorem key_eq_of_forall [Nontrivial R] {a b : K} (h : ∀ f : K → R, f a = f b) : a = b := by
  classical
  by_contra hne
  have hind := h (Function.update 0 a 1)
  rw [Function.update_self, Function.update_of_ne (Ne.symm hne)] at hind
  exact one_ne_zero hind

/-- A component is multiplied with one of the two numbers of its angle, and the other number of the
    pair with the other one. -/
theorem component_rotate (second : Bool) (x y c s : R) :
    component second (rotate x y c s) = if second then x * s + y * c else x * c - y * s := by
  cases second <;> rfl

/-- The components differ for a quarter turn of the pair `(1, 1)`. -/
theorem component_eq_of_quarter [NeZero (2 : R)] {second second' : Bool}
    (h : component second (rotate (1 : R) 1 0 1) = component second' (rotate 1 1 0 1)) :
    second = second' := by
  have htwo := NeZero.ne (2 : R)
  simp only [component_rotate] at h
  cases second <;> cases second' <;> simp at h ⊢
  · exact htwo (by linear_combination -h)
  · exact htwo (by linear_combination h)

/-- Components that agree for all contents are the same component of the same rotation. -/
theorem component_rotation_eq_iff [Nontrivial R] [NeZero (2 : R)] {second second' : Bool}
    {r r' : Reads K L M} :
    (∀ (f : K → R) (g : L → R) (g' : M → R),
      component second (r.rotation f g g') = component second' (r'.rotation f g g'))
      ↔ second = second' ∧ r = r' := by
  constructor
  · intro h
    have hsecond : second = second' := component_eq_of_quarter (h 1 0 1)
    subst hsecond
    refine ⟨rfl, ?_⟩
    simp only [Reads.rotation, component_rotate] at h
    cases second with
    | false =>
      -- each of the four numbers, with the other one of the angle set to zero
      ext
      · exact key_eq_of_forall (R := R) fun f => by simpa using h f 1 0
      · exact key_eq_of_forall (R := R) fun f => by simpa using h f 0 1
      · exact key_eq_of_forall (R := R) fun g => by simpa using h 1 g 0
      · exact key_eq_of_forall (R := R) fun g' => by simpa using h 1 0 g'
    | true =>
      ext
      · exact key_eq_of_forall (R := R) fun f => by simpa using h f 0 1
      · exact key_eq_of_forall (R := R) fun f => by simpa using h f 1 0
      · exact key_eq_of_forall (R := R) fun g => by simpa using h 1 g 0
      · exact key_eq_of_forall (R := R) fun g' => by simpa using h 1 0 g'
  · rintro ⟨rfl, rfl⟩ f g g'
    rfl

end Keys

/-! ### The stores of a launch -/

/-- A store. -/
structure Store (P R : Type*) where
  place : P
  value : R

section Writes

variable {S P C : Type*} {ss : List S} {hit : P → Bool} {place : S → P} {p : P}

/-- What is written, item by item. -/
def writes {R : Type*} (ss : List S) (place : S → P) (value : S → R) : List (Store P R) :=
  ss.map fun s => ⟨place s, value s⟩

/-- The stores that touch a place. -/
def touching {R : Type*} (hit : P → Bool) (ws : List (Store P R)) : List (Store P R) :=
  ws.filter fun w => hit w.place

/-- They come in the order of their items. -/
theorem touching_writes {R : Type*} (value : S → R) :
    touching hit (writes ss place value)
      = (ss.filter fun s => hit (place s)).map fun s => ⟨place s, value s⟩ := by
  unfold touching writes
  rw [List.filter_map]
  rfl

/-- One store touches a place, with a value that depends on some contents: there is an item for it,
    the same for all contents, and no other one. -/
theorem exists_of_touching {R : Type*} [Nonempty C] {value : C → S → R} {v : C → R}
    (h : ∀ c, touching hit (writes ss place (value c)) = [⟨p, v c⟩]) :
    ∃ s ∈ ss, place s = p ∧ hit p = true ∧ (∀ c, value c s = v c) ∧
      ∀ s' ∈ ss, hit (place s') = true → s' = s := by
  simp only [touching_writes, List.map_eq_singleton_iff, Store.mk.injEq] at h
  -- which items touch the place does not depend on the contents
  obtain ⟨c₀⟩ := ‹Nonempty C›
  obtain ⟨s, hs, hplace, -⟩ := h c₀
  have hvalue : ∀ c, value c s = v c := by
    intro c
    obtain ⟨s', hs', -, hval⟩ := h c
    rw [hs, List.singleton_inj] at hs'
    rw [hs']
    exact hval
  have hmem : s ∈ ss.filter fun s => hit (place s) := by
    rw [hs]
    exact List.mem_singleton_self _
  rw [List.mem_filter] at hmem
  refine ⟨s, hmem.1, hplace, hplace ▸ hmem.2, hvalue, ?_⟩
  intro s' hmem' hhit
  have hs' : s' ∈ ss.filter fun s => hit (place s) := List.mem_filter.mpr ⟨hmem', hhit⟩
  rw [hs] at hs'
  exact List.mem_singleton.mp hs'

/-- An item that alone touches a place. -/
theorem touching_eq_of_unique {R : Type*} (hnodup : ss.Nodup) {s : S} (hs : s ∈ ss)
    (hhit : hit (place s) = true) (huniq : ∀ s' ∈ ss, hit (place s') = true → s' = s)
    (value : S → R) : touching hit (writes ss place value) = [⟨place s, value s⟩] := by
  rw [touching_writes, List.map_eq_singleton_iff]
  refine ⟨s, ?_, rfl⟩
  apply List.perm_singleton.mp
  rw [List.perm_ext_iff_of_nodup (hnodup.filter _) (List.nodup_singleton _)]
  intro s'
  rw [List.mem_filter, List.mem_singleton]
  constructor
  · intro hmem
    exact huniq s' hmem.1 hmem.2
  · rintro rfl
    exact ⟨hs, hhit⟩

/-- No store touches a place. -/
theorem touching_eq_nil_iff {R : Type*} (value : S → R) :
    touching hit (writes ss place value) = [] ↔ ∀ s ∈ ss, hit (place s) = false := by
  rw [touching_writes, List.map_eq_nil_iff, List.filter_eq_nil_iff]
  simp

/-- The places do not depend on the values. -/
theorem forall_writes_iff {R : Type*} (Q : P → Prop) (value : S → R) :
    (∀ w ∈ writes ss place value, Q w.place) ↔ ∀ s ∈ ss, Q (place s) := by
  unfold writes
  rw [List.forall_mem_map]

/-- A copy tells where it has been read. -/
theorem exists_copy_of_touching [Nontrivial R] {K : Type*} {read : S → K} {k : K}
    (h : ∀ f : K → R, touching hit (writes ss place fun s => f (read s)) = [⟨p, f k⟩]) :
    ∃ s ∈ ss, place s = p ∧ read s = k ∧ hit p = true ∧
      ∀ s' ∈ ss, hit (place s') = true → s' = s := by
  obtain ⟨s, hs, hplace, hhit, hvalue, huniq⟩ := exists_of_touching h
  exact ⟨s, hs, hplace, key_eq_of_forall hvalue, hhit, huniq⟩

end Writes

section Launch

variable {T P K L M : Type*} {threads : List T} {slot : T × Bool}

/-- The two stores of each thread: of the first component and of the second one. -/
def slots (threads : List T) : List (T × Bool) :=
  threads.flatMap fun thread => [(thread, false), (thread, true)]

theorem mem_slots : slot ∈ slots threads ↔ slot.1 ∈ threads := by
  obtain ⟨thread, second⟩ := slot
  unfold slots
  simp only [List.mem_flatMap, List.mem_cons, List.not_mem_nil, or_false, Prod.mk.injEq]
  constructor
  · rintro ⟨t, ht, ⟨rfl, -⟩ | ⟨rfl, -⟩⟩
    · exact ht
    · exact ht
  · intro h
    cases second with
    | false => exact ⟨thread, h, .inl ⟨rfl, rfl⟩⟩
    | true => exact ⟨thread, h, .inr ⟨rfl, rfl⟩⟩

/-- Lists that are told apart by a key of their items. -/
theorem nodup_flatMap_of_key {A B : Type*} {l : List A} {f : A → List B} (key : B → A)
    (hl : l.Nodup) (hf : ∀ a ∈ l, (f a).Nodup) (hkey : ∀ a ∈ l, ∀ b ∈ f a, key b = a) :
    (l.flatMap f).Nodup := by
  rw [List.nodup_flatMap]
  refine ⟨hf, ?_⟩
  apply hl.imp_of_mem
  intro a a' ha ha' hne b hb hb'
  exact hne ((hkey a ha b hb).symm.trans (hkey a' ha' b hb'))

theorem nodup_slots (h : threads.Nodup) : (slots threads).Nodup := by
  unfold slots
  apply nodup_flatMap_of_key Prod.fst h
  · intro thread _
    simp
  · intro thread _ slot hslot
    simp only [List.mem_cons, List.not_mem_nil, or_false] at hslot
    rcases hslot with rfl | rfl <;> rfl

/-- What the threads store. -/
def stores (threads : List T) (place : T × Bool → P) (reads : T → Reads K L M) (f : K → R)
    (g : L → R) (g' : M → R) : List (Store P R) :=
  writes (slots threads) place fun slot => component slot.2 ((reads slot.1).rotation f g g')

variable {place : T × Bool → P} {reads : T → Reads K L M} {hit : P → Bool}

/-- One store touches a place, with a component of a rotation, whatever the tables hold: there is a
    slot for it, and no other one. -/
theorem exists_slot_of_touching [Nontrivial R] [NeZero (2 : R)] {p : P} {second : Bool}
    {r : Reads K L M}
    (h : ∀ (f : K → R) (g : L → R) (g' : M → R),
      touching hit (stores threads place reads f g g')
        = [⟨p, component second (r.rotation f g g')⟩]) :
    ∃ thread ∈ threads, place (thread, second) = p ∧ reads thread = r ∧ hit p = true ∧
      ∀ slot ∈ slots threads, hit (place slot) = true → slot = (thread, second) := by
  have hall := fun c : (K → R) × (L → R) × (M → R) => h c.1 c.2.1 c.2.2
  obtain ⟨⟨thread, b⟩, hslot, hplace, hhit, hvalue, huniq⟩ := exists_of_touching hall
  obtain ⟨rfl, hreads⟩ := component_rotation_eq_iff.mp fun f g g' => hvalue (f, g, g')
  exact ⟨thread, mem_slots.mp hslot, hplace, hreads, hhit, huniq⟩

/-- A slot that alone touches a place. -/
theorem touching_eq_singleton (hnodup : threads.Nodup) {thread : T} {second : Bool}
    (hthread : thread ∈ threads) (hhit : hit (place (thread, second)) = true)
    (huniq : ∀ slot ∈ slots threads, hit (place slot) = true → slot = (thread, second))
    (f : K → R) (g : L → R) (g' : M → R) :
    touching hit (stores threads place reads f g g')
      = [⟨place (thread, second), component second ((reads thread).rotation f g g')⟩] :=
  touching_eq_of_unique (nodup_slots hnodup) (mem_slots.mpr hthread) hhit huniq _

/-- Exactly one store touches a place, with a component of a rotation, whatever the tables hold. -/
theorem touching_eq_iff [Nontrivial R] [NeZero (2 : R)] (hnodup : threads.Nodup) {p : P}
    {second : Bool} {r : Reads K L M} :
    (∀ (f : K → R) (g : L → R) (g' : M → R),
      touching hit (stores threads place reads f g g')
        = [⟨p, component second (r.rotation f g g')⟩])
      ↔ ∃ thread ∈ threads, place (thread, second) = p ∧ reads thread = r ∧ hit p = true ∧
          ∀ slot ∈ slots threads, hit (place slot) = true → slot = (thread, second) := by
  constructor
  · exact exists_slot_of_touching
  · rintro ⟨thread, hthread, rfl, rfl, hhit, huniq⟩ f g g'
    exact touching_eq_singleton hnodup hthread hhit huniq f g g'

end Launch

end Rotation
