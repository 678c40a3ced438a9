import MetalNative.Lib.Keyed
import MetalNative.Lib.Run

namespace MemoTable

open Keyed Run

/-!
# Tables of results by key

A function `build` is computed through a table: a call is looked up by its `key`, and computed and
stored when it is not there.  The table holds a bounded number of rows and drops the one that was
used least recently.

* `step` — one call; the label carries the clock, the capacity, and the place of a new row.
* `Separates` — two calls with one key have one result.
* `TableInv.step`, `runs_answer` — as long as each call is separated from those before it, every
  answer is the result.
* `Log.call` — a call, with a record of the uses of the keys and of the insertions.
* `Log.Inv` — the table holds the time of the last use of each key, drops a key used least recently,
  and is within its capacity after an insertion exactly if it was before.
-/

/-- A row of the table. -/
structure Row (κ γ : Type*) where
  key : κ
  value : γ
  last_access : ℕ

/-- One call, the time, where in the order of the rows a new one is put, and how many rows there
    may be. -/
structure Request (C : Type*) where
  call : C
  now : ℕ
  place : ℕ
  capacity : ℕ

/-- The table, the calls so far, and the last one with its answer. -/
structure State (C κ γ ε : Type*) where
  rows : List (Row κ γ) := []
  history : List C := []
  last : Option (C × Except ε γ) := none

variable {C κ γ ε : Type*} [DecidableEq κ] (key : C → κ) (build : C → Except ε γ)

/-- The first row of those that were used least recently. -/
def oldest : List (Row κ γ) → Option (Row κ γ)
  | [] => none
  | row :: rows =>
    match oldest rows with
    | none => some row
    | some old => if old.last_access < row.last_access then some old else some row

/-- A full table drops its oldest row. -/
def evict (capacity : ℕ) (rows : List (Row κ γ)) : List (Row κ γ) :=
  if rows.length < capacity then rows
  else
    match oldest rows with
    | none => rows
    | some old => rows.filter fun row => row.key ≠ old.key

/-- A new row at a place. -/
def store (place : ℕ) (row : Row κ γ) (rows : List (Row κ γ)) : List (Row κ γ) :=
  rows.take place ++ row :: rows.drop place

/-- The row of a key has been used. -/
def touch (k : κ) (now : ℕ) (rows : List (Row κ γ)) : List (Row κ γ) :=
  rows.map fun row => if row.key = k then { row with last_access := now } else row

/-- The rows after a call, and its answer. -/
def answer (rows : List (Row κ γ)) (req : Request C) : List (Row κ γ) × Except ε γ :=
  match rows.find? fun row => row.key = key req.call with
  | some row => (touch (key req.call) req.now rows, .ok row.value)
  | none =>
    match build req.call with
    | .error e => (rows, .error e)
    | .ok value =>
      (store req.place ⟨key req.call, value, req.now⟩ (evict req.capacity rows), .ok value)

/-- One call. -/
def step (s : State C κ γ ε) (req : Request C) : Option (State C κ γ ε) :=
  some
    { rows := (answer key build s.rows req).1
      history := req.call :: s.history
      last := some (req.call, (answer key build s.rows req).2) }

/-- Two calls with one key have one result. -/
def Separates (c d : C) : Prop := key c = key d → build c = build d

/-- Every row is the result of an earlier call with its key, and the last answer was right. -/
structure TableInv (s : State C κ γ ε) : Prop where
  rows : ∀ row ∈ s.rows, ∃ c ∈ s.history, key c = row.key ∧ build c = .ok row.value
  last : ∀ r ∈ s.last, r.2 = build r.1

section Lemmas

variable {key build} {s s' : State C κ γ ε} {req : Request C} {rows : List (Row κ γ)}

theorem mem_evict {capacity : ℕ} {row : Row κ γ}
    (h : row ∈ evict capacity rows) : row ∈ rows := by
  unfold evict at h
  split at h
  · exact h
  · split at h
    · exact h
    · exact List.mem_of_mem_filter h

omit [DecidableEq κ] in
theorem mem_store {place : ℕ} {new row : Row κ γ}
    (h : row ∈ store place new rows) : row = new ∨ row ∈ rows := by
  rcases List.mem_append.mp h with h | h
  · exact .inr (List.mem_of_mem_take h)
  · exact (List.mem_cons.mp h).imp id List.mem_of_mem_drop

/-- A used row keeps its key and its value. -/
theorem mem_touch {k : κ} {now : ℕ} {row : Row κ γ}
    (h : row ∈ touch k now rows) : ∃ old ∈ rows, old.key = row.key ∧ old.value = row.value := by
  obtain ⟨old, hold, rfl⟩ := List.mem_map.mp h
  refine ⟨old, hold, ?_⟩
  split <;> exact ⟨rfl, rfl⟩

/-- **Step.**  A call that is separated from all calls before it gets its result. -/
theorem TableInv.step (hi : TableInv key build s)
    (hsep : ∀ c ∈ s.history, Separates key build c req.call)
    (h : MemoTable.step key build s req = some s') : TableInv key build s' := by
  obtain rfl := Option.some.inj h
  have hkept : ∀ rows : List (Row κ γ), (∀ row ∈ rows, row ∈ s.rows) → ∀ row ∈ rows,
      ∃ c ∈ req.call :: s.history, key c = row.key ∧ build c = .ok row.value := by
    intro rows hsub row hrow
    obtain ⟨c, hc, hrest⟩ := hi.rows row (hsub row hrow)
    exact ⟨c, List.mem_cons_of_mem _ hc, hrest⟩
  unfold answer
  cases hfind : s.rows.find? fun row => row.key = key req.call with
  | some row =>
    obtain ⟨c, hc, hkey, hbuild⟩ := hi.rows row (List.mem_of_find?_eq_some hfind)
    have hsame : row.key = key req.call := by
      simpa using List.find?_some hfind
    refine ⟨fun r hr => ?_, fun r hr => ?_⟩
    · obtain ⟨old, hold, hk, hv⟩ := mem_touch hr
      obtain ⟨c, hc, hkey, hbuild⟩ := hi.rows old hold
      exact ⟨c, List.mem_cons_of_mem _ hc, hkey.trans hk, hv ▸ hbuild⟩
    · -- a hit: the row was built for a call with this key
      obtain rfl := Option.mem_some.mp hr
      exact hbuild.symm.trans (hsep c hc (hkey.trans hsame))
  | none =>
    cases hbuild : build req.call with
    | error e =>
      refine ⟨hkept s.rows fun _ h => h, fun r hr => ?_⟩
      obtain rfl := Option.mem_some.mp hr
      exact hbuild.symm
    | ok value =>
      refine ⟨fun r hr => ?_, fun r hr => ?_⟩
      · rcases mem_store hr with rfl | hr
        · exact ⟨req.call, List.mem_cons_self .., rfl, hbuild⟩
        · exact hkept _ (fun _ h => mem_evict h) r hr
      · obtain rfl := Option.mem_some.mp hr
        exact hbuild.symm

omit [DecidableEq κ] in
theorem TableInv.init : TableInv key build ({} : State C κ γ ε) where
  rows row h := absurd h List.not_mem_nil
  last r h := by cases h

/-- The calls of a run so far. -/
theorem history_step (h : MemoTable.step key build s req = some s') :
    s'.history = req.call :: s.history := by
  obtain rfl := Option.some.inj h
  rfl

/-- **Runs.**  Where calls with a property `P` are made, and each is separated from those with `P`
    to which it stands in the relation `R`, every answer is the result. -/
theorem runs_answer {P : C → Prop} {R : C → C → Prop}
    (hsep : ∀ c d, P c → P d → R c d → Separates key build c d)
    (h : Runs (MemoTable.step key build)
      (fun s req => P req.call ∧ ∀ c ∈ s.history, R c req.call) {} s) :
    ∀ r ∈ s.last, r.2 = build r.1 := by
  have hinv : TableInv key build s ∧ ∀ c ∈ s.history, P c := by
    refine h.invariant (P := fun u => TableInv key build u ∧ ∀ c ∈ u.history, P c)
      ⟨.init, fun c hc => absurd hc List.not_mem_nil⟩ ?_
    rintro u req v ⟨hi, hP⟩ ⟨hcall, hR⟩ hstep
    refine ⟨hi.step (fun c hc => hsep c _ (hP c hc) hcall (hR c hc)) hstep, fun c hc => ?_⟩
    rw [history_step hstep] at hc
    rcases List.mem_cons.mp hc with rfl | hc
    · exact hcall
    · exact hP c hc
  exact hinv.1.last

end Lemmas

/-! ### Uses and insertions -/

/-- What an insertion found and left: the capacity, and the uses and rows before and after it. -/
structure Insertion (κ γ : Type*) where
  key : κ
  capacity : ℕ
  uses : List (κ × ℕ)
  before : List (Row κ γ)
  after : List (Row κ γ)

namespace Insertion

variable {κ γ : Type*}

/-- The rows are within the capacity. -/
def Within (i : Insertion κ γ) : Prop := i.after.length ≤ i.capacity

/-- They were so before. -/
def WithinBefore (i : Insertion κ γ) : Prop := i.before.length ≤ i.capacity

/-- The key is there. -/
def Present (i : Insertion κ γ) : Prop := i.key ∈ i.after.map Row.key

/-- No key that was there has been used before one that is dropped. -/
def EvictsOldest [DecidableEq κ] (i : Insertion κ γ) : Prop :=
  ∀ row ∈ i.before, row.key ∉ i.after.map Row.key → ∀ other ∈ i.before,
    ∃ t ∈ i.uses.lookup row.key, ∃ u ∈ i.uses.lookup other.key, t ≤ u

instance (i : Insertion κ γ) : Decidable i.Within := inferInstanceAs (Decidable (_ ≤ _))

instance (i : Insertion κ γ) : Decidable i.WithinBefore := inferInstanceAs (Decidable (_ ≤ _))

end Insertion

/-- A table with the uses of its keys, the latest first, and the insertions. -/
structure Log (κ γ : Type*) where
  rows : List (Row κ γ) := []
  uses : List (κ × ℕ) := []
  insertions : List (Insertion κ γ) := []

section Log

variable {C κ γ ε : Type*} [DecidableEq κ] (key : C → κ) (build : C → Except ε γ)

/-- Whether a call is a miss that builds a result. -/
def inserts (rows : List (Row κ γ)) (c : C) : Bool :=
  (find Row.key rows (key c)).isNone && (build c).isOk

/-- One call. -/
def Log.call (t : Log κ γ) (req : Request C) : Log κ γ :=
  let rows := (answer key build t.rows req).1
  if inserts key build t.rows req.call then
    { rows
      uses := (key req.call, req.now) :: t.uses
      insertions := ⟨key req.call, req.capacity, t.uses, t.rows, rows⟩ :: t.insertions }
  else if (find Row.key t.rows (key req.call)).isSome then
    { t with rows, uses := (key req.call, req.now) :: t.uses }
  else { t with rows }

/-- The rows have different keys, and the time of the last use of each. -/
structure Timed (uses : List (κ × ℕ)) (rows : List (Row κ γ)) : Prop where
  distinct : Distinct Row.key rows
  time : ∀ row ∈ rows, uses.lookup row.key = some row.last_access

/-- The times are right, and every insertion kept its key, dropped a key used least recently, and
    left the table within the capacity exactly if it was so before. -/
structure Log.Inv (t : Log κ γ) : Prop where
  timed : Timed t.uses t.rows
  present : ∀ i ∈ t.insertions, i.Present
  evictsOldest : ∀ i ∈ t.insertions, i.EvictsOldest
  within_iff : ∀ i ∈ t.insertions, i.Within ↔ i.WithinBefore

variable {key build} {rows : List (Row κ γ)} {uses : List (κ × ℕ)} {old : Row κ γ}

omit [DecidableEq κ] in
theorem oldest_eq_none : oldest rows = none ↔ rows = [] := by
  cases rows with
  | nil => simp [oldest]
  | cons row rows =>
    simp only [oldest, reduceCtorEq, iff_false]
    split
    · simp
    · split <;> simp

omit [DecidableEq κ] in
/-- The oldest row is one that was used least recently. -/
theorem oldest_spec (h : oldest rows = some old) :
    old ∈ rows ∧ ∀ row ∈ rows, old.last_access ≤ row.last_access := by
  induction rows generalizing old with
  | nil => simp [oldest] at h
  | cons row rows ih =>
    unfold oldest at h
    split at h
    next hnone =>
      obtain rfl := Option.some.inj h
      simp [oldest_eq_none.mp hnone]
    next prev hprev =>
      obtain ⟨hmem, hle⟩ := ih hprev
      split_ifs at h with hlt
      · obtain rfl := Option.some.inj h
        refine ⟨List.mem_cons_of_mem _ hmem, List.forall_mem_cons.mpr ⟨Nat.le_of_lt hlt, hle⟩⟩
      · obtain rfl := Option.some.inj h
        refine ⟨List.mem_cons_self .., List.forall_mem_cons.mpr ⟨Nat.le_refl _, fun r hr => ?_⟩⟩
        exact Nat.le_trans (Nat.not_lt.mp hlt) (hle r hr)

/-- A table that is full drops one row, which was used least recently. -/
theorem evict_spec {capacity : ℕ} (hpos : 0 < capacity) (hd : Distinct Row.key rows) :
    (rows.length < capacity ∧ evict capacity rows = rows) ∨
    (capacity ≤ rows.length ∧ (evict capacity rows).length + 1 = rows.length ∧ ∃ old ∈ rows,
      (∀ row ∈ rows, old.last_access ≤ row.last_access) ∧
        evict capacity rows = erase Row.key rows old.key) := by
  unfold evict
  split_ifs with hlt
  · exact .inl ⟨hlt, rfl⟩
  · right
    split
    next hnone =>
      rw [oldest_eq_none] at hnone
      simp [hnone] at hlt
      omega
    next old hold =>
      obtain ⟨hmem, hle⟩ := oldest_spec hold
      have hperm := hd.perm_cons_erase (hd.find_eq_some.mpr ⟨hmem, rfl⟩)
      exact ⟨Nat.not_lt.mp hlt, hperm.length_eq.symm, old, hmem, hle, rfl⟩

/-- A use of a key that is there. -/
theorem Timed.touch (h : Timed uses rows) (k : κ) (now : ℕ) :
    Timed ((k, now) :: uses) (touch k now rows) := by
  refine ⟨h.distinct.map fun row => by split <;> rfl, fun row hrow => ?_⟩
  obtain ⟨prev, hprev, rfl⟩ := List.mem_map.mp hrow
  split_ifs with hk
  · simp [hk]
  · have hne : (prev.key == k) = false := beq_false_of_ne hk
    simp [List.lookup_cons, hne, h.time prev hprev]

theorem Timed.erase (h : Timed uses rows) (k : κ) : Timed uses (erase Row.key rows k) :=
  ⟨h.distinct.erase k, fun row hrow => h.time row (mem_erase.mp hrow).1⟩

theorem Timed.store (h : Timed uses rows) {k : κ} (hk : ∀ row ∈ rows, row.key ≠ k) (place : ℕ)
    (value : γ) (now : ℕ) : Timed ((k, now) :: uses) (store place ⟨k, value, now⟩ rows) := by
  have hperm : (MemoTable.store place ⟨k, value, now⟩ rows).Perm (⟨k, value, now⟩ :: rows) := by
    unfold MemoTable.store
    refine List.perm_middle.trans ?_
    rw [List.take_append_drop]
  have hd : Distinct Row.key (⟨k, value, now⟩ :: rows : List (Row κ γ)) := by
    refine List.nodup_cons.mpr ⟨fun hmem => ?_, h.distinct⟩
    obtain ⟨row, hrow, hkey⟩ := List.mem_map.mp hmem
    exact hk row hrow hkey
  refine ⟨hd.perm hperm.symm, fun row hrow => ?_⟩
  obtain rfl | hrow := List.mem_cons.mp (hperm.mem_iff.mp hrow)
  · simp
  · have hne : (row.key == k) = false := beq_false_of_ne (hk row hrow)
    simp [List.lookup_cons, hne, h.time row hrow]

/-- The table after an insertion. -/
theorem Timed.insertion (h : Timed uses rows) {k : κ} (hk : ∀ row ∈ rows, row.key ≠ k)
    {capacity : ℕ} (hpos : 0 < capacity) (place : ℕ) (value : γ) (now : ℕ) :
    let i : Insertion κ γ :=
      ⟨k, capacity, uses, rows, MemoTable.store place ⟨k, value, now⟩ (evict capacity rows)⟩
    Timed ((k, now) :: uses) i.after ∧ i.Present ∧ i.EvictsOldest ∧ (i.Within ↔ i.WithinBefore) := by
  intro i
  have hkept : ∀ row ∈ evict capacity rows, row.key ∈ i.after.map Row.key := by
    intro row hrow
    refine List.mem_map_of_mem ?_
    simp only [i, MemoTable.store, List.mem_append, List.mem_cons]
    rw [← List.take_append_drop place (evict capacity rows)] at hrow
    exact (List.mem_append.mp hrow).imp id .inr
  have hpresent : i.Present := by
    refine List.mem_map.mpr ⟨⟨k, value, now⟩, ?_, rfl⟩
    simp [i, MemoTable.store]
  have hlength : i.after.length = (evict capacity rows).length + 1 := by
    simp only [i, MemoTable.store, List.length_append, List.length_cons, List.length_take,
      List.length_drop]
    omega
  have hevicted : Timed uses (evict capacity rows) := by
    obtain ⟨-, heq⟩ | ⟨-, -, old, -, -, heq⟩ := evict_spec hpos h.distinct
    · rw [heq]
      exact h
    · rw [heq]
      exact h.erase old.key
  refine ⟨hevicted.store (fun row hrow => hk row (mem_evict hrow)) place value now, hpresent, ?_, ?_⟩
  · intro row hrow hgone other hother
    refine ⟨_, h.time row hrow, _, h.time other hother, ?_⟩
    obtain ⟨-, heq⟩ | ⟨-, -, old, hmem, hle, heq⟩ := evict_spec hpos h.distinct
    · rw [heq] at hkept
      exact absurd (hkept row hrow) hgone
    · by_cases hold : row.key = old.key
      · rw [h.distinct.eq_of_key hrow hmem hold]
        exact hle other hother
      · rw [heq] at hkept
        exact absurd (hkept row (mem_erase.mpr ⟨hrow, hold⟩)) hgone
  · unfold Insertion.Within Insertion.WithinBefore
    rw [hlength]
    obtain ⟨hlt, heq⟩ | ⟨hfull, hlen, -⟩ := evict_spec hpos h.distinct
    · rw [heq]
      simp only [i]
      omega
    · simp only [i]
      omega

omit [DecidableEq κ] in
theorem Log.Inv.init [DecidableEq κ] : ({} : Log κ γ).Inv where
  timed := ⟨List.nodup_nil, fun _ h => absurd h List.not_mem_nil⟩
  present _ h := absurd h List.not_mem_nil
  evictsOldest _ h := absurd h List.not_mem_nil
  within_iff _ h := absurd h List.not_mem_nil

/-- **Step.**  One call of a table with room for a row. -/
theorem Log.Inv.call {t : Log κ γ} (hi : t.Inv) {req : Request C} (hpos : 0 < req.capacity) :
    (t.call key build req).Inv := by
  have hanswer : find Row.key t.rows (key req.call)
      = t.rows.find? fun row => row.key = key req.call := rfl
  cases hfind : find Row.key t.rows (key req.call) with
  | some row =>
    -- a hit
    have hcall : t.call key build req = { t with
        rows := touch (key req.call) req.now t.rows
        uses := (key req.call, req.now) :: t.uses } := by
      simp [Log.call, inserts, hfind, answer, ← hanswer]
    rw [hcall]
    exact ⟨hi.timed.touch _ _, hi.present, hi.evictsOldest, hi.within_iff⟩
  | none =>
    cases hbuild : build req.call with
    | error e =>
      have hcall : t.call key build req = t := by
        simp [Log.call, inserts, hfind, answer, ← hanswer, hbuild, Except.isOk, Except.toBool]
      rw [hcall]
      exact hi
    | ok value =>
      have hcall : t.call key build req =
          { rows := store req.place ⟨key req.call, value, req.now⟩ (evict req.capacity t.rows)
            uses := (key req.call, req.now) :: t.uses
            insertions := ⟨key req.call, req.capacity, t.uses, t.rows,
              store req.place ⟨key req.call, value, req.now⟩ (evict req.capacity t.rows)⟩
                :: t.insertions } := by
        simp [Log.call, inserts, hfind, answer, ← hanswer, hbuild, Except.isOk, Except.toBool]
      obtain ⟨htimed, hpresent, hoverdue, hwithin⟩ := hi.timed.insertion
        (find_eq_none.mp hfind) hpos req.place value req.now
      rw [hcall]
      exact ⟨htimed, List.forall_mem_cons.mpr ⟨hpresent, hi.present⟩,
        List.forall_mem_cons.mpr ⟨hoverdue, hi.evictsOldest⟩,
        List.forall_mem_cons.mpr ⟨hwithin, hi.within_iff⟩⟩

/-- The insertions of a call. -/
theorem Log.insertions_call {t : Log κ γ} {req : Request C} {i : Insertion κ γ}
    (h : i ∈ (t.call key build req).insertions) : i ∈ t.insertions ∨
      (inserts key build t.rows req.call = true ∧ i.capacity = req.capacity ∧
        i.before = t.rows) := by
  unfold Log.call at h
  dsimp only at h
  split_ifs at h with hins
  · obtain rfl | h := List.mem_cons.mp h
    · exact .inr ⟨hins, rfl, rfl⟩
    · exact .inl h
  · exact .inl h
  · exact .inl h

end Log

end MemoTable
