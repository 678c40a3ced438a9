import Mathlib.Data.List.Basic

namespace HashedTable

/-!
# Tables that compare hashes

A table keeps values under their hashes, and gives the value that it has under the hash of the one
that is asked for.  It is cleared when it is full.

* `Table.get` — one question.
* `Clean` — no other value with this hash has been asked for since the table was cleared.
* `Exact.get_eq_iff`, `Exact.get` — as long as the answers were right, an answer is right exactly if
  the question is clean.
-/

/-- The values by hash, and those that have been asked for since the table was cleared. -/
structure Table (η δ : Type*) where
  entries : List (η × δ) := []
  asked : List δ := []

variable {η δ : Type*} [DecidableEq η] (hash : δ → η) (limit : ℕ)

/-- The value under the hash of `d`; a table with more than `limit` entries is cleared before `d` is
    put in. -/
def Table.get (t : Table η δ) (d : δ) : δ × Table η δ :=
  match t.entries.lookup (hash d) with
  | some e => (e, { t with asked := d :: t.asked })
  | none =>
    let kept : Table η δ := if t.entries.length > limit then {} else t
    (d, { entries := (hash d, d) :: kept.entries, asked := d :: kept.asked })

/-- None of some values is another one with the hash of `d`. -/
def Clean (seen : List δ) (d : δ) : Prop := ∀ e ∈ seen, hash e = hash d → e = d

instance [DecidableEq δ] (seen : List δ) (d : δ) : Decidable (Clean hash seen d) :=
  inferInstanceAs (Decidable (∀ e ∈ seen, _ → _))

/-- The table has exactly what has been asked for. -/
structure Exact (t : Table η δ) : Prop where
  complete : ∀ e ∈ t.asked, t.entries.lookup (hash e) = some e
  sound : ∀ h e, t.entries.lookup h = some e → e ∈ t.asked ∧ hash e = h

variable {hash limit} {t : Table η δ} {d : δ}

theorem Exact.empty : Exact hash ({} : Table η δ) where
  complete _ h := absurd h List.not_mem_nil
  sound _ _ h := by simp at h

/-- An answer is right exactly if no other value with this hash has been asked for. -/
theorem Exact.get_eq_iff (h : Exact hash t) : (t.get hash limit d).1 = d ↔ Clean hash t.asked d := by
  unfold Table.get
  cases hfind : t.entries.lookup (hash d) with
  | some e =>
    obtain ⟨hmem, hhash⟩ := h.sound _ _ hfind
    refine ⟨fun heq c hc hcd => ?_, fun hclean => hclean e hmem hhash⟩
    -- what has been asked for is found, so it is the value that was given
    have hc' := h.complete c hc
    rw [hcd, hfind] at hc'
    exact (Option.some.inj hc').symm.trans heq
  | none =>
    refine iff_of_true rfl fun c hc hcd => ?_
    have hc' := h.complete c hc
    rw [hcd, hfind] at hc'
    cases hc'

/-- A right answer keeps the table exact. -/
theorem Exact.get (h : Exact hash t) (hd : Clean hash t.asked d) :
    Exact hash (t.get hash limit d).2 := by
  unfold Table.get
  cases hfind : t.entries.lookup (hash d) with
  | some e =>
    obtain ⟨hmem, hhash⟩ := h.sound _ _ hfind
    obtain rfl := hd e hmem hhash
    refine ⟨fun c hc => ?_, fun k c hc => ?_⟩
    · obtain rfl | hc := List.mem_cons.mp hc
      · exact hfind
      · exact h.complete c hc
    · exact ⟨List.mem_cons_of_mem _ (h.sound k c hc).1, (h.sound k c hc).2⟩
  | none =>
    have hkept : Exact hash (if t.entries.length > limit then {} else t) ∧
        (if t.entries.length > limit then {} else t : Table η δ).entries.lookup (hash d) = none := by
      split_ifs
      · exact ⟨.empty, rfl⟩
      · exact ⟨h, hfind⟩
    obtain ⟨hexact, hnone⟩ := hkept
    refine ⟨fun c hc => ?_, fun k c hc => ?_⟩
    · obtain rfl | hc := List.mem_cons.mp hc
      · simp
      · have hfound := hexact.complete c hc
        have hne : (hash c == hash d) = false := by
          refine beq_false_of_ne fun heq => ?_
          rw [heq, hnone] at hfound
          cases hfound
        simp only [List.lookup_cons, hne]
        exact hfound
    · by_cases hk : k = hash d
      · have hcd : c = d := by
          simpa [hk, eq_comm] using hc
        simp [hcd, hk]
      · have hne : (k == hash d) = false := beq_false_of_ne hk
        simp only [List.lookup_cons, hne] at hc
        exact ⟨List.mem_cons_of_mem _ (hexact.sound k c hc).1, (hexact.sound k c hc).2⟩

end HashedTable
