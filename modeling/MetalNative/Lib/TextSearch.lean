import Mathlib.Data.List.Basic
import Mathlib.Data.List.TakeWhile

/-!
# Searching a text

The search for the first occurrence of a pattern, as string libraries have it, and what it finds in
texts whose parts are set off by a mark.

* `find` — the first occurrence at a position or behind it; `firstAt` — in the whole text.
* `firstAt_append` — parts without the mark that a pattern begins with are passed over.
* `firstAt_marked` — the search for a marked word among marked parts.
* `extract_eq` — what stands between the next two marks.
-/

namespace TextSearch

variable {α : Type} [DecidableEq α]

/-- Where the pattern first occurs. -/
def firstAt (pattern : List α) : List α → Option ℕ
  | [] => if pattern.isPrefixOf [] then some 0 else none
  | c :: cs =>
    if pattern.isPrefixOf (c :: cs) then some 0 else (firstAt pattern cs).map (· + 1)

/-- Where the pattern first occurs from a position on. -/
def find (text pattern : List α) (pos : ℕ) : Option ℕ :=
  if text.length < pos then none else (firstAt pattern (text.drop pos)).map (· + pos)

/-- The part of a text of some length from a position on. -/
def substr (text : List α) (pos length : ℕ) : List α := (text.drop pos).take length

variable {mark : α} {word part : List α}

/-- A part without the first character of the pattern is passed over. -/
theorem firstAt_append (hpart : mark ∉ part) (rest : List α) :
    firstAt (mark :: word) (part ++ rest)
      = (firstAt (mark :: word) rest).map (· + part.length) := by
  induction part with
  | nil => simp
  | cons c part ih =>
    rw [List.mem_cons, not_or] at hpart
    have hne : (mark == c) = false := by simpa using hpart.1
    rw [List.cons_append, firstAt, List.isPrefixOf, hne, Bool.false_and, if_neg (by simp),
      ih hpart.2, Option.map_map]
    rfl

/-- The next mark. -/
theorem firstAt_mark (hpart : mark ∉ part) (rest : List α) :
    firstAt [mark] (part ++ mark :: rest) = some part.length := by
  rw [firstAt_append hpart, firstAt]
  simp [List.isPrefixOf]

/-- A word and a mark begin a part with a mark behind it only if they are that part. -/
theorem prefix_marked_iff (hword : mark ∉ word) (hpart : mark ∉ part) (rest : List α) :
    (word ++ [mark]).isPrefixOf (part ++ mark :: rest) = true ↔ part = word := by
  rw [List.isPrefixOf_iff_prefix]
  induction word generalizing part with
  | nil =>
    cases part with
    | nil => simp
    | cons c part =>
      have hne : mark ≠ c := by simp_all
      simp [hne]
  | cons w word ih =>
    rw [List.mem_cons, not_or] at hword
    cases part with
    | nil =>
      have hne : w ≠ mark := Ne.symm hword.1
      simp [hne]
    | cons c part =>
      rw [List.mem_cons, not_or] at hpart
      rw [List.cons_append, List.cons_append, List.cons_prefix_cons, ih hword.2 hpart.2,
        List.cons.injEq, eq_comm (a := w)]

/-- The search for a word between marks, at a part between marks: it is that part, or the search goes
    on with the mark behind it. -/
theorem firstAt_marked (hword : mark ∉ word) (hpart : mark ∉ part) (rest : List α) :
    firstAt (mark :: (word ++ [mark])) (mark :: (part ++ mark :: rest))
      = if part = word then some 0
        else (firstAt (mark :: (word ++ [mark])) (mark :: rest)).map (· + (part.length + 1)) := by
  rw [firstAt, List.isPrefixOf, beq_self_eq_true, Bool.true_and]
  by_cases hsame : part = word
  · rw [if_pos ((prefix_marked_iff hword hpart rest).mpr hsame), if_pos hsame]
  · have hprefix : ¬ (word ++ [mark]).isPrefixOf (part ++ mark :: rest) = true :=
      fun h => hsame ((prefix_marked_iff hword hpart rest).mp h)
    rw [if_neg hprefix, if_neg hsame, firstAt_append hpart, Option.map_map]
    rfl

/-- What stands before the first mark. -/
def beforeMark (mark : α) (text : List α) : List α := text.takeWhile (· ≠ mark)

theorem mark_not_mem_beforeMark (mark : α) (text : List α) : mark ∉ beforeMark mark text := by
  intro h
  simpa using List.mem_takeWhile_imp h

theorem beforeMark_eq_self {text : List α} : beforeMark mark text = text ↔ mark ∉ text := by
  unfold beforeMark
  rw [List.takeWhile_eq_self_iff]
  constructor
  · intro h hmem
    simpa using h mark hmem
  · intro h c hc
    have hne : c ≠ mark := fun heq => h (heq ▸ hc)
    simpa using hne

theorem exists_beforeMark (mark : α) (text rest : List α) :
    ∃ rest', text ++ mark :: rest = beforeMark mark text ++ mark :: rest' := by
  induction text with
  | nil => exact ⟨rest, rfl⟩
  | cons c text ih =>
    obtain ⟨rest', hrest⟩ := ih
    by_cases hc : c = mark
    · exact ⟨text ++ mark :: rest, by simp [beforeMark, hc]⟩
    · refine ⟨rest', ?_⟩
      unfold beforeMark at hrest ⊢
      simp [hc, hrest]

/-- What stands between the next two marks from a position on. -/
def extract (mark : α) (text : List α) (pos : ℕ) : Option (List α) := do
  let start ← find text [mark] pos
  let stop ← find text [mark] (start + 1)
  return substr text (start + 1) (stop - start - 1)

theorem find_append {before text pattern : List α} :
    find (before ++ text) pattern before.length
      = (firstAt pattern text).map (· + before.length) := by
  unfold find
  rw [if_neg (by simp), List.drop_left]

theorem find_zero (text pattern : List α) : find text pattern 0 = firstAt pattern text := by
  unfold find
  simp

/-- Between the next two marks stands a value up to its first mark. -/
theorem extract_eq {before : List α} (hpart : mark ∉ part) (value rest : List α) :
    extract mark (before ++ part ++ mark :: (value ++ mark :: rest)) before.length
      = some (beforeMark mark value) := by
  obtain ⟨rest', hrest⟩ := exists_beforeMark mark value rest
  rw [hrest]
  have hstart : find (before ++ part ++ mark :: (beforeMark mark value ++ mark :: rest')) [mark]
      before.length = some (part.length + before.length) := by
    rw [List.append_assoc, find_append, firstAt_mark hpart]
    rfl
  -- the value begins behind the first mark
  have hsplit : before ++ part ++ mark :: (beforeMark mark value ++ mark :: rest')
      = (before ++ part ++ [mark]) ++ (beforeMark mark value ++ mark :: rest') := by simp
  have hlen : (before ++ part ++ [mark]).length = part.length + before.length + 1 := by
    simp only [List.length_append, List.length_singleton]
    omega
  have hstop : find (before ++ part ++ mark :: (beforeMark mark value ++ mark :: rest')) [mark]
      (part.length + before.length + 1)
      = some ((beforeMark mark value).length + (part.length + before.length + 1)) := by
    rw [hsplit, ← hlen, find_append, firstAt_mark (mark_not_mem_beforeMark mark value)]
    rfl
  unfold extract
  rw [hstart]
  simp only [Option.bind_eq_bind, Option.bind_some, hstop]
  have hsub : (beforeMark mark value).length + (part.length + before.length + 1)
      - (part.length + before.length) - 1 = (beforeMark mark value).length := by omega
  rw [hsub, substr, hsplit, ← hlen, List.drop_left, List.take_left]
  rfl

end TextSearch
