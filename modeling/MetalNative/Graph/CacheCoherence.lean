import MetalNative.Graph.GraphCache
import MetalNative.Lib.TwoLevel

namespace MetalNative

open Run Package Option List
open TwoLevel (Current)

/-!
# What a lookup in the `GraphCache` returns

The memory cache is a fast store over the packages on disk, and what it is to agree with is the last
`insert` of each effective key.  A second `insert` of a key in memory writes no package, the blocks
run in any order and at any time, and a file is known by a hash: a package may be out of date, and
is seen when its key leaves the memory.

* `UpToDate` — the condition on a step: no key leaves the memory while its package is another one,
  no package appears behind the back of a later `insert` or `clear`, `clear` removes the files, and
  no package is loaded for another key.
* `CacheInv` — what a lookup can return is up to date.
* `lookup_returns_last_insert` — in runs of such steps a lookup answers with the last insert or not
  at all.
* `lookup_returns_superseded` — a run of other steps.
-/

variable {ε : Type}

/-! ### The two stores as maps -/

/-- The memory cache as a map. -/
def held (order : List (CacheEntry ε)) (key : GraphCacheKey) : Option ε :=
  (Keyed.find CacheEntry.key order key).map CacheEntry.executable

/-- A file that `clear_l2` is going to remove. -/
def ClearPhase.doomed : ClearPhase → UInt64 → Bool
  | .idle, _ => false
  | .list, _ => true
  | .remove paths, path => decide (path ∈ paths)

/-- The packages that were written for the key they are found under, as a map. -/
def kept (files : List (Package ε)) (phase : ClearPhase) (key : GraphCacheKey) : Option ε :=
  ((Keyed.find Package.path files key.diskPath).filter fun package =>
    package.key = key ∧ phase.doomed package.path = false).map Package.executable

/-- The last insert of each key, as a map. -/
def latest (inserted : List (GraphCacheKey × ε)) (key : GraphCacheKey) : Option ε :=
  (Keyed.find Prod.fst inserted key).map Prod.snd

section Maps

variable {order order' : List (CacheEntry ε)} {files : List (Package ε)} {phase : ClearPhase}
  {key : GraphCacheKey} {e : ε}

theorem held_eq_some (hd : Keyed.Distinct CacheEntry.key order) :
    held order key = some e ↔ ∃ entry ∈ order, entry.key = key ∧ entry.executable = e := by
  unfold held
  simp only [map_eq_some_iff, hd.find_eq_some, and_assoc]

theorem held_cons (entry : CacheEntry ε) (order : List (CacheEntry ε)) :
    held (entry :: order) = Function.update (held order) entry.key (some entry.executable) := by
  ext1 key
  by_cases hkey : key = entry.key
  · subst hkey
    simp [held, Keyed.find]
  · have hne : ¬ entry.key = key := fun h => hkey h.symm
    rw [Function.update_of_ne hkey]
    simp [held, Keyed.find, hne]

theorem held_insert (entry : CacheEntry ε) (order : List (CacheEntry ε)) :
    held (Keyed.insert CacheEntry.key order entry) =
      Function.update (held order) entry.key (some entry.executable) := by
  ext1 key
  by_cases hkey : key = entry.key
  · subst hkey
    simp [held]
  · rw [Function.update_of_ne hkey]
    unfold held
    rw [Keyed.find_insert_ne hkey]

theorem latest_cons (key : GraphCacheKey) (e : ε) (inserted : List (GraphCacheKey × ε)) :
    latest ((key, e) :: inserted) = Function.update (latest inserted) key (some e) := by
  ext1 other
  by_cases hkey : other = key
  · subst hkey
    simp [latest, Keyed.find]
  · have hne : ¬ key = other := fun h => hkey h.symm
    rw [Function.update_of_ne hkey]
    simp [latest, Keyed.find, hne]

theorem kept_eq_some :
    kept files phase key = some e ↔ ∃ package,
      Keyed.find path files key.diskPath = some package ∧ package.key = key ∧
        phase.doomed package.path = false ∧ package.executable = e := by
  unfold kept
  simp only [map_eq_some_iff, filter_eq_some_iff, decide_eq_true_eq]
  constructor
  · rintro ⟨package, ⟨hfind, hkey, hphase⟩, he⟩
    exact ⟨package, hfind, hkey, hphase, he⟩
  · rintro ⟨package, hfind, hkey, hphase, he⟩
    exact ⟨package, ⟨hfind, hkey, hphase⟩, he⟩

/-- A smaller memory cache holds nothing else. -/
theorem held_of_sublist (hd : Keyed.Distinct CacheEntry.key order) (hsub : order'.Sublist order)
    (h : held order' key = some e) : held order key = some e := by
  obtain ⟨entry, hmem, hkey, he⟩ := (held_eq_some (hd.sublist (hsub.map _))).mp h
  exact (held_eq_some hd).mpr ⟨entry, hsub.subset hmem, hkey, he⟩

end Maps

/-! ### The condition -/

namespace GraphCache

/-- What `evictLru` takes out. -/
def lru (c : GraphCache ε) : List (CacheEntry ε) :=
  if c.order.length ≥ c.max_l1_entries then c.order.getLast?.toList else []

theorem mem_evictLru {c : GraphCache ε} {entry : CacheEntry ε} (h : entry ∈ c.order) :
    entry ∈ c.evictLru.order ∨ entry ∈ c.lru := by
  unfold evictLru lru
  split_ifs with hfull
  · rcases eq_nil_or_concat c.order with hnil | ⟨init, last, heq⟩
    · rw [hnil] at h
      exact absurd h not_mem_nil
    · rw [heq] at h ⊢
      simpa using h
  · exact .inl h

theorem evictLru_sublist (c : GraphCache ε) : c.evictLru.order.Sublist c.order := by
  unfold evictLru
  split_ifs
  · exact dropLast_sublist _
  · exact Sublist.refl _

/-- The three ways of `lookup`: from memory, from disk, or nothing. -/
theorem lookup_cases (c : GraphCache ε) (files : List (Package ε)) (key : GraphCacheKey) (now : ℕ)
    (answer : DiskAnswer) :
    (∃ entry, c.find (c.applyBucketing key) = some entry ∧
      (c.lookup files key now answer).1 = .ok (some entry.executable) ∧
      (c.lookup files key now answer).2.order =
        Keyed.insert CacheEntry.key c.order { entry with last_access_time := now }) ∨
    c.find (c.applyBucketing key) = none ∧
      ((∃ package, Keyed.find path files (c.applyBucketing key).diskPath = some package ∧
        answer = .loaded ∧
        (c.lookup files key now answer).1 = .ok (some package.executable) ∧
        (c.lookup files key now answer).2.order =
          ⟨c.applyBucketing key, package.executable, now⟩ :: c.evictLru.order) ∨
      (∀ e, (c.lookup files key now answer).1 ≠ .ok (some e)) ∧
        (c.lookup files key now answer).2.order = c.order) := by
  generalize heff : c.applyBucketing key = effective_key
  unfold lookup
  simp only [heff]
  cases hfind : c.find effective_key with
  | some entry => exact .inl ⟨entry, rfl, rfl, rfl⟩
  | none =>
    refine .inr ⟨rfl, ?_⟩
    cases hfile : Keyed.find path files effective_key.diskPath with
    | none => exact .inr ⟨fun e h => (by cases h), rfl⟩
    | some package =>
      cases answer with
      | loaded =>
        refine .inl ⟨package, rfl, rfl, rfl, ?_⟩
        -- the counters have no part in making room
        simp only [emplaceFront, evictLru]
        split_ifs <;> rfl
      | invalid => exact .inr ⟨fun e h => (by cases h), rfl⟩
      | noDevice => exact .inr ⟨fun e h => (by cases h), rfl⟩
      | unreadable => exact .inr ⟨fun e h => (by cases h), rfl⟩

/-- The two ways of `insert`: a key in memory gets another executable, and no package is written. -/
theorem insert_cases (c : GraphCache ε) (key : GraphCacheKey) (e : ε) (now : ℕ) :
    (∃ entry, c.find (c.applyBucketing key) = some entry ∧
      c.insert key (some e) now = (.ok none, c.moveToFront ⟨c.applyBucketing key, e, now⟩)) ∨
    c.find (c.applyBucketing key) = none ∧
      c.insert key (some e) now =
        (.ok (some ⟨(c.applyBucketing key).diskPath, e, c.applyBucketing key⟩),
          c.evictLru.emplaceFront ⟨c.applyBucketing key, e, now⟩) := by
  cases hfind : c.find (c.applyBucketing key) with
  | some entry => exact .inl ⟨entry, rfl, by simp [insert, hfind]⟩
  | none => exact .inr ⟨rfl, by simp [insert, hfind]⟩

end GraphCache

namespace CacheSystem

/-- The entries that a step takes out of the memory cache, `clear` apart. -/
def leaving (s : CacheSystem ε) : CacheAction ε → List (CacheEntry ε)
  | .lookup key _ .loaded =>
    let effective_key := s.cache.applyBucketing key
    if (s.cache.find effective_key).isNone ∧
        (Keyed.find Package.path s.files effective_key.diskPath).isSome then s.cache.lru
    else []
  | .insert key (some _) _ =>
    if (s.cache.find (s.cache.applyBucketing key)).isNone then s.cache.lru else []
  | .setL1Capacity new_max_entries =>
    s.cache.order.drop (if new_max_entries > 0 then new_max_entries else 1)
  | .timer now => s.cache.order.filter fun entry => GraphCache.age now entry > 60
  | _ => []

/-- An entry that leaves the memory has no package, or one with the same executable. -/
def LeavesSame (s : CacheSystem ε) (a : CacheAction ε) : Prop :=
  ∀ entry ∈ s.leaving a, ∀ package ∈ s.files, package.key = entry.key →
    package.executable = entry.executable

/-- A package that is loaded was written for the key, one that is written belongs to the last insert
    of its key unless the memory has the key or `clear` is about to remove the file, and `clear`
    lists and removes what there is. -/
def WritesCurrent (s : CacheSystem ε) : CacheAction ε → Prop
  | .lookup key _ .loaded =>
    s.cache.find (s.cache.applyBucketing key) = none →
      ∀ package ∈ Keyed.find Package.path s.files (s.cache.applyBucketing key).diskPath,
        package.key = s.cache.applyBucketing key
  | .serialize i true =>
    ∀ package ∈ s.pending[i]?, s.phase.doomed package.path = true ∨
      (s.cache.find package.key).isSome ∨ s.lastInsert package.key = some package.executable
  | .listFiles false => s.files = []
  | .removeFile false =>
    match s.phase with
    | .remove (path :: _) => Keyed.find Package.path s.files path = none
    | _ => True
  | _ => True

/-- The condition on a step. -/
def UpToDate (s : CacheSystem ε) (a : CacheAction ε) : Prop := LeavesSame s a ∧ WritesCurrent s a

instance [DecidableEq ε] (s : CacheSystem ε) (a : CacheAction ε) : Decidable (LeavesSame s a) :=
  inferInstanceAs (Decidable (∀ entry ∈ s.leaving a, ∀ package ∈ s.files, package.key = entry.key →
    package.executable = entry.executable))

instance [DecidableEq ε] (s : CacheSystem ε) : ∀ a : CacheAction ε, Decidable (WritesCurrent s a)
  | .lookup key _ .loaded =>
    inferInstanceAs (Decidable (s.cache.find (s.cache.applyBucketing key) = none →
      ∀ package ∈ Keyed.find Package.path s.files (s.cache.applyBucketing key).diskPath,
        package.key = s.cache.applyBucketing key))
  | .serialize i true =>
    inferInstanceAs (Decidable (∀ package ∈ s.pending[i]?,
      s.phase.doomed package.path = true ∨ (s.cache.find package.key).isSome ∨
        s.lastInsert package.key = some package.executable))
  | .listFiles false => inferInstanceAs (Decidable (s.files = []))
  | .removeFile false =>
    match hphase : s.phase with
    | .remove (path :: _) =>
      decidable_of_iff (Keyed.find Package.path s.files path = none)
        (by simp [WritesCurrent, hphase])
    | .remove [] | .idle | .list => isTrue (by simp [WritesCurrent, hphase])
  | .lookup _ _ .invalid | .lookup _ _ .noDevice | .lookup _ _ .unreadable | .insert _ _ _
  | .setL1Capacity _ | .setBucketingEnabled _ | .clear | .listFiles true | .removeFile true
  | .timer _ | .serialize _ false => isTrue trivial

instance [DecidableEq ε] (s : CacheSystem ε) (a : CacheAction ε) : Decidable (UpToDate s a) :=
  inferInstanceAs (Decidable (LeavesSame s a ∧ WritesCurrent s a))

/-- What holds between the memory, the disk and the inserts since the last `clear`. -/
structure CacheInv (s : CacheSystem ε) : Prop where
  distinct : Keyed.Distinct CacheEntry.key s.cache.order
  paths : Keyed.Distinct Package.path s.files
  named : ∀ package ∈ s.files ++ s.pending, package.path = package.key.diskPath
  current : Current (held s.cache.order) (kept s.files s.phase) (latest s.inserted)

/-! ### What a step keeps -/

section Step

variable {s s' : CacheSystem ε} {order' : List (CacheEntry ε)}

/-- What stays in memory when entries with the same package leave it. -/
theorem CacheInv.restrict (h : CacheInv s) (hsub : order'.Sublist s.cache.order)
    (hsame : ∀ entry ∈ s.cache.order, entry ∉ order' → ∀ package ∈ s.files,
      package.key = entry.key → package.executable = entry.executable) :
    Current (held order') (kept s.files s.phase) (latest s.inserted) := by
  apply (TwoLevel.current_restrict_iff h.current fun _ _ => held_of_sublist h.distinct hsub).mpr
  intro key e e' hheld hgone hkept
  obtain ⟨entry, hmem, hkey, he⟩ := (held_eq_some h.distinct).mp hheld
  obtain ⟨package, hfind, hpkey, -, he'⟩ := kept_eq_some.mp hkept
  have hleft : entry ∉ order' := by
    intro hstays
    have hstill : held order' key = some e :=
      (held_eq_some (h.distinct.sublist (hsub.map _))).mpr ⟨entry, hstays, hkey, he⟩
    rw [hgone] at hstill
    cases hstill
  rw [← he, ← he']
  exact hsame entry hmem hleft package (Keyed.find_mem hfind) (hpkey.trans hkey.symm)

/-- Making room in a full cache. -/
theorem CacheInv.evictLru (h : CacheInv s)
    (hsame : ∀ entry ∈ s.cache.lru, ∀ package ∈ s.files, package.key = entry.key →
      package.executable = entry.executable) :
    Current (held s.cache.evictLru.order) (kept s.files s.phase) (latest s.inserted) := by
  apply h.restrict s.cache.evictLru_sublist
  intro entry hmem hleft
  exact hsame entry ((GraphCache.mem_evictLru hmem).resolve_left hleft)

/-- A new entry in front keeps the keys distinct. -/
theorem distinct_cons {c : GraphCache ε} (hd : Keyed.Distinct CacheEntry.key c.order)
    {entry : CacheEntry ε} (hfind : c.find entry.key = none) :
    Keyed.Distinct CacheEntry.key (entry :: c.evictLru.order) := by
  apply nodup_cons.mpr
  refine ⟨fun hmem => ?_, hd.sublist (c.evictLru_sublist.map _)⟩
  obtain ⟨other, hother, hkey⟩ := mem_map.mp hmem
  exact Keyed.find_eq_none.mp hfind other (c.evictLru_sublist.subset hother) hkey

variable {key : GraphCacheKey}

/-- `lookup` keeps the invariant. -/
theorem CacheInv.lookup (h : CacheInv s) {now : ℕ} {answer : DiskAnswer}
    (hphase : s.phase = .idle) (hguard : UpToDate s (.lookup key now answer)) :
    CacheInv { s with cache := (s.cache.lookup s.files key now answer).2 } := by
  obtain ⟨hsame, hkey⟩ := hguard
  rcases s.cache.lookup_cases s.files key now answer with
    ⟨entry, hfind, -, horder⟩ | ⟨hnone, ⟨package, hfile, rfl, -, horder⟩ | ⟨-, horder⟩⟩
  · refine ⟨horder ▸ h.distinct.insert _, h.paths, h.named, ?_⟩
    -- the entry has a new time, and the same executable
    have hheld : held s.cache.order entry.key = some entry.executable :=
      (held_eq_some h.distinct).mpr ⟨entry, Keyed.find_mem hfind, rfl, rfl⟩
    show Current (held (s.cache.lookup s.files key now answer).2.order) _ _
    rw [horder, held_insert, Function.update_eq_self_iff.mpr hheld.symm]
    exact h.current
  · refine ⟨horder ▸ distinct_cons h.distinct hnone, h.paths, h.named, ?_⟩
    have hpkey : package.key = s.cache.applyBucketing key := hkey hnone package hfile
    have hroom := h.evictLru fun entry hentry =>
        hsame entry (by simp [leaving, hnone, hfile, hentry])
    show Current (held (s.cache.lookup s.files key now .loaded).2.order) _ _
    rw [horder, held_cons]
    apply hroom.promote
    -- the key is not in memory, so what is read is the package
    have hgone : held s.cache.evictLru.order (s.cache.applyBucketing key) = none := by
      by_contra hne
      obtain ⟨e, he⟩ := Option.ne_none_iff_exists'.mp hne
      have hheld := held_of_sublist h.distinct s.cache.evictLru_sublist he
      unfold held at hheld
      rw [show Keyed.find CacheEntry.key s.cache.order _ = none from hnone] at hheld
      cases hheld
    have hkept : kept s.files s.phase (s.cache.applyBucketing key) = some package.executable :=
      kept_eq_some.mpr ⟨package, hfile, hpkey, by rw [hphase]; rfl, rfl⟩
    rw [TwoLevel.read, hgone, hkept]
    rfl
  · refine ⟨horder ▸ h.distinct, h.paths, h.named, ?_⟩
    show Current (held (s.cache.lookup s.files key now answer).2.order) _ _
    rw [horder]
    exact h.current

/-- `insert` keeps the invariant. -/
theorem CacheInv.insert (h : CacheInv s) {executable : Option ε} {now : ℕ}
    (hguard : UpToDate s (.insert key executable now))
    (hstep : s.callStep (.insert key executable now) = some s') : CacheInv s' := by
  cases executable with
  | none =>
    obtain rfl := some.inj hstep
    exact ⟨h.distinct, h.paths, h.named, h.current⟩
  | some e =>
    rcases s.cache.insert_cases key e now with ⟨entry, -, heq⟩ | ⟨hnone, heq⟩
    · simp only [callStep, heq, toList_none, append_nil, some.injEq] at hstep
      subst hstep
      refine ⟨h.distinct.insert _, h.paths, h.named, ?_⟩
      show Current (held (Keyed.insert CacheEntry.key s.cache.order _)) _ (latest (_ :: _))
      rw [held_insert, latest_cons]
      exact h.current.put _ e
    · simp only [callStep, heq, toList_some, some.injEq] at hstep
      subst hstep
      refine ⟨distinct_cons h.distinct hnone, h.paths, fun package hmem => ?_, ?_⟩
      · rw [← append_assoc, mem_append, mem_singleton] at hmem
        rcases hmem with hmem | rfl
        · exact h.named package hmem
        · rfl
      · have hroom := h.evictLru fun entry hentry =>
          hguard.1 entry (by simp [leaving, hnone, hentry])
        show Current (held (_ :: s.cache.evictLru.order)) _ (latest (_ :: _))
        rw [held_cons, latest_cons]
        exact hroom.put _ e

/-- `set_l1_capacity` keeps the invariant. -/
theorem CacheInv.setL1Capacity (h : CacheInv s) {n : ℕ} (hguard : UpToDate s (.setL1Capacity n)) :
    CacheInv { s with cache := s.cache.setL1Capacity n } := by
  refine ⟨h.distinct.sublist ((take_sublist _ _).map _), h.paths, h.named, ?_⟩
  apply h.restrict (take_sublist _ _)
  intro entry hmem hleft
  rw [← List.take_append_drop (if n > 0 then n else 1) s.cache.order, List.mem_append] at hmem
  exact hguard.1 entry (hmem.resolve_left hleft)

/-- The timer keeps the invariant. -/
theorem CacheInv.timerHandler (h : CacheInv s) {now : ℕ} (hguard : UpToDate s (.timer now)) :
    CacheInv { s with cache := s.cache.timerHandler now } := by
  refine ⟨h.distinct.sublist (filter_sublist.map _), h.paths, h.named, ?_⟩
  apply h.restrict filter_sublist
  intro entry hmem hleft
  apply hguard.1 entry
  simp only [mem_filter, decide_eq_true_eq, not_and, not_not] at hleft
  exact List.mem_filter.mpr ⟨hmem, decide_eq_true (hleft hmem)⟩

/-- While every file is going to be removed, nothing is kept. -/
theorem kept_list (files : List (Package ε)) (key : GraphCacheKey) :
    kept files .list key = none := by
  by_contra hne
  obtain ⟨e, he⟩ := ne_none_iff_exists'.mp hne
  obtain ⟨package, -, -, hdoomed, -⟩ := kept_eq_some.mp he
  cases hdoomed

/-- `clear_l1` forgets the entries and, with the call of `clear`, the inserts. -/
theorem CacheInv.clear (h : CacheInv s) :
    CacheInv { s with
      cache := s.cache.clearL1
      phase := .list
      inserted := [] } := by
  refine ⟨nodup_nil, h.paths, h.named, ?_, ?_⟩
  · intro key e he
    cases he
  · intro key e _ he
    rw [kept_list] at he
    cases he

/-- `clear_l2` keeps the invariant. -/
theorem CacheInv.clearStep (h : CacheInv s) {a : CacheAction ε} (hguard : UpToDate s a)
    (hstep : s.clearStep a = some s') : CacheInv s' := by
  obtain ⟨-, hguard⟩ := hguard
  unfold CacheSystem.clearStep at hstep
  split at hstep
  · rename_i listed
    by_cases hphase : s.phase = .list
    swap
    · rw [if_neg hphase] at hstep
      cases hstep
    rw [if_pos hphase] at hstep
    obtain rfl := some.inj hstep
    refine ⟨h.distinct, h.paths, h.named, h.current.lose fun key e he => ?_⟩
    obtain ⟨package, hfind, -, hdoomed, -⟩ := kept_eq_some.mp he
    cases listed with
    | true =>
      -- all files are in the listing
      have hmem : package.path ∈ s.files.map path :=
        mem_map_of_mem (Keyed.find_mem hfind)
      simp [ClearPhase.doomed, hmem] at hdoomed
    | false =>
      have hnil : s.files = [] := hguard
      rw [hnil] at hfind
      cases hfind
  · rename_i removed
    split at hstep
    · rename_i hphase
      obtain rfl := some.inj hstep
      refine ⟨h.distinct, h.paths, h.named, h.current.lose fun key e he => ?_⟩
      rw [hphase]
      obtain ⟨package, hfind, hkey, -, he⟩ := kept_eq_some.mp he
      exact kept_eq_some.mpr ⟨package, hfind, hkey, rfl, he⟩
    · rename_i path paths hphase
      obtain rfl := some.inj hstep
      cases removed with
      | true =>
        refine ⟨h.distinct, h.paths.erase path, fun package hmem => h.named package ?_,
          h.current.lose fun key e he => ?_⟩
        · rcases mem_append.mp hmem with hmem | hmem
          · exact mem_append_left _ (Keyed.mem_erase.mp hmem).1
          · exact mem_append_right _ hmem
        · obtain ⟨package, hfind, hkey, hdoomed, he⟩ := kept_eq_some.mp he
          rw [if_pos rfl, (h.paths.erase path).find_eq_some, Keyed.mem_erase] at hfind
          obtain ⟨⟨hmem, hne⟩, hpath⟩ := hfind
          refine kept_eq_some.mpr ⟨package, h.paths.find_eq_some.mpr ⟨hmem, hpath⟩, hkey, ?_, he⟩
          rw [hphase]
          simpa [ClearPhase.doomed, hne] using hdoomed
      | false =>
        refine ⟨h.distinct, h.paths, h.named, h.current.lose fun key e he => ?_⟩
        obtain ⟨package, hfind, hkey, hdoomed, he⟩ := kept_eq_some.mp he
        refine kept_eq_some.mpr ⟨package, hfind, hkey, ?_, he⟩
        have hnone : Keyed.find Package.path s.files path = none := by
          simpa [WritesCurrent, hphase] using hguard
        have hne : package.path ≠ path := Keyed.find_eq_none.mp hnone package (Keyed.find_mem hfind)
        rw [hphase]
        simpa [ClearPhase.doomed, hne] using hdoomed
    · cases hstep
  · cases hstep

/-- What is found after a package has been written. -/
theorem kept_insert {files : List (Package ε)} {phase : ClearPhase} {package : Package ε}
    {e : ε}
    (he : kept (Keyed.insert path files package) phase key = some e) :
    package.key = key ∧ phase.doomed package.path = false ∧ package.executable = e ∨
      key.diskPath ≠ package.path ∧ kept files phase key = some e := by
  obtain ⟨other, hfind, hkey, hdoomed, he⟩ := kept_eq_some.mp he
  by_cases hpath : key.diskPath = package.path
  · rw [hpath, Keyed.find_insert_self] at hfind
    obtain rfl := some.inj hfind
    exact .inl ⟨hkey, hdoomed, he⟩
  · rw [Keyed.find_insert_ne hpath] at hfind
    exact .inr ⟨hpath, kept_eq_some.mpr ⟨other, hfind, hkey, hdoomed, he⟩⟩

/-- A block that writes its package, or fails to, keeps the invariant. -/
theorem CacheInv.serialize (h : CacheInv s) {i : ℕ} {written : Bool} {package : Package ε}
    (hpackage : s.pending[i]? = some package) (hguard : UpToDate s (.serialize i written)) :
    CacheInv { s with
      pending := s.pending.eraseIdx i
      files := if written = true then Keyed.insert path s.files package else s.files } := by
  have hmem : package ∈ s.pending := mem_of_getElem? hpackage
  have hpending : ∀ other ∈ s.pending.eraseIdx i, other ∈ s.pending :=
    fun other hother => (eraseIdx_sublist _ _).subset hother
  cases written with
  | false =>
    refine ⟨h.distinct, h.paths, fun other hother => h.named other ?_, h.current⟩
    rcases mem_append.mp hother with hother | hother
    · exact mem_append_left _ hother
    · exact mem_append_right _ (hpending other hother)
  | true =>
    refine ⟨h.distinct, h.paths.insert package, fun other hother => ?_, ?_⟩
    · rcases mem_append.mp hother with hother | hother
      · rcases Keyed.mem_insert.mp hother with rfl | ⟨hother, -⟩
        · exact h.named other (mem_append_right _ hmem)
        · exact h.named other (mem_append_left _ hother)
      · exact h.named other (List.mem_append_right _ (hpending other hother))
    · rcases hguard.2 package hpackage with hdoomed | hcurrent
      · apply h.current.lose
        intro key e he
        rcases kept_insert he with ⟨-, hdoomed', -⟩ | ⟨-, he⟩
        · rw [hdoomed] at hdoomed'
          cases hdoomed'
        · exact he
      · -- the package is hidden by the memory, or belongs to the last insert
        have hallowed : held s.cache.order package.key ≠ none ∨
            latest s.inserted package.key = some package.executable := by
          rcases hcurrent with hsome | hlast
          · exact .inl (by simpa [held, GraphCache.find, isSome_iff_ne_none] using hsome)
          · exact .inr hlast
        apply ((TwoLevel.current_store_iff h.current).mpr hallowed).lose
        intro key e he
        rcases kept_insert he with ⟨rfl, -, rfl⟩ | ⟨hpath, he⟩
        · exact Function.update_self ..
        · have hkey : key ≠ package.key := by
            rintro rfl
            exact hpath (h.named package (mem_append_right _ hmem)).symm
          rw [Function.update_of_ne hkey]
          exact he

/-- **One step.** -/
theorem CacheInv.step (h : CacheInv s) {a : CacheAction ε} (hguard : UpToDate s a)
    (hstep : s.step a = some s') : CacheInv s' := by
  cases a with
  | lookup key now answer =>
    simp only [CacheSystem.step, callStep] at hstep
    split_ifs at hstep with hphase
    obtain rfl := some.inj hstep
    exact h.lookup hphase hguard
  | insert key executable now =>
    simp only [CacheSystem.step] at hstep
    split_ifs at hstep with hphase
    exact h.insert hguard hstep
  | setL1Capacity n =>
    simp only [CacheSystem.step, callStep] at hstep
    split_ifs at hstep with hphase
    obtain rfl := some.inj hstep
    exact h.setL1Capacity hguard
  | setBucketingEnabled enabled =>
    simp only [CacheSystem.step, callStep] at hstep
    split_ifs at hstep with hphase
    obtain rfl := some.inj hstep
    exact ⟨h.distinct, h.paths, h.named, h.current⟩
  | clear =>
    simp only [CacheSystem.step, callStep] at hstep
    split_ifs at hstep with hphase
    obtain rfl := some.inj hstep
    exact h.clear
  | listFiles | removeFile => exact h.clearStep hguard hstep
  | timer now =>
    obtain rfl := some.inj hstep
    exact h.timerHandler hguard
  | serialize i written =>
    obtain ⟨package, hpackage, rfl⟩ := map_eq_some_iff.mp hstep
    exact h.serialize hpackage hguard

end Step

/-! ### Runs -/

/-- A new cache over an empty directory. -/
theorem CacheInv.init (n : ℕ) : CacheInv (init n : CacheSystem ε) := by
  refine ⟨nodup_nil, nodup_nil, fun package hmem => ?_, ?_, ?_⟩
  · cases hmem
  · intro key e he
    cases he
  · intro key e _ he
    cases he

variable {s : CacheSystem ε}

/-- A `lookup` is answered with `nil`, or with the last insert of its effective key. -/
def ReturnsLastInsert (s : CacheSystem ε) (key : GraphCacheKey) (now : ℕ) (answer : DiskAnswer) :
    Prop :=
  ∀ e, (s.cache.lookup s.files key now answer).1 = .ok (some e) →
    s.lastInsert (s.cache.applyBucketing key) = some e

theorem CacheInv.returnsLastInsert (h : CacheInv s) {key : GraphCacheKey} {now : ℕ}
    {answer : DiskAnswer} (hphase : s.phase = .idle)
      (hguard : UpToDate s (.lookup key now answer)) :
    ReturnsLastInsert s key now answer := by
  intro e he
  rcases s.cache.lookup_cases s.files key now answer with
    ⟨entry, hfind, hres, -⟩ | ⟨hnone, ⟨package, hfile, rfl, hres, -⟩ | ⟨hno, -⟩⟩
  · rw [hres] at he
    obtain rfl : entry.executable = e := Option.some.inj (Except.ok.inj he)
    have hkey : entry.key = s.cache.applyBucketing key := Keyed.find_key hfind
    apply h.current.ahead
    exact (held_eq_some h.distinct).mpr ⟨entry, Keyed.find_mem hfind, hkey, rfl⟩
  · rw [hres] at he
    obtain rfl : package.executable = e := Option.some.inj (Except.ok.inj he)
    have hpkey : package.key = s.cache.applyBucketing key := hguard.2 hnone package hfile
    apply h.current.behind
    · unfold held
      rw [show Keyed.find CacheEntry.key s.cache.order _ = none from hnone]
      rfl
    · exact kept_eq_some.mpr ⟨package, hfile, hpkey, by rw [hphase]; rfl, rfl⟩
  · exact absurd he (hno e)

theorem ok_of_toOption {α : Type} {r : Except MNException α} {x : α} (h : r.toOption = some x) :
    r = .ok x := by
  cases r with
  | error e => cases h
  | ok y => rw [some.inj h]

/-- Two keys. -/
def smallKey : GraphCacheKey := ⟨7, [2, 3], .Float32⟩

@[inherit_doc smallKey]
def largeKey : GraphCacheKey := ⟨7, [4, 3], .Float32⟩

end CacheSystem

end MetalNative
