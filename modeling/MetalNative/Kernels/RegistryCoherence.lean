import MetalNative.Kernels.RegistryLocking
import MetalNative.Lib.Run

namespace MetalNative

open Run KernelRegistry Option

/-!
# Stale pipelines

Threads call the registry in any order, and the compilations that it has started end in any order; a
step is one section under the mutex.  A call of `get_pipeline` keeps the number of libraries that
there had been when it began, and the functions that its kernel has had since then.

* `RegistrySystem.step` — one section, or the start of a `get_pipeline`.
* `Fresh` — the cached pipelines belong to the present library and functions.
* `get_pipeline_coherent` — when no call is answered with a pipeline that was out of date before.
-/

/-- Where a call of `get_pipeline` stands. -/
inductive GetPC where
  /-- Before `std::call_once`. -/
  | ensure
  /-- Before the section. -/
  | lookup
  | returned (pipeline : PipelineState)
  | raised (e : MNException)
  deriving DecidableEq, Repr

/-- A call of `get_pipeline`. -/
structure GetCall where
  name : String
  /-- The number of libraries when the call began. -/
  libraries : ℕ
  /-- The functions of the kernel since the call began. -/
  functions : List String
  pc : GetPC
  deriving DecidableEq, Repr

/-- The registry and the calls of `get_pipeline`. -/
structure RegistrySystem where
  registry : KernelRegistry := {}
  calls : List GetCall := []
  deriving DecidableEq, Repr

/-- What happens next. -/
inductive RegistryAction where
  | registerKernel (name function_name : String)
  /-- The section of `load_library`. -/
  | loadLibrary (path : String) (answer : Except (Option String) (List String))
  /-- The section of `load_default_library`. -/
  | loadDefaultLibrary (answer : Except (Option String) (List String))
  | precompilePipelines
  /-- The `i`-th compilation under way ends. -/
  | completion (i : ℕ) (ok : Bool)
  /-- A call of `get_pipeline` begins. -/
  | getPipeline (name : String)
  | ensure (i : ℕ) (files : List LibraryFile)
  | lookup (i : ℕ) (answer : Option (Option String))

namespace RegistrySystem

/-- A kernel has a new function while calls for it are under way. -/
def noteFunction (name function_name : String) (c : GetCall) : GetCall :=
  if c.name = name then { c with functions := function_name :: c.functions } else c

/-- The system with another registry; a thread that waits for itself holds the mutex for good. -/
def settle {α : Type} (s : RegistrySystem) (x : RegistryResult α) : RegistrySystem :=
  { s with registry := x.final.getD { s.registry with locked := true } }

/-- The call goes on with what its section has answered. -/
def answer (c : GetCall) : RegistryResult PipelineState → GetCall
  | .returned pipeline _ => { c with pc := .returned pipeline }
  | .threw e _ => { c with pc := .raised e }
  | .deadlock => c

/-- One step; nobody gets into a section while the mutex is held. -/
def step (s : RegistrySystem) (a : RegistryAction) : Option RegistrySystem :=
  if s.registry.locked then none
  else
    match a with
    | .registerKernel name function_name =>
      some
        { s.settle (s.registry.registerKernel name function_name) with
          calls := s.calls.map (noteFunction name function_name) }
    | .loadLibrary path answer => some (s.settle (s.registry.loadLibrarySection path answer))
    | .loadDefaultLibrary answer => some (s.settle (s.registry.loadDefaultLibrarySection answer))
    | .precompilePipelines => some (s.settle s.registry.precompilePipelines)
    | .completion i ok =>
      s.registry.compiling[i]?.map fun entry =>
        s.settle
          (KernelRegistry.completion entry ok
            { s.registry with compiling := s.registry.compiling.eraseIdx i })
    | .getPipeline name =>
      some
        { s with
          calls := s.calls ++ [⟨name, s.registry.libraries, [s.registry.functionOf name],
            .ensure⟩] }
    | .ensure i files =>
      s.calls[i]?.bind fun c =>
        if c.pc = .ensure then
          some
            { s.settle (s.registry.ensureLoaded files) with
              calls := s.calls.set i { c with pc := .lookup } }
        else none
    | .lookup i compiled =>
      s.calls[i]?.bind fun c =>
        if c.pc = .lookup then
          some
            { s.settle (s.registry.lookupPipeline c.name compiled) with
              calls := s.calls.set i (answer c (s.registry.lookupPipeline c.name compiled)) }
        else none

/-- The library and the function of the kernel are the present ones. -/
def isCurrent (r : KernelRegistry) (entry : String × PipelineState) : Bool :=
  entry.2.library = r.libraries ∧ entry.2.function = r.functionOf entry.1

/-- The guard of `get_pipeline_coherent`: a kernel is given another function only while no pipeline
is cached for it, a library fails to load only while none is cached, and a compilation that ends
with a pipeline belongs to the present library and function. -/
def keepsFresh (s : RegistrySystem) : RegistryAction → Bool
  | .registerKernel name function_name =>
    (Keyed.find Prod.fst s.registry.pipelines name).isNone
      || function_name = s.registry.functionOf name
  | .loadLibrary _ answer | .loadDefaultLibrary answer =>
    answer.toOption.isSome || s.registry.pipelines.isEmpty
  | .completion i ok => !ok || s.registry.compiling[i]?.all (isCurrent s.registry)
  | _ => true

/-! ### The sections -/

/-- Every cached pipeline belongs to the present library and function. -/
structure Fresh (r : KernelRegistry) : Prop where
  current : ∀ entry ∈ r.pipelines, isCurrent r entry = true
  library : ∀ lib, r.library = some lib → lib.id = r.libraries

/-- No library is forgotten and no kernel has another function. -/
structure Later (r r' : KernelRegistry) : Prop where
  libraries : r.libraries ≤ r'.libraries
  functions : ∀ name, r'.functionOf name = r.functionOf name

variable {r r' : KernelRegistry}

theorem Later.refl (r : KernelRegistry) : Later r r := ⟨Nat.le_refl _, fun _ => rfl⟩

theorem isCurrent_iff {entry : String × PipelineState} :
    isCurrent r entry = true
      ↔ entry.2.library = r.libraries ∧ entry.2.function = r.functionOf entry.1 := by
  simp [isCurrent]

/-- What a section leaves. -/
theorem withLock_final {α : Type} {body : KernelRegistry → RegistryResult α} (h : r.locked = false)
    (hfinal : (withLock body r).final = some r') :
    ∃ r'', (body { r with locked := true }).final = some r'' ∧
      r' = { r'' with locked := false } := by
  rw [withLock, if_neg (by simp [h])] at hfinal
  cases hb : body { r with locked := true } with
  | returned value r'' | threw e r'' =>
    rw [hb] at hfinal
    exact ⟨r'', rfl, (some.inj hfinal).symm⟩
  | deadlock =>
    rw [hb] at hfinal
    cases hfinal

theorem functionOf_insert (name function_name other : String) :
    ({ r with name_to_function := Keyed.insert Prod.fst r.name_to_function (name, function_name) }
        : KernelRegistry).functionOf other
      = if other = name then function_name else r.functionOf other := by
  unfold functionOf
  by_cases hname : other = name
  · subst hname
    have hfind : Keyed.find Prod.fst
        (Keyed.insert Prod.fst r.name_to_function (other, function_name)) other
          = some (other, function_name) := Keyed.find_insert_self
    simp [hfind]
  · have hfind : Keyed.find Prod.fst
        (Keyed.insert Prod.fst r.name_to_function (name, function_name)) other
          = Keyed.find Prod.fst r.name_to_function other := Keyed.find_insert_ne hname
    simp [hfind, hname]

variable {name function_name : String}

theorem registerKernel_final (h : r.locked = false)
    (hfinal : (r.registerKernel name function_name).final = some r') :
    r'.libraries = r.libraries ∧ r'.library = r.library ∧ r'.pipelines = r.pipelines ∧
      ∀ other, r'.functionOf other = if other = name then function_name
        else r.functionOf other := by
  obtain ⟨r'', hr'', rfl⟩ := withLock_final h hfinal
  obtain rfl := some.inj hr''
  exact ⟨rfl, rfl, rfl, fun other => functionOf_insert (r := r) name function_name other⟩

theorem Fresh.registerKernel (hfresh : Fresh r) (h : r.locked = false)
    (hguard : Keyed.find Prod.fst r.pipelines name = none ∨ function_name = r.functionOf name)
    (hfinal : (r.registerKernel name function_name).final = some r') : Fresh r' := by
  obtain ⟨hlibraries, hlibrary, hpipelines, hfunction⟩ := registerKernel_final h hfinal
  refine ⟨fun entry hentry => ?_, fun lib hlib => ?_⟩
  · rw [hpipelines] at hentry
    obtain ⟨hlib, hfun⟩ := isCurrent_iff.mp (hfresh.current entry hentry)
    refine isCurrent_iff.mpr ⟨hlib.trans hlibraries.symm, hfun.trans ?_⟩
    rw [hfunction]
    by_cases hname : entry.1 = name
    · -- a pipeline is cached for the kernel, so its function is the old one
      rcases hguard with hnone | hsame
      · exact absurd hname (Keyed.find_eq_none.mp hnone entry hentry)
      · rw [if_pos hname, hname, hsame]
    · rw [if_neg hname]
  · rw [hlibrary] at hlib
    exact (hfresh.library lib hlib).trans hlibraries.symm

/-- A library has been loaded, and the cache emptied. -/
theorem Fresh.setLibrary_some (functions : List String) (locked : Bool) :
    Fresh { r.setLibrary (some functions) with pipelines := [], locked } where
  current := by simp
  library := by
    intro lib hlib
    obtain rfl := some.inj hlib
    rfl

theorem later_setLibrary (answer : Option (List String)) : Later r (r.setLibrary answer) := by
  cases answer with
  | some functions => exact ⟨Nat.le_succ _, fun _ => rfl⟩
  | none =>
    refine ⟨?_, fun _ => rfl⟩
    simp only [setLibrary]
    split_ifs
    · exact Nat.le_succ _
    · exact Nat.le_refl _

/-- No library has been loaded, with nothing in the cache. -/
theorem Fresh.setLibrary_none (hempty : r.pipelines = []) : Fresh (r.setLibrary none) where
  current := by simp [setLibrary, hempty]
  library := by simp [setLibrary]

theorem Fresh.loadSection {message : Option String → String}
    {answer : Except (Option String) (List String)} (h : r.locked = false)
    (hguard : answer.toOption.isSome = true ∨ r.pipelines = [])
    (hfinal : (r.loadSection message answer).final = some r') : Fresh r' ∧ Later r r' := by
  obtain ⟨r'', hr'', rfl⟩ := withLock_final h hfinal
  cases answer with
  | ok functions =>
    obtain rfl := some.inj hr''
    exact ⟨Fresh.setLibrary_some functions false,
      (later_setLibrary (r := r) (some functions)).libraries, fun _ => rfl⟩
  | error text =>
    obtain rfl := some.inj hr''
    have hempty : r.pipelines = [] := hguard.resolve_left (by simp [Except.toOption])
    have hfresh := Fresh.setLibrary_none (r := r) hempty
    exact ⟨⟨hfresh.current, hfresh.library⟩, (later_setLibrary (r := r) none).libraries,
      fun _ => rfl⟩

theorem Fresh.precompilePipelines (hfresh : Fresh r) (h : r.locked = false)
    (hfinal : r.precompilePipelines.final = some r') : Fresh r' ∧ Later r r' := by
  obtain ⟨r'', hr'', rfl⟩ := withLock_final h hfinal
  cases hlibrary : r.library with
  | none =>
    simp only [hlibrary] at hr''
    obtain rfl := some.inj hr''
    exact ⟨⟨hfresh.current, by simp⟩, Nat.le_refl _, fun _ => rfl⟩
  | some library =>
    simp only [hlibrary] at hr''
    obtain rfl := some.inj hr''
    refine ⟨⟨hfresh.current, fun lib hlib => ?_⟩, Nat.le_refl _, fun _ => rfl⟩
    exact hfresh.library lib (hlibrary.trans hlib)

/-- A pipeline of the present library and function comes into the cache. -/
theorem Fresh.insert (hfresh : Fresh r) {entry : String × PipelineState}
    (hcurrent : isCurrent r entry = true) :
    Fresh { r with pipelines := Keyed.insert Prod.fst r.pipelines entry } where
  current := by
    intro other hother
    rcases Keyed.mem_insert.mp hother with rfl | ⟨hold, -⟩
    · exact hcurrent
    · exact hfresh.current other hold
  library := hfresh.library

theorem Fresh.completion (hfresh : Fresh r) {entry : String × PipelineState} {ok : Bool}
    (h : r.locked = false) (hguard : ok = false ∨ isCurrent r entry = true)
    (hfinal : (completion entry ok r).final = some r') : Fresh r' ∧ Later r r' := by
  cases ok with
  | false =>
    obtain rfl := some.inj hfinal
    exact ⟨hfresh, .refl _⟩
  | true =>
    rw [KernelRegistry.completion, if_pos rfl] at hfinal
    obtain ⟨r'', hr'', rfl⟩ := withLock_final h hfinal
    obtain rfl := some.inj hr''
    have hinsert := hfresh.insert (hguard.resolve_left (by simp))
    exact ⟨⟨hinsert.current, hinsert.library⟩, Nat.le_refl _, fun _ => rfl⟩

/-- A search that loads nothing leaves the registry as it is. -/
theorem searchLibrary_none (files : List LibraryFile) (hlibrary : r.library = none)
    (hfinds : (r.searchLibrary files).2 = false) : (r.searchLibrary files).1 = r := by
  have hsame : r.setLibrary none = r := by
    simp only [setLibrary, hlibrary, isSome_none]
    rw [← hlibrary]
    rfl
  induction files with
  | nil => rfl
  | cons file files ih =>
    unfold searchLibrary at hfinds ⊢
    by_cases hpresent : file.present = true
    · rw [if_pos hpresent] at hfinds ⊢
      cases hfile : file.library with
      | some functions =>
        have hsome : (r.setLibrary (some functions)).library.isSome = true := rfl
        rw [hfile, if_pos hsome] at hfinds
        cases hfinds
      | none =>
        rw [hfile, hsame, if_neg (by simp [hlibrary])] at hfinds
        rw [hsame, if_neg (by simp [hlibrary])]
        exact ih hfinds
    · rw [if_neg hpresent] at hfinds ⊢
      exact ih hfinds

/-- `load_precompiled_library`, when it comes to an end. -/
theorem loadPrecompiledLibrary_final {files : List LibraryFile} (h : r.locked = false)
    (hfinal : (r.loadPrecompiledLibrary files).final = some r') : r' = r := by
  have hr : ({ r with locked := false } : KernelRegistry) = r := by
    rw [← h]
  by_cases hquiet : r.library ≠ none ∨ finds files = false
  · obtain ⟨r'', hr'', rfl⟩ := withLock_final h hfinal
    by_cases hlibrary : r.library.isSome = true
    · simp only [hlibrary, if_true] at hr''
      obtain rfl := some.inj hr''
      exact hr
    · have hnone : r.library = none := by simpa using hlibrary
      have hfound := searchLibrary_found files { r with locked := true }
      rw [hquiet.resolve_left (not_not.mpr hnone)] at hfound
      have hsame := searchLibrary_none (r := { r with locked := true }) files hnone hfound
      cases hsearch : ({ r with locked := true } : KernelRegistry).searchLibrary files with
      | mk found flag =>
        rw [hsearch] at hfound hsame
        simp only [hlibrary] at hr''
        rw [hsearch, show flag = false from hfound] at hr''
        obtain rfl := some.inj hr''
        rw [show found = _ from hsame]
        exact hr
  · push Not at hquiet
    have hdeadlock := loadPrecompiledLibrary_deadlock hquiet.1
        (by simpa using hquiet.2)
    rw [hdeadlock] at hfinal
    cases hfinal

theorem Fresh.ensureLoaded (hfresh : Fresh r) {files : List LibraryFile} (h : r.locked = false)
    (hfinal : (r.ensureLoaded files).final = some r') : Fresh r' ∧ Later r r' := by
  unfold KernelRegistry.ensureLoaded at hfinal
  by_cases hflag : r.library_load_flag = true
  · rw [if_pos hflag] at hfinal
    obtain rfl := some.inj hfinal
    exact ⟨hfresh, .refl _⟩
  · rw [if_neg hflag] at hfinal
    cases hload : r.loadPrecompiledLibrary files with
    | returned value r'' =>
      have hsame := loadPrecompiledLibrary_final h (by rw [hload]; rfl : _ = some r'')
      rw [hload, hsame] at hfinal
      obtain rfl := some.inj hfinal
      exact ⟨⟨hfresh.current, hfresh.library⟩, Nat.le_refl _, fun _ => rfl⟩
    | threw e r'' =>
      have hsame := loadPrecompiledLibrary_final h (by rw [hload]; rfl : _ = some r'')
      rw [hload, hsame] at hfinal
      obtain rfl := some.inj hfinal
      exact ⟨hfresh, .refl _⟩
    | deadlock =>
      rw [hload] at hfinal
      cases hfinal

/-- What the section of `get_pipeline` answers, and what it leaves. -/
theorem lookupPipeline_spec (hfresh : Fresh r) (name : String) (compiled : Option (Option String))
    (h : r.locked = false) :
    (∀ r', (r.lookupPipeline name compiled).final = some r' → Fresh r' ∧ Later r r') ∧
      ∀ pipeline r', r.lookupPipeline name compiled = .returned pipeline r' →
        isCurrent r (name, pipeline) = true := by
  unfold lookupPipeline withLock
  rw [if_neg (by simp [h])]
  cases hcached : Keyed.find Prod.fst r.pipelines name with
  | some cached =>
    simp only [hcached]
    refine ⟨fun r' hr' => ?_, fun pipeline r' hr' => ?_⟩
    · obtain rfl := some.inj hr'
      exact ⟨⟨hfresh.current, hfresh.library⟩, Nat.le_refl _, fun _ => rfl⟩
    · obtain ⟨rfl, -⟩ := RegistryResult.returned.inj hr'
      have hcurrent := hfresh.current cached (Keyed.find_mem hcached)
      have hname : cached.1 = name := Keyed.find_key hcached
      rw [← hname]
      exact hcurrent
  | none =>
    simp only [hcached]
    cases hlibrary : r.library with
    | none =>
      refine ⟨fun r' hr' => ?_, fun pipeline r' hr' => by cases hr'⟩
      obtain rfl := some.inj hr'
      exact ⟨⟨hfresh.current, by simp⟩, Nat.le_refl _, fun _ => rfl⟩
    | some library =>
      have hid := hfresh.library library hlibrary
      have hlib : ∀ lib, some library = some lib → lib.id = r.libraries := by
        rintro lib hlib
        rw [← some.inj hlib]
        exact hid
      by_cases hfunction : r.functionOf name ∉ library.functions
      · dsimp only
        rw [if_pos (by exact hfunction)]
        refine ⟨fun r' hr' => ?_, fun pipeline r' hr' => by cases hr'⟩
        obtain rfl := some.inj hr'
        exact ⟨⟨hfresh.current, hlib⟩, Nat.le_refl _, fun _ => rfl⟩
      · dsimp only
        rw [if_neg (by exact hfunction)]
        cases compiled with
        | some text =>
          refine ⟨fun r' hr' => ?_, fun pipeline r' hr' => by cases hr'⟩
          obtain rfl := some.inj hr'
          exact ⟨⟨hfresh.current, hlib⟩, Nat.le_refl _, fun _ => rfl⟩
        | none =>
          have hcurrent : isCurrent r (name, ⟨library.id, r.functionOf name⟩) = true :=
            isCurrent_iff.mpr ⟨hid, rfl⟩
          refine ⟨fun r' hr' => ?_, fun pipeline r' hr' => ?_⟩
          · obtain rfl := some.inj hr'
            exact ⟨⟨(hfresh.insert hcurrent).current, hlib⟩, Nat.le_refl _, fun _ => rfl⟩
          · obtain ⟨rfl, -⟩ := RegistryResult.returned.inj hr'
            exact hcurrent

/-! ### The calls -/

/-- What a call has kept, and what it has been answered. -/
structure CallCoherent (r : KernelRegistry) (c : GetCall) : Prop where
  libraries : c.libraries ≤ r.libraries
  functions : r.functionOf c.name ∈ c.functions
  answered : ∀ pipeline, c.pc = .returned pipeline →
    c.libraries ≤ pipeline.library ∧ pipeline.function ∈ c.functions

/-- The cache is fresh, and no call has been answered with something out of date. -/
structure Coherent (s : RegistrySystem) : Prop where
  fresh : Fresh s.registry
  calls : ∀ c ∈ s.calls, CallCoherent s.registry c

theorem CallCoherent.later {c : GetCall} (h : CallCoherent r c) (hlater : Later r r') :
    CallCoherent r' c := by
  refine ⟨h.libraries.trans hlater.libraries, ?_, h.answered⟩
  rw [hlater.functions]
  exact h.functions

variable {s s' : RegistrySystem} {a : RegistryAction}

/-- A section that keeps the cache fresh, in a system without new calls. -/
theorem settle_registry {α : Type} {P : KernelRegistry → Prop} {x : RegistryResult α}
    (hlocked : P { s.registry with locked := true }) (h : ∀ r', x.final = some r' → P r') :
    P (s.settle x).registry := by
  unfold settle
  cases hx : x.final with
  | none => exact hlocked
  | some r' => exact h r' hx

theorem Coherent.settle {α : Type} (h : Coherent s) {x : RegistryResult α}
    (hx : ∀ r', x.final = some r' → Fresh r' ∧ Later s.registry r') : Coherent (s.settle x) := by
  have hboth : Fresh (s.settle x).registry ∧ Later s.registry (s.settle x).registry :=
    settle_registry (P := fun r' => Fresh r' ∧ Later s.registry r')
      ⟨⟨h.fresh.current, h.fresh.library⟩, Nat.le_refl _, fun _ => rfl⟩ hx
  exact ⟨hboth.1, fun c hc => (h.calls c hc).later hboth.2⟩

theorem Coherent.registerKernel (h : Coherent s)
    (hfree : s.registry.locked = false)
    (hguard : keepsFresh s (.registerKernel name function_name) = true) :
    Coherent
      { s.settle (s.registry.registerKernel name function_name) with
        calls := s.calls.map (noteFunction name function_name) } := by
  have hguard' : Keyed.find Prod.fst s.registry.pipelines name = none
      ∨ function_name = s.registry.functionOf name := by
    simpa [keepsFresh] using hguard
  have hends := registerKernel_ends (r := s.registry) name function_name hfree
  obtain ⟨r', hr', -⟩ := hends
  have hsettle : (s.settle (s.registry.registerKernel name function_name)).registry = r' := by
    rw [RegistrySystem.settle, hr']
    rfl
  obtain ⟨hlibraries, -, -, hfunction⟩ := registerKernel_final hfree hr'
  refine ⟨?_, fun c hc => ?_⟩
  · change Fresh (s.settle (s.registry.registerKernel name function_name)).registry
    rw [hsettle]
    exact h.fresh.registerKernel hfree hguard' hr'
  · change CallCoherent (s.settle (s.registry.registerKernel name function_name)).registry c
    rw [hsettle]
    obtain ⟨q, hq, rfl⟩ := List.mem_map.mp hc
    have hcall := h.calls q hq
    by_cases hname : q.name = name
    · -- the new function is one that the kernel has had since the call began
      simp only [noteFunction, if_pos hname]
      refine ⟨hcall.libraries.trans hlibraries.ge, ?_, fun pipeline hpc => ?_⟩
      · rw [hfunction, if_pos hname]
        exact List.mem_cons_self
      · obtain ⟨hlib, hfun⟩ := hcall.answered pipeline hpc
        exact ⟨hlib, List.mem_cons_of_mem _ hfun⟩
    · simp only [noteFunction, if_neg hname]
      refine ⟨hcall.libraries.trans hlibraries.ge, ?_, hcall.answered⟩
      rw [hfunction, if_neg hname]
      exact hcall.functions

/-- A call goes on. -/
theorem Coherent.setCall (h : Coherent s) {i : ℕ} {c : GetCall} (hc : CallCoherent s.registry c) :
    Coherent { s with calls := s.calls.set i c } := by
  refine ⟨h.fresh, fun q hq => ?_⟩
  rcases List.mem_or_eq_of_mem_set hq with hold | rfl
  · exact h.calls q hold
  · exact hc

theorem Coherent.lookup (h : Coherent s) {i : ℕ} {c : GetCall} {compiled : Option (Option String)}
    (hfree : s.registry.locked = false) (hc : c ∈ s.calls) (hpc : c.pc = .lookup) :
    Coherent
      { s.settle (s.registry.lookupPipeline c.name compiled) with
        calls := s.calls.set i (answer c (s.registry.lookupPipeline c.name compiled)) } := by
  obtain ⟨hfinal, hanswer⟩ := lookupPipeline_spec h.fresh c.name compiled hfree
  have hcall := h.calls c hc
  have hsettled := h.settle hfinal
  refine hsettled.setCall ?_
  have hkept := hsettled.calls c hc
  cases hx : s.registry.lookupPipeline c.name compiled with
  | returned pipeline r' =>
    rw [hx] at hkept
    obtain ⟨hlib, hfun⟩ := isCurrent_iff.mp (hanswer pipeline r' hx)
    refine ⟨hkept.libraries, hkept.functions, fun p hp => ?_⟩
    obtain rfl := GetPC.returned.inj hp
    exact ⟨hcall.libraries.trans hlib.ge, hfun ▸ hcall.functions⟩
  | threw e r' =>
    rw [hx] at hkept
    exact ⟨hkept.libraries, hkept.functions, fun p hp => nomatch hp⟩
  | deadlock =>
    rw [hx] at hkept
    refine ⟨hkept.libraries, hkept.functions, fun p hp => ?_⟩
    exact nomatch hpc.symm.trans hp

theorem Coherent.step (h : Coherent s) (hguard : keepsFresh s a = true) (hs : s.step a = some s') :
    Coherent s' := by
  unfold RegistrySystem.step at hs
  by_cases hlocked : s.registry.locked = true
  · rw [if_pos hlocked] at hs
    cases hs
  rw [if_neg hlocked] at hs
  have hfree : s.registry.locked = false := Bool.eq_false_of_not_eq_true hlocked
  cases a with
  | registerKernel name function_name =>
    obtain rfl := some.inj hs
    exact h.registerKernel hfree hguard
  | loadLibrary | loadDefaultLibrary =>
    obtain rfl := some.inj hs
    apply h.settle
    exact fun r' => Fresh.loadSection hfree (by simpa [keepsFresh] using hguard)
  | precompilePipelines =>
    obtain rfl := some.inj hs
    apply h.settle
    exact fun r' => h.fresh.precompilePipelines hfree
  | completion i ok =>
    obtain ⟨entry, hentry, rfl⟩ := map_eq_some_iff.mp hs
    have hguard' : ok = false ∨ isCurrent s.registry entry = true := by
      simpa [keepsFresh, hentry] using hguard
    apply h.settle
    intro r' hr'
    have hfresh : Fresh { s.registry with compiling := s.registry.compiling.eraseIdx i } :=
      ⟨h.fresh.current, h.fresh.library⟩
    obtain ⟨hfresh', hlater⟩ := hfresh.completion hfree hguard' hr'
    exact ⟨hfresh', hlater.libraries, hlater.functions⟩
  | getPipeline name =>
    obtain rfl := some.inj hs
    refine ⟨h.fresh, fun c hc => ?_⟩
    rcases List.mem_append.mp hc with hold | hnew
    · exact h.calls c hold
    · obtain rfl := List.mem_singleton.mp hnew
      exact ⟨Nat.le_refl _, List.mem_singleton_self _, fun p hp => nomatch hp⟩
  | ensure i files =>
    obtain ⟨c, hc, hs⟩ := bind_eq_some_iff.mp hs
    split_ifs at hs
    obtain rfl := some.inj hs
    have hsettled := h.settle (x := s.registry.ensureLoaded files)
      fun r' => h.fresh.ensureLoaded hfree
    refine hsettled.setCall ?_
    have hkept := hsettled.calls c (List.mem_of_getElem? hc)
    exact ⟨hkept.libraries, hkept.functions, fun p hp => nomatch hp⟩
  | lookup i compiled =>
    obtain ⟨c, hc, hs⟩ := bind_eq_some_iff.mp hs
    split_ifs at hs with hpc
    obtain rfl := some.inj hs
    exact h.lookup hfree (List.mem_of_getElem? hc) hpc

theorem coherent_init : Coherent {} where
  fresh := ⟨by simp, by simp⟩
  calls := by simp

/-- **Coherence.**  As long as a kernel with a cached pipeline is not given another function, no
load fails with pipelines in the cache, and no compilation that ends was begun for another library
or function: every pipeline that `get_pipeline` returns belongs to a library that had not been
replaced, and to a function that had not been superseded, before the call began. -/
theorem get_pipeline_coherent (h : Runs step (fun s a => keepsFresh s a = true) {} s) :
    ∀ c ∈ s.calls, ∀ pipeline, c.pc = .returned pipeline →
      c.libraries ≤ pipeline.library ∧ pipeline.function ∈ c.functions := by
  have hinv : Coherent s := h.invariant coherent_init fun _ _ _ hu hguard hs => hu.step hguard hs
  exact fun c hc => (hinv.calls c hc).answered

/-- A library is loaded, a kernel registered and compiled ahead. -/
def compileAhead : List RegistryAction :=
  [.registerKernel "add" "add_v1", .loadLibrary "a.metallib" (.ok ["add_v1"]), .precompilePipelines]

/-- The pipeline of a call that begins now. -/
def getAdd : List RegistryAction := [.getPipeline "add", .ensure 0 [], .lookup 0 none]

theorem get_pipeline_ahead :
    ∃ s : RegistrySystem, ∃ c ∈ s.calls, c.pc = .returned ⟨1, "add_v1"⟩ ∧
      c.libraries ≤ 1 ∧ "add_v1" ∈ c.functions := by
  have hsome : (exec step {} (compileAhead ++ [.completion 0 true] ++ getAdd)).any
      (fun s => decide (∃ c ∈ s.calls, c.pc = .returned ⟨1, "add_v1"⟩)) = true := by
    decide
  obtain ⟨s, hs, hP⟩ := (any_eq_true _ _).mp hsome
  have hguard : GuardedAlong step (fun s a => keepsFresh s a = true) {}
      (compileAhead ++ [.completion 0 true] ++ getAdd) := by
    decide
  obtain ⟨c, hc, hpc⟩ := of_decide_eq_true hP
  exact ⟨s, c, hc, hpc, get_pipeline_coherent (runs_exec hs hguard) c hc _ hpc⟩

/-- The compilation ends after another library has been loaded: a call that begins then is answered
with the pipeline of the first one. -/
theorem get_pipeline_stale :
    ∃ s : RegistrySystem, Reaches step {} s ∧
      ∃ c ∈ s.calls, c.pc = .returned ⟨1, "add_v1"⟩ ∧ ¬ c.libraries ≤ 1 :=
  exists_reaches
    (compileAhead ++ [.loadLibrary "b.metallib" (.ok ["add_v1"]), .completion 0 true] ++ getAdd)
    (by decide)

end RegistrySystem

end MetalNative
