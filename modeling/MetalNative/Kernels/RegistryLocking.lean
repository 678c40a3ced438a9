import MetalNative.Kernels.KernelRegistry

namespace MetalNative

open KernelRegistry

/-!
# The mutex of the registry within one operation

A section that calls no other operation comes to an end and frees the mutex;
`load_precompiled_library` calls `precompile_pipelines` from inside its own.

* `Ends` — an operation comes to an end with the mutex free.
* `RegistryOp` — the public operations, with the answers that they get.
* `registry_locking` — which operations wait for the mutex that they hold.
-/

namespace RegistryResult

variable {α β : Type}

/-- The registry that an operation leaves. -/
def final : RegistryResult α → Option KernelRegistry
  | returned _ r | threw _ r => some r
  | deadlock => none

/-- The operation comes to an end, with the mutex free. -/
def Ends (x : RegistryResult α) : Prop := ∃ r, x.final = some r ∧ r.locked = false

variable {x : RegistryResult α}

theorem Ends.ne_deadlock (h : Ends x) : x ≠ deadlock := by
  rintro rfl
  obtain ⟨r, hr, -⟩ := h
  cases hr

theorem Ends.final_unlocked (h : Ends x) {r : KernelRegistry}
    (hr : x.final = some r) : r.locked = false := by
  obtain ⟨r', hr', hfree⟩ := h
  rw [hr] at hr'
  rw [Option.some.inj hr']
  exact hfree

/-- One operation after the other. -/
theorem Ends.andThen {f : α → KernelRegistry → RegistryResult β}
    (hx : Ends x)
    (hf : ∀ value r, r.locked = false → Ends (f value r)) : Ends (x.andThen f) := by
  obtain ⟨r, hr, hfree⟩ := hx
  cases x with
  | returned value r' =>
    obtain rfl := Option.some.inj hr
    exact hf value r' hfree
  | threw e r' => exact ⟨r, hr, hfree⟩
  | deadlock => cases hr

end RegistryResult

namespace KernelRegistry

open RegistryResult

variable {α : Type} {r : KernelRegistry}

/-- A section whose body does not lock. -/
theorem withLock_ends {body : KernelRegistry → RegistryResult α} (h : r.locked = false)
    (hbody : ∀ r, body r ≠ .deadlock) : Ends (withLock body r) := by
  rw [withLock, if_neg (by simp [h])]
  cases hb : body { r with locked := true } with
  | returned | threw => exact ⟨_, rfl, rfl⟩
  | deadlock => exact absurd hb (hbody _)

/-- A section under a mutex that the thread holds. -/
theorem withLock_locked (body : KernelRegistry → RegistryResult α) (h : r.locked = true) :
    withLock body r = .deadlock := if_pos h

/-! ### The sections -/

theorem registerKernel_ends (name function_name : String) (h : r.locked = false) :
    Ends (registerKernel name function_name r) := by
  apply withLock_ends h
  simp

theorem precompilePipelines_ends (h : r.locked = false) : Ends r.precompilePipelines := by
  apply withLock_ends h
  intro r'
  cases r'.library <;> simp

theorem completion_ends (entry : String × PipelineState) (ok : Bool) (h : r.locked = false) :
    Ends (completion entry ok r) := by
  unfold completion
  by_cases hok : ok = true
  · rw [if_pos hok]
    apply withLock_ends h
    simp
  · rw [if_neg hok]
    exact ⟨r, rfl, h⟩

theorem loadSection_ends (message : Option String → String)
    (answer : Except (Option String) (List String)) (h : r.locked = false) :
    Ends (loadSection message answer r) := by
  apply withLock_ends h
  intro r'
  cases answer <;> simp

theorem lookupPipeline_ends (name : String) (answer : Option (Option String))
    (h : r.locked = false) :
    Ends (lookupPipeline name answer r) := by
  apply withLock_ends h
  intro r'
  cases hcached : Keyed.find Prod.fst r'.pipelines name with
  | some cached => simp
  | none =>
    cases hlibrary : r'.library with
    | none => simp
    | some library =>
      by_cases hfunction : r'.functionOf name ∉ library.functions
      · simp [hfunction]
      · cases answer <;> simp [hfunction]

theorem size_ends (h : r.locked = false) : Ends r.size := by
  apply withLock_ends h
  simp

/-! ### The precompiled library -/

/-- Whether one of the files is loaded. -/
def finds (files : List LibraryFile) : Bool :=
  files.any fun file => file.present && file.library.isSome

@[simp] theorem setLibrary_isSome (answer : Option (List String)) :
    (r.setLibrary answer).library.isSome = answer.isSome := by
  cases answer <;> rfl

@[simp] theorem setLibrary_locked (answer : Option (List String)) :
    (r.setLibrary answer).locked = r.locked := by
  cases answer <;> rfl

/-- The search ends at the first file that can be loaded. -/
theorem searchLibrary_found (files : List LibraryFile) (r : KernelRegistry) :
    (r.searchLibrary files).2 = finds files := by
  induction files generalizing r with
  | nil => rfl
  | cons file files ih =>
    unfold searchLibrary
    by_cases hpresent : file.present = true
    · by_cases hloaded : file.library.isSome = true
      · simp [finds, hpresent, hloaded]
      · have hrest := ih (r.setLibrary file.library)
        simp [finds, hpresent, hloaded, hrest]
    · have hrest := ih r
      simp [finds, hpresent, hrest]

theorem searchLibrary_locked (files : List LibraryFile) (r : KernelRegistry) :
    (r.searchLibrary files).1.locked = r.locked := by
  induction files generalizing r with
  | nil => rfl
  | cons file files ih =>
    unfold searchLibrary
    split_ifs
    · exact setLibrary_locked _
    · exact (ih _).trans (setLibrary_locked _)
    · exact ih r

/-- When a library is found, `precompile_pipelines` is called with the mutex held. -/
theorem loadPrecompiledLibrary_deadlock {files : List LibraryFile} (hlibrary : r.library = none)
    (hfinds : finds files = true) : r.loadPrecompiledLibrary files = .deadlock := by
  unfold loadPrecompiledLibrary withLock
  by_cases h : r.locked = true
  · rw [if_pos h]
  · rw [if_neg h]
    have hfound := searchLibrary_found files { r with locked := true }
    have hlocked := searchLibrary_locked files { r with locked := true }
    have hnone : ¬ r.library.isSome = true := by simp [hlibrary]
    cases hsearch : ({ r with locked := true } : KernelRegistry).searchLibrary files with
    | mk r' found =>
      rw [hsearch] at hfound hlocked
      rw [hfinds] at hfound
      simp only [hnone]
      rw [hsearch, show found = true from hfound]
      have hself : precompilePipelines { r' with pipelines := [] } = .deadlock :=
        withLock_locked _ hlocked
      simp only [hself]
      rfl

/-- Otherwise it comes to an end. -/
theorem loadPrecompiledLibrary_ends {files : List LibraryFile} (h : r.locked = false)
    (hquiet : r.library ≠ none ∨ finds files = false) : Ends (r.loadPrecompiledLibrary files) := by
  unfold loadPrecompiledLibrary withLock
  rw [if_neg (by simp [h])]
  by_cases hlibrary : r.library.isSome = true
  · simp only [hlibrary, if_true]
    exact ⟨_, rfl, rfl⟩
  · have hnone : finds files = false := by
      rcases hquiet with hsome | hnone
      · exact absurd (Option.isSome_iff_ne_none.mpr hsome) hlibrary
      · exact hnone
    have hfound := searchLibrary_found files { r with locked := true }
    rw [hnone] at hfound
    cases hsearch : ({ r with locked := true } : KernelRegistry).searchLibrary files with
    | mk r' found =>
      rw [hsearch] at hfound
      simp only [hlibrary]
      rw [hsearch, show found = false from hfound]
      exact ⟨_, rfl, rfl⟩

end KernelRegistry

/-! ### The operations -/

/-- A public operation, or a completion handler, with the answers of Metal and the file system. -/
inductive RegistryOp where
  | registerKernel (name function_name : String)
  | getPipeline (name : String) (files : List LibraryFile) (answer : Option (Option String))
  | loadLibrary (path : String) (answer : Except (Option String) (List String))
  | loadDefaultLibrary (answer : Except (Option String) (List String))
  | precompilePipelines
  | size
  | completion (entry : String × PipelineState) (ok : Bool)

namespace RegistryOp

open RegistryResult

/-- The operation, without its value. -/
def run (op : RegistryOp) (r : KernelRegistry) : RegistryResult Unit :=
  match op with
  | registerKernel name function_name => r.registerKernel name function_name
  | getPipeline name files answer =>
    (r.getPipeline name files answer).andThen fun _ r => .returned () r
  | loadLibrary path answer => r.loadLibrary path answer
  | loadDefaultLibrary answer => r.loadDefaultLibrary answer
  | precompilePipelines => r.precompilePipelines
  | size => r.size.andThen fun _ r => .returned () r
  | completion entry ok => r.completion entry ok

/-- The first `get_pipeline`, with no library loaded and a precompiled one to be found. -/
def LoadsPrecompiled (r : KernelRegistry) : RegistryOp → Prop
  | getPipeline _ files _ =>
    r.library_load_flag = false ∧ r.library = none ∧ KernelRegistry.finds files = true
  | _ => False

instance (r : KernelRegistry) (op : RegistryOp) : Decidable (op.LoadsPrecompiled r) :=
  match op with
  | getPipeline _ _ _ => inferInstanceAs (Decidable (_ ∧ _ ∧ _))
  | registerKernel _ _ | loadLibrary _ _ | loadDefaultLibrary _ | precompilePipelines | size
  | completion _ _ => inferInstanceAs (Decidable False)

variable {r : KernelRegistry} {op : RegistryOp}

theorem getPipeline_deadlock {name : String} {files : List LibraryFile}
    {answer : Option (Option String)} (h : (getPipeline name files answer).LoadsPrecompiled r) :
    r.getPipeline name files answer = .deadlock := by
  obtain ⟨hflag, hlibrary, hfinds⟩ := h
  have hload := loadPrecompiledLibrary_deadlock hlibrary hfinds
  simp [KernelRegistry.getPipeline, KernelRegistry.ensureLoaded, hflag, hload, andThen]

theorem ensureLoaded_ends {files : List LibraryFile} (h : r.locked = false)
    (hquiet : r.library_load_flag = true ∨ r.library ≠ none ∨ finds files = false) :
    Ends (r.ensureLoaded files) := by
  unfold ensureLoaded
  by_cases hflag : r.library_load_flag = true
  · rw [if_pos hflag]
    exact ⟨r, rfl, h⟩
  · rw [if_neg hflag]
    apply Ends.andThen
    · exact loadPrecompiledLibrary_ends h (hquiet.resolve_left hflag)
    · exact fun _ r' h' => ⟨_, rfl, h'⟩

/-- Every other operation comes to an end. -/
theorem run_ends (h : r.locked = false) (hquiet : ¬ op.LoadsPrecompiled r) : Ends (op.run r) := by
  cases op with
  | registerKernel name function_name => exact registerKernel_ends _ _ h
  | getPipeline name files answer =>
    apply Ends.andThen
    · apply Ends.andThen
      · apply ensureLoaded_ends h
        by_cases hflag : r.library_load_flag = true
        · exact .inl hflag
        · by_cases hlibrary : r.library = none
          · right
            right
            by_contra hfinds
            exact hquiet ⟨by simpa using hflag, hlibrary, by simpa using hfinds⟩
          · exact .inr (.inl hlibrary)
      · exact fun _ r' h' => lookupPipeline_ends _ _ h'
    · exact fun _ r' h' => ⟨r', rfl, h'⟩
  | loadLibrary | loadDefaultLibrary =>
    apply Ends.andThen (loadSection_ends _ _ h)
    exact fun _ r' h' => precompilePipelines_ends h'
  | precompilePipelines => exact precompilePipelines_ends h
  | size =>
    apply Ends.andThen (size_ends h)
    exact fun _ r' h' => ⟨r', rfl, h'⟩
  | completion entry ok => exact completion_ends _ _ h

/-- **Locking.**  With the mutex free an operation waits for the mutex that it holds exactly when it
is the first `get_pipeline`, no library is loaded and a precompiled one is found; every other one
comes to an end and leaves the mutex free. -/
theorem registry_locking (op : RegistryOp) (r : KernelRegistry) (h : r.locked = false) :
    (op.run r ≠ .deadlock ↔ ¬ op.LoadsPrecompiled r)
      ∧ ∀ r', (op.run r).final = some r' → r'.locked = false := by
  by_cases hloads : op.LoadsPrecompiled r
  · have hdeadlock : op.run r = .deadlock := by
      cases op with
      | getPipeline name files answer => simp [run, getPipeline_deadlock hloads, andThen]
      | registerKernel _ _ | loadLibrary _ _ | loadDefaultLibrary _ | precompilePipelines | size
      | completion _ _ => exact absurd hloads id
    refine ⟨by simp [hdeadlock, hloads], fun r' hr' => ?_⟩
    rw [hdeadlock] at hr'
    cases hr'
  · have hends := run_ends h hloads
    exact ⟨by simp [hends.ne_deadlock, hloads], fun r' hr' => hends.final_unlocked hr'⟩

/-- A library is loaded by its path, and then a pipeline is asked for. -/
theorem registry_locking_load :
    (loadLibrary "metal_native.metallib" (.ok ["add"])).run {} ≠ .deadlock :=
  ((registry_locking (loadLibrary "metal_native.metallib" (.ok ["add"])) {} rfl).1).mpr (by decide)

/-- The first pipeline, with a precompiled library in its place. -/
theorem get_pipeline_deadlock :
    (getPipeline "add" [⟨true, some ["add"]⟩] none).run {} = .deadlock := by
  decide

end RegistryOp

end MetalNative
