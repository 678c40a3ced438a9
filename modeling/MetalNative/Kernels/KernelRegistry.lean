import MetalNative.Core.Error
import MetalNative.Lib.Keyed

namespace MetalNative

/-!
# `KernelRegistry`: libraries, function names and cached pipelines

A translation of `kernel_registry.mm`.  What Metal and the file system answer is an argument of the
operation; a pipeline state is the library and the function that it was compiled from, and a library
is known by the number of libraries before it.

* `withLock` — a section under the mutex, which a thread that holds it cannot enter again.
* `registerKernel`, `getPipeline`, `loadLibrary`, `loadPrecompiledLibrary`, … — the operations.
* `completion` — the handler of a compilation that `precompilePipelines` has started.
-/

/-- An `MTLLibrary`. -/
structure MTLLibrary where
  id : ℕ
  functions : List String
  deriving DecidableEq, Repr

/-- An `MTLComputePipelineState`, by what it was compiled from. -/
structure PipelineState where
  library : ℕ
  function : String
  deriving DecidableEq, Repr

/-- The members of `KernelRegistry::Impl`, the compilations under way and the number of libraries
that there have been. -/
structure KernelRegistry where
  library : Option MTLLibrary := none
  name_to_function : List (String × String) := []
  pipelines : List (String × PipelineState) := []
  /-- `mutex` is held. -/
  locked : Bool := false
  /-- `library_load_flag` has been used. -/
  library_load_flag : Bool := false
  compiling : List (String × PipelineState) := []
  libraries : ℕ := 0
  deriving DecidableEq, Repr

/-- How an operation ends: it returns, it throws, or its thread waits for a mutex that it holds. -/
inductive RegistryResult (α : Type) where
  | returned (value : α) (r : KernelRegistry)
  | threw (e : MNException) (r : KernelRegistry)
  | deadlock
  deriving DecidableEq, Repr

namespace RegistryResult

variable {α β : Type}

/-- What follows when an operation has returned. -/
def andThen (x : RegistryResult α) (f : α → KernelRegistry → RegistryResult β) : RegistryResult β :=
  match x with
  | returned value r => f value r
  | threw e r => threw e r
  | deadlock => deadlock

/-- The end of a `std::lock_guard`, also on the way of an exception. -/
def unlock : RegistryResult α → RegistryResult α
  | returned value r => returned value { r with locked := false }
  | threw e r => threw e { r with locked := false }
  | deadlock => deadlock

end RegistryResult

/-- A file that may hold a library: it exists, and what `newLibraryWithURL` makes of it. -/
structure LibraryFile where
  present : Bool
  library : Option (List String)
  deriving DecidableEq, Repr

namespace KernelRegistry

/-- The function of a kernel; by default it has the kernel's name. -/
def functionOf (r : KernelRegistry) (name : String) : String :=
  ((Keyed.find Prod.fst r.name_to_function name).map Prod.snd).getD name

/-- An assignment to `library`. -/
def setLibrary (r : KernelRegistry) : Option (List String) → KernelRegistry
  | some functions =>
    { r with library := some ⟨r.libraries + 1, functions⟩, libraries := r.libraries + 1 }
  | none =>
    { r with
      library := none
      libraries := if r.library.isSome then r.libraries + 1 else r.libraries }

/-- A section under `std::lock_guard`. -/
def withLock {α : Type} (body : KernelRegistry → RegistryResult α) (r : KernelRegistry) :
    RegistryResult α :=
  if r.locked then .deadlock else (body { r with locked := true }).unlock

/-- `register_kernel`. -/
def registerKernel (name function_name : String) : KernelRegistry → RegistryResult Unit :=
  withLock fun r =>
    .returned () { r with
      name_to_function := Keyed.insert Prod.fst r.name_to_function (name, function_name) }

/-- The compilations that `precompile_pipelines` starts. -/
def toCompile (r : KernelRegistry) (library : MTLLibrary) : List (String × PipelineState) :=
  r.name_to_function.filterMap fun entry =>
    if (Keyed.find Prod.fst r.pipelines entry.1).isSome then none
    else if entry.2 ∈ library.functions then some (entry.1, ⟨library.id, entry.2⟩)
    else none

/-- `precompile_pipelines`. -/
def precompilePipelines : KernelRegistry → RegistryResult Unit :=
  withLock fun r =>
    match r.library with
    | none => .returned () r
    | some library => .returned () { r with compiling := r.compiling ++ r.toCompile library }

/-- The completion handler of a compilation; `ok` when there is a pipeline and no error. -/
def completion (entry : String × PipelineState) (ok : Bool) : KernelRegistry →
    RegistryResult Unit :=
  if ok then
    withLock fun r => .returned () { r with pipelines := Keyed.insert Prod.fst r.pipelines entry }
  else fun r => .returned () r

/-- The section in which a library is loaded; the answer is the library or the text of the error,
from which the message is made. -/
def loadSection (message : Option String → String) (answer : Except (Option String) (List String)) :
    KernelRegistry → RegistryResult Unit :=
  withLock fun r =>
    match answer with
    | .error text => .threw ⟨.KernelCompilationFailed, message text⟩ (r.setLibrary none)
    | .ok functions => .returned () { r.setLibrary (some functions) with pipelines := [] }

/-- The section of `load_library`. -/
def loadLibrarySection (path : String) : Except (Option String) (List String) →
    KernelRegistry → RegistryResult Unit :=
  loadSection fun text =>
    "KernelRegistry: failed to load Metal library from '" ++ path ++ "': " ++
      text.getD "file not found"

/-- `load_library`. -/
def loadLibrary (path : String) (answer : Except (Option String) (List String))
    (r : KernelRegistry) :
    RegistryResult Unit :=
  (loadLibrarySection path answer r).andThen fun _ r => r.precompilePipelines

/-- The section of `load_default_library`. -/
def loadDefaultLibrarySection : Except (Option String) (List String) →
    KernelRegistry → RegistryResult Unit :=
  loadSection fun text =>
    "KernelRegistry: no default Metal library found in main bundle"
      ++ (text.map fun t => ": " ++ t).getD ""

/-- `load_default_library`. -/
def loadDefaultLibrary (answer : Except (Option String) (List String)) (r : KernelRegistry) :
    RegistryResult Unit :=
  (loadDefaultLibrarySection answer r).andThen fun _ r => r.precompilePipelines

/-- The three strategies of `load_precompiled_library`, over the files that they try in turn; `true`
when one of them was loaded. -/
def searchLibrary (r : KernelRegistry) : List LibraryFile → KernelRegistry × Bool
  | [] => (r, false)
  | file :: files =>
    if file.present then
      if (r.setLibrary file.library).library.isSome then (r.setLibrary file.library, true)
      else (r.setLibrary file.library).searchLibrary files
    else r.searchLibrary files

/-- `load_precompiled_library`. -/
def loadPrecompiledLibrary (files : List LibraryFile) : KernelRegistry → RegistryResult Unit :=
  withLock fun r =>
    if r.library.isSome then .returned () r
    else
      match r.searchLibrary files with
      | (r, true) => precompilePipelines { r with pipelines := [] }
      | (r, false) => .returned () r

/-- `std::call_once` of `get_pipeline`. -/
def ensureLoaded (files : List LibraryFile) (r : KernelRegistry) : RegistryResult Unit :=
  if r.library_load_flag then .returned () r
  else
    (r.loadPrecompiledLibrary files).andThen fun _ r =>
      .returned () { r with library_load_flag := true }

/-- The section of `get_pipeline`; the answer is the error of a compilation that fails. -/
def lookupPipeline (name : String) (answer : Option (Option String)) :
    KernelRegistry → RegistryResult PipelineState :=
  withLock fun r =>
    match Keyed.find Prod.fst r.pipelines name with
    | some cached => .returned cached.2 r
    | none =>
      match r.library with
      | none =>
        .threw ⟨.KernelCompilationFailed,
          "KernelRegistry: no Metal library loaded -- "
            ++ "call load_library() or load_default_library() first"⟩ r
      | some library =>
        if r.functionOf name ∉ library.functions then
          .threw ⟨.KernelCompilationFailed,
            "KernelRegistry: function '" ++ r.functionOf name ++
              "' not found in loaded Metal library"⟩ r
        else
          match answer with
          | some text =>
            .threw ⟨.KernelCompilationFailed,
              "KernelRegistry: failed to create pipeline state for '" ++ r.functionOf name ++ "': "
                ++ text.getD "unknown error"⟩ r
          | none =>
            .returned ⟨library.id, r.functionOf name⟩
              { r with
                pipelines :=
                  Keyed.insert Prod.fst r.pipelines (name, ⟨library.id, r.functionOf name⟩) }

/-- `get_pipeline`. -/
def getPipeline (name : String) (files : List LibraryFile) (answer : Option (Option String))
    (r : KernelRegistry) : RegistryResult PipelineState :=
  (r.ensureLoaded files).andThen fun _ r => r.lookupPipeline name answer

/-- `size`. -/
def size : KernelRegistry → RegistryResult ℕ :=
  withLock fun r => .returned r.name_to_function.length r

end KernelRegistry

end MetalNative
