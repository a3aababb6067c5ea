import LatexIntegrity.Source.Disk
import LatexIntegrity.Source.Document
import LatexIntegrity.Source.Registry

/-!
Loading of source files: a file that is read is registered, and its content is
repaired to valid UTF-8.
-/

namespace LatexIntegrity

inductive LoadError where
  | cannotOpen (path : Text)
  | tooLarge (path : Text)
  | outOfMemory (path : Text)
  | tooManyFiles (path : Text)
  deriving DecidableEq, Repr

def LoadError.message : LoadError → Text
  | .cannotOpen path => "unable to open " ++ path
  | .tooLarge path => "source file too large: " ++ path ++ " (limit: 256 MB)"
  | .outOfMemory path => "out of memory reading " ++ path
  | .tooManyFiles path => "too many source files; cannot register " ++ Path.normalize path

def Registry.register (registry : Registry) (path : Text) (role : FileRole) :
    Except LoadError (Registry × UInt32) :=
  match registry.add? path role with
  | none => .error (.tooManyFiles path)
  | some registered => .ok registered

structure LoadedText where
  text : Text
  file : UInt32
  /-- How many ill-formed parts were replaced. -/
  replacements : Nat
  deriving DecidableEq, Repr

def sizeLimit : Nat := 256 * 1024 * 1024

/-- Whether a file is too large, or of no known size. -/
def OpenedFile.isTooLarge (file : OpenedFile) : Bool := file.size.all (sizeLimit < ·)

def Registry.load (registry : Registry) (path : Text) (role : FileRole) (file : OpenedFile) :
    Except LoadError (Registry × LoadedText) :=
  if file.isTooLarge then .error (.tooLarge path)
  else if !file.fitsMemory then .error (.outOfMemory path)
  else do
    let (registry, number) ← registry.register path role
    return (registry, ⟨Utf8.repair file.content, number, Utf8.replacements file.content⟩)

def readText {m : Type → Type} [Monad m] (disk : Disk m) (registry : Registry) (path : Text)
    (role : FileRole) : m (Except LoadError (Registry × LoadedText)) := do
  match ← disk.read path with
  | none => return .error (.cannotOpen path)
  | some file => return registry.load path role file

def readDocument {m : Type → Type} [Monad m] (disk : Disk m) (registry : Registry)
    (path : Text) (role : FileRole) : m (Except LoadError (Registry × Document)) := do
  match ← readText disk registry path role with
  | .error error => return .error error
  | .ok (registry, loaded) => return .ok (registry, ⟨loaded.text, path, loaded.file⟩)

end LatexIntegrity
