import LatexIntegrity.Source.Path

/-!
Access to files, in whatever monad the files live.

The commands are written once against this interface.  With a file tree they are
pure functions; the program itself runs them in `IO`.
-/

namespace LatexIntegrity

structure OpenedFile where
  /-- How long it is, unless its end cannot be found, as in a directory. -/
  size : Option Nat
  content : Text
  fitsMemory : Bool := true
  deriving DecidableEq, Repr

namespace OpenedFile

def holding (content : Text) : OpenedFile := { size := some content.length, content := content }

def directory : OpenedFile := { size := none, content := [] }

end OpenedFile

inductive WriteResult where
  | written
  /-- The file cannot be opened. -/
  | refused
  /-- The file is opened, but does not take all bytes. -/
  | broken
  deriving DecidableEq, Repr

structure Disk (m : Type → Type) where
  /-- The absolute path that relative paths are resolved against. -/
  workingDirectory : Text
  /-- Whether a file or directory stands at a path. -/
  isPresent : Text → m Bool
  /-- Opens a file or directory, if that is possible. -/
  read : Text → m (Option OpenedFile)
  write : Text → Text → m WriteResult

namespace Disk

def directoryOf {m : Type → Type} (disk : Disk m) (path : Text) : Text :=
  Path.directory (Path.resolve disk.workingDirectory path)

def anyPresent {m : Type → Type} [Monad m] (disk : Disk m) : List Text → m Bool
  | [] => pure false
  | path :: rest => do
      if ← disk.isPresent path then pure true else disk.anyPresent rest

end Disk

end LatexIntegrity
