import LatexIntegrity.Source.Path

/-!
The registry of source files.

A file is known by its normalized path.  Numbers are given out from 1 on in the
order of registration, and a file keeps the number and the role that it was
first given.  The number 0 stands for no file.
-/

namespace LatexIntegrity

inductive FileRole where
  | document
  | input
  | log
  deriving DecidableEq, Repr

def FileRole.label : FileRole → Text
  | .document => "document"
  | .input => "input"
  | .log => "log"

structure SourceFile where
  path : Text
  role : FileRole
  deriving DecidableEq, Repr

structure Registry where
  files : List SourceFile := []
  deriving DecidableEq, Repr

namespace Registry

def empty : Registry := {}

def index? (registry : Registry) (normalized : Text) : Option Nat :=
  registry.files.findIdx? (·.path == normalized)

def find (registry : Registry) (path : Text) : UInt32 :=
  match registry.index? (Path.normalize path) with
  | some index => (index + 1).toUInt32
  | none => 0

def add (registry : Registry) (path : Text) (role : FileRole) : Registry × UInt32 :=
  let normalized := Path.normalize path
  match registry.index? normalized with
  | some index => (registry, (index + 1).toUInt32)
  | none =>
      (⟨registry.files ++ [⟨normalized, role⟩]⟩, (registry.files.length + 1).toUInt32)

def capacity : Nat := UInt32.size

def add? (registry : Registry) (path : Text) (role : FileRole) : Option (Registry × UInt32) :=
  if (registry.index? (Path.normalize path)).isNone && capacity ≤ registry.files.length + 1 then
    none
  else some (registry.add path role)

def file? (registry : Registry) (id : UInt32) : Option SourceFile :=
  match id.toNat with
  | 0 => none
  | index + 1 => registry.files[index]?

/-- The normalized path of a file; empty for a number that is not given out. -/
def path (registry : Registry) (id : UInt32) : Text :=
  ((registry.file? id).map (·.path)).getD []

def role? (registry : Registry) (id : UInt32) : Option FileRole :=
  (registry.file? id).map (·.role)

def countOf (registry : Registry) (role : FileRole) : Nat :=
  registry.files.countP (·.role == role)

end Registry

end LatexIntegrity
