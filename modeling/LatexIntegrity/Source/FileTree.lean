import LatexIntegrity.Source.Disk

/-!
A tree of files and directories as a value, with a working directory in it.

Paths are followed component by component, as a case-sensitive file system does:
every component before the last one must be a directory, also in front of `..`,
and a separator behind the last one asks for a directory.  A path ends at its
first NUL byte.  Names and paths have a greatest length.
-/

namespace LatexIntegrity

/-- The components of an absolute path, from the root on. -/
abbrev Place := List Text

structure FileTree where
  files : List (Place × Text) := []
  /-- All directories but the root. -/
  directories : List Place := []
  workingDirectory : Place := []
  deriving DecidableEq, Repr

inductive FileNode where
  | file (content : Text)
  | directory
  deriving DecidableEq, Repr

namespace FileTree

def node? (tree : FileTree) (place : Place) : Option FileNode :=
  if place.isEmpty || tree.directories.contains place then some .directory
  else (tree.files.lookup place).map .file

/-! ## Lookup -/

def longestName : Nat := 255

/--
The place that the components lead to from `place`.  Nothing need stand at the
last one.
-/
def follow? (tree : FileTree) (place : Place) : List Text → Option Place
  | [] => some place
  | component :: rest =>
      if tree.node? place != some .directory then none
      else if component == Path.current then tree.follow? place rest
      else if component == Path.parent then tree.follow? place.dropLast rest
      else if longestName < component.length then none
      else tree.follow? (place ++ [component]) rest

def longestPath : Nat := 4095

def significant (path : Text) : Text := path.takeWhile (· != 0)

def place? (tree : FileTree) (path : Text) : Option Place :=
  let path := significant path
  if path.isEmpty || longestPath < path.length then none
  else
    tree.follow? (if Path.isAbsolute path then [] else tree.workingDirectory)
      (Path.components path)

def asksForDirectory (path : Text) : Bool :=
  (significant path).getLast? == some Path.separator

def lookup? (tree : FileTree) (path : Text) : Option FileNode :=
  match (tree.place? path).bind tree.node? with
  | some .directory => some .directory
  | some (.file content) => if asksForDirectory path then none else some (.file content)
  | none => none

def isPresent (tree : FileTree) (path : Text) : Bool := (tree.lookup? path).isSome

def read? (tree : FileTree) (path : Text) : Option OpenedFile :=
  match tree.lookup? path with
  | some (.file content) => some (.holding content)
  | some .directory => some .directory
  | none => none

def target? (tree : FileTree) (path : Text) : Option Place :=
  if asksForDirectory path then none
  else (tree.place? path).filter fun place => tree.node? place != some .directory

/-- The tree as a disk.  Writing only tells whether it is possible. -/
def disk (tree : FileTree) : Disk Id where
  workingDirectory := Path.separator :: Path.joinComponents tree.workingDirectory
  isPresent := tree.isPresent
  read := tree.read?
  write := fun path _ => if (tree.target? path).isSome then .written else .refused

/-! ## Growth -/

def initialParts (place : Place) : List Place :=
  (List.range place.length).map fun index => place.take (index + 1)

def insertDirectory (tree : FileTree) (place : Place) : FileTree :=
  { tree with
    directories :=
      tree.directories ++ (initialParts place).filter (!tree.directories.contains ·) }

def putFile (tree : FileTree) (place : Place) (content : Text) : FileTree :=
  { tree with
    files := (place, content) :: tree.files.filter (·.1 != place) }

def insertFile (tree : FileTree) (place : Place) (content : Text) : FileTree :=
  (tree.insertDirectory place.dropLast).putFile place content

def lexicalPlace (tree : FileTree) (path : Text) : Place :=
  ((Path.components path).foldl (Path.pushComponent true)
    (if Path.isAbsolute path then [] else tree.workingDirectory.reverse)).reverse

/--
Adds what a listing names: a directory if the name ends with a separator, a file
otherwise.
-/
def add (tree : FileTree) (name content : Text) : FileTree :=
  let place := tree.lexicalPlace name
  if asksForDirectory name then tree.insertDirectory place else tree.insertFile place content

def writeAll (tree : FileTree) (written : List (Text × Text)) : FileTree :=
  written.foldl (fun tree entry =>
    match tree.target? entry.1 with
    | some place => tree.putFile place entry.2
    | none => tree) tree

/-! ## Comparison -/

/-- A place without the directories that it shares with another, and the rest of that. -/
def withoutShared : Place → Place → Place × Place
  | first :: place, second :: other =>
      if first == second then withoutShared place other
      else (first :: place, second :: other)
  | place, other => (place, other)

def relativePath (tree : FileTree) (place : Place) : Text :=
  let (below, above) := withoutShared place tree.workingDirectory
  Path.joinComponents (above.map (fun _ => Path.parent) ++ below)

def changes (tree later : FileTree) : List (Text × Text) :=
  let changed := later.files.filter fun entry => tree.node? entry.1 != some (.file entry.2)
  (changed.map fun entry => (tree.relativePath entry.1, entry.2)).mergeSort
    fun first second => !Text.isBefore second.1 first.1

end FileTree

end LatexIntegrity
