import LatexIntegrity.Text.Basic

/-!
File paths as text, with `/` between components.

Normalization is lexical: it looks at the path alone and not at any file.  It
drops empty and `.` components, lets `..` take back the name before it, and keeps
a final separator as the sign of a directory.
-/

namespace LatexIntegrity.Path

def separator : UInt8 := '/'

def isAbsolute (path : Text) : Bool := path.head? == some separator

def components (path : Text) : List Text :=
  (Text.splitAt separator path).filter (!·.isEmpty)

def joinComponents : List Text → Text
  | [] => []
  | [component] => component
  | component :: rest => component ++ separator :: joinComponents rest

/-! ## Normal form -/

def current : Text := "."

def parent : Text := ".."

/--
Adds a component to a normal list of components, given last first.  In an
absolute path nothing lies above the root.
-/
def pushComponent (rooted : Bool) (stack : List Text) (component : Text) : List Text :=
  if component == current then stack
  else if component == parent then
    match stack with
    | [] => if rooted then [] else [parent]
    | top :: below => if top == parent then parent :: stack else below
  else component :: stack

def endsAsDirectory (path : Text) : Bool :=
  match (Text.splitAt separator path).getLast? with
  | none => false
  | some last => last.isEmpty || last == current || last == parent

def normalize (path : Text) : Text :=
  if path.isEmpty then []
  else
    let rooted := isAbsolute path
    let stack := (components path).foldl (pushComponent rooted) []
    let root : Text := if rooted then [separator] else []
    match stack with
    | [] => if rooted then root else current
    | top :: _ =>
        let final : Text :=
          if endsAsDirectory path && top != parent then [separator] else []
        root ++ joinComponents stack.reverse ++ final

def collapseSeparators : Text → Text
  | [] => []
  | b :: rest =>
      if b == separator && rest.head? == some separator then collapseSeparators rest
      else b :: collapseSeparators rest

/-! ## Composition -/

def resolve (base path : Text) : Text :=
  if isAbsolute path || base.isEmpty then path
  else if base.getLast? == some separator then base ++ path
  else base ++ separator :: path

def directory (path : Text) : Text :=
  let above := Text.trimEnd (· != separator) path
  let trimmed := Text.trimEnd (· == separator) above
  if trimmed.isEmpty && isAbsolute path then [separator] else trimmed

def fileName (path : Text) : Text :=
  path.drop (Text.trimEnd (· != separator) path).length

/--
The bytes of the extension of a path, its dot included.  A dot that begins the
file name begins no extension.
-/
def extensionLength (path : Text) : Nat :=
  let name := fileName path
  if name == current || name == parent then 0
  else
    let suffix := (name.reverse.takeWhile (· != ('.' : UInt8))).length + 1
    if suffix < name.length then suffix else 0

def withExtension (newExtension path : Text) : Text :=
  path.take (path.length - extensionLength path) ++ newExtension

end LatexIntegrity.Path
