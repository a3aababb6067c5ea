import LatexIntegrity.Text.Utf8
import LatexIntegrity.Text.Ascii

/-!
A document and the index of its lines.
-/

namespace LatexIntegrity

/--
A place in a source file.  Lines and columns count from 1, columns in bytes; 0
means unknown, also for the file.
-/
structure Location where
  file : UInt32 := 0
  line : UInt32 := 0
  column : UInt32 := 0
  deriving DecidableEq, Repr

structure Document where
  text : Text
  path : Text := []
  file : UInt32 := 0
  deriving DecidableEq, Repr

namespace Document

def size (document : Document) : Nat := document.text.length

/-- The offsets behind the line feeds of `text` that are not at its end. -/
def startsBehindFeeds (offset : Nat) : Text → List Nat
  | [] => []
  | b :: rest =>
      if b == '\n' && !rest.isEmpty then (offset + 1) :: startsBehindFeeds (offset + 1) rest
      else startsBehindFeeds (offset + 1) rest

/-- The offsets at which lines begin.  A final line feed begins no line. -/
def lineStarts (document : Document) : List Nat := 0 :: startsBehindFeeds 0 document.text

def lineCount (document : Document) : Nat := document.lineStarts.length

def locate (document : Document) (offset : Nat) : Location :=
  let place := min offset document.size
  let line := bisect (· ≤ place) document.lineStarts
  let start := document.lineStarts.getD (line - 1) 0
  { file := document.file
    line := line.toUInt32
    column := (place - start + 1).toUInt32 }

end Document

end LatexIntegrity
