import LatexIntegrity.Command.Run

/-!
The program: the command line in `IO`, on the files of the machine.
-/

namespace LatexIntegrity

def systemPath? (path : Text) : Option String :=
  String.fromUTF8? (ByteArray.mk (path.takeWhile (· != 0)).toArray)

def attemptAt {α : Type} (path : Text) (fallback : α) (action : String → IO α) : IO α :=
  match systemPath? path with
  | none => pure fallback
  | some path => try action path catch _ => pure fallback

def systemDisk (workingDirectory : String) : Disk IO where
  workingDirectory := workingDirectory
  isPresent := fun path => attemptAt path false fun path => do
    let _ ← IO.FS.Handle.mk path .read
    return true
  read := fun path => attemptAt path none fun path => do
    let handle ← IO.FS.Handle.mk path .read
    try return some (.holding (← handle.readBinToEnd).data.toList)
    catch _ => return some .directory
  write := fun path content => attemptAt path .refused fun path => do
    let handle ← IO.FS.Handle.mk path .write
    try
      handle.write (ByteArray.mk content.toArray)
      handle.flush
      return .written
    catch _ => return .broken

end LatexIntegrity

open LatexIntegrity in
def main (arguments : List String) : IO UInt32 := do
  let disk := systemDisk (← IO.currentDir).toString
  let outcome ← Command.run disk (arguments.map Text.ofString)
  (← IO.getStdout).write (ByteArray.mk outcome.out.toArray)
  (← IO.getStderr).write (ByteArray.mk outcome.err.toArray)
  return outcome.status.toUInt32
