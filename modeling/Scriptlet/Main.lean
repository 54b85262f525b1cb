import Scriptlet.Command

/-! The program: `Command` on the files and streams of the system. -/

namespace Scriptlet.Main

def isDirectoryCode : UInt32 := 21

def reasonOf : IO.Error → String
  | .noFileOrDirectory _ _ _ => DiskError.notFound.message
  | .inappropriateType _ code _ =>
    if code = isDirectoryCode ∨ code = -isDirectoryCode then DiskError.isDirectory.message
    else DiskError.notDirectory.message
  | e => toString e

def attempt (act : IO α) : IO (Except String α) := do
  try return .ok (← act) catch e => return .error (reasonOf e)

def answer (r : Command.Response) : IO UInt32 := do
  (← IO.getStdout).write r.stdout
  (← IO.getStdout).flush
  (← IO.getStderr).putStr r.stderr
  return UInt32.ofNat r.exit

def showFrom (shown : Nat) (m : Machine) : IO Unit := do
  (← IO.getStdout).write (m.written.extract shown m.written.size)

def host : Host := { address := fun id => 0x10000 + 64 * id }

partial def drive (m : Machine) : IO UInt32 := do
  let shown := m.written.size
  match Machine.run host 4096 m with
  | .ok false m =>
    showFrom shown m
    drive m
  | .ok true m =>
    showFrom shown m
    answer { }
  | .error f m =>
    showFrom shown m
    answer (.ofError (.fault f))

end Scriptlet.Main

open Scriptlet Scriptlet.Main in
def main (args : List String) : IO UInt32 := do
  let task := Command.Task.ofArgs args
  let content ← match task.file? with
    | some file => attempt (IO.FS.readBinFile file)
    | none => pure (.error "")
  match task.effect content with
  | .answer r => answer r
  | .store path bytes =>
    match ← attempt (IO.FS.writeBinFile path bytes) with
    | .ok _ => answer { }
    | .error reason => answer (.ofError (.file reason))
  | .run p => drive (.ofProgram p)
