import Parley.Console.PluralTable
import Parley.Console.Program
set_option autoImplicit false

/-!
The command line: reads files and input, prints what the program puts out.
-/

namespace Parley

open Console

/-- How many steps a walk takes before it is looked at again. -/
def patience : Nat := 1000000

def emit (o : Output) : IO Unit := do
  match o with
  | .shown s =>
    let out ← IO.getStdout
    out.putStr s
    out.flush
  | .reported s => (← IO.getStderr).putStr s

def readFile (path : Text) : IO FileContent := do
  try
    let bytes ← IO.FS.readBinFile (String.ofList path)
    match decode? bytes with
    | some t => return .text t
    | none => return .undecodable
  catch
    | .noFileOrDirectory .. => return .unreadable missingMessage
    | e => return .unreadable (toString e)

/-- The bytes of the next line, with its line feed. -/
partial def readBytes (acc : ByteArray) : IO ByteArray := do
  let next ← (← IO.getStdin).read 1
  if next.isEmpty then return acc
  else if next[0]? = some 10 then return acc ++ next
  else readBytes (acc ++ next)

def readInput : IO Input := do
  let bytes ← readBytes .empty
  if bytes.isEmpty then return .ended
  match decode? bytes with
  | some t => return .text t
  | none => return .undecodable

partial def playLoop (path : Text) (player : Player) : IO UInt32 := do
  let (outputs, next) ← match player with
    | .done code => return code.toUInt32
    | .facing c => pure (Player.face c)
    | .moving selection c => pure (Player.move patience path selection c)
    | .asking c m => do pure (Player.answer c m (← readInput))
  outputs.forM emit
  playLoop path next

def runRequest : Request → IO UInt32
  | .check files => do
    let contents ← files.mapM fun path => do return (path, ← readFile path)
    let (outputs, code) := checkFiles contents
    outputs.forM emit
    return code.toUInt32
  | .play path start locale combine => do
    let settings := settingsOf PluralTable.library start locale combine
    let (outputs, player) := openFile patience path settings (← readFile path)
    outputs.forM emit
    playLoop path player

def usage : String :=
  "usage: check FILE... | play FILE [--start TITLE] [--locale LOCALE] [--combine]\n"

end Parley

def main (args : List String) : IO UInt32 :=
  match Parley.Console.Request.ofArgs? (args.map String.toList) with
  | some request => Parley.runRequest request
  | none => do
    (← IO.getStderr).putStr Parley.usage
    return 2
