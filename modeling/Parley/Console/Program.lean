import Parley.Console.Player
import Parley.Console.Request
set_option autoImplicit false

/-!
The program as a whole: from arguments, files and input to what is printed and the exit code.
-/

namespace Parley.Console

open Play

inductive FileContent where
  | text (t : Text)
  | undecodable
  | unreadable (reason : String)
  deriving DecidableEq, Repr

def missingMessage : String := "No such file or directory (os error 2)"

def decode? (bytes : ByteArray) : Option Text :=
  (String.fromUTF8? bytes).map String.toList

def about (path : Text) (message : String) : Output :=
  .reported (String.ofList path ++ ": " ++ message ++ "\n")

/-- The text of a file, or the message that tells why there is none. -/
def FileContent.read : FileContent → Except String Text
  | .text t => .ok t
  | .undecodable => .error undecodableMessage
  | .unreadable reason => .error reason

def checkFile (path : Text) (content : FileContent) : Output × Bool :=
  match content.read with
  | .error reason => (about path reason, false)
  | .ok script =>
    match check script with
    | .error e => (about path e.message, false)
    | .ok nodes => (about path ("valid (" ++ toString nodes.length ++ " node(s))"), true)

def checkFiles (files : List (Text × FileContent)) : List Output × Nat :=
  let checked := files.map fun f => checkFile f.1 f.2
  (checked.map Prod.fst, if checked.all Prod.snd then 0 else 1)

def settingsOf (rules : Plural.Library) (start locale : Text) (combine : Bool) : Settings :=
  { rules := rules, startAt := start, locale := locale, joinsMenus := combine, routesCues := true }

def openFile (fuel : Nat) (path : Text) (settings : Settings) (content : FileContent) :
    List Output × Player :=
  match content.read with
  | .error reason => ([about path reason], .done 1)
  | .ok script => Player.begin fuel path settings script

/-- Plays on with lines of input. The last argument bounds the number of steps; the exit code is
missing if they are used up. -/
def playOn (fuel : Nat) (path : Text) : Player → List Input → Nat → List Output × Option Nat
  | _, _, 0 => ([], none)
  | .done code, _, _ + 1 => ([], some code)
  | .facing c, input, n + 1 =>
    let (outputs, player) := Player.face c
    let (more, code) := playOn fuel path player input n
    (outputs ++ more, code)
  | .moving selection c, input, n + 1 =>
    let (outputs, player) := Player.move fuel path selection c
    let (more, code) := playOn fuel path player input n
    (outputs ++ more, code)
  | .asking c m, input, n + 1 =>
    let (outputs, player) := Player.answer c m (input.headD .ended)
    let (more, code) := playOn fuel path player input.tail n
    (outputs ++ more, code)

/-- Runs a request against files and input that are all known beforehand. -/
def run (rules : Plural.Library) (fuel : Nat) (request : Request) (file : Text → FileContent) (input : List Input) :
    List Output × Option Nat :=
  match request with
  | .check files =>
    let (outputs, code) := checkFiles (files.map fun path => (path, file path))
    (outputs, some code)
  | .play path start locale combine =>
    let (outputs, player) := openFile fuel path (settingsOf rules start locale combine) (file path)
    let (more, code) := playOn fuel path player input fuel
    (outputs ++ more, code)

end Parley.Console
