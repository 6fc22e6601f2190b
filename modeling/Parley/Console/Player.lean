import Parley.Play.Conversation
set_option autoImplicit false

/-!
The player at the console: shows beats, lists options, and asks until an available one is chosen.

The player is a machine of small steps. Between two steps it has a beat to show, waits for a line of
input, or is about to move on; the outer layer prints what a step puts out and reads lines.
-/

namespace Parley.Console

open Play

inductive Output where
  | shown (s : String)
  | reported (s : String)
  deriving DecidableEq, Repr

inductive Player where
  | facing (c : Conversation)
  | asking (c : Conversation) (m : Menu)
  | moving (selection : Option Nat) (c : Conversation)
  | done (code : Nat)

/-- A line of input; not all input is text. -/
inductive Input where
  | text (t : Text)
  | undecodable
  | ended
  deriving DecidableEq, Repr

def undecodableMessage : String := "stream did not contain valid UTF-8"

namespace Player

def showCue (c : Cue) : Output :=
  .shown ("<<" ++ String.ofList c.command ++ ">>\n")

def showEntry (number : Nat) (e : Entry) : Output :=
  .shown ("  " ++ toString number ++ ". " ++ String.ofList e.text ++
    (if e.available then "" else " (unavailable)") ++ "\n")

def showEntries : Nat → List Entry → List Output
  | _, [] => []
  | number, e :: es => showEntry number e :: showEntries (number + 1) es

def prompt : Output := .shown "> "

def showMenu (m : Menu) : List Output :=
  m.text.toList.map (fun t => .shown (String.ofList t ++ "\n")) ++ showEntries 1 m.entries ++
    [prompt]

/-- A number as a player writes it: digits, with a plus in front if one likes. -/
def number? (t : Text) : Option Nat :=
  let digits := match Text.trim t with
    | '+' :: r => r
    | r => r
  if digits.isEmpty || !digits.all Text.isDigit then none else some (Number.digitsValue digits)

/-- The index of the entry that a line of input chooses, if it is available. -/
def choice? (m : Menu) (t : Text) : Option Nat :=
  match number? t with
  | some (index + 1) => if m.entries[index]?.any Entry.available then some index else none
  | _ => none

def onward (selection : Option Nat) (c : Conversation) : Player :=
  if c.isFinished then .done 0 else .moving selection c

def face (c : Conversation) : List Output × Player :=
  match c.current with
  | none => ([], .done 0)
  | some (.line l) => ([.shown (String.ofList l.text ++ "\n")], onward none c)
  | some (.cue cue) => ([showCue cue], onward none c)
  | some (.menu m) => (showMenu m, .asking c m)

/-- What follows a report: errors about the selection let the player try again, all others end the
play. Walking that was cut off goes on. -/
def follow (path : Text) (selection : Option Nat) (c : Conversation) : Report → List Output × Player
  | .ok => ([], .facing c)
  | .stalled => ([], .moving selection c)
  | .failed (.running .noSelection) =>
    ([.reported (RuntimeError.noSelection.message ++ "\n")], .facing c)
  | .failed (.running (.selectionOutOfRange index count)) =>
    ([.reported ((RuntimeError.selectionOutOfRange index count).message ++ "\n")], .facing c)
  | .failed e => ([.reported (String.ofList path ++ ": " ++ e.message ++ "\n")], .done 1)

def move (fuel : Nat) (path : Text) (selection : Option Nat) (c : Conversation) :
    List Output × Player :=
  let (report, after) := c.advance fuel selection
  let (outputs, player) := follow path selection after report
  ((after.routed.drop c.routed.length).map showCue ++ outputs, player)

def answer (c : Conversation) (m : Menu) : Input → List Output × Player
  | .ended => ([], .done 0)
  | .undecodable => ([.reported ("stdin: " ++ undecodableMessage ++ "\n")], .done 1)
  | .text t =>
    match choice? m t with
    | some index => ([], onward (some index) c)
    | none =>
      ([.reported ("choose an available option between 1 and " ++ toString m.entries.length ++ "\n"),
        prompt], .asking c m)

def begin (fuel : Nat) (path : Text) (settings : Settings) (script : Text) : List Output × Player :=
  let (report, c) := Conversation.beginScript fuel settings script
  let (outputs, player) := follow path none c report
  (c.routed.map showCue ++ outputs, player)

end Player

end Parley.Console
