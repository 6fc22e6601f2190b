import Parley.Markup.Scan
set_option autoImplicit false

/-!
A line of dialogue with its markup taken out.

The line may begin with the name of a speaker. After the scan, the second pass resolves escapes and
moves the events along, and the third pairs openings with closings. Positions and lengths count
characters of the final text.
-/

namespace Parley.Markup

/-- A stretch of the final text that carries a tag. Self-closing tags have length zero. -/
structure Mark where
  name : Text
  position : Nat
  length : Nat
  properties : Properties
  deriving DecidableEq, Repr

structure MarkedLine where
  text : Text
  marks : List Mark
  deriving DecidableEq, Repr

/-- Where a position of the escaped text comes to lie: each escape pulls the positions after its
backslash one to the left. The second argument counts the characters already resolved. -/
def shiftFrom : Text → Nat → Nat → Nat
  | [], _, position => position
  | [_], _, position => position
  | c :: d :: t, resolved, position =>
    if c = '\\' then
      shiftFrom t (resolved + 1) (if resolved < position then position - 1 else position)
    else shiftFrom (d :: t) (resolved + 1) position

def shift (t : Text) (position : Nat) : Nat :=
  shiftFrom t 0 position

def Scanned.resolveEscapes (s : Scanned) : Scanned :=
  ⟨Text.unescape s.text, s.events.map fun e => { e with position := shift s.text e.position }⟩

def Mark.closeAt (m : Mark) (position : Nat) : Mark :=
  { m with length := position - m.position }

/-- Pairs events. The open marks are kept newest first, and a closing takes the newest of its name;
what is never closed leaves no mark. -/
def pairFrom : List Mark → List Event → Except MarkupError (List Mark)
  | _, [] => .ok []
  | pending, e :: events =>
    match e.tag with
    | .opening name properties => pairFrom (⟨name, e.position, 0, properties⟩ :: pending) events
    | .selfClosing name properties =>
      (pairFrom pending events).map (⟨name, e.position, 0, properties⟩ :: ·)
    | .closing name =>
      match pending.find? fun m => m.name == name with
      | none => .error ⟨.unmatchedClose name, e.origin⟩
      | some m =>
        (pairFrom (pending.eraseP fun m => m.name == name) events).map (m.closeAt e.position :: ·)
    | .closeAll => (pairFrom [] events).map (pending.map (·.closeAt e.position) ++ ·)

def pair (events : List Event) : Except MarkupError (List Mark) :=
  pairFrom [] events

/-- The speaker at the start of a line, and the line without it: a word that ends in a colon and has
a blank after it. -/
def speaker? (line : Text) : Option (Text × Text) :=
  let word := line.takeWhile fun c => !Text.isBlank c
  let rest := line.dropWhile fun c => !Text.isBlank c
  if word.getLast? = some ':' ∧ 2 ≤ word.length ∧ rest ≠ [] then
    some (word.dropLast, Text.trimStart rest)
  else none

def speakerMark (name : Text) : Mark :=
  ⟨"character".toList, 0, 0, [("name".toList, .string name)]⟩

def readBody (locale : Locale) (body : Text) : Except MarkupError MarkedLine := do
  let scanned ← scan locale body
  let resolved := scanned.resolveEscapes
  let marks ← pair resolved.events
  return ⟨resolved.text, marks⟩

def readLine (locale : Locale) (line : Text) : Except MarkupError MarkedLine :=
  match speaker? line with
  | none => readBody locale line
  | some (name, body) =>
    (readBody locale body).map fun m => { m with marks := speakerMark name :: m.marks }

end Parley.Markup
