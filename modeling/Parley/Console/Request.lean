import Parley.Text
set_option autoImplicit false

/-!
What the command line asks for: `check FILE...` or `play FILE`, the latter with the options
`--start TITLE`, `--locale LOCALE` and `--combine`.

Options stand before or behind the file, take their value as the next argument or behind an equals
sign, and come once at most. Behind a double hyphen there are only files.
-/

namespace Parley.Console

inductive Request where
  | check (files : List Text)
  | play (file start locale : Text) (combine : Bool)
  deriving DecidableEq, Repr

structure PlayDraft where
  file : Option Text
  start : Option Text
  locale : Option Text
  combine : Bool
  deriving DecidableEq, Repr

/-- A hyphen with something behind it introduces an option. -/
def looksLikeOption : Text → Bool
  | '-' :: _ :: _ => true
  | _ => false

/-- An argument that names a file, which takes one character at least. -/
def file? (t : Text) : Option Text :=
  if t.isEmpty then none else some t

def readFiles : List Text → Option (List Text)
  | [] => some []
  | t :: ts =>
    if t = "--".toList then ts.mapM file?
    else if looksLikeOption t then none
    else do return (← file? t) :: (← readFiles ts)

namespace PlayDraft

def addFile (d : PlayDraft) (t : Text) : Option PlayDraft :=
  match d.file, file? t with
  | none, some t => some { d with file := some t }
  | _, _ => none

def addStart (d : PlayDraft) (t : Text) : Option PlayDraft :=
  if d.start.isSome then none else some { d with start := some t }

def addLocale (d : PlayDraft) (t : Text) : Option PlayDraft :=
  if d.locale.isSome then none else some { d with locale := some t }

def addCombine (d : PlayDraft) : Option PlayDraft :=
  if d.combine then none else some { d with combine := true }

/-- Reads arguments. A value that would itself look like an option has to stand behind an equals
sign. -/
def read (d : PlayDraft) : List Text → Option PlayDraft
  | [] => some d
  | [t] =>
    if t = "--".toList then some d
    else if t = "--combine".toList then d.addCombine
    else match Text.afterPrefix? "--start=".toList t, Text.afterPrefix? "--locale=".toList t with
      | some v, _ => d.addStart v
      | _, some v => d.addLocale v
      | _, _ => if looksLikeOption t then none else d.addFile t
  | t :: u :: ts =>
    if t = "--".toList then (u :: ts).foldlM addFile d
    else if t = "--combine".toList then do (← d.addCombine).read (u :: ts)
    else if t = "--start".toList then
      if looksLikeOption u then none else do (← d.addStart u).read ts
    else if t = "--locale".toList then
      if looksLikeOption u then none else do (← d.addLocale u).read ts
    else match Text.afterPrefix? "--start=".toList t, Text.afterPrefix? "--locale=".toList t with
      | some v, _ => do (← d.addStart v).read (u :: ts)
      | _, some v => do (← d.addLocale v).read (u :: ts)
      | _, _ => if looksLikeOption t then none else do (← d.addFile t).read (u :: ts)

def finish (d : PlayDraft) : Option Request :=
  d.file.map fun file =>
    .play file (d.start.getD "Start".toList) (d.locale.getD "en".toList) d.combine

end PlayDraft

def Request.ofArgs? : List Text → Option Request
  | [] => none
  | t :: ts =>
    if t = "check".toList then
      match readFiles ts with
      | some (file :: files) => some (.check (file :: files))
      | _ => none
    else if t = "play".toList then
      (PlayDraft.read ⟨none, none, none, false⟩ ts).bind PlayDraft.finish
    else none

end Parley.Console
