import Parley.Text
set_option autoImplicit false

/-!
Scripts and the nodes they consist of.

Each node is written as headers `key: value`, a line `---`, its body and a line `===`. The script as a
whole may be indented; the first line `---` tells how far.
-/

namespace Parley.Script

structure Node where
  title : Text
  tags : List Text
  body : Text
  deriving DecidableEq, Repr

inductive SplitCause where
  | duplicateHeader (key : Text)
  | malformedHeader (line : Text)
  deriving DecidableEq, Repr

def SplitCause.message : SplitCause → String
  | .duplicateHeader key => "duplicate header '" ++ String.ofList key ++ "'"
  | .malformedHeader line => "malformed header: " ++ String.ofList line

structure SplitError where
  cause : SplitCause
  line : Nat
  deriving DecidableEq, Repr

def SplitError.message (e : SplitError) : String :=
  e.cause.message ++ " at line " ++ toString e.line

def bodyMark : Text := "---".toList

def endMark : Text := "===".toList

structure Draft where
  title : Option Text
  tags : List Text
  body : List Text
  keys : List Text
  deriving DecidableEq, Repr

namespace Draft

def empty : Draft := ⟨none, [], [], []⟩

def isEmpty (d : Draft) : Bool :=
  d.title.isNone && d.tags.isEmpty && d.body.isEmpty && d.keys.isEmpty

def finish (d : Draft) : Node :=
  ⟨d.title.getD [], d.tags, Text.join ['\n'] d.body⟩

def addLine (d : Draft) (line : Text) : Draft :=
  { d with body := d.body ++ [line] }

/-- Takes a header. Keys other than title and tags have no meaning, but no key may come twice. -/
def addHeader (d : Draft) (header : Text) : Except SplitCause Draft :=
  match Text.cut ':' header with
  | none => .error (.malformedHeader header)
  | some (key, value) =>
    let key := Text.trim key
    if d.keys.contains key then .error (.duplicateHeader key)
    else
      let d := { d with keys := d.keys ++ [key] }
      if key = "title".toList then .ok { d with title := some (Text.trim value) }
      else if key = "tags".toList then .ok { d with tags := Text.words value }
      else .ok d

end Draft

structure Splitter where
  nodes : List Node
  draft : Draft
  inBody : Bool
  deriving DecidableEq, Repr

namespace Splitter

def start : Splitter := ⟨[], .empty, false⟩

def close (s : Splitter) : Splitter :=
  ⟨s.nodes ++ [s.draft.finish], .empty, false⟩

/-- Reads a line. In front of the first header, lines that start with a hash belong to the file. -/
def read (s : Splitter) (line : Text) : Except SplitCause Splitter :=
  let trimmed := Text.trim line
  if s.inBody then
    if trimmed = endMark then .ok s.close else .ok { s with draft := s.draft.addLine line }
  else if trimmed = [] then .ok s
  else if trimmed = bodyMark then .ok { s with inBody := true }
  else if trimmed = endMark then .ok s.close
  else if trimmed.head? = some '#' && s.draft.isEmpty then .ok s
  else (s.draft.addHeader trimmed).map fun d => { s with draft := d }

def readAll (s : Splitter) : Nat → List Text → Except SplitError Splitter
  | _, [] => .ok s
  | number, line :: lines =>
    match s.read line with
    | .error cause => .error ⟨cause, number⟩
    | .ok s => s.readAll (number + 1) lines

def finish (s : Splitter) : List Node :=
  if s.inBody || !s.draft.isEmpty then s.close.nodes else s.nodes

end Splitter

def baseline (lines : List Text) : Nat :=
  match lines.find? fun line => Text.trim line == bodyMark with
  | none => 0
  | some line => Text.indentSize line

/-- The nodes of a script, in its order. Titles may still be missing or doubled. -/
def split (script : Text) : Except SplitError (List Node) :=
  let lines := Text.lines (Text.unifyBreaks script)
  (Splitter.start.readAll 1 (lines.map (Text.dropIndent (baseline lines)))).map Splitter.finish

end Parley.Script
