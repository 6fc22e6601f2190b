import Parley.Markup.Piece
import Parley.Markup.Tag
import Parley.Plural.Rules
set_option autoImplicit false

/-!
The first pass over a line: tags leave the text and become events.

Replacement tags put text of their own in their place. Between `nomarkup` tags all other tags are
plain text. A self-closing tag that stands after a blank, or at the start, swallows one blank after
it. Escapes stay in the text until the second pass.
-/

namespace Parley.Markup

/-- A tag met while scanning: where it falls in the scanned text and where it was in the line. -/
structure Event where
  tag : Tag
  position : Nat
  origin : Nat
  deriving DecidableEq, Repr

inductive Replacement where
  | select
  | plural
  | ordinal
  deriving DecidableEq, Repr

namespace Replacement

def ofName? (name : Text) : Option Replacement :=
  if name = "select".toList then some .select
  else if name = "plural".toList then some .plural
  else if name = "ordinal".toList then some .ordinal
  else none

def name : Replacement → Text
  | .select => "select".toList
  | .plural => "plural".toList
  | .ordinal => "ordinal".toList

/-- The property that a replacement takes its text from, and the number that stands for each
percent sign in it. -/
def choose (r : Replacement) (value : PropertyValue) (locale : Locale) :
    Except Cause (Text × Option Float) :=
  match r, value.number? with
  | .select, _ => .ok (value.text, none)
  | .plural, some x => .ok ((locale.category .cardinal x).label.toList, some x)
  | .ordinal, some x => .ok ((locale.category .ordinal x).label.toList, some x)
  | _, none => .error (.missingValue r.name)

def fill (number : Option Float) (t : Text) : Text :=
  match number with
  | none => t
  | some x => t.flatMap fun c => if c = '%' then Number.text x else [c]

def text (r : Replacement) (properties : Properties) (locale : Locale) : Except Cause Text :=
  match properties.get? "value".toList with
  | none => .error (.missingValue r.name)
  | some value => do
    let (case, number) ← r.choose value locale
    match properties.get? case with
    | none => .error (.missingReplacement r.name case)
    | some t => .ok (fill number t.text)

end Replacement

def noMarkup : Text := "nomarkup".toList

def trimProperty : Text := "trimwhitespace".toList

inductive Effect where
  | keepRaw
  | endRaw
  | nothing
  | insert (t : Text)
  | emit (tag : Tag) (trims : Bool)
  deriving DecidableEq, Repr

/-- A tag with properties. A self-closing one trims unless its own property says otherwise; that
property goes no further. -/
def effectOf (name : Text) (properties : Properties) (selfClosing : Bool) (locale : Locale) :
    Except Cause Effect :=
  if name = noMarkup then .ok (if selfClosing then .nothing else .keepRaw)
  else match Replacement.ofName? name with
    | some r => (r.text properties locale).map .insert
    | none =>
      let kept := properties.erase trimProperty
      if selfClosing then
        let trims := !decide (properties.get? trimProperty = some (.bool false))
        .ok (.emit (.selfClosing name kept) trims)
      else .ok (.emit (.opening name kept) false)

def Tag.effect (locale : Locale) : Tag → Except Cause Effect
  | .opening name properties => effectOf name properties false locale
  | .selfClosing name properties => effectOf name properties true locale
  | .closing name =>
    .ok (if name = noMarkup then .endRaw
      else if (Replacement.ofName? name).isSome then .nothing
      else .emit (.closing name) false)
  | .closeAll => .ok (.emit .closeAll false)

/-- How far a scan has come: the index of the next piece in the line, the length of the text so far,
whether tags are plain text here, and whether the last character of the line was blank or the line
has just begun. -/
structure Place where
  index : Nat
  length : Nat
  raw : Bool
  afterBlank : Bool
  deriving DecidableEq, Repr

def Place.start : Place := ⟨0, 0, false, true⟩

def Place.past (p : Place) (piece : Piece) (added : Nat) : Place :=
  { p with index := p.index + piece.length, length := p.length + added, afterBlank := piece.endsBlank }

structure Scanned where
  text : Text
  events : List Event
  deriving DecidableEq, Repr

def Scanned.addText (t : Text) (s : Scanned) : Scanned :=
  { s with text := t ++ s.text }

def Scanned.addEvent (e : Event) (s : Scanned) : Scanned :=
  { s with events := e :: s.events }

def scanFrom (locale : Locale) : Place → List Piece → Except MarkupError Scanned
  | _, [] => .ok ⟨[], []⟩
  | p, .plain c :: rest => (scanFrom locale (p.past (.plain c) 1) rest).map (.addText [c])
  | p, .escaped c :: rest =>
    (scanFrom locale (p.past (.escaped c) 2) rest).map (.addText ['\\', c])
  | p, .tag contents :: rest =>
    let piece := Piece.tag contents
    if p.raw && Tag.name? contents != some noMarkup then
      (scanFrom locale (p.past piece piece.length) rest).map (.addText piece.source)
    else
      match (Tag.read contents).bind (Tag.effect locale) with
      | .error cause => .error ⟨cause, p.index⟩
      | .ok .keepRaw => scanFrom locale { p.past piece 0 with raw := true } rest
      | .ok .endRaw => scanFrom locale { p.past piece 0 with raw := false } rest
      | .ok .nothing => scanFrom locale (p.past piece 0) rest
      | .ok (.insert t) => (scanFrom locale (p.past piece t.length) rest).map (.addText t)
      | .ok (.emit tag trims) =>
        let event : Event := ⟨tag, p.length, p.index⟩
        match rest with
        | [] => .ok ⟨[], [event]⟩
        | next :: rest =>
          if trims && p.afterBlank && next.isBlank then
            (scanFrom locale ((p.past piece 0).past next 0) rest).map (.addEvent event)
          else (scanFrom locale (p.past piece 0) (next :: rest)).map (.addEvent event)

def scan (locale : Locale) (line : Text) : Except MarkupError Scanned :=
  scanFrom locale .start (Piece.cut line)

end Parley.Markup
