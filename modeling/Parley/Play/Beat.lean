import Parley.Markup.Line
set_option autoImplicit false

/-!
The beats of a dialogue: what is shown, asked or handed to the host between two steps.
-/

namespace Parley.Play

open Markup

structure Origin where
  title : Text
  tags : List Text
  deriving DecidableEq, Repr

structure Line where
  text : Text
  hashtags : List Text
  origin : Origin
  marks : List Mark
  last : Bool
  deriving DecidableEq, Repr

/-- One entry of a menu. Entries that are not available are shown all the same. -/
structure Entry where
  text : Text
  available : Bool
  hashtags : List Text
  marks : List Mark
  deriving DecidableEq, Repr

/-- Options that wait for a selection. The text is that of the line in front, where lines are joined
with the options after them. -/
structure Menu where
  entries : List Entry
  origin : Origin
  text : Option Text
  hashtags : List Text
  marks : List Mark
  last : Bool
  deriving DecidableEq, Repr

structure Cue where
  command : Text
  hashtags : List Text
  origin : Origin
  last : Bool
  deriving DecidableEq, Repr

inductive Beat where
  | line (l : Line)
  | menu (m : Menu)
  | cue (c : Cue)
  deriving DecidableEq, Repr

namespace Beat

def origin : Beat → Origin
  | .line l => l.origin
  | .menu m => m.origin
  | .cue c => c.origin

def last : Beat → Bool
  | .line l => l.last
  | .menu m => m.last
  | .cue c => c.last

def markLast : Beat → Beat
  | .line l => .line { l with last := true }
  | .menu m => .menu { m with last := true }
  | .cue c => .cue { c with last := true }

def isMenu : Beat → Bool
  | .menu _ => true
  | _ => false

@[simp] theorem last_markLast (b : Beat) : b.markLast.last = true := by
  cases b <;> rfl

end Beat

def Line.resolveMarkup (locale : Locale) (l : Line) : Except MarkupError Line := do
  let m ← readLine locale l.text
  return { l with text := m.text, marks := m.marks }

def Entry.resolveMarkup (locale : Locale) (e : Entry) : Except MarkupError Entry := do
  let m ← readLine locale e.text
  return { e with text := m.text, marks := m.marks }

def Menu.resolveMarkup (locale : Locale) (m : Menu) : Except MarkupError Menu := do
  let m ← match m.text with
    | none => pure m
    | some t => do
      let marked ← readLine locale t
      pure { m with text := some marked.text, marks := marked.marks }
  let entries ← m.entries.mapM (Entry.resolveMarkup locale)
  return { m with entries := entries }

def Beat.resolveMarkup (locale : Locale) : Beat → Except MarkupError Beat
  | .line l => (l.resolveMarkup locale).map .line
  | .menu m => (m.resolveMarkup locale).map .menu
  | .cue c => .ok (.cue c)

end Parley.Play
