import Parley.Play.Playthrough
set_option autoImplicit false

/-!
A conversation is what the audience of a playthrough sees.

It holds the current beat and all earlier ones, takes the markup out of what it shows, and looks one
beat ahead to tell which beat is the last. Commands may be routed to the host instead of being shown,
and a line may be joined with the options after it.
-/

namespace Parley.Play

open Body Script Markup

inductive Error where
  | parsing (e : ParseError)
  | splitting (e : SplitError)
  | loading (e : LoadError)
  | running (e : RuntimeError)
  | markup (e : MarkupError)
  deriving DecidableEq, Repr

def Error.message : Error → String
  | .parsing e => e.message
  | .splitting e => e.message
  | .loading e => e.message
  | .running e => e.message
  | .markup e => e.message

structure Settings where
  rules : Plural.Library
  startAt : Text := "Start".toList
  locale : Text := "en".toList
  /-- Lines are joined with the options after them. -/
  joinsMenus : Bool := false
  /-- Escapes are left for markup to resolve. -/
  keepEscapes : Bool := true
  /-- Commands go to the host and are not shown. -/
  routesCues : Bool := false
  store : Store := []
  functions : List (Text × HostFunction) := []

/-- The commands routed to the host are kept in `routed`, oldest first; `ahead` is a beat that was
reached but not shown yet. -/
structure Conversation where
  play : Playthrough
  locale : Locale
  joinsMenus : Bool
  routesCues : Bool
  routed : List Cue
  ahead : Option Beat
  current : Option Beat
  history : List Beat

inductive Report where
  | ok
  | failed (e : Error)
  | stalled
  deriving DecidableEq, Repr

def Menu.join (m : Menu) (l : Line) : Menu :=
  { m with text := some l.text, hashtags := l.hashtags }

namespace Conversation

def isFinished (c : Conversation) : Bool :=
  c.current.all Beat.last

/-- Routes commands to the host until something else comes. The first argument bounds their number. -/
def route (fuel : Nat) : Nat → Playthrough.Answer → Conversation → Playthrough.Answer × Conversation
  | 0, .beat (.cue cue), c => (.stalled, { c with ahead := some (.cue cue) })
  | n + 1, .beat (.cue cue), c =>
    let (answer, play) := c.play.advance fuel none
    route fuel n answer { c with play := play, routed := c.routed ++ [cue] }
  | _, answer, c => (answer, c)

/-- The next beat to show: the one looked at before, or else the next of the playthrough. -/
def pull (fuel : Nat) (selection : Option Nat) (c : Conversation) :
    Playthrough.Answer × Conversation :=
  let (answer, c) : Playthrough.Answer × Conversation :=
    match c.ahead with
    | some b => (.beat b, { c with ahead := none })
    | none =>
      let (answer, play) := c.play.advance fuel selection
      (answer, { c with play := play })
  if c.routesCues then route fuel fuel answer c else (answer, c)

/-- Combines a beat with what was found behind it. A beat with nothing behind it is the last one. -/
def settle (c : Conversation) (next upcoming : Option Beat) : Option Beat × Conversation :=
  match next, upcoming with
  | some (.line l), some (.menu m) =>
    if c.joinsMenus then (some (.menu (m.join l)), c)
    else (some (.line l), { c with ahead := some (.menu m) })
  | some b, none => (some b.markLast, c)
  | next, upcoming => (next, { c with ahead := upcoming })

/-- Looks at the beat behind the next one. Nothing lies behind options before they are answered, and
an error that is met here waits for the next call. -/
def lookAhead (fuel : Nat) (next : Option Beat) (c : Conversation) :
    Option (Option Beat) × Conversation :=
  if next.any Beat.isMenu then (some next, c)
  else
    let (answer, play) := c.play.advance fuel none
    let c := { c with play := play }
    match answer with
    | .beat b => let (next, c) := c.settle next (some b); (some next, c)
    | .ended => let (next, c) := c.settle next none; (some next, c)
    | .failed _ => (some next, c)
    | .stalled => (none, { c with ahead := next })

/-- Shows a beat, and the current one becomes history. -/
def present (next : Option Beat) (c : Conversation) : Conversation :=
  { c with history := c.history ++ c.current.toList, current := next }

def reveal (next : Option Beat) (c : Conversation) : Report × Conversation :=
  match next with
  | none => (.ok, c.present none)
  | some b =>
    match b.resolveMarkup c.locale with
    | .error e => (.failed (.markup e), c)
    | .ok b => (.ok, c.present (some b))

/-- Moves on to the next beat. The selection counts only if options are current. After an error the
current beat stays. -/
def advance (fuel : Nat) (selection : Option Nat) (c : Conversation) : Report × Conversation :=
  let selection := if c.current.any Beat.isMenu then selection else none
  let (answer, c) := c.pull fuel selection
  let forward (next : Option Beat) : Report × Conversation :=
    match c.lookAhead fuel next with
    | (some next, c) => c.reveal next
    | (none, c) => (.stalled, c)
  match answer with
  | .failed e => (.failed (.running e), c)
  | .stalled => (.stalled, c)
  | .ended => forward none
  | .beat b => forward (some b)

def prepare (settings : Settings) : Playthrough :=
  { Playthrough.empty with
    store := settings.store
    keepEscapes := settings.keepEscapes
    functions := settings.functions.foldl (fun fs f => fs.register f.1 f.2) .builtin }

def ofPlay (settings : Settings) (play : Playthrough) : Conversation :=
  ⟨play, ⟨settings.locale, settings.rules⟩, settings.joinsMenus, settings.routesCues, [], none, none, []⟩

/-- Loads nodes, starts at the chosen one and moves to the first beat. The conversation is returned
even when one of this fails, since commands may have been routed by then. -/
def begin (fuel : Nat) (settings : Settings) (nodes : List Node) : Report × Conversation :=
  match (prepare settings).load nodes with
  | (.error e, play) => (.failed (.loading e), ofPlay settings play)
  | (.ok (), play) =>
    match play.start settings.startAt with
    | (.error e, play) => (.failed (.running e), ofPlay settings play)
    | (.ok (), play) => (ofPlay settings play).advance fuel none

def beginScript (fuel : Nat) (settings : Settings) (script : Text) : Report × Conversation :=
  match split script with
  | .error e => (.failed (.splitting e), ofPlay settings (prepare settings))
  | .ok nodes => begin fuel settings nodes

end Conversation

/-- The statements of every node of a script, in its order, if the script can be loaded and all of its
bodies can be parsed. -/
def check (script : Text) : Except Error (List (Text × List Statement)) := do
  let nodes ← (split script).mapError .splitting
  (Playthrough.empty.load nodes).1.mapError .loading
  nodes.mapM fun node => do
    return (node.title, ← (parse node.body .sealed).1.mapError .parsing)

end Parley.Play
