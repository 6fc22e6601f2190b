import Parley.Play.Beat
import Parley.Play.Seeding
set_option autoImplicit false

/-!
Playing loaded nodes, beat by beat.

A playthrough is positioned at a node by `start`; each `advance` then walks on to the next beat and
suspends there. Options are gathered until something else comes, and then wait for a selection.
A walk that never reaches a beat is cut off after a number of steps that the caller chooses.
-/

namespace Parley.Play

open Body Script

inductive RuntimeError where
  | unknownNode (title : Text)
  | malformed (e : ParseError)
  | evaluation (e : EvalError)
  | kindChanged (name : Text) (existing assigned : Kind)
  | noSelection
  | selectionOutOfRange (index count : Nat)
  deriving DecidableEq, Repr

def RuntimeError.message : RuntimeError → String
  | .unknownNode title => "node \"" ++ String.ofList title ++ "\" does not exist"
  | .malformed e => e.message
  | .evaluation e => e.message
  | .kindChanged name existing assigned =>
    "cannot assign a " ++ assigned.label ++ " to $" ++ String.ofList name ++ ", which holds a " ++
      existing.label
  | .noSelection => "no option selected before resuming dialogue"
  | .selectionOutOfRange index count =>
    "cannot select option #" ++ toString index ++ ", there are " ++ toString count ++ " options"

/-- A list of statements of which some are done, with the options gathered from it. -/
structure Frame where
  rest : List Statement
  gathered : List Choice

/-- A run in progress: the node it is in, the open lists with the innermost first, and the options
that wait for a selection. -/
structure Run where
  origin : Origin
  frames : List Frame
  awaiting : Option (List Choice)

structure Playthrough where
  nodes : List Node
  store : Store
  functions : Functions
  visited : List Text
  declared : Declarations
  keepEscapes : Bool
  run : Option Run

namespace Playthrough

def empty : Playthrough :=
  ⟨[], [], .builtin, [], .sealed, false, none⟩

def node? (p : Playthrough) (title : Text) : Option Node :=
  p.nodes.find? fun node => node.title == title

def isRunning (p : Playthrough) : Bool :=
  p.run.isSome

def hasVisited (p : Playthrough) (title : Text) : Bool :=
  p.visited.contains title

def env (p : Playthrough) : Env :=
  ⟨p.store.get?, p.functions, p.visited⟩

/-! Loading -/

def checkNode (titles : List Text) (node : Node) : Except LoadError Unit :=
  if node.title = [] then .error .missingTitle
  else if node.title.contains '.' then .error (.invalidTitle node.title)
  else if node.body = [] then .error (.missingBody node.title)
  else if titles.contains node.title then .error (.duplicateTitle node.title)
  else .ok ()

def checkNodes : List Text → List Node → Except LoadError Unit
  | _, [] => .ok ()
  | titles, node :: nodes => do
    checkNode titles node
    checkNodes (node.title :: titles) nodes

/-- Adds nodes and gives their declared variables first values. Of a load that fails nothing is kept;
the record of declarations is locked again either way. -/
def load (p : Playthrough) (nodes : List Node) : Except LoadError Unit × Playthrough :=
  match checkNodes (p.nodes.map Node.title) nodes with
  | .error e => (.error e, p)
  | .ok () =>
    match (seed nodes .empty p.store p.functions).1 with
    | .error e => (.error e, { p with declared := .sealed })
    | .ok staged =>
      (.ok (), { p with
        nodes := p.nodes ++ nodes
        store := staged.commit p.store
        declared := .sealed })

def loadScript (p : Playthrough) (script : Text) : Except LoadError Unit × Playthrough :=
  match split script with
  | .error e => (.error (.splitting e), p)
  | .ok nodes => p.load nodes

/-! Running -/

def enter (p : Playthrough) (title : Text) : Except RuntimeError (Playthrough × Run) :=
  match p.node? title with
  | none => .error (.unknownNode title)
  | some node =>
    match parse node.body p.declared with
    | (.error e, _) => .error (.malformed e)
    | (.ok statements, declared) =>
      let visited := if p.visited.contains node.title then p.visited else p.visited ++ [node.title]
      .ok ({ p with visited := visited, declared := declared },
        ⟨⟨node.title, node.tags⟩, [⟨statements, []⟩], none⟩)

/-- Starts from a node. Whatever was in progress is given up, even when the start fails. -/
def start (p : Playthrough) (title : Text) : Except RuntimeError Unit × Playthrough :=
  let p := { p with run := none }
  match p.enter title with
  | .error e => (.error e, p)
  | .ok (p, run) => (.ok (), { p with run := some run })

def render (p : Playthrough) (parts : List Part) : Except RuntimeError Text :=
  (Play.render p.env p.keepEscapes parts).mapError .evaluation

def evaluate (p : Playthrough) (e : Expr) : Except RuntimeError Value :=
  (Play.evaluate p.env e).mapError .evaluation

/-- The lines that follow on the same line of the script are part of the line. Gives their text, their
hashtags, and the statements after them. -/
def collect (p : Playthrough) (number : Nat) :
    List Statement → Except RuntimeError (Text × List Text × List Statement)
  | .line parts n hashtags :: rest =>
    if n = number then do
      let text ← p.render parts
      let (texts, more, rest) ← p.collect number rest
      return (text ++ texts, hashtags ++ more, rest)
    else .ok ([], [], .line parts n hashtags :: rest)
  | rest => .ok ([], [], rest)

def offer (p : Playthrough) (o : Choice) : Except RuntimeError Entry := do
  let available ← match o.guard with
    | none => pure true
    | some condition => do pure (← p.evaluate condition).truthy
  let text ← p.render o.label
  return ⟨Text.trim text, available, o.hashtags, []⟩

def selectArm (p : Playthrough) : Otherwise → Except RuntimeError (Option (List Statement))
  | .nothing => .ok none
  | .statements body => .ok (some body)
  | .branch condition body otherwise _ => do
    if (← p.evaluate condition).truthy then return some body else p.selectArm otherwise

/-- Sets a variable. One that has a value other than null keeps the kind of its value. -/
def assign (p : Playthrough) (name : Text) (e : Expr) : Except RuntimeError Playthrough := do
  let v ← p.evaluate e
  let existing := (p.store.get? name).elim .null Value.kind
  if existing ≠ .null ∧ existing ≠ v.kind then throw (.kindChanged name existing v.kind)
  else return { p with store := p.store.put name v }

def jumpTitle (p : Playthrough) : JumpTarget → Except RuntimeError Text
  | .title t => .ok t
  | .expr e => do return (← p.evaluate e).text

inductive Step where
  | walk (p : Playthrough) (r : Run)
  | beat (b : Beat) (p : Playthrough) (r : Run)
  | ended (p : Playthrough)

/-- Does the first statement of a list; `below` are the lists around it. Options are only gathered,
and jumps give up all lists. -/
def perform (p : Playthrough) (r : Run) (s : Statement) (frame : Frame) (below : List Frame) :
    Except RuntimeError Step :=
  let onward (rest : List Statement) : Run := { r with frames := { frame with rest := rest } :: below }
  match s with
  | .option o =>
    .ok (.walk p { r with frames := ⟨frame.rest, frame.gathered ++ [o]⟩ :: below })
  | .line parts number hashtags => do
    let text ← p.render parts
    let (texts, more, rest) ← p.collect number frame.rest
    let line : Line := ⟨Text.trimEnd (text ++ texts), hashtags ++ more, r.origin, [], false⟩
    return .beat (.line line) p (onward rest)
  | .assign name e _ _ => do return .walk (← p.assign name e) (onward frame.rest)
  | .branch condition body otherwise hashtags => do
    match ← p.selectArm (.branch condition body otherwise hashtags) with
    | none => return .walk p (onward frame.rest)
    | some arm =>
      return .walk p { r with frames := ⟨arm, []⟩ :: frame :: below }
  | .command parts _ hashtags => do
    let text ← p.render parts
    return .beat (.cue ⟨Text.trim text, hashtags, r.origin, false⟩) p (onward frame.rest)
  | .jump target _ => do
    let (p, r) ← p.enter (← p.jumpTitle target)
    return .walk p r
  | .stop _ => .ok (.ended p)

def startsWithOption : List Statement → Bool
  | .option _ :: _ => true
  | _ => false

/-- One step of a run. Gathered options are offered as soon as something else comes, and a list that
is done makes way for the list around it. -/
def step (p : Playthrough) (r : Run) : Except RuntimeError Step :=
  match r.frames with
  | [] => .ok (.ended p)
  | frame :: below =>
    if !frame.gathered.isEmpty && !startsWithOption frame.rest then do
      let entries ← frame.gathered.mapM p.offer
      return .beat (.menu ⟨entries, r.origin, none, [], [], false⟩) p
        { r with frames := ⟨frame.rest, []⟩ :: below, awaiting := some frame.gathered }
    else match frame.rest with
      | [] => .ok (.walk p { r with frames := below })
      | s :: rest => p.perform r s ⟨rest, frame.gathered⟩ below

/-- What advancing came to. A walk that was cut off is neither an end nor a failure. -/
inductive Answer where
  | beat (b : Beat)
  | ended
  | failed (e : RuntimeError)
  | stalled
  deriving DecidableEq, Repr

/-- Steps until a beat, the end or an error, or until the steps are used up. A failing step has no
effect, so that it is tried again the next time. -/
def walk : Nat → Playthrough → Run → Answer × Playthrough
  | 0, p, r => (.stalled, { p with run := some r })
  | fuel + 1, p, r =>
    match p.step r with
    | .ok (.walk p r) => walk fuel p r
    | .ok (.beat b p r) => (.beat b, { p with run := some r })
    | .ok (.ended p) => (.ended, { p with run := none })
    | .error e => (.failed e, { p with run := some r })

def select (selection : Option Nat) (count : Nat) : Except RuntimeError Nat :=
  match selection with
  | none => .error .noSelection
  | some index => if index < count then .ok index else .error (.selectionOutOfRange index count)

/-- The run after a selection: the body of the option, if it has one, comes next. -/
def Run.choose (r : Run) (options : List Choice) (index : Nat) : Run :=
  match options[index]?.bind Choice.body with
  | none => { r with awaiting := none }
  | some body => { r with frames := ⟨body, []⟩ :: r.frames, awaiting := none }

/-- Walks to the next beat. The selection counts only if options wait for one; without a valid one they
go on waiting. -/
def advance (fuel : Nat) (selection : Option Nat) (p : Playthrough) : Answer × Playthrough :=
  match p.run with
  | none => (.ended, p)
  | some r =>
    match r.awaiting with
    | none => walk fuel p r
    | some options =>
      match select selection options.length with
      | .error e => (.failed e, p)
      | .ok index => walk fuel p (Run.choose r options index)

end Playthrough

end Parley.Play
