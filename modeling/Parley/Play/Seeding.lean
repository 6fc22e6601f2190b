import Parley.Body.Parse
import Parley.Play.Evaluation
import Parley.Script.Split
set_option autoImplicit false

/-!
Declared variables get their first values when nodes are loaded.

The lines that look like declarations are taken out of all bodies and parsed together. Their values
are computed in order, each seeing the ones before it, and none is stored unless all are good.
A variable that already has a value keeps it.
-/

namespace Parley.Play

open Body Script

inductive LoadError where
  | missingTitle
  | invalidTitle (title : Text)
  | missingBody (title : Text)
  | duplicateTitle (title : Text)
  | splitting (e : SplitError)
  | declaration (e : ParseError)
  | declaredKind (name : Text) (declared found : Kind)
  | initializer (name : Text) (e : EvalError)
  deriving DecidableEq, Repr

def LoadError.message : LoadError → String
  | .missingTitle => "node needs a title"
  | .invalidTitle title => "node title cannot contain a dot: " ++ String.ofList title
  | .missingBody title => "node \"" ++ String.ofList title ++ "\" needs a body"
  | .duplicateTitle title => "duplicate node title: " ++ String.ofList title
  | .splitting e => e.message
  | .declaration e => e.message
  | .declaredKind name declared found =>
    "cannot declare $" ++ String.ofList name ++ " as " ++ declared.label ++ ", its value is a " ++
      found.label
  | .initializer name e => "cannot initialise $" ++ String.ofList name ++ ": " ++ e.message

def holds (needle : Text) : Text → Bool
  | [] => needle.isEmpty
  | c :: t => Text.startsWith needle (c :: t) || holds needle t

/-- A line that looks like a declaration: blanks, then `<<declare` and a blank, and then something
with `>>` behind it. -/
def isDeclarationLine (line : Text) : Bool :=
  match Text.afterPrefix? "<<declare".toList (Text.trimStart line) with
  | some (c :: _ :: rest) => Text.isBlank c && holds ">>".toList rest
  | _ => false

def declarationLines (nodes : List Node) : List Text :=
  (nodes.flatMap fun node => Text.lines node.body).filter isDeclarationLine

abbrev Staged := List (Text × Value)

/-- A variable as the declarations see it: what is staged comes before what is stored. -/
def Staged.lookup (staged : Staged) (store : Store) (name : Text) : Option Value :=
  ((staged.find? fun e => e.1 == name).map Prod.snd).or (store.get? name)

def initialValue (env : Env) (d : Declaration) : Except LoadError Value := do
  let v ← (evaluate env d.value).mapError (.initializer d.name)
  match d.type with
  | none => return v
  | some type =>
    if v.kind = type.kind then return v
    else throw (.declaredKind d.name type.kind v.kind)

/-- Computes the values of declarations, behind those staged so far. No node counts as visited. -/
def stage (store : Store) (functions : Functions) :
    Staged → List Declaration → Except LoadError Staged
  | staged, [] => .ok staged
  | staged, d :: ds => do
    let v ← initialValue ⟨staged.lookup store, functions, []⟩ d
    if store.contains d.name then stage store functions staged ds
    else stage store functions (staged ++ [(d.name, v)]) ds

def Staged.commit (staged : Staged) (store : Store) : Store :=
  staged.foldl (fun s e => s.put e.1 e.2) store

def seed (nodes : List Node) (declared : Declarations) (store : Store) (functions : Functions) :
    Except LoadError Staged × Declarations :=
  match declarationLines nodes with
  | [] => (.ok [], declared)
  | lines =>
    match parse (Text.join ['\n'] lines) declared with
    | (.error e, declared) => (.error (.declaration e), declared)
    | (.ok _, declared) => (stage store functions [] declared.entries, declared)

end Parley.Play
