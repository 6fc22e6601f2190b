import Parley.Body.Expr
set_option autoImplicit false

/-!
Statements of node bodies, and the declarations that are kept apart from them.
-/

namespace Parley.Body

inductive Part where
  | text (t : Text)
  | escaped (t : Text)
  | expr (e : Expr)
  deriving Repr

inductive JumpTarget where
  | title (t : Text)
  | expr (e : Expr)
  deriving Repr

mutual

/-- Statements that can show up in a result carry the number of the line they start on. -/
inductive Statement where
  | line (parts : List Part) (number : Nat) (hashtags : List Text)
  | option (o : Choice)
  | branch (condition : Expr) (body : List Statement) (otherwise : Otherwise) (hashtags : List Text)
  | assign (name : Text) (value : Expr) (number : Nat) (hashtags : List Text)
  | command (parts : List Part) (number : Nat) (hashtags : List Text)
  | jump (target : JumpTarget) (hashtags : List Text)
  | stop (hashtags : List Text)

/-- An option for the player. A guard that does not hold makes it unavailable, and the body is what
follows when it is chosen. -/
structure Choice where
  label : List Part
  guard : Option Expr
  body : Option (List Statement)
  number : Nat
  hashtags : List Text

inductive Otherwise where
  | nothing
  | statements (body : List Statement)
  | branch (condition : Expr) (body : List Statement) (otherwise : Otherwise) (hashtags : List Text)

end

def Statement.number? : Statement → Option Nat
  | .line _ n _ => some n
  | .option o => some o.number
  | .assign _ _ n _ => some n
  | .command _ n _ => some n
  | .branch .. | .jump .. | .stop _ => none

def Statement.hashtags : Statement → List Text
  | .line _ _ h => h
  | .option o => o.hashtags
  | .branch _ _ _ h => h
  | .assign _ _ _ h => h
  | .command _ _ h => h
  | .jump _ h => h
  | .stop h => h

inductive TypeName where
  | string
  | number
  | bool
  deriving DecidableEq, Repr

namespace TypeName

def ofText? (t : Text) : Option TypeName :=
  if t = "String".toList then some .string
  else if t = "Number".toList then some .number
  else if t = "Bool".toList then some .bool
  else none

def kind : TypeName → Kind
  | .string => .string
  | .number => .number
  | .bool => .bool

end TypeName

structure Declaration where
  name : Text
  value : Expr
  type : Option TypeName
  number : Nat
  deriving Repr

end Parley.Body
