import Parley.Body.Statement
import Parley.Play.Functions
set_option autoImplicit false

/-!
The values of expressions and the text of lines. Evaluating changes nothing.
-/

namespace Parley.Play

open Body

inductive EvalError where
  | undefinedVariable (name : Text)
  | unknownFunction (name : Text)
  | typeMismatch (op : BinaryOp) (lhs rhs : Kind)
  | invalidOperand (op : UnaryOp) (operand : Kind)
  | functionFailed (name message : Text)
  deriving DecidableEq, Repr

def EvalError.message : EvalError → String
  | .undefinedVariable name => "variable $" ++ String.ofList name ++ " is not defined"
  | .unknownFunction name => "function \"" ++ String.ofList name ++ "\" not found"
  | .typeMismatch op lhs rhs =>
    "cannot apply '" ++ op.symbol ++ "' to " ++ lhs.label ++ " and " ++ rhs.label
  | .invalidOperand op operand => "cannot apply '" ++ op.symbol ++ "' to " ++ operand.label
  | .functionFailed name message =>
    "function \"" ++ String.ofList name ++ "\" failed: " ++ String.ofList message

structure Env where
  lookup : Text → Option Value
  functions : Functions
  visited : List Text

namespace Env

def call (env : Env) (name : Text) (args : List Value) : Except EvalError Value :=
  match env.functions.get? name with
  | none => .error (.unknownFunction name)
  | some .visited =>
    match args with
    | [.string title] => .ok (.bool (env.visited.contains title))
    | _ => .error (.functionFailed name "expected a single node title".toList)
  | some (.host f) => (f args).mapError (.functionFailed name)

end Env

def applyUnary (op : UnaryOp) (v : Value) : Except EvalError Value :=
  match op, v with
  | .not, v => .ok (.bool (!v.truthy))
  | .negate, .number x => .ok (.number (-x))
  | .negate, v => .error (.invalidOperand .negate v.kind)

def applyNumbers? (op : BinaryOp) (x y : Float) : Option Value :=
  match op with
  | .add => some (.number (x + y))
  | .subtract => some (.number (x - y))
  | .multiply => some (.number (x * y))
  | .divide => some (.number (x / y))
  | .modulo => some (.number (Number.remainder x y))
  | .power => some (.number (Float.pow x y))
  | .greater => some (.bool (decide (y < x)))
  | .greaterEqual => some (.bool (decide (y ≤ x)))
  | .less => some (.bool (decide (x < y)))
  | .lessEqual => some (.bool (decide (x ≤ y)))
  | _ => none

/-- Strings are ordered by code points; nothing for the other operators. -/
def applyStrings? (op : BinaryOp) (s t : Text) : Option Value :=
  match op with
  | .greater => some (.bool (decide (t < s)))
  | .greaterEqual => some (.bool (!decide (s < t)))
  | .less => some (.bool (decide (s < t)))
  | .lessEqual => some (.bool (!decide (t < s)))
  | _ => none

/-- An operator on two values. Equality and exclusive or take all kinds, and a string on either side
makes a sum a concatenation. -/
def applyBinary (op : BinaryOp) (a b : Value) : Except EvalError Value :=
  let mismatch : EvalError := .typeMismatch op a.kind b.kind
  match op, a, b with
  | .equal, _, _ => .ok (.bool (a.same b))
  | .notEqual, _, _ => .ok (.bool (!a.same b))
  | .xor, _, _ => .ok (.bool (a.truthy != b.truthy))
  | .add, .string _, _ => .ok (.string (a.text ++ b.text))
  | .add, _, .string _ => .ok (.string (a.text ++ b.text))
  | _, .number x, .number y => (applyNumbers? op x y).elim (.error mismatch) .ok
  | _, .string s, .string t => (applyStrings? op s t).elim (.error mismatch) .ok
  | _, _, _ => .error mismatch

mutual

/-- The value of an expression. Conjunction and disjunction look at their right side only if the left
side leaves the answer open; functions are looked up after their arguments were evaluated. -/
def evaluate (env : Env) : Expr → Except EvalError Value
  | .literal v => .ok v
  | .var name =>
    match env.lookup name with
    | some v => .ok v
    | none => .error (.undefinedVariable name)
  | .unary op e => do applyUnary op (← evaluate env e)
  | .binary op e f => do
    let a ← evaluate env e
    match op with
    | .and => if a.truthy then return .bool (← evaluate env f).truthy else return .bool false
    | .or => if a.truthy then return .bool true else return .bool (← evaluate env f).truthy
    | op => applyBinary op a (← evaluate env f)
  | .call name args => do env.call name (← evaluateAll env args)

def evaluateAll (env : Env) : List Expr → Except EvalError (List Value)
  | [] => .ok []
  | e :: es => do return (← evaluate env e) :: (← evaluateAll env es)

end

/-- The text of one part. Escapes may be kept for a later pass to resolve. -/
def renderPart (env : Env) (keepEscapes : Bool) : Part → Except EvalError Text
  | .text t => .ok t
  | .escaped t => .ok (if keepEscapes then '\\' :: t else t)
  | .expr e => do return (← evaluate env e).text

def render (env : Env) (keepEscapes : Bool) : List Part → Except EvalError Text
  | [] => .ok []
  | p :: ps => do return (← renderPart env keepEscapes p) ++ (← render env keepEscapes ps)

end Parley.Play
