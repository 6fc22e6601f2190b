import Parley.Value
set_option autoImplicit false

/-!
Expressions of scripts.
-/

namespace Parley.Body

inductive UnaryOp where
  | negate
  | not
  deriving DecidableEq, Repr

def UnaryOp.symbol : UnaryOp → String
  | .negate => "-"
  | .not => "not"

inductive BinaryOp where
  | add
  | subtract
  | multiply
  | divide
  | modulo
  | power
  | and
  | or
  | xor
  | equal
  | notEqual
  | greater
  | greaterEqual
  | less
  | lessEqual
  deriving DecidableEq, Repr

def BinaryOp.symbol : BinaryOp → String
  | .add => "+"
  | .subtract => "-"
  | .multiply => "*"
  | .divide => "/"
  | .modulo => "%"
  | .power => "**"
  | .and => "and"
  | .or => "or"
  | .xor => "xor"
  | .equal => "=="
  | .notEqual => "!="
  | .greater => ">"
  | .greaterEqual => ">="
  | .less => "<"
  | .lessEqual => "<="

/-- Variables are named without the dollar sign they are written with. -/
inductive Expr where
  | literal (v : Value)
  | var (name : Text)
  | unary (op : UnaryOp) (operand : Expr)
  | binary (op : BinaryOp) (lhs rhs : Expr)
  | call (function : Text) (args : List Expr)
  deriving Repr

end Parley.Body
