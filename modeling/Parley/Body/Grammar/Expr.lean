import Parley.Body.Grammar.Cursor
set_option autoImplicit false

/-!
The grammar of expressions, by binding powers.

Each rule takes a bound on the depth of its recursion. No token leads more than two levels down, so a
bound a little above twice the number of tokens is never reached; at the bound the next token is
refused.
-/

namespace Parley.Body

def expressionStart : List TokenKind :=
  [.number, .string, .trueWord, .falseWord, .nullWord, .variableName, .identifier, .leftParen,
    .minus, .not]

/-- An operator between operands: what it binds on its left and on its right. -/
structure Operator where
  op : BinaryOp
  left : Nat
  right : Nat
  deriving DecidableEq, Repr

/-- The operator that a token stands for between operands. All operators group to the left, except
that powers group to the right. -/
def operator? : TokenKind → Option Operator
  | .or => some ⟨.or, 1, 2⟩
  | .xor => some ⟨.xor, 1, 2⟩
  | .and => some ⟨.and, 3, 4⟩
  | .equal | .assign => some ⟨.equal, 7, 8⟩
  | .notEqual => some ⟨.notEqual, 7, 8⟩
  | .greater => some ⟨.greater, 9, 10⟩
  | .greaterEqual => some ⟨.greaterEqual, 9, 10⟩
  | .less => some ⟨.less, 9, 10⟩
  | .lessEqual => some ⟨.lessEqual, 9, 10⟩
  | .plus => some ⟨.add, 11, 12⟩
  | .minus | .gluedMinus => some ⟨.subtract, 11, 12⟩
  | .times => some ⟨.multiply, 13, 14⟩
  | .divide => some ⟨.divide, 13, 14⟩
  | .modulo => some ⟨.modulo, 13, 14⟩
  | .power => some ⟨.power, 16, 15⟩
  | _ => none

/-- What `not` binds: everything that binds tighter than `and`. -/
def notPower : Nat := 5

/-- What a minus in front binds: tighter than any operator between operands. -/
def negatePower : Nat := 17

def variableOf (token : Token) : Text :=
  token.text.dropWhile (· == '$')

namespace Parse

variable {σ : Type} [TokenSource σ]

mutual

/-- An expression whose operators all bind at least as tight as a power. -/
def binding : Nat → Nat → Parse σ Expr
  | 0, _ => refuse []
  | n + 1, power => do
    let lhs ← operand n
    operatorTail n power lhs

/-- The operators, with their right operands, that follow a left operand. -/
def operatorTail : Nat → Nat → Expr → Parse σ Expr
  | 0, _, _ => refuse []
  | n + 1, power, lhs => do
    match operator? (← peek).kind with
    | none => return lhs
    | some i =>
      if i.left < power then return lhs
      else
        let _ ← take
        let rhs ← binding n i.right
        operatorTail n power (.binary i.op lhs rhs)

def operand : Nat → Parse σ Expr
  | 0 => refuse []
  | n + 1 => do
    let token ← take
    match token.kind with
    | .number =>
      match Number.read? token.text with
      | some x => return .literal (.number x)
      | none => throw ⟨.invalidNumber token.text, token.span⟩
    | .string => return .literal (.string token.text)
    | .trueWord => return .literal (.bool true)
    | .falseWord => return .literal (.bool false)
    | .nullWord => return .literal .null
    | .variableName => return .var (variableOf token)
    | .leftParen =>
      let inner ← binding n 0
      let _ ← expect .rightParen
      return inner
    | .identifier =>
      let _ ← expect .leftParen
      if (← peek).kind = .rightParen then
        let _ ← take
        return .call token.text []
      else return .call token.text (← arguments n)
    | .not => return .unary .not (← binding n notPower)
    | .minus | .gluedMinus => return .unary .negate (← binding n negatePower)
    | _ => unexpected token expressionStart

/-- One argument or more, up to the closing parenthesis. -/
def arguments : Nat → Parse σ (List Expr)
  | 0 => refuse []
  | n + 1 => do
    let first ← binding n 0
    let token ← take
    match token.kind with
    | .comma => return first :: (← arguments n)
    | .rightParen => return [first]
    | _ => unexpected token [.comma, .rightParen]

end

def expression (n : Nat) : Parse σ Expr :=
  binding n 0

end Parse

end Parley.Body
