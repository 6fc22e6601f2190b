import Parley.Body.Grammar.Expr
set_option autoImplicit false

/-!
The grammar of statements and of the blocks they form.

Each rule takes a bound on the depth of its recursion, as the rules for expressions do.
-/

namespace Parley.Body

def statementStart : List TokenKind :=
  [.text, .escape, .leftBrace, .beginCommand, .arrow]

def commandStart : List TokenKind :=
  [.ifWord, .setWord, .declareWord, .jumpWord, .stopWord, .text, .leftBrace]

inductive BlockEnd where
  | endOfInput
  | dedent
  | otherwise
  | elseif (condition : Expr) (hashtags : List Text)
  | endif

def BlockEnd.kind : BlockEnd → TokenKind
  | .endOfInput => .endOfInput
  | .dedent => .dedent
  | .otherwise => .elseWord
  | .elseif .. => .elseifWord
  | .endif => .endifWord

structure Block where
  statements : List Statement
  ending : BlockEnd
  span : Span

def Block.cons (s : Statement) (b : Block) : Block :=
  { b with statements := s :: b.statements }

inductive Command where
  | statement (s : Statement)
  | ending (e : BlockEnd)
  | declaration

namespace Parse

variable {σ : Type} [TokenSource σ]

def misplaced {α : Type} (b : Block) (expected : List TokenKind) : Parse σ α :=
  throw ⟨.unexpected b.ending.kind [] expected, b.span⟩

/-- Hashtags and comments up to the end of the line, which is passed. -/
def trailer : Nat → Parse σ (List Text)
  | 0 => refuse []
  | n + 1 => do
    match (← peek).kind with
    | .hashtag =>
      let token ← take
      return token.text.dropWhile (· == '#') :: (← trailer n)
    | .comment =>
      let _ ← take
      trailer n
    | .endOfLine =>
      let _ ← take
      return []
    | _ => return []

def inlineExpression (n : Nat) : Parse σ Expr := do
  let _ ← expect .leftBrace
  let e ← expression n
  let _ ← expect .rightBrace
  return e

def textParts : Nat → Parse σ (List Part)
  | 0 => refuse []
  | n + 1 => do
    match (← peek).kind with
    | .text =>
      let token ← take
      return .text token.text :: (← textParts n)
    | .escape =>
      let token ← take
      return .escaped ((Text.afterPrefix? ['\\'] token.text).getD token.text) :: (← textParts n)
    | .leftBrace =>
      let e ← inlineExpression n
      return .expr e :: (← textParts n)
    | _ => return []

/-- Text and inline expressions up to the end of a command, with one at least when the command has
none so far. -/
def commandParts : Nat → Bool → Parse σ (List Part)
  | 0, _ => refuse []
  | n + 1, started => do
    match (← peek).kind with
    | .text =>
      let token ← take
      return .text token.text :: (← commandParts n true)
    | .leftBrace =>
      let e ← inlineExpression n
      return .expr e :: (← commandParts n true)
    | .endCommand => if started then return [] else refuse [.text, .leftBrace, .endCommand]
    | _ => refuse [.text, .leftBrace, .endCommand]

def closeCommand (n : Nat) : Parse σ (List Text) := do
  let _ ← expect .endCommand
  trailer n

def textLine (n : Nat) : Parse σ Statement := do
  let number := (← peek).span.line
  let parts ← textParts n
  let hashtags ← trailer n
  return .line parts number hashtags

def assignment (n : Nat) (opening : Token) : Parse σ Statement := do
  let name ← expect .variableName
  let _ ← expect .assign
  let value ← expression n
  let hashtags ← closeCommand n
  return .assign (variableOf name) value opening.span.line hashtags

def typeClause : Parse σ (Option TypeName) := do
  if (← peek).kind = .asWord then
    let _ ← take
    let token ← expect .typeName
    match TypeName.ofText? token.text with
    | some type => return some type
    | none => unexpected token [.typeName]
  else return none

def declaration (n : Nat) (opening : Token) : Parse σ Unit := do
  let name ← expect .variableName
  let _ ← expect .assign
  let value ← expression n
  let type ← typeClause
  let _ ← closeCommand n
  declare ⟨variableOf name, value, type, opening.span.line⟩ name.span

def jumpTarget (n : Nat) : Parse σ JumpTarget := do
  match (← peek).kind with
  | .identifier => return .title (← take).text
  | .leftBrace => return .expr (← inlineExpression n)
  | _ => refuse [.identifier, .leftBrace]

def genericCommand (n : Nat) (opening : Token) : Parse σ Statement := do
  let parts ← commandParts n false
  let hashtags ← closeCommand n
  return .command parts opening.span.line hashtags

def guardClause (n : Nat) : Parse σ (Option Expr) := do
  if (← peek).kind = .beginCommand then
    let _ ← take
    let _ ← expect .ifWord
    let condition ← expression n
    let _ ← expect .endCommand
    return some condition
  else return none

def optionLabel (n : Nat) : Parse σ (List Part) := do
  match ← textParts n with
  | [] => refuse [.text, .leftBrace]
  | parts => return parts

mutual

def block : Nat → Parse σ Block
  | 0 => refuse []
  | n + 1 => do
    let token ← peek
    match token.kind with
    | .endOfLine | .comment =>
      let _ ← take
      block n
    | .endOfInput => return ⟨[], .endOfInput, token.span⟩
    | .dedent =>
      let _ ← take
      return ⟨[], .dedent, token.span⟩
    | .arrow =>
      let o ← option n
      return (← block n).cons (.option o)
    | .text | .escape | .leftBrace =>
      let s ← textLine n
      return (← block n).cons s
    | .beginCommand =>
      let opening ← take
      match ← command n opening with
      | .statement s => return (← block n).cons s
      | .ending e => return ⟨[], e, token.span⟩
      | .declaration => block n
    | _ => refuse statementStart

def option : Nat → Parse σ Choice
  | 0 => refuse []
  | n + 1 => do
    let arrow ← expect .arrow
    let label ← optionLabel n
    let guard ← guardClause n
    let hashtags ← trailer n
    if (← peek).kind = .indent then
      let _ ← take
      let body ← block n
      match body.ending with
      | .dedent => return ⟨label, guard, some body.statements, arrow.span.line, hashtags⟩
      | _ => misplaced body [.dedent]
    else return ⟨label, guard, none, arrow.span.line, hashtags⟩

/-- A command from behind its opening token on. -/
def command : Nat → Token → Parse σ Command
  | 0, _ => refuse []
  | n + 1, opening => do
    match (← peek).kind with
    | .ifWord =>
      let _ ← take
      let condition ← expression n
      let hashtags ← closeCommand n
      let (body, otherwise) ← arms n
      return .statement (.branch condition body otherwise hashtags)
    | .elseifWord =>
      let _ ← take
      let condition ← expression n
      let hashtags ← closeCommand n
      return .ending (.elseif condition hashtags)
    | .elseWord =>
      let _ ← take
      let _ ← closeCommand n
      return .ending .otherwise
    | .endifWord =>
      let _ ← take
      let _ ← closeCommand n
      return .ending .endif
    | .setWord =>
      let _ ← take
      return .statement (← assignment n opening)
    | .declareWord =>
      let _ ← take
      declaration n opening
      return .declaration
    | .jumpWord =>
      let _ ← take
      let target ← jumpTarget n
      let hashtags ← closeCommand n
      return .statement (.jump target hashtags)
    | .stopWord =>
      let _ ← take
      let hashtags ← closeCommand n
      return .statement (.stop hashtags)
    | .text | .leftBrace => return .statement (← genericCommand n opening)
    | _ => refuse commandStart

/-- The statements under a condition and everything up to the end of the conditional. -/
def arms : Nat → Parse σ (List Statement × Otherwise)
  | 0 => refuse []
  | n + 1 => do
    let body ← block n
    match body.ending with
    | .endif => return (body.statements, .nothing)
    | .elseif condition hashtags =>
      let (inner, otherwise) ← arms n
      return (body.statements, .branch condition inner otherwise hashtags)
    | .otherwise =>
      let rest ← block n
      match rest.ending with
      | .endif => return (body.statements, .statements rest.statements)
      | _ => misplaced rest [.endifWord]
    | _ => misplaced body [.elseifWord, .elseWord, .endifWord]

end

def body (n : Nat) : Parse σ (List Statement) := do
  let b ← block n
  match b.ending with
  | .endOfInput => return b.statements
  | _ => misplaced b statementStart

end Parse

end Parley.Body
