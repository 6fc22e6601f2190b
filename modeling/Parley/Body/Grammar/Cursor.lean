import Parley.Body.Declarations
set_option autoImplicit false

/-!
Parsing as steps on a cursor over tokens, with one token of look-ahead.

The grammar asks for tokens one at a time, from anything that can supply them. An error of the supply
is reported when the token at its place is asked for, and not before.
-/

namespace Parley.Body

/-- A supply of tokens, with a bound on how many come before the end of the input. -/
class TokenSource (σ : Type) where
  pull : σ → Except LexError (Token × σ)
  weight : σ → Nat

instance : TokenSource Lexer where
  pull := Lexer.next
  weight := Lexer.weight

structure Cursor (σ : Type) where
  source : σ
  peeked : Option Token
  declared : Declarations

abbrev Parse (σ : Type) := EStateM ParseError (Cursor σ)

namespace Parse

variable {σ : Type} [TokenSource σ]

def peek : Parse σ Token := fun c =>
  match c.peeked with
  | some token => .ok token c
  | none =>
    match TokenSource.pull c.source with
    | .ok (token, rest) => .ok token { c with source := rest, peeked := some token }
    | .error e => .error e.toParseError c

def take : Parse σ Token := fun c =>
  match c.peeked with
  | some token => .ok token { c with peeked := none }
  | none =>
    match TokenSource.pull c.source with
    | .ok (token, rest) => .ok token { c with source := rest }
    | .error e => .error e.toParseError c

def unexpected {α : Type} (token : Token) (expected : List TokenKind) : Parse σ α :=
  throw ⟨.unexpected token.kind token.text expected, token.span⟩

def expect (kind : TokenKind) : Parse σ Token := do
  let token ← take
  if token.kind = kind then return token else unexpected token [kind]

def refuse {α : Type} (expected : List TokenKind) : Parse σ α := do
  unexpected (← take) expected

def declare (new : Declaration) (span : Span) : Parse σ Unit := fun c =>
  match c.declared.register new span with
  | .ok declared => .ok () { c with declared := declared }
  | .error e => .error e c

end Parse

end Parley.Body
