import Parley.Body.Lexer
import Parley.Body.Statement
set_option autoImplicit false

/-!
Why a body cannot be parsed, and the declarations that parsing collects.

Declarations are recorded in the order of the text, each variable once. A locked record takes none:
declarations are then read and dropped.
-/

namespace Parley.Body

inductive ParseCause where
  | unexpected (found : TokenKind) (lexeme : Text) (expected : List TokenKind)
  | duplicateDeclaration (name : Text)
  | invalidNumber (text : Text)
  | lexical (cause : LexCause)
  deriving DecidableEq, Repr

def ParseCause.message : ParseCause → String
  | .unexpected found lexeme expected =>
    "unexpected " ++ found.label ++
      (if lexeme.isEmpty then "" else " '" ++ String.ofList lexeme ++ "'") ++
      (if expected.isEmpty then ""
        else ", expected one of: " ++ ", ".intercalate (expected.map TokenKind.label))
  | .duplicateDeclaration name =>
    "duplicate declaration found for variable $" ++ String.ofList name
  | .invalidNumber text => "invalid number: " ++ String.ofList text
  | .lexical cause => cause.message

structure ParseError where
  cause : ParseCause
  span : Span
  deriving DecidableEq, Repr

def ParseError.message (e : ParseError) : String :=
  e.cause.message ++ e.span.place

def LexError.toParseError (e : LexError) : ParseError :=
  ⟨.lexical e.cause, e.span⟩

structure Declarations where
  entries : List Declaration
  locked : Bool
  deriving Repr

namespace Declarations

def empty : Declarations := ⟨[], false⟩

/-- An empty record that takes none. -/
def sealed : Declarations := ⟨[], true⟩

def register (d : Declarations) (new : Declaration) (span : Span) : Except ParseError Declarations :=
  if d.locked then .ok d
  else if d.entries.any fun e => e.name == new.name then
    .error ⟨.duplicateDeclaration new.name, span⟩
  else .ok { d with entries := d.entries ++ [new] }

end Declarations

end Parley.Body
