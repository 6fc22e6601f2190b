import Parley.Body.Grammar.Block
set_option autoImplicit false

/-!
Parsing a whole body.
-/

namespace Parley.Body

/-- Parses what a supply of tokens gives. The declarations are those recorded before and on the way,
also when parsing fails. -/
def parseSource {σ : Type} [TokenSource σ] (source : σ) (declared : Declarations) :
    Except ParseError (List Statement) × Declarations :=
  match Parse.body (4 * TokenSource.weight source + 8) ⟨source, none, declared⟩ with
  | .ok statements c => (.ok statements, c.declared)
  | .error e c => (.error e, c.declared)

def parse (body : Text) (declared : Declarations) :
    Except ParseError (List Statement) × Declarations :=
  parseSource (Lexer.ofBody body) declared

def parseBody (body : Text) : Except ParseError (List Statement) :=
  (parse body .empty).1

end Parley.Body
