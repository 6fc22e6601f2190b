import Parley.Body.Lexer
set_option autoImplicit false

/-!
All tokens of a body, up to the end of the input.
-/

namespace Parley.Body

def Lexer.tokens (l : Lexer) : Except LexError (List Token) :=
  match _h : l.next with
  | .error e => .error e
  | .ok (token, rest) =>
    if _hk : token.kind = .endOfInput then .ok [token]
    else rest.tokens.map (token :: ·)
termination_by l.weight
decreasing_by exact weight_next _h _hk

def tokenize (body : Text) : Except LexError (List Token) :=
  (Lexer.ofBody body).tokens

end Parley.Body
