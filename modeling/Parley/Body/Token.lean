import Parley.Text
set_option autoImplicit false

/-!
Tokens of node bodies.
-/

namespace Parley.Body

/-- A stretch of one line. Lines and columns count from one, columns count characters, and the end
column is the one after the last character. -/
structure Span where
  line : Nat
  column : Nat
  endColumn : Nat
  deriving DecidableEq, Repr

inductive TokenKind where
  | text
  | endOfLine
  | endOfInput
  | indent
  | dedent
  | number
  | string
  | beginCommand
  | endCommand
  | variableName
  | arrow
  | hashtag
  | comment
  | ifWord
  | elseifWord
  | elseWord
  | endifWord
  | jumpWord
  | stopWord
  | setWord
  | declareWord
  | asWord
  | typeName
  | trueWord
  | falseWord
  | nullWord
  | leftParen
  | rightParen
  | comma
  | gluedMinus
  | equal
  | greater
  | greaterEqual
  | less
  | lessEqual
  | notEqual
  | or
  | and
  | xor
  | not
  | assign
  | plus
  | minus
  | power
  | times
  | divide
  | modulo
  | identifier
  | escape
  | leftBrace
  | rightBrace
  deriving DecidableEq, Repr

def TokenKind.label : TokenKind → String
  | .text => "text"
  | .endOfLine => "end of line"
  | .endOfInput => "end of input"
  | .indent => "indent"
  | .dedent => "dedent"
  | .number => "number"
  | .string => "string"
  | .beginCommand => "'<<'"
  | .endCommand => "'>>'"
  | .variableName => "variable"
  | .arrow => "'->'"
  | .hashtag => "hashtag"
  | .comment => "comment"
  | .ifWord => "'if'"
  | .elseifWord => "'elseif'"
  | .elseWord => "'else'"
  | .endifWord => "'endif'"
  | .jumpWord => "'jump'"
  | .stopWord => "'stop'"
  | .setWord => "'set'"
  | .declareWord => "'declare'"
  | .asWord => "'as'"
  | .typeName => "type name"
  | .trueWord => "'true'"
  | .falseWord => "'false'"
  | .nullWord => "'null'"
  | .leftParen => "'('"
  | .rightParen => "')'"
  | .comma => "','"
  | .gluedMinus => "'-'"
  | .equal => "'=='"
  | .greater => "'>'"
  | .greaterEqual => "'>='"
  | .less => "'<'"
  | .lessEqual => "'<='"
  | .notEqual => "'!='"
  | .or => "'or'"
  | .and => "'and'"
  | .xor => "'xor'"
  | .not => "'not'"
  | .assign => "'='"
  | .plus => "'+'"
  | .minus => "'-'"
  | .power => "'**'"
  | .times => "'*'"
  | .divide => "'/'"
  | .modulo => "'%'"
  | .identifier => "identifier"
  | .escape => "escaped character"
  | .leftBrace => "'\x7b'"
  | .rightBrace => "'\x7d'"

/-- The text of a string token is the string itself, without quotation marks and escapes; the text
of any other token is what was written. -/
structure Token where
  kind : TokenKind
  text : Text
  span : Span
  deriving DecidableEq, Repr

end Parley.Body
