import Parley.Proofs.Supply
set_option autoImplicit false

/-!
Outlines: lines, options and conditionals in any nesting.

An outline is written one line at a time, the body of an option deeper than the option by any number
of spaces, everything else at the width of the list around it. It stands for statements without line
numbers, and between the two for the tokens that its lines are read as.
-/

namespace Parley.Body

def isSpecial (c : Char) : Bool :=
  c == '\\' || c == '/' || c == '#' || c == '<' || c == '\x7b'

structure PlainText where
  text : Text
  first : text.head?.any (fun c => !Text.isBlank c) = true
  chars : text.all (fun c => !isSpecial c && c != '\n' && c != '\r') = true
  noArrow : Text.startsWith "->".toList text = false

structure VariableName where
  name : Text
  nonempty : name ≠ []
  chars : name.all isVariableChar = true

mutual

/-- A list of lines, options and conditionals. An option without a body has an empty one, and
`deeper` is by how much more than one space a body is indented. -/
inductive Outline where
  | done
  | line (t : PlainText) (rest : Outline)
  | option (label : PlainText) (guard : Option VariableName) (deeper : Nat) (body rest : Outline)
  | branch (condition : VariableName) (body : Outline) (arms : Arms) (rest : Outline)

inductive Arms where
  | nothing
  | otherwise (body : Outline)
  | elseif (condition : VariableName) (body : Outline) (arms : Arms)

end

def Outline.isDone : Outline → Bool
  | .done => true
  | _ => false

mutual

/-- The statements of an outline, with zero for every line number. -/
def Outline.statements : Outline → List Statement
  | .done => []
  | .line t rest => .line [.text t.text] 0 [] :: rest.statements
  | .option label guard _ body rest =>
    .option ⟨[.text label.text], guard.map fun v => .var v.name,
      if body.isDone then none else some body.statements, 0, []⟩ :: rest.statements
  | .branch condition body arms rest =>
    .branch (.var condition.name) body.statements arms.statements [] :: rest.statements

def Arms.statements : Arms → Otherwise
  | .nothing => .nothing
  | .otherwise body => .statements body.statements
  | .elseif condition body arms =>
    .branch (.var condition.name) body.statements arms.statements []

end

def written (width : Nat) (content : Text) : Text :=
  List.replicate width ' ' ++ content

def conditionText (word : Text) (v : VariableName) : Text :=
  "<<".toList ++ (word ++ (' ' :: '$' :: (v.name ++ ">>".toList)))

def wordText (word : Text) : Text :=
  "<<".toList ++ (word ++ ">>".toList)

def guardText : Option VariableName → Text
  | none => []
  | some v => conditionText "if".toList v

mutual

def Outline.lines : Nat → Outline → List Text
  | _, .done => []
  | width, .line t rest => written width t.text :: rest.lines width
  | width, .option label guard deeper body rest =>
    written width ("-> ".toList ++ (label.text ++ guardText guard)) ::
      (body.lines (width + deeper + 1) ++ rest.lines width)
  | width, .branch condition body arms rest =>
    written width (conditionText "if".toList condition) ::
      (body.lines width ++ (arms.lines width ++ rest.lines width))

def Arms.lines : Nat → Arms → List Text
  | width, .nothing => [written width (wordText "endif".toList)]
  | width, .otherwise body =>
    written width (wordText "else".toList) ::
      (body.lines width ++ [written width (wordText "endif".toList)])
  | width, .elseif condition body arms =>
    written width (conditionText "elseif".toList condition) ::
      (body.lines width ++ arms.lines width)

end

def Outline.text (o : Outline) : Text :=
  Text.join ['\n'] (o.lines 0)

/-! Statements without their line numbers. -/

mutual

def Statement.unnumbered : Statement → Statement
  | .line parts _ hashtags => .line parts 0 hashtags
  | .option o => .option o.unnumbered
  | .branch condition body otherwise hashtags =>
    .branch condition (unnumberedAll body) otherwise.unnumbered hashtags
  | .assign name value _ hashtags => .assign name value 0 hashtags
  | .command parts _ hashtags => .command parts 0 hashtags
  | .jump target hashtags => .jump target hashtags
  | .stop hashtags => .stop hashtags

def Choice.unnumbered : Choice → Choice
  | ⟨label, guard, body, _, hashtags⟩ => ⟨label, guard, unnumberedBody body, 0, hashtags⟩

def Otherwise.unnumbered : Otherwise → Otherwise
  | .nothing => .nothing
  | .statements body => .statements (unnumberedAll body)
  | .branch condition body otherwise hashtags =>
    .branch condition (unnumberedAll body) otherwise.unnumbered hashtags

def unnumberedAll : List Statement → List Statement
  | [] => []
  | s :: ss => s.unnumbered :: unnumberedAll ss

def unnumberedBody : Option (List Statement) → Option (List Statement)
  | none => none
  | some body => some (unnumberedAll body)

end

/-! What the lines of an outline are read as. A line break stands between two lines, not at the end of
the text, so that it has to be known whether another line follows. -/

def breakIf (more : Bool) : List Lexeme :=
  if more then [(.endOfLine, [])] else []

def conditionLexemes (kind : TokenKind) (word : Text) (v : VariableName) : List Lexeme :=
  [(.beginCommand, "<<".toList), (kind, word), (.variableName, '$' :: v.name),
    (.endCommand, ">>".toList)]

def wordLexemes (kind : TokenKind) (word : Text) : List Lexeme :=
  [(.beginCommand, "<<".toList), (kind, word), (.endCommand, ">>".toList)]

def guardLexemes : Option VariableName → List Lexeme
  | none => []
  | some v => conditionLexemes .ifWord "if".toList v

def optionLexemes (label : PlainText) (guard : Option VariableName) : List Lexeme :=
  (.arrow, "->".toList) :: (.text, label.text) :: guardLexemes guard

mutual

/-- The lexemes of an outline; the flag tells whether another line follows. -/
def Outline.lexemes : Bool → Outline → List Lexeme
  | _, .done => []
  | more, .line t rest => (.text, t.text) :: (breakIf (more || !rest.isDone) ++ rest.lexemes more)
  | more, .option label guard _ body rest =>
    optionLexemes label guard ++
      ((if body.isDone then breakIf (more || !rest.isDone)
        else (.endOfLine, []) :: (.indent, []) ::
          (body.lexemes (more || !rest.isDone) ++ [(.dedent, [])])) ++ rest.lexemes more)
  | more, .branch condition body arms rest =>
    conditionLexemes .ifWord "if".toList condition ++ (.endOfLine, []) ::
      (body.lexemes true ++ (arms.lexemes (more || !rest.isDone) ++ rest.lexemes more))

def Arms.lexemes : Bool → Arms → List Lexeme
  | more, .nothing => wordLexemes .endifWord "endif".toList ++ breakIf more
  | more, .otherwise body =>
    wordLexemes .elseWord "else".toList ++ (.endOfLine, []) ::
      (body.lexemes true ++ (wordLexemes .endifWord "endif".toList ++ breakIf more))
  | more, .elseif condition body arms =>
    conditionLexemes .elseifWord "elseif".toList condition ++ (.endOfLine, []) ::
      (body.lexemes true ++ arms.lexemes more)

end

end Parley.Body
