import Parley.Body.Pattern
set_option autoImplicit false

/-!
The modes of the lexer and the tokens that each of them looks for.

In the modes for text everything up to the next delimiter is running text. The three modes for
inline expressions differ only in the mode they return to.
-/

namespace Parley.Body

inductive Mode where
  | base
  | option
  | command
  | expression
  | inline
  | inlineInCommand
  | inlineInOption
  | assignment
  | declaration
  | jump
  | stop
  deriving DecidableEq, Repr

def Mode.label : Mode → String
  | .base => "base"
  | .option => "shortcut option"
  | .command => "command"
  | .expression => "expression"
  | .inline => "inline expression"
  | .inlineInCommand => "inline expression in command"
  | .inlineInOption => "inline expression in shortcut"
  | .assignment => "assignment"
  | .declaration => "declare"
  | .jump => "jump"
  | .stop => "stop"

structure Rule where
  kind : TokenKind
  next : Option Mode
  deriving DecidableEq, Repr

/-- The tokens of expressions, in the order in which they are tried. -/
def operatorRules : List Rule :=
  [.number, .string, .leftParen, .rightParen, .equal, .assign, .notEqual, .greaterEqual, .greater,
    .lessEqual, .less, .plus, .gluedMinus, .minus, .power, .times, .divide, .modulo, .and, .or,
    .xor, .not, .variableName, .comma, .trueWord, .falseWord, .nullWord, .identifier].map
    (⟨·, none⟩)

namespace Mode

def delimiters : Mode → List Rule
  | .base =>
    [⟨.escape, none⟩, ⟨.comment, none⟩, ⟨.hashtag, none⟩, ⟨.beginCommand, some .command⟩,
      ⟨.leftBrace, some .inline⟩]
  | .option =>
    [⟨.escape, none⟩, ⟨.comment, none⟩, ⟨.hashtag, none⟩, ⟨.beginCommand, some .expression⟩,
      ⟨.leftBrace, some .inlineInOption⟩]
  | .command => [⟨.leftBrace, some .inlineInCommand⟩, ⟨.endCommand, some .base⟩]
  | _ => []

/-- All rules of a mode, in the order in which they are tried. -/
def rules : Mode → List Rule
  | .base => delimiters .base ++ [⟨.arrow, some .option⟩]
  | .option => delimiters .option
  | .command =>
    [⟨.ifWord, some .expression⟩, ⟨.elseifWord, some .expression⟩, ⟨.elseWord, none⟩,
      ⟨.endifWord, none⟩, ⟨.setWord, some .assignment⟩, ⟨.declareWord, some .declaration⟩,
      ⟨.jumpWord, some .jump⟩, ⟨.stopWord, some .stop⟩] ++ delimiters .command
  | .expression =>
    [⟨.asWord, none⟩, ⟨.typeName, none⟩, ⟨.endCommand, some .base⟩] ++ operatorRules
  | .inline => ⟨.rightBrace, some .base⟩ :: operatorRules
  | .inlineInCommand => ⟨.rightBrace, some .command⟩ :: operatorRules
  | .inlineInOption => ⟨.rightBrace, some .option⟩ :: operatorRules
  | .assignment => [⟨.variableName, none⟩, ⟨.assign, some .expression⟩]
  | .declaration =>
    [⟨.variableName, none⟩, ⟨.endCommand, some .base⟩, ⟨.assign, some .expression⟩]
  | .jump =>
    [⟨.identifier, none⟩, ⟨.leftBrace, some .inlineInCommand⟩, ⟨.endCommand, some .base⟩]
  | .stop => [⟨.endCommand, some .base⟩]

def hasText : Mode → Bool
  | .base | .option | .command => true
  | _ => false

/-- The mode that running text leads to: after the text of an option the line goes on like any. -/
def afterText : Mode → Option Mode
  | .option => some .base
  | _ => none

def tracksIndentation : Mode → Bool
  | .option => true
  | _ => false

def delimiterAt (m : Mode) (t : Text) : Bool :=
  m.delimiters.any fun r => (r.kind.matchLength? t).isSome

def textLength (m : Mode) : Text → Nat
  | [] => 0
  | c :: t => if m.delimiterAt (c :: t) then 0 else m.textLength t + 1

structure Found where
  kind : TokenKind
  length : Nat
  next : Option Mode
  deriving DecidableEq, Repr

/-- The first rule that matches wins; running text comes last. -/
def find? (m : Mode) (t : Text) : Option Found :=
  (m.rules.findSome? fun r => (r.kind.matchLength? t).map (⟨r.kind, ·, r.next⟩)).or
    (if m.hasText && decide (0 < m.textLength t) then some ⟨.text, m.textLength t, m.afterText⟩
      else none)

theorem find?_length_pos {m : Mode} {t : Text} {f : Found} (h : m.find? t = some f) :
    0 < f.length := by
  rcases Option.or_eq_some_iff.1 h with h | ⟨_, h⟩
  · obtain ⟨r, _, hr⟩ := List.exists_of_findSome?_eq_some h
    obtain ⟨n, hn, rfl⟩ := Option.map_eq_some_iff.1 hr
    exact TokenKind.matchLength?_pos hn
  · split at h
    · rename_i ht
      simp only [Option.some.injEq] at h
      simp only [Bool.and_eq_true, decide_eq_true_eq] at ht
      rw [← h]
      exact ht.2
    · simp at h

@[simp] theorem find?_nil (m : Mode) : m.find? [] = none := by
  cases m <;> decide

end Mode

end Parley.Body
