import Parley.Body.Token
set_option autoImplicit false

/-!
How each kind of token is written.

`TokenKind.matchLength?` gives the length of a token of one kind at the start of the rest of a line.
Line ends, indentation and running text are not written and never match.
-/

namespace Parley.Body

/-- A word is cut off from the text only where it does not run on. -/
def endsWord (lexeme rest : Text) : Bool :=
  !(lexeme.getLast?.any Text.isWord && rest.head?.any Text.isWord)

/-- The first of some spellings that the text starts with, where it is not part of a longer word. -/
def matchWord? (spellings : List String) (t : Text) : Option Nat :=
  (spellings.map String.toList).findSome? (fun w => (Text.afterPrefix? w t).map (w, ·))
    |>.bind fun p => if endsWord p.1 p.2 then some p.1.length else none

def matchSymbol? (symbol : String) (t : Text) : Option Nat :=
  if Text.startsWith symbol.toList t then some symbol.toList.length else none

def matchRun? (p : Char → Bool) (t : Text) : Option Nat :=
  match (t.takeWhile p).length with
  | 0 => none
  | n + 1 => some (n + 1)

def matchMarked? (mark : Char) (p : Char → Bool) : Text → Option Nat
  | [] => none
  | c :: t => if c = mark then (matchRun? p t).map (· + 1) else none

/-- Digits, and a point only if digits follow it. -/
def matchNumber? (t : Text) : Option Nat :=
  (matchRun? Text.isDigit t).map fun n =>
    match matchMarked? '.' Text.isDigit (t.drop n) with
    | none => n
    | some m => n + m

def matchStringEnd? : Text → Option Nat
  | [] => none
  | [c] => if c = '"' then some 1 else none
  | c :: d :: t =>
    if c = '"' then some 1
    else if c = '\\' then (matchStringEnd? t).map (· + 2)
    else (matchStringEnd? (d :: t)).map (· + 1)

def matchString? : Text → Option Nat
  | [] => none
  | c :: t => if c = '"' then (matchStringEnd? t).map (· + 1) else none

/-- The name of a type, directly in front of the end of the command. -/
def matchTypeName? (t : Text) : Option Nat :=
  ["String", "Number", "Bool"].findSome? fun name =>
    (Text.afterPrefix? name.toList t).bind fun rest =>
      if Text.startsWith ">>".toList rest then some name.toList.length else none

def matchGluedMinus? : Text → Option Nat
  | [] => none
  | c :: t => if c = '-' ∧ (t.head?.any Text.isBlank) = false then some 1 else none

def matchEscape? : Text → Option Nat
  | c :: _ :: _ => if c = '\\' then some 2 else none
  | _ => none

def matchComment? (t : Text) : Option Nat :=
  if Text.startsWith "//".toList t then some t.length else none

def isVariableChar (c : Char) : Bool :=
  Text.isWord c || c == '.'

def isIdentifierChar (c : Char) : Bool :=
  Text.isWord c || c == ':' || c == '.'

def isHashtagChar (c : Char) : Bool :=
  !Text.isBlank c && c != '#' && c != '/' && c != '(' && c != ')' && c != '|'

def TokenKind.matchLength? (kind : TokenKind) (t : Text) : Option Nat :=
  match kind with
  | .text | .endOfLine | .endOfInput | .indent | .dedent => none
  | .number => matchNumber? t
  | .string => matchString? t
  | .beginCommand => matchSymbol? "<<" t
  | .endCommand => matchSymbol? ">>" t
  | .variableName => matchMarked? '$' isVariableChar t
  | .arrow => matchSymbol? "->" t
  | .hashtag => matchMarked? '#' isHashtagChar t
  | .comment => matchComment? t
  | .ifWord => matchWord? ["if"] t
  | .elseifWord => matchWord? ["elseif"] t
  | .elseWord => matchWord? ["else"] t
  | .endifWord => matchWord? ["endif"] t
  | .jumpWord => matchWord? ["jump"] t
  | .stopWord => matchWord? ["stop"] t
  | .setWord => matchWord? ["set"] t
  | .declareWord => matchWord? ["declare"] t
  | .asWord => matchWord? ["as"] t
  | .typeName => matchTypeName? t
  | .trueWord => matchWord? ["true"] t
  | .falseWord => matchWord? ["false"] t
  | .nullWord => matchWord? ["null"] t
  | .leftParen => matchSymbol? "(" t
  | .rightParen => matchSymbol? ")" t
  | .comma => matchSymbol? "," t
  | .gluedMinus => matchGluedMinus? t
  | .equal => matchWord? ["==", "is", "eq"] t
  | .greater => matchWord? [">", "gt"] t
  | .greaterEqual => matchWord? [">=", "gte"] t
  | .less => matchWord? ["<", "lt"] t
  | .lessEqual => matchWord? ["<=", "lte"] t
  | .notEqual => matchWord? ["!=", "neq"] t
  | .or => matchWord? ["||", "or"] t
  | .and => matchWord? ["&&", "and"] t
  | .xor => matchWord? ["^", "xor"] t
  | .not => matchWord? ["!", "not"] t
  | .assign => matchWord? ["=", "to"] t
  | .plus => matchSymbol? "+" t
  | .minus => matchSymbol? "-" t
  | .power => matchSymbol? "**" t
  | .times => matchSymbol? "*" t
  | .divide => matchSymbol? "/" t
  | .modulo => matchSymbol? "%" t
  | .identifier => matchRun? isIdentifierChar t
  | .escape => matchEscape? t
  | .leftBrace => matchSymbol? "\x7b" t
  | .rightBrace => matchSymbol? "\x7d" t

theorem matchRun?_pos {p : Char → Bool} {t : Text} {n : Nat} (h : matchRun? p t = some n) : 0 < n := by
  unfold matchRun? at h
  split at h
  · simp at h
  · simp only [Option.some.injEq] at h
    omega

theorem matchMarked?_pos {mark : Char} {p : Char → Bool} {t : Text} {n : Nat}
    (h : matchMarked? mark p t = some n) : 0 < n := by
  cases t with
  | nil => simp [matchMarked?] at h
  | cons c t =>
    simp only [matchMarked?] at h
    split at h
    · obtain ⟨m, _, rfl⟩ := Option.map_eq_some_iff.1 h
      omega
    · simp at h

theorem matchNumber?_pos {t : Text} {n : Nat} (h : matchNumber? t = some n) : 0 < n := by
  obtain ⟨m, hm, rfl⟩ := Option.map_eq_some_iff.1 h
  have := matchRun?_pos hm
  split <;> omega

theorem matchString?_pos {t : Text} {n : Nat} (h : matchString? t = some n) : 0 < n := by
  cases t with
  | nil => simp [matchString?] at h
  | cons c t =>
    simp only [matchString?] at h
    split at h
    · obtain ⟨m, _, rfl⟩ := Option.map_eq_some_iff.1 h
      omega
    · simp at h

theorem matchWord?_pos {spellings : List String} {t : Text} {n : Nat}
    (hs : ∀ w ∈ spellings, w.toList ≠ []) (h : matchWord? spellings t = some n) : 0 < n := by
  obtain ⟨p, hp, hn⟩ := Option.bind_eq_some_iff.1 h
  obtain ⟨w, hw, he⟩ := List.exists_of_findSome?_eq_some hp
  obtain ⟨s, hs', rfl⟩ := List.mem_map.1 hw
  obtain ⟨r, _, rfl⟩ := Option.map_eq_some_iff.1 he
  split at hn
  · simp only [Option.some.injEq] at hn
    rw [← hn]
    exact List.length_pos_iff.2 (hs s hs')
  · simp at hn

theorem matchSymbol?_pos {symbol : String} {t : Text} {n : Nat} (hs : symbol.toList ≠ [])
    (h : matchSymbol? symbol t = some n) : 0 < n := by
  unfold matchSymbol? at h
  split at h
  · simp only [Option.some.injEq] at h
    rw [← h]
    exact List.length_pos_iff.2 hs
  · simp at h

theorem matchTypeName?_pos {t : Text} {n : Nat} (h : matchTypeName? t = some n) : 0 < n := by
  obtain ⟨name, hm, hn⟩ := List.exists_of_findSome?_eq_some h
  obtain ⟨rest, _, hr⟩ := Option.bind_eq_some_iff.1 hn
  split at hr
  · simp only [Option.some.injEq] at hr
    rw [← hr]
    simp only [List.mem_cons, List.not_mem_nil, or_false] at hm
    rcases hm with rfl | rfl | rfl <;> decide
  · simp at hr

theorem matchGluedMinus?_pos {t : Text} {n : Nat} (h : matchGluedMinus? t = some n) : 0 < n := by
  cases t with
  | nil => simp [matchGluedMinus?] at h
  | cons c t =>
    simp only [matchGluedMinus?] at h
    split at h
    · simp only [Option.some.injEq] at h
      omega
    · simp at h

theorem matchEscape?_pos {t : Text} {n : Nat} (h : matchEscape? t = some n) : 0 < n := by
  unfold matchEscape? at h
  split at h
  · split at h
    · simp only [Option.some.injEq] at h
      omega
    · simp at h
  · simp at h

theorem matchComment?_pos {t : Text} {n : Nat} (h : matchComment? t = some n) : 0 < n := by
  unfold matchComment? at h
  split at h
  · rename_i hs
    simp only [Option.some.injEq] at h
    rw [← h]
    cases t with
    | nil => exact absurd hs (by decide)
    | cons c t => simp
  · simp at h

/-- Every written token holds a character. -/
theorem TokenKind.matchLength?_pos {kind : TokenKind} {t : Text} {n : Nat}
    (h : kind.matchLength? t = some n) : 0 < n := by
  cases kind <;> simp only [TokenKind.matchLength?, reduceCtorEq] at h
  case number => exact matchNumber?_pos h
  case string => exact matchString?_pos h
  case variableName => exact matchMarked?_pos h
  case hashtag => exact matchMarked?_pos h
  case comment => exact matchComment?_pos h
  case typeName => exact matchTypeName?_pos h
  case gluedMinus => exact matchGluedMinus?_pos h
  case identifier => exact matchRun?_pos h
  case escape => exact matchEscape?_pos h
  all_goals
    first
    | exact matchSymbol?_pos (by decide) h
    | exact matchWord?_pos (by decide) h

def TokenKind.textOf (kind : TokenKind) (lexeme : Text) : Text :=
  match kind with
  | .string => Text.unescape lexeme.tail.dropLast
  | _ => lexeme

end Parley.Body
