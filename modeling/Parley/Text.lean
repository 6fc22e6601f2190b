set_option autoImplicit false

/-!
Text as a list of characters, and the few operations on it that every part of the library shares:
blanks, trimming, line breaks, and cutting at a separator.

The only notion of blank is the Unicode property `White_Space`; it is wider than `Char.isWhitespace`.
-/

namespace Parley

abbrev Text := List Char

namespace Text

/-- The code points with the property `White_Space`, as closed ranges in increasing order. -/
def blankRanges : List (Nat × Nat) :=
  [(0x9, 0xD), (0x20, 0x20), (0x85, 0x85), (0xA0, 0xA0), (0x1680, 0x1680), (0x2000, 0x200A),
    (0x2028, 0x2029), (0x202F, 0x202F), (0x205F, 0x205F), (0x3000, 0x3000)]

def isBlank (c : Char) : Bool :=
  blankRanges.any fun r => decide (r.1 ≤ c.toNat) && decide (c.toNat ≤ r.2)

def isDigit (c : Char) : Bool :=
  decide ('0' ≤ c) && decide (c ≤ '9')

def isLetter (c : Char) : Bool :=
  (decide ('a' ≤ c) && decide (c ≤ 'z')) || (decide ('A' ≤ c) && decide (c ≤ 'Z'))

def isWord (c : Char) : Bool :=
  isLetter c || isDigit c || c == '_'

def trimStart (t : Text) : Text :=
  t.dropWhile isBlank

def trimEnd (t : Text) : Text :=
  (t.reverse.dropWhile isBlank).reverse

def trim (t : Text) : Text :=
  trimEnd (trimStart t)

def indentWidth (t : Text) : Nat :=
  (t.takeWhile isBlank).length

theorem length_trimStart (t : Text) : (trimStart t).length + indentWidth t = t.length := by
  have h := congrArg List.length (List.takeWhile_append_dropWhile (p := isBlank) (l := t))
  simp only [List.length_append] at h
  simp only [trimStart, indentWidth]
  omega

def afterPrefix? : Text → Text → Option Text
  | [], t => some t
  | _ :: _, [] => none
  | p :: ps, c :: t => if p = c then afterPrefix? ps t else none

def startsWith (p t : Text) : Bool :=
  (afterPrefix? p t).isSome

@[simp] theorem afterPrefix?_append (p t : Text) : afterPrefix? p (p ++ t) = some t := by
  induction p with
  | nil => rfl
  | cons c p ih => simp [afterPrefix?, ih]

theorem eq_append_of_afterPrefix? {p t r : Text} (h : afterPrefix? p t = some r) : t = p ++ r := by
  induction p generalizing t with
  | nil => simpa [afterPrefix?] using h
  | cons c p ih =>
    cases t with
    | nil => simp [afterPrefix?] at h
    | cons d t =>
      by_cases hc : c = d
      · simp only [afterPrefix?, hc, if_pos] at h
        rw [ih h, hc, List.cons_append]
      · simp [afterPrefix?, hc] at h

def unifyBreaks : Text → Text
  | [] => []
  | '\r' :: '\n' :: t => '\n' :: unifyBreaks t
  | c :: t => (if c = '\r' then '\n' else c) :: unifyBreaks t

/-- The pieces between the separators; there is always one piece more than there are separators. -/
def splitOn (sep : Char) : Text → List Text
  | [] => [[]]
  | c :: t =>
    if c = sep then [] :: splitOn sep t
    else match splitOn sep t with
      | [] => [[c]]
      | w :: ws => (c :: w) :: ws

@[simp] theorem splitOn_ne_nil (sep : Char) (t : Text) : splitOn sep t ≠ [] := by
  cases t with
  | nil => simp [splitOn]
  | cons c t =>
    simp only [splitOn]
    split
    · simp
    · split <;> simp

def join (sep : Text) : List Text → Text
  | [] => []
  | [w] => w
  | w :: ws => w ++ sep ++ join sep ws

/-- Joining the pieces with the separator restores the text. -/
@[simp] theorem join_splitOn (sep : Char) (t : Text) : join [sep] (splitOn sep t) = t := by
  induction t with
  | nil => rfl
  | cons c t ih =>
    simp only [splitOn]
    split
    · rename_i h
      cases hs : splitOn sep t with
      | nil => exact absurd hs (splitOn_ne_nil sep t)
      | cons w ws =>
        rw [hs] at ih
        simp [join, ih, h]
    · cases hs : splitOn sep t with
      | nil => exact absurd hs (splitOn_ne_nil sep t)
      | cons w ws =>
        rw [hs] at ih
        cases ws with
        | nil => simpa [join] using ih
        | cons v vs =>
          simp only [join, List.cons_append] at ih ⊢
          rw [ih]

/-- A line that was ended by a line feed also loses one carriage return before it. -/
def dropReturn (t : Text) : Text :=
  if t.getLast? = some '\r' then t.dropLast else t

/-- Pieces of a split at line feeds as lines: the last piece is a line only if it holds something. -/
def linesOfPieces : List Text → List Text
  | [] => []
  | [w] => if w.isEmpty then [] else [w]
  | w :: ws => dropReturn w :: linesOfPieces ws

def lines (t : Text) : List Text :=
  linesOfPieces (splitOn '\n' t)

def cut (sep : Char) : Text → Option (Text × Text)
  | [] => none
  | c :: t => if c = sep then some ([], t) else (cut sep t).map fun p => (c :: p.1, p.2)

def words (t : Text) : List Text :=
  (t.foldr
    (fun c ws => if isBlank c then [] :: ws
      else match ws with
        | [] => [[c]]
        | w :: ws => (c :: w) :: ws)
    [[]]).filter fun w => !w.isEmpty

/-- The text with the backslash of each escape removed. An escape is a backslash with the character
after it, so a backslash at the very end stays. -/
def unescape : Text → Text
  | [] => []
  | [c] => [c]
  | c :: d :: t => if c = '\\' then d :: unescape t else c :: unescape (d :: t)

@[simp] theorem unescape_plain {c : Char} (h : c ≠ '\\') (t : Text) :
    unescape (c :: t) = c :: unescape t := by
  cases t <;> simp [unescape, h]

/-- Drops leading blanks as long as their encoded size stays within a number of bytes. A blank that the
number ends within is kept here; cutting the bytes there would be an error of the program. -/
def dropIndent : Nat → Text → Text
  | _, [] => []
  | n, c :: t => if isBlank c && decide (c.utf8Size ≤ n) then dropIndent (n - c.utf8Size) t else c :: t

def indentSize : Text → Nat
  | [] => 0
  | c :: t => if isBlank c then c.utf8Size + indentSize t else 0

end Text

end Parley
