import Parley.Body.Mode
set_option autoImplicit false

/-!
The lexer of node bodies, which gives one token at a time.

Indentation counts only after an option: a deeper line then opens a block, and the block is closed
by the first line that is less deep, or by the end of the text.
-/

namespace Parley.Body

inductive LexCause where
  | invalidSyntax (mode : Mode) (line : Text)
  deriving DecidableEq, Repr

def LexCause.message : LexCause → String
  | .invalidSyntax mode line =>
    "invalid syntax in " ++ mode.label ++ " state: " ++ String.ofList line

/-- Where an error is, as it ends every message. -/
def Span.place (s : Span) : String :=
  " at line " ++ toString s.line ++ ", column " ++ toString s.column

structure LexError where
  cause : LexCause
  span : Span
  deriving DecidableEq, Repr

def LexError.message (e : LexError) : String :=
  e.cause.message ++ e.span.place

/-- A line as the lexer sees it: leading tabs count four and lines of blanks are empty. -/
def normalizeLine (line : Text) : Text :=
  match Text.trimStart line with
  | [] => []
  | body =>
    (line.takeWhile Text.isBlank).flatMap
      (fun c => List.replicate (if c = '\t' then 4 else 1) ' ') ++ body

/-- The lines of a body; line breaks at its end do not count. -/
def bodyLines (body : Text) : List Text :=
  let unified := Text.unifyBreaks body
  let kept := (unified.reverse.dropWhile (· == '\n')).reverse
  (Text.splitOn '\n' kept).map normalizeLine

/-- An indentation that later lines are measured against. Only a significant one was announced by a
token and has to be closed by one. -/
structure Level where
  width : Nat
  significant : Bool
  deriving DecidableEq, Repr

/-- The state of the lexer: the current line and the lines below it, the position in the line, the
mode, the open levels with the innermost first, whether the next line may open a block, and the width
that it has to exceed to do so. -/
structure Lexer where
  number : Nat
  line : Text
  below : List Text
  cursor : Nat
  mode : Mode
  levels : List Level
  tracking : Bool
  previous : Nat
  deriving DecidableEq, Repr

namespace Lexer

def ofLines (lines : List Text) : Lexer :=
  ⟨1, lines.headD [], lines.tail, 0, .base, [⟨0, false⟩], false, 0⟩

def ofBody (body : Text) : Lexer :=
  ofLines (bodyLines body)

def topWidth (levels : List Level) : Nat :=
  match levels with
  | [] => 0
  | v :: _ => v.width

def spanOf (l : Lexer) (start stop : Nat) : Span :=
  ⟨l.number, start + 1, stop + 1⟩

def unwritten (l : Lexer) (kind : TokenKind) : Token :=
  ⟨kind, [], l.spanOf l.cursor l.cursor⟩

/-- The levels below the innermost significant one. -/
def closeOne : List Level → Option (List Level)
  | [] => none
  | v :: vs => if v.significant then some vs else closeOne vs

/-- At the end of the text each significant level is closed, and then the input ends for good. -/
def atEnd (l : Lexer) : Token × Lexer :=
  match closeOne l.levels with
  | some levels => (l.unwritten .dedent, { l with levels := levels })
  | none => (l.unwritten .endOfInput, { l with levels := [] })

/-- The next line becomes the current one. An option that ended without text is over as well. -/
def nextLine (l : Lexer) (line : Text) (below : List Text) : Lexer :=
  { l with
    number := l.number + 1
    line := line
    below := below
    cursor := 0
    previous := topWidth l.levels
    mode := if l.mode = .option then .base else l.mode }

/-- What a line of a given width does to the open levels that are wider: insignificant ones are
dropped, and a significant one is closed by a token. -/
inductive Closing where
  | block (levels : List Level)
  | settled (levels : List Level)
  deriving DecidableEq, Repr

def closeWider (width : Nat) : List Level → Closing
  | [] => .settled []
  | v :: vs =>
    if width < v.width then
      if v.significant then .block vs else closeWider width vs
    else .settled (v :: vs)

/-- The block token that is due at the start of a line, or else the lexer ready to read the line. -/
def indentation (l : Lexer) : (Token × Lexer) ⊕ Lexer :=
  let width := Text.indentWidth l.line
  if l.tracking && decide (l.previous < width) then
    .inl (l.unwritten .indent, { l with levels := ⟨width, true⟩ :: l.levels, tracking := false })
  else
    match closeWider width l.levels with
    | .block levels =>
      .inl (l.unwritten .dedent,
        { l with levels := levels, tracking := false, previous := topWidth levels })
    | .settled levels => .inr { l with levels := levels, tracking := false, cursor := width }

/-- Changes the mode. An option also makes its own indentation a level, so that its block is measured
against it. -/
def enter (l : Lexer) (mode : Mode) : Lexer :=
  if mode.tracksIndentation then
    let width := Text.indentWidth l.line
    { l with
      mode := mode
      tracking := true
      levels := if topWidth l.levels < width then ⟨width, false⟩ :: l.levels else l.levels }
  else { l with mode := mode }

/-- Blanks after a token are skipped, except that text goes on right after an inline expression or an
escape. -/
def keepsBlanks (kind : TokenKind) (next : Option Mode) : Bool :=
  (kind = .rightBrace || kind = .escape) && next.all Mode.hasText

def accept (l : Lexer) (found : Mode.Found) : Token × Lexer :=
  let stop := l.cursor + found.length
  let lexeme := (l.line.drop l.cursor).take found.length
  let token : Token := ⟨found.kind, found.kind.textOf lexeme, l.spanOf l.cursor stop⟩
  let skipped := if keepsBlanks found.kind found.next then 0 else Text.indentWidth (l.line.drop stop)
  let l := { l with cursor := stop + skipped }
  (token, match found.next with
    | none => l
    | some mode => l.enter mode)

def read (l : Lexer) : Except LexError (Token × Lexer) :=
  match l.mode.find? (l.line.drop l.cursor) with
  | some found => .ok (l.accept found)
  | none => .error ⟨.invalidSyntax l.mode l.line, l.spanOf l.cursor l.line.length⟩

/-- The next token. After the end of the input there are only more ends of the input. -/
def next (l : Lexer) : Except LexError (Token × Lexer) :=
  if l.line.length ≤ l.cursor then
    match l.below with
    | [] => .ok l.atEnd
    | line :: below => .ok (l.unwritten .endOfLine, l.nextLine line below)
  else if l.cursor = 0 then
    match l.indentation with
    | .inl due => .ok due
    | .inr l => l.read
  else l.read

/-- The lexer in front of the next written token. At the start of a line that has no block token due,
the blanks of the line and the levels that it drops without a token are passed. -/
def poised (l : Lexer) : Lexer :=
  if l.cursor = 0 then
    match l.indentation with
    | .inl _ => l
    | .inr m => m
  else l

def call (l : Lexer) : Except LexError Token × Lexer :=
  match l.next with
  | .ok (token, rest) => (.ok token, rest)
  | .error e => (.error e, l.poised)

def linesWeight : List Text → Nat
  | [] => 0
  | line :: lines => line.length + 1 + linesWeight lines

/-- A bound on the number of tokens before the end of the input: four for each character and line,
which leaves room for the blocks that it may open. -/
def weight (l : Lexer) : Nat :=
  4 * linesWeight l.below + 4 * (l.line.length - l.cursor) +
    cond l.tracking 2 0 + l.levels.length

theorem closeOne_length {levels rest : List Level} (h : closeOne levels = some rest) :
    rest.length < levels.length := by
  induction levels with
  | nil => simp [closeOne] at h
  | cons v vs ih =>
    simp only [closeOne] at h
    split at h
    · simp_all
    · have := ih h
      simp only [List.length_cons]
      omega

theorem closeWider_length (width : Nat) (levels : List Level) :
    match closeWider width levels with
    | .block rest => rest.length < levels.length
    | .settled rest => rest.length ≤ levels.length := by
  induction levels with
  | nil => simp [closeWider]
  | cons v vs ih =>
    by_cases hw : width < v.width
    · by_cases hs : v.significant = true
      · simp [closeWider, hw, hs]
      · have hc : closeWider width (v :: vs) = closeWider width vs := by simp [closeWider, hw, hs]
        rw [hc, List.length_cons]
        cases h : closeWider width vs <;> simp only [h] at ih ⊢ <;> omega
    · simp [closeWider, hw]

theorem weight_enter (l : Lexer) (mode : Mode) : (l.enter mode).weight ≤ l.weight + 3 := by
  unfold enter
  split
  · simp only [weight, cond_true]
    split
    · simp only [List.length_cons]
      omega
    · omega
  · simp only [weight]
    omega

theorem weight_accept {l : Lexer} {found : Mode.Found} (hc : l.cursor < l.line.length)
    (hf : 0 < found.length) : (l.accept found).2.weight < l.weight := by
  have h : ∀ k, ({ l with cursor := l.cursor + found.length + k } : Lexer).weight + 4 ≤ l.weight := by
    intro k
    simp only [weight]
    omega
  unfold accept
  simp only
  split
  · have := h (if keepsBlanks found.kind found.next then 0
      else Text.indentWidth (l.line.drop (l.cursor + found.length)))
    omega
  · rename_i mode _
    have h1 := h (if keepsBlanks found.kind found.next then 0
      else Text.indentWidth (l.line.drop (l.cursor + found.length)))
    have h2 := weight_enter { l with cursor := l.cursor + found.length +
      (if keepsBlanks found.kind found.next then 0
        else Text.indentWidth (l.line.drop (l.cursor + found.length))) } mode
    omega

theorem weight_read {l l' : Lexer} {token : Token} (h : l.read = .ok (token, l')) :
    l'.weight < l.weight := by
  unfold read at h
  split at h
  · rename_i found hf
    have hc : l.cursor < l.line.length := by
      apply Nat.lt_of_not_le
      intro hle
      rw [List.drop_eq_nil_of_le hle, Mode.find?_nil] at hf
      simp at hf
    have := weight_accept hc (Mode.find?_length_pos hf)
    simp_all
  · simp at h

/-- Every token but the end of the input brings the lexer nearer to its end. -/
theorem weight_next {l l' : Lexer} {token : Token} (h : l.next = .ok (token, l'))
    (hk : token.kind ≠ .endOfInput) : l'.weight < l.weight := by
  unfold next at h
  split at h
  · split at h
    · unfold atEnd at h
      split at h
      · rename_i levels hl
        have := closeOne_length hl
        simp only [Except.ok.injEq, Prod.mk.injEq] at h
        rw [← h.2]
        simp only [weight]
        omega
      · simp only [Except.ok.injEq, Prod.mk.injEq] at h
        rw [← h.1] at hk
        simp [unwritten] at hk
    · rename_i line below hb
      simp only [Except.ok.injEq, Prod.mk.injEq] at h
      rw [← h.2]
      simp only [weight, nextLine, hb, linesWeight]
      omega
  · split at h
    · split at h
      · rename_i due hd
        simp only [Except.ok.injEq] at h
        subst h
        unfold indentation at hd
        simp only at hd
        split at hd
        · rename_i ht
          simp only [Sum.inl.injEq, Prod.mk.injEq] at hd
          simp only [Bool.and_eq_true] at ht
          rw [← hd.2]
          simp only [weight, ht.1, List.length_cons, cond_true, cond_false]
          omega
        · split at hd
          · rename_i levels hw
            have := closeWider_length (Text.indentWidth l.line) l.levels
            rw [hw] at this
            simp only [Sum.inl.injEq, Prod.mk.injEq] at hd
            rw [← hd.2]
            simp only at this
            simp only [weight, cond_false]
            omega
          · simp at hd
      · rename_i m hm
        have h1 := weight_read h
        unfold indentation at hm
        simp only at hm
        split at hm
        · simp at hm
        · split at hm
          · simp at hm
          · rename_i levels hw
            have := closeWider_length (Text.indentWidth l.line) l.levels
            rw [hw] at this
            simp only [Sum.inr.injEq] at hm
            simp only at this
            rw [← hm] at h1
            simp only [weight, cond_false] at h1 ⊢
            omega
    · exact weight_read h

end Lexer

end Parley.Body
