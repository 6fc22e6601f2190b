import Mathlib.Data.List.TakeWhile
import Parley.Proofs.Blocks
set_option autoImplicit false

/-!
Where tokens stand in the lines of a body.

The lexer moves over a line in three ways: past its indentation, past a token, and past the blanks behind
a token. The first and the last pass blanks only, so that the tokens hold everything else, each character
once.
-/

theorem Parley.Text.isBlank_of_lt_indentWidth {t : Text} {i : Nat} {c : Char}
    (hi : i < Text.indentWidth t) (hc : t[i]? = some c) : Text.isBlank c = true := by
  obtain ⟨rest, hrest⟩ := List.takeWhile_prefix Text.isBlank (l := t)
  rw [← hrest, List.getElem?_append_left hi] at hc
  exact List.mem_takeWhile_imp (List.mem_of_getElem? hc)

namespace Parley.Body

/-! Tokens end within the line. -/

theorem matchRun?_le {p : Char → Bool} {t : Text} {n : Nat} (h : matchRun? p t = some n) :
    n ≤ t.length := by
  have hlength := (List.takeWhile_sublist p (l := t)).length_le
  unfold matchRun? at h
  split at h
  · cases h
  · cases h
    omega

theorem matchMarked?_le {mark : Char} {p : Char → Bool} {t : Text} {n : Nat}
    (h : matchMarked? mark p t = some n) : n ≤ t.length := by
  cases t with
  | nil => cases h
  | cons c t =>
    simp only [matchMarked?] at h
    split at h
    · obtain ⟨m, hm, rfl⟩ := Option.map_eq_some_iff.1 h
      have := matchRun?_le hm
      simp only [List.length_cons]
      omega
    · cases h

theorem matchNumber?_le {t : Text} {n : Nat} (h : matchNumber? t = some n) : n ≤ t.length := by
  obtain ⟨m, hm, rfl⟩ := Option.map_eq_some_iff.1 h
  have hdigits := matchRun?_le hm
  split
  · exact hdigits
  · rename_i k hk
    have hfraction := matchMarked?_le hk
    rw [List.length_drop] at hfraction
    omega

theorem eq_of_matchStringEnd? {t : Text} {n : Nat} (h : matchStringEnd? t = some n) :
    ∃ contents rest, t = contents ++ '"' :: rest ∧ n = contents.length + 1 := by
  fun_induction matchStringEnd? t generalizing n with
  | case1 => cases h
  | case2 =>
    cases h
    exact ⟨[], [], rfl, rfl⟩
  | case3 => cases h
  | case4 d t =>
    cases h
    exact ⟨[], d :: t, rfl, rfl⟩
  | case5 d t _ ih =>
    obtain ⟨m, hm, rfl⟩ := Option.map_eq_some_iff.1 h
    obtain ⟨contents, rest, rfl, rfl⟩ := ih hm
    exact ⟨'\\' :: d :: contents, rest, rfl, by simp⟩
  | case6 c d t _ _ ih =>
    obtain ⟨m, hm, rfl⟩ := Option.map_eq_some_iff.1 h
    obtain ⟨contents, rest, heq, rfl⟩ := ih hm
    exact ⟨c :: contents, rest, by rw [heq, List.cons_append], by simp⟩

theorem eq_of_matchString? {t : Text} {n : Nat} (h : matchString? t = some n) :
    ∃ contents rest, t = '"' :: contents ++ '"' :: rest ∧ n = contents.length + 2 := by
  cases t with
  | nil => cases h
  | cons c t =>
    simp only [matchString?] at h
    split at h
    · rename_i hc
      obtain ⟨m, hm, rfl⟩ := Option.map_eq_some_iff.1 h
      obtain ⟨contents, rest, rfl, rfl⟩ := eq_of_matchStringEnd? hm
      exact ⟨contents, rest, by rw [hc, List.cons_append], rfl⟩
    · cases h

theorem matchString?_le {t : Text} {n : Nat} (h : matchString? t = some n) : n ≤ t.length := by
  obtain ⟨contents, rest, rfl, rfl⟩ := eq_of_matchString? h
  simp

theorem length_le_of_afterPrefix? {p t r : Text} (h : Text.afterPrefix? p t = some r) :
    p.length ≤ t.length := by
  rw [Text.eq_append_of_afterPrefix? h]
  simp

theorem matchWord?_le {spellings : List String} {t : Text} {n : Nat}
    (h : matchWord? spellings t = some n) : n ≤ t.length := by
  obtain ⟨p, hp, hn⟩ := Option.bind_eq_some_iff.1 h
  obtain ⟨w, -, he⟩ := List.exists_of_findSome?_eq_some hp
  obtain ⟨r, hr, rfl⟩ := Option.map_eq_some_iff.1 he
  split at hn
  · cases hn
    exact length_le_of_afterPrefix? hr
  · cases hn

theorem matchSymbol?_le {symbol : String} {t : Text} {n : Nat} (h : matchSymbol? symbol t = some n) :
    n ≤ t.length := by
  unfold matchSymbol? at h
  split at h
  · rename_i hs
    obtain ⟨r, hr⟩ := Option.isSome_iff_exists.1 hs
    cases h
    exact length_le_of_afterPrefix? hr
  · cases h

theorem matchTypeName?_le {t : Text} {n : Nat} (h : matchTypeName? t = some n) : n ≤ t.length := by
  obtain ⟨name, -, hn⟩ := List.exists_of_findSome?_eq_some h
  obtain ⟨rest, hr, hn⟩ := Option.bind_eq_some_iff.1 hn
  split at hn
  · cases hn
    exact length_le_of_afterPrefix? hr
  · cases hn

theorem matchGluedMinus?_le {t : Text} {n : Nat} (h : matchGluedMinus? t = some n) : n ≤ t.length := by
  cases t with
  | nil => cases h
  | cons c t =>
    simp only [matchGluedMinus?] at h
    split at h
    · cases h
      simp
    · cases h

theorem matchEscape?_le {t : Text} {n : Nat} (h : matchEscape? t = some n) : n ≤ t.length := by
  unfold matchEscape? at h
  split at h
  · split at h
    · cases h
      simp
    · cases h
  · cases h

theorem matchComment?_le {t : Text} {n : Nat} (h : matchComment? t = some n) : n ≤ t.length := by
  unfold matchComment? at h
  split at h
  · cases h
    exact Nat.le_refl _
  · cases h

theorem TokenKind.matchLength?_le {kind : TokenKind} {t : Text} {n : Nat}
    (h : kind.matchLength? t = some n) : n ≤ t.length := by
  cases kind <;> simp only [TokenKind.matchLength?, reduceCtorEq] at h
  case number => exact matchNumber?_le h
  case string => exact matchString?_le h
  case variableName => exact matchMarked?_le h
  case hashtag => exact matchMarked?_le h
  case comment => exact matchComment?_le h
  case typeName => exact matchTypeName?_le h
  case gluedMinus => exact matchGluedMinus?_le h
  case identifier => exact matchRun?_le h
  case escape => exact matchEscape?_le h
  all_goals
    first
    | exact matchSymbol?_le h
    | exact matchWord?_le h

namespace Mode

theorem textLength_le (m : Mode) (t : Text) : m.textLength t ≤ t.length := by
  induction t with
  | nil => exact Nat.le_refl _
  | cons c t ih =>
    simp only [textLength, List.length_cons]
    split <;> omega

/-- What is found is running text, or a token of the kind that it is said to be. -/
theorem find?_cases {m : Mode} {t : Text} {found : Found} (h : m.find? t = some found) :
    found.kind.matchLength? t = some found.length ∨
      found.kind = .text ∧ found.length = m.textLength t := by
  rcases Option.or_eq_some_iff.1 h with h | ⟨-, h⟩
  · obtain ⟨r, -, hr⟩ := List.exists_of_findSome?_eq_some h
    obtain ⟨n, hn, rfl⟩ := Option.map_eq_some_iff.1 hr
    exact .inl hn
  · split at h
    · cases h
      exact .inr ⟨rfl, rfl⟩
    · cases h

theorem find?_length_le {m : Mode} {t : Text} {found : Found} (h : m.find? t = some found) :
    found.length ≤ t.length := by
  rcases find?_cases h with h | ⟨-, h⟩
  · exact TokenKind.matchLength?_le h
  · rw [h]
    exact m.textLength_le t

end Mode

/-! What tokens say about a line. -/

def Span.slice (s : Span) (line : Text) : Text :=
  (line.drop (s.column - 1)).take (s.endColumn - s.column)

/-- Whether a span holds a character of its line. Characters count from zero here. -/
def Span.Holds (s : Span) (i : Nat) : Prop :=
  s.column ≤ i + 1 ∧ i + 1 < s.endColumn

/-- A token and the characters it was written with. Strings are written between quotation marks and
with escapes, all else is written as it is. -/
def Token.WrittenAs (token : Token) (lexeme : Text) : Prop :=
  (token.kind = .string →
    ∃ contents, lexeme = '"' :: contents ++ ['"'] ∧ token.text = Text.unescape contents) ∧
  (token.kind ≠ .string → token.text = lexeme)

def writtenOn (number : Nat) (tokens : List Token) : List Token :=
  tokens.filter fun token => token.kind.isWritten && token.span.line == number

/-- Tokens on a line, up to a place in it: they hold a character at least and stand one behind the other,
each is what is written in its span, and what none of them holds is blank. -/
structure Covers (text : Text) (stop : Nat) (tokens : List Token) : Prop where
  spans : ∀ token ∈ tokens,
    0 < token.span.column ∧ token.span.column < token.span.endColumn ∧ token.span.endColumn ≤ stop + 1
  ordered : tokens.Pairwise fun earlier later => earlier.span.endColumn ≤ later.span.column
  written : ∀ token ∈ tokens, token.WrittenAs (token.span.slice text)
  blanks : ∀ i c, i < stop → text[i]? = some c → (∀ token ∈ tokens, ¬ token.span.Holds i) →
    Text.isBlank c = true

section Lines

variable {line : Text} {stop : Nat} {tokens : List Token} {token : Token}

theorem covers_start (line : Text) : Covers line 0 [] :=
  ⟨by simp, .nil, by simp, by simp⟩

theorem Covers.skip (h : Covers line stop tokens) :
    Covers line (stop + Text.indentWidth (line.drop stop)) tokens := by
  refine ⟨?_, h.ordered, h.written, ?_⟩
  · intro token htoken
    obtain ⟨hpos, hne, hle⟩ := h.spans token htoken
    exact ⟨hpos, hne, by omega⟩
  · intro i c hi hc hnone
    by_cases hstop : i < stop
    · exact h.blanks i c hstop hc hnone
    · -- The character is one of the leading blanks of what is left.
      apply Text.isBlank_of_lt_indentWidth (t := line.drop stop) (i := i - stop) (by omega)
      rwa [List.getElem?_drop, Nat.add_sub_cancel' (Nat.le_of_not_lt hstop)]

theorem Covers.take (h : Covers line stop tokens) {number length : Nat} (hpos : 0 < length)
    (hspan : token.span = ⟨number, stop + 1, stop + length + 1⟩)
    (hwritten : token.WrittenAs ((line.drop stop).take length)) :
    Covers line (stop + length) (tokens ++ [token]) := by
  have hslice : token.span.slice line = (line.drop stop).take length := by
    simp only [Span.slice, hspan, Nat.add_sub_cancel]
    congr 1
    omega
  refine ⟨?_, ?_, ?_, ?_⟩
  · intro t ht
    rcases List.mem_append.1 ht with ht | ht
    · obtain ⟨hcolumn, hne, hle⟩ := h.spans t ht
      exact ⟨hcolumn, hne, by omega⟩
    · obtain rfl := List.mem_singleton.1 ht
      simp only [hspan]
      omega
  · refine List.pairwise_append.2 ⟨h.ordered, List.pairwise_singleton _ _, ?_⟩
    intro t ht u hu
    obtain rfl := List.mem_singleton.1 hu
    rw [hspan]
    exact (h.spans t ht).2.2
  · intro t ht
    rcases List.mem_append.1 ht with ht | ht
    · exact h.written t ht
    · obtain rfl := List.mem_singleton.1 ht
      rwa [hslice]
  · intro i c hi hc hnone
    have hnot := hnone token (by simp)
    simp only [Span.Holds, hspan] at hnot
    refine h.blanks i c (by omega) hc fun t ht => hnone t (List.mem_append_left _ ht)

end Lines

namespace Lexer

variable {lines : List Text} {tokens : List Token} {token : Token} {l l' m : Lexer}

@[simp] theorem accept_span (m : Lexer) (found : Mode.Found) :
    (m.accept found).1.span = ⟨m.number, m.cursor + 1, m.cursor + found.length + 1⟩ := rfl

theorem accept_writtenAs {found : Mode.Found}
    (hfind : m.mode.find? (m.line.drop m.cursor) = some found) :
    (m.accept found).1.WrittenAs ((m.line.drop m.cursor).take found.length) := by
  generalize ht : m.line.drop m.cursor = t at hfind
  have htext : (m.accept found).1.text = found.kind.textOf (t.take found.length) := by
    rw [← ht]
    rfl
  refine ⟨?_, ?_⟩
  · intro hkind
    rw [accept_kind] at hkind
    rcases Mode.find?_cases hfind with h | ⟨h, -⟩
    · rw [hkind] at h
      obtain ⟨contents, rest, rfl, hlength⟩ := eq_of_matchString? h
      have hlexeme : ('"' :: contents ++ '"' :: rest).take found.length = '"' :: contents ++ ['"'] := by
        have hsplit : '"' :: contents ++ '"' :: rest = ('"' :: contents ++ ['"']) ++ rest := by simp
        rw [hsplit]
        exact List.take_left' (by simp [hlength])
      refine ⟨contents, hlexeme, ?_⟩
      rw [htext, hkind, hlexeme]
      simp [TokenKind.textOf]
    · simp [hkind] at h
  · intro hkind
    rw [htext]
    exact textOf_eq hkind _

structure Accounts (lines : List Text) (tokens : List Token) (l : Lexer) : Prop where
  placed : Placed lines l
  numbers : ∀ token ∈ tokens, token.kind.isWritten = true →
    0 < token.span.line ∧ token.span.line ≤ l.number
  above : ∀ i line, i + 1 < l.number → lines[i]? = some line →
    Covers line line.length (writtenOn (i + 1) tokens)
  here : Covers l.line l.cursor (writtenOn l.number tokens)
  inside : l.cursor ≤ l.line.length

theorem writtenOn_snoc_of_unwritten (hkind : token.kind.isWritten = false) (number : Nat) :
    writtenOn number (tokens ++ [token]) = writtenOn number tokens := by
  simp [writtenOn, hkind]

theorem writtenOn_snoc_of_ne {number : Nat} (hline : token.span.line ≠ number) :
    writtenOn number (tokens ++ [token]) = writtenOn number tokens := by
  simp [writtenOn, hline]

theorem writtenOn_snoc (hkind : token.kind.isWritten = true) :
    writtenOn token.span.line (tokens ++ [token]) = writtenOn token.span.line tokens ++ [token] := by
  simp [writtenOn, hkind]

theorem Accounts.covers (h : Accounts lines tokens l) (hend : l.line.length ≤ l.cursor) {i : Nat}
    {line : Text} (hi : i + 1 ≤ l.number) (hget : lines[i]? = some line) :
    Covers line line.length (writtenOn (i + 1) tokens) := by
  rcases Nat.lt_or_eq_of_le hi with hi | hi
  · exact h.above i line hi hget
  · have hline := h.placed.line_eq
    rw [← hi, Nat.add_sub_cancel, hget, Option.some.injEq] at hline
    have hhere := h.here
    rwa [Nat.le_antisymm h.inside hend, ← hline, ← hi] at hhere

/-- Tokens for which nothing was written leave the lexer where it is. -/
theorem Accounts.unwritten (h : Accounts lines tokens l) (hplaced : Placed lines l')
    (hkind : token.kind.isWritten = false) (hnumber : l'.number = l.number) (hline : l'.line = l.line)
    (hcursor : l'.cursor = l.cursor) : Accounts lines (tokens ++ [token]) l' := by
  refine ⟨hplaced, ?_, ?_, ?_, ?_⟩
  · intro t ht hwritten
    rcases List.mem_append.1 ht with ht | ht
    · rw [hnumber]
      exact h.numbers t ht hwritten
    · obtain rfl := List.mem_singleton.1 ht
      simp [hkind] at hwritten
  · intro i line hi hget
    rw [writtenOn_snoc_of_unwritten hkind]
    exact h.above i line (hnumber ▸ hi) hget
  · rw [writtenOn_snoc_of_unwritten hkind, hnumber, hline, hcursor]
    exact h.here
  · rw [hline, hcursor]
    exact h.inside

theorem Accounts.nextLine (h : Accounts lines tokens l) {line : Text} {below : List Text}
    (hplaced : Placed lines (l.nextLine line below)) (hend : l.line.length ≤ l.cursor) :
    Accounts lines tokens (l.nextLine line below) := by
  have hnone : writtenOn (l.number + 1) tokens = [] := by
    refine List.filter_eq_nil_iff.2 ?_
    intro t ht hon
    simp only [Bool.and_eq_true, beq_iff_eq] at hon
    have := (h.numbers t ht hon.1).2
    omega
  refine ⟨hplaced, ?_, ?_, ?_, Nat.zero_le _⟩
  · intro t ht hwritten
    obtain ⟨hpos, hle⟩ := h.numbers t ht hwritten
    exact ⟨hpos, Nat.le_succ_of_le hle⟩
  · intro i line hi hget
    exact h.covers hend (Nat.le_of_lt_succ hi) hget
  · have hstart := covers_start line
    rwa [← hnone] at hstart

/-- The lexer reads on from where the tokens so far stop, or from behind the indentation of a line. -/
theorem Accounts.ready (h : Accounts lines tokens l) (hready : Ready l m) :
    Covers m.line m.cursor (writtenOn m.number tokens) := by
  cases hready with
  | within hcursor => exact h.here
  | start hcursor hflat hclose =>
    have hskip := h.here.skip
    rwa [hcursor, Nat.zero_add, List.drop_zero] at hskip

theorem Accounts.reads (h : Accounts lines tokens l) {found : Mode.Found} (hready : Ready l m)
    (hplaced : Placed lines (m.accept found).2)
    (hfind : m.mode.find? (m.line.drop m.cursor) = some found) :
    Accounts lines (tokens ++ [(m.accept found).1]) (m.accept found).2 := by
  have hkind : (m.accept found).1.kind.isWritten = true := Mode.find?_isWritten hfind
  have hspan : (m.accept found).1.span.line = m.number := rfl
  have hnumber : (m.accept found).2.number = m.number := by rw [accept_snd]
  have hline : (m.accept found).2.line = m.line := by rw [accept_snd]
  have hlength := Mode.find?_length_le hfind
  have hpos := Mode.find?_length_pos hfind
  rw [List.length_drop] at hlength
  have htake := (h.ready hready).take hpos (accept_span m found) (accept_writtenAs hfind)
  have hwritten : writtenOn m.number (tokens ++ [(m.accept found).1]) =
      writtenOn m.number tokens ++ [(m.accept found).1] := writtenOn_snoc hkind
  refine ⟨hplaced, ?_, ?_, ?_, ?_⟩
  · intro t ht hon
    rw [hnumber, hready.number_eq]
    rcases List.mem_append.1 ht with ht | ht
    · exact h.numbers t ht hon
    · obtain rfl := List.mem_singleton.1 ht
      obtain ⟨above, -, hl⟩ := h.placed
      rw [hspan, hready.number_eq]
      omega
  · intro i line hi hget
    rw [hnumber] at hi
    rw [writtenOn_snoc_of_ne (by omega)]
    exact h.above i line (hready.number_eq ▸ hi) hget
  · rw [hnumber, hline, hwritten, accept_snd]
    dsimp only
    split
    · exact htake
    · exact htake.skip
  · rw [hline, accept_snd]
    have hrest := Text.length_trimStart (m.line.drop (m.cursor + found.length))
    rw [List.length_drop] at hrest
    dsimp only
    split <;> omega

theorem Accounts.step (h : Accounts lines tokens l) (hstep : Step l token l') :
    Accounts lines (tokens ++ [token]) l' := by
  have hplaced := h.placed.step hstep
  cases hstep with
  | lineEnd hend hbelow =>
    have hnext := h.nextLine hplaced hend
    exact hnext.unwritten hplaced rfl rfl rfl rfl
  | closeAtEnd => exact h.unwritten hplaced rfl rfl rfl rfl
  | inputEnd => exact h.unwritten hplaced rfl rfl rfl rfl
  | opens => exact h.unwritten hplaced rfl rfl rfl rfl
  | closes => exact h.unwritten hplaced rfl rfl rfl rfl
  | reads hmore hready hfind => exact h.reads hready hplaced hfind

theorem Accounts.path (h : Accounts lines tokens l) {more : List Token} (hpath : Path l more l') :
    Accounts lines (tokens ++ more) l' := by
  induction hpath generalizing tokens with
  | nil => simpa using h
  | cons head tail ih => simpa using ih (h.step head)

theorem accounts_ofBody (body : Text) : Accounts (bodyLines body) [] (ofBody body) := by
  refine ⟨placed_ofLines (bodyLines_ne_nil body), by simp, ?_, covers_start _, Nat.zero_le _⟩
  intro i line hi
  simp [ofBody, ofLines] at hi

theorem Step.atEnd_of_endOfInput (h : Step l token l') (hkind : token.kind = .endOfInput) :
    l'.AtEnd := by
  cases h with
  | inputEnd hend hbelow => exact ⟨hend, hbelow⟩
  | reads _ _ hfind =>
    exact absurd hkind (TokenKind.ne_of_isWritten (Mode.find?_isWritten hfind) rfl)
  | _ => cases hkind

end Lexer

/-- The tokens that are written on a line account for the whole line, and there are no written tokens
that stand on none. -/
theorem tokenize_covers {body : Text} {tokens : List Token} (h : tokenize body = .ok tokens) :
    (∀ i line, (bodyLines body)[i]? = some line →
      Covers line line.length (writtenOn (i + 1) tokens)) ∧
    ∀ token ∈ tokens, token.kind.isWritten = true →
      0 < token.span.line ∧ token.span.line ≤ (bodyLines body).length := by
  obtain ⟨front, last, l', rfl, hpath, hlast, -⟩ := Lexer.path_of_tokens h
  have haccounts := (Lexer.accounts_ofBody body).path hpath
  rw [List.nil_append] at haccounts
  obtain ⟨m, -, hend⟩ := hpath.split
  cases hend with
  | cons head tail =>
    cases tail
    have hatEnd := head.atEnd_of_endOfInput hlast
    have hnumber := (haccounts.placed.getLast? hatEnd.2).2
    refine ⟨?_, ?_⟩
    · intro i line hget
      have hi : i < (bodyLines body).length := (List.getElem?_eq_some_iff.1 hget).1
      exact haccounts.covers hatEnd.1 (by omega) hget
    · rw [← hnumber]
      exact haccounts.numbers

/-- An assignment behind a tab, of a string with an escape, and a comment behind it. -/
theorem tokenize_covers_assignment :
    Covers "    <<set $a = \"x\\\"y\">> // é".toList 28
      [⟨.beginCommand, "<<".toList, ⟨2, 5, 7⟩⟩, ⟨.setWord, "set".toList, ⟨2, 7, 10⟩⟩,
        ⟨.variableName, "$a".toList, ⟨2, 11, 13⟩⟩, ⟨.assign, "=".toList, ⟨2, 14, 15⟩⟩,
        ⟨.string, "x\"y".toList, ⟨2, 16, 22⟩⟩, ⟨.endCommand, ">>".toList, ⟨2, 22, 24⟩⟩,
        ⟨.comment, "// é".toList, ⟨2, 25, 29⟩⟩] := by
  have htokens : tokenize "Hi\n\t<<set $a = \"x\\\"y\">> // é".toList = .ok
      [⟨.text, "Hi".toList, ⟨1, 1, 3⟩⟩, ⟨.endOfLine, [], ⟨1, 3, 3⟩⟩,
        ⟨.beginCommand, "<<".toList, ⟨2, 5, 7⟩⟩, ⟨.setWord, "set".toList, ⟨2, 7, 10⟩⟩,
        ⟨.variableName, "$a".toList, ⟨2, 11, 13⟩⟩, ⟨.assign, "=".toList, ⟨2, 14, 15⟩⟩,
        ⟨.string, "x\"y".toList, ⟨2, 16, 22⟩⟩, ⟨.endCommand, ">>".toList, ⟨2, 22, 24⟩⟩,
        ⟨.comment, "// é".toList, ⟨2, 25, 29⟩⟩, ⟨.endOfInput, [], ⟨2, 29, 29⟩⟩] := by
    decide +kernel
  exact (tokenize_covers htokens).1 1 _ (by decide +kernel)

end Parley.Body
