import Mathlib.Data.List.Induction
import Parley.Proofs.LexerCalls
import Parley.Proofs.TokenLists
set_option autoImplicit false

/-!
A blank line is a line break and nothing else.

The lexer passes an empty line without a look at its levels, and what it does on a line depends neither on
the number of the line nor on the lines below. With one blank line more, the tokens up to its place are the
same, and those behind its line break are the same one line further down.
-/

namespace Parley.Text

theorem stripLines_append {above below : List Text} (h : ∃ line ∈ below, line ≠ []) :
    stripLines (above ++ below) = above ++ stripLines below := by
  induction below using List.reverseRecOn with
  | nil => simp at h
  | append_singleton below line ih =>
    rw [← List.append_assoc]
    by_cases hline : line = []
    · subst hline
      rw [stripLines_snoc_empty, stripLines_snoc_empty]
      exact ih (by simpa using h)
    · rw [stripLines_snoc hline, stripLines_snoc hline, List.append_assoc]

end Parley.Text

namespace Parley.Body

/-! Places further down. -/

def Span.lowered (k : Nat) (s : Span) : Span :=
  { s with line := s.line + k }

def Token.lowered (k : Nat) (t : Token) : Token :=
  { t with span := t.span.lowered k }

def LexError.lowered (k : Nat) (e : LexError) : LexError :=
  { e with span := e.span.lowered k }

@[simp] theorem LexError.lowered_zero (e : LexError) : e.lowered 0 = e := rfl

@[simp] theorem Token.lowered_kind (k : Nat) (t : Token) : (t.lowered k).kind = t.kind := rfl

namespace Lexer

variable {l l' m : Lexer} {token : Token} {e : LexError}

def amid (l : Lexer) (k : Nat) (below : List Text) : Lexer :=
  { l with number := l.number + k, below := below }

theorem nextLine_amid (l : Lexer) (k : Nat) (line : Text) (below upper lower : List Text) :
    (l.amid k upper).nextLine line below = (l.nextLine line lower).amid k below := by
  have hnumber : l.number + k + 1 = l.number + 1 + k := Nat.add_right_comm _ _ _
  unfold amid nextLine
  rw [hnumber]

/-- An empty line does not change what the next one is measured against, and the mode is that of a new
line already. -/
theorem nextLine_nextLine (l : Lexer) (blank line : Text) (below below' : List Text) :
    (l.nextLine blank below').nextLine line below = (l.nextLine line below).amid 1 below := by
  cases hmode : l.mode <;> simp [amid, nextLine, hmode]

theorem Ready.amid (h : Ready l m) (k : Nat) (below : List Text) :
    Ready (l.amid k below) (m.amid k below) := by
  cases h with
  | within hcursor => exact .within hcursor
  | start hcursor hflat hclose => exact .start (l := l.amid k below) hcursor hflat hclose

theorem accept_amid (l : Lexer) (k : Nat) (below : List Text) (found : Mode.Found) :
    (l.amid k below).accept found = ((l.accept found).1.lowered k, (l.accept found).2.amid k below) := by
  refine Prod.ext ?_ ?_
  · simp [accept, amid, spanOf, Token.lowered, Span.lowered]
  · rw [accept_snd, accept_snd]
    rfl

/-- On a line, a step depends neither on the number of the line nor on the lines below. -/
theorem Step.amid (h : Step l token l') (hmore : l.cursor < l.line.length) (k : Nat)
    (below : List Text) : Step (l.amid k below) (token.lowered k) (l'.amid k below) := by
  cases h with
  | lineEnd hend => omega
  | closeAtEnd hend => omega
  | inputEnd hend => omega
  | opens hcursor hline htracking hdeep =>
    exact .opens (l := l.amid k below) hcursor hline htracking hdeep
  | closes hcursor hline hflat hclose =>
    exact .closes (l := l.amid k below) hcursor hline hflat hclose
  | @reads m found _ hready hfind =>
    have hreads := Step.reads (l := l.amid k below) hmore (hready.amid k below) hfind
    rwa [accept_amid] at hreads

theorem next_amid_of_error (h : l.next = .error e) (k : Nat) (below : List Text) :
    (l.amid k below).next = .error (e.lowered k) := by
  obtain ⟨hmore, hready, hread⟩ := ready_of_next_error h
  obtain ⟨hfind, rfl⟩ := read_eq_error_iff.1 hread
  rw [(hready.amid k below).next_eq hmore]
  exact read_eq_error_iff.2 ⟨hfind, rfl⟩

theorem line_of_next_error (h : l.next = .error e) : e.span.line = l.number := by
  obtain ⟨-, hready, hread⟩ := ready_of_next_error h
  obtain ⟨-, rfl⟩ := read_eq_error_iff.1 hread
  exact hready.number_eq

theorem Step.below_of_endOfInput (h : Step l token l') (hkind : token.kind = .endOfInput) :
    l.below = [] := by
  cases h with
  | inputEnd _ hbelow => exact hbelow
  | reads _ _ hfind => exact absurd hkind (TokenKind.ne_of_isWritten (Mode.find?_isWritten hfind) rfl)
  | _ => cases hkind

theorem Step.stays (h : Step l token l') (hmore : l.cursor < l.line.length) :
    l'.number = l.number ∧ l'.below = l.below := by
  cases h with
  | lineEnd hend => omega
  | reads _ hready =>
    rw [accept_snd]
    exact ⟨hready.number_eq, hready.below_eq⟩
  | _ => exact ⟨rfl, rfl⟩

theorem Step.lowered (h : Step l token l') (k : Nat) :
    Step (l.amid k l.below) (token.lowered k) (l'.amid k l'.below) := by
  by_cases hmore : l.cursor < l.line.length
  · rw [(h.stays hmore).2]
    exact h.amid hmore k l.below
  · cases h with
    | @lineEnd line below hend hbelow =>
      have hbreak := Step.lineEnd (l := l.amid k l.below) hend hbelow
      rwa [nextLine_amid l k line _ _ below] at hbreak
    | closeAtEnd hend hbelow hclose =>
      exact .closeAtEnd (l := l.amid k l.below) hend hbelow hclose
    | inputEnd hend hbelow hclose => exact .inputEnd (l := l.amid k l.below) hend hbelow hclose
    | opens hcursor hline => exact absurd (hcursor ▸ List.length_pos_iff.2 hline) hmore
    | closes hcursor hline => exact absurd (hcursor ▸ List.length_pos_iff.2 hline) hmore
    | reads hmore' => exact absurd hmore' hmore

theorem listing_of_step (h : Step l token l') (hkind : token.kind ≠ .endOfInput) :
    l.listing = (token :: l'.listing.1, l'.listing.2) := by
  rw [listing_of_next (next_of_step h), if_neg hkind]

theorem listing_lowered (l : Lexer) (k : Nat) : (l.amid k l.below).listing =
    (l.listing.1.map (·.lowered k), l.listing.2.map (·.lowered k)) := by
  fun_induction Lexer.listing l with
  | case1 l e hnext =>
    rw [listing_of_error (next_amid_of_error hnext k l.below)]
    rfl
  | case2 l token rest hnext hkind =>
    have hlowered := next_of_step ((step_of_next hnext).lowered k)
    rw [listing_of_next hlowered, if_pos (by simpa using hkind)]
    rfl
  | case3 l token rest hnext hkind ih =>
    rw [listing_of_step ((step_of_next hnext).lowered k) (by simpa using hkind), ih]
    rfl

theorem number_le_of_listing (l : Lexer) :
    (∀ t ∈ l.listing.1, l.number ≤ t.span.line) ∧ ∀ e ∈ l.listing.2, l.number ≤ e.span.line := by
  fun_induction Lexer.listing l with
  | case1 l e hnext => simp [line_of_next_error hnext]
  | case2 l token rest hnext hkind => simp [(step_of_next hnext).line_eq]
  | case3 l token rest hnext hkind ih =>
    have hnumber := (step_of_next hnext).number_eq
    refine ⟨?_, fun e he => ?_⟩
    · rw [List.forall_mem_cons]
      refine ⟨Nat.le_of_eq (step_of_next hnext).line_eq.symm, fun t ht => ?_⟩
      have := ih.1 t ht
      omega
    · have := ih.2 e he
      omega

end Lexer

/-! One line break more. -/

/-- The output of a lexer with a line break more behind the first lines, and what stands below these lines
one line further down. An error in these lines comes before the line break. -/
def withBreak (n : Nat) (out : List Token × Option LexError) : List Token × Option LexError :=
  if out.2.any (·.span.line ≤ n) then out
  else (out.1.takeWhile (·.span.line ≤ n) ++ ⟨.endOfLine, [], ⟨n + 1, 1, 1⟩⟩ ::
      (out.1.dropWhile (·.span.line ≤ n)).map (·.lowered 1),
    out.2.map (·.lowered 1))

theorem withBreak_cons {n : Nat} {token : Token} (h : token.span.line ≤ n)
    (out : List Token × Option LexError) :
    withBreak n (token :: out.1, out.2) = (token :: (withBreak n out).1, (withBreak n out).2) := by
  unfold withBreak
  split <;> simp [h]

theorem withBreak_of_lt {n : Nat} {out : List Token × Option LexError}
    (htokens : ∀ t ∈ out.1, n < t.span.line) (herror : ∀ e ∈ out.2, n < e.span.line) :
    withBreak n out =
      (⟨.endOfLine, [], ⟨n + 1, 1, 1⟩⟩ :: out.1.map (·.lowered 1), out.2.map (·.lowered 1)) := by
  obtain ⟨tokens, error⟩ := out
  have hany : error.any (·.span.line ≤ n) = false := by
    cases error with
    | none => rfl
    | some e => simpa using herror e rfl
  rw [withBreak, if_neg (by simp [hany])]
  cases tokens with
  | nil => rfl
  | cons token tokens =>
    have hfirst := htokens token (by simp)
    simp [Nat.not_le_of_lt hfirst]

namespace Lexer

variable {l l' m : Lexer} {token : Token} {upper lower : List Text}

theorem listing_of_blank {n : Nat} (hnumber : l.number = n + 1)
    (h : Step m ⟨.endOfLine, [], ⟨n + 1, 1, 1⟩⟩ (l.amid 1 l.below)) :
    m.listing = withBreak n l.listing := by
  obtain ⟨htokens, herror⟩ := number_le_of_listing l
  rw [hnumber] at htokens herror
  rw [withBreak_of_lt htokens herror, listing_of_step h (by simp), listing_lowered]

/-- A step with a blank line more somewhere below. It is the same step, and the blank line is still below;
or it leads to the blank line, and one more step leads from there to where it led before. -/
theorem Step.blank_below (h : Step l token l') (hbelow : l.below = upper ++ lower) (hlower : lower ≠ []) :
    (∃ upper', l'.below = upper' ++ lower ∧ l'.number + upper'.length = l.number + upper.length ∧
      Step (l.amid 0 (upper ++ [] :: lower)) token (l'.amid 0 (upper' ++ [] :: lower))) ∨
    upper = [] ∧ l'.number = l.number + 1 ∧
      ∃ m, Step (l.amid 0 ([] :: lower)) token m ∧
        Step m ⟨.endOfLine, [], ⟨l.number + 1, 1, 1⟩⟩ (l'.amid 1 l'.below) := by
  by_cases hmore : l.cursor < l.line.length
  · obtain ⟨hnumber, hsame⟩ := h.stays hmore
    exact .inl ⟨upper, hsame.trans hbelow, by rw [hnumber], h.amid hmore 0 _⟩
  · have hend := Nat.le_of_not_lt hmore
    cases upper with
    | cons line upper =>
      cases (next_of_step h).symm.trans (next_of_step (.lineEnd hend hbelow))
      refine .inl ⟨upper, rfl, Nat.succ_add_eq_add_succ _ _, ?_⟩
      have hbreak := Step.lineEnd (l := l.amid 0 (line :: upper ++ [] :: lower)) hend rfl
      rwa [nextLine_amid l 0 line _ _ (upper ++ lower)] at hbreak
    | nil =>
      obtain ⟨line, below, rfl⟩ := List.exists_cons_of_ne_nil hlower
      cases (next_of_step h).symm.trans (next_of_step (.lineEnd hend hbelow))
      refine .inr ⟨rfl, rfl, l.nextLine [] (line :: below), .lineEnd hend rfl, ?_⟩
      have hblank := Step.lineEnd (l := l.nextLine [] (line :: below)) (Nat.zero_le _) rfl
      rwa [nextLine_nextLine] at hblank

theorem listing_blank_below (hbelow : l.below = upper ++ lower) (hlower : lower ≠ []) :
    (l.amid 0 (upper ++ [] :: lower)).listing = withBreak (l.number + upper.length) l.listing := by
  fun_induction Lexer.listing l generalizing upper with
  | case1 l e hnext =>
    have hline := line_of_next_error hnext
    rw [listing_of_error (next_amid_of_error hnext 0 _)]
    simp [withBreak, hline]
  | case2 l token rest hnext hkind =>
    have hnone := (step_of_next hnext).below_of_endOfInput hkind
    rw [hbelow, List.append_eq_nil_iff] at hnone
    exact absurd hnone.2 hlower
  | case3 l token rest hnext hkind ih =>
    have hstep := step_of_next hnext
    have hline : token.span.line ≤ l.number + upper.length := by
      rw [hstep.line_eq]
      exact Nat.le_add_right _ _
    rw [withBreak_cons hline]
    rcases hstep.blank_below hbelow hlower with
      ⟨upper', hrest, hnumber, hsame⟩ | ⟨rfl, hnumber, m, hbreak, hblank⟩
    · rw [listing_of_step hsame hkind, ih hrest, hnumber]
    · rw [List.nil_append, listing_of_step hbreak hkind, listing_of_blank hnumber hblank]
      rfl

theorem listing_ofLines_insert (upper : List Text) (hlower : lower ≠ []) :
    (ofLines (upper ++ [] :: lower)).listing =
      withBreak upper.length (ofLines (upper ++ lower)).listing := by
  cases upper with
  | nil =>
    obtain ⟨line, below, rfl⟩ := List.exists_cons_of_ne_nil hlower
    exact listing_of_blank rfl (.lineEnd (Nat.zero_le _) rfl)
  | cons line upper =>
    have hlisting := listing_blank_below (l := ofLines (line :: upper ++ lower)) rfl hlower
    rwa [Nat.add_comm] at hlisting

end Lexer

variable {above below : List Text} {blank body body' : Text}

/-- A line of blanks that is inserted above a line, where this line or one below it is not blank, adds one
line break to the output, and moves all that comes behind it one line further down. -/
theorem listing_insert_blank (hbody : writtenLines body = above ++ below)
    (hfull : ∃ line ∈ below, ¬ IsBlankLine line) (hblank : IsBlankLine blank)
    (hbody' : writtenLines body' = above ++ blank :: below) :
    (Lexer.ofBody body').listing = withBreak above.length (Lexer.ofBody body).listing := by
  have hlower : ∃ line ∈ below, line ≠ [] := by
    obtain ⟨line, hline, hwritten⟩ := hfull
    exact ⟨line, hline, fun hnil => hwritten (hnil ▸ rfl)⟩
  have hlines : bodyLines body =
      above.map normalizeLine ++ (Text.stripLines below).map normalizeLine := by
    rw [bodyLines_eq, hbody, Text.stripLines_append hlower, List.map_append]
  have hlines' : bodyLines body' =
      above.map normalizeLine ++ [] :: (Text.stripLines below).map normalizeLine := by
    rw [bodyLines_eq, hbody', List.append_cons, Text.stripLines_append hlower, List.map_append,
      List.map_append, List.map_singleton, normalizeLine_blank hblank, ← List.append_cons]
  have hne : (Text.stripLines below).map normalizeLine ≠ [] := by simp
  rw [Lexer.ofBody, Lexer.ofBody, hlines, hlines', Lexer.listing_ofLines_insert _ hne,
    List.length_map]

/-- A blank line between an option and its block, and one in a command that is broken off. -/
theorem listing_insert_blank_inner :
    (Lexer.ofBody "-> Ask\n \t\n  Why?".toList).listing =
      ([⟨.arrow, "->".toList, ⟨1, 1, 3⟩⟩, ⟨.text, "Ask".toList, ⟨1, 4, 7⟩⟩, ⟨.endOfLine, [], ⟨1, 7, 7⟩⟩,
        ⟨.endOfLine, [], ⟨2, 1, 1⟩⟩, ⟨.indent, [], ⟨3, 1, 1⟩⟩, ⟨.text, "Why?".toList, ⟨3, 3, 7⟩⟩,
        ⟨.dedent, [], ⟨3, 7, 7⟩⟩, ⟨.endOfInput, [], ⟨3, 7, 7⟩⟩], none) ∧
    (Lexer.ofBody "<<set $x =\r\r\n  @".toList).listing.2 =
      some ⟨.invalidSyntax .expression "  @".toList, ⟨3, 3, 4⟩⟩ := by
  have hreply : writtenLines "-> Ask\n  Why?".toList = ["-> Ask".toList] ++ ["  Why?".toList] := by
    decide
  have hreply' : writtenLines "-> Ask\n \t\n  Why?".toList =
      ["-> Ask".toList] ++ " \t".toList :: ["  Why?".toList] := by decide
  have hcommand : writtenLines "<<set $x =\n  @".toList = ["<<set $x =".toList] ++ ["  @".toList] := by
    decide
  have hcommand' : writtenLines "<<set $x =\r\r\n  @".toList =
      ["<<set $x =".toList] ++ [] :: ["  @".toList] := by decide
  rw [listing_insert_blank hreply (by decide) (by decide) hreply',
    listing_insert_blank hcommand (by decide) (by decide) hcommand']
  decide +kernel

end Parley.Body
