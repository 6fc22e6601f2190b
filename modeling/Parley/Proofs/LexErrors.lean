import Mathlib.Data.List.Infix
import Parley.Proofs.LexerCalls
import Parley.Proofs.Modes
import Parley.Proofs.OutlineRoundTrip
set_option autoImplicit false

/-!
Where lexing can fail.

Running text ends only in front of tokens that its own mode accepts, so that some token is found wherever
a mode has running text. A text that opens neither commands nor inline expressions never leaves those modes.
-/

namespace Parley.Text

/-! Words of a text, in its lines. -/

theorem infix_of_mem_join {sep w : Text} {ws : List Text} (h : w ∈ ws) : w <:+: join sep ws := by
  induction ws with
  | nil => cases h
  | cons v ws ih =>
    cases ws with
    | nil =>
      rw [List.mem_singleton.1 h]
      exact List.infix_rfl
    | cons u us =>
      show w <:+: v ++ sep ++ join sep (u :: us)
      rcases List.mem_cons.1 h with rfl | h
      · rw [List.append_assoc]
        exact (List.prefix_append _ _).isInfix
      · exact (ih h).trans (List.suffix_append _ _).isInfix

theorem infix_of_mem_splitOn {sep : Char} {t w : Text} (h : w ∈ splitOn sep t) : w <:+: t := by
  have hjoin : w <:+: join [sep] (splitOn sep t) := infix_of_mem_join h
  rwa [join_splitOn] at hjoin

theorem prefix_of_unifyBreaks {w t : Text} (hw : '\n' ∉ w) (h : w <+: unifyBreaks t) : w <+: t := by
  fun_induction unifyBreaks t generalizing w with
  | case1 => exact h
  | case2 t =>
    cases w with
    | nil => exact List.nil_prefix
    | cons a w =>
      obtain ⟨rfl, -⟩ := List.cons_prefix_cons.1 h
      exact absurd (List.mem_cons_self ..) hw
  | case3 c t _ ih =>
    cases w with
    | nil => exact List.nil_prefix
    | cons a w =>
      obtain ⟨ha, h⟩ := List.cons_prefix_cons.1 h
      obtain ⟨hbreak, hw⟩ := not_or.1 (List.mem_cons.not.1 hw)
      split at ha
      · exact absurd ha.symm hbreak
      · exact List.cons_prefix_cons.2 ⟨ha, ih hw h⟩

theorem infix_of_unifyBreaks {w t : Text} (hw : '\n' ∉ w) (h : w <:+: unifyBreaks t) : w <:+: t := by
  fun_induction unifyBreaks t with
  | case1 => exact h
  | case2 t ih =>
    rcases List.infix_cons_iff.1 h with h | h
    · exact (prefix_of_unifyBreaks (t := '\r' :: '\n' :: t) hw h).isInfix
    · exact List.infix_cons (List.infix_cons (ih h))
  | case3 c t hc ih =>
    rcases List.infix_cons_iff.1 h with h | h
    · refine (prefix_of_unifyBreaks (t := c :: t) hw ?_).isInfix
      rwa [unifyBreaks]
      exact hc
    · exact List.infix_cons (ih h)

theorem infix_of_blanks_append {w blanks t : Text} (hw : ∀ c ∈ w, isBlank c = false)
    (hblanks : ∀ c ∈ blanks, isBlank c = true) (h : w <:+: blanks ++ t) : w <:+: t := by
  induction blanks with
  | nil => exact h
  | cons b blanks ih =>
    obtain ⟨hb, hblanks⟩ := List.forall_mem_cons.1 hblanks
    rcases List.infix_cons_iff.1 h with h | h
    · cases w with
      | nil => exact List.nil_infix
      | cons a w =>
        obtain ⟨rfl, -⟩ := List.cons_prefix_cons.1 h
        rw [hw a (List.mem_cons_self ..)] at hb
        cases hb
    · exact ih hblanks h

end Parley.Text

namespace Parley.Body

theorem infix_of_mem_bodyLines {body line w : Text} (hw : ∀ c ∈ w, Text.isBlank c = false)
    (hline : line ∈ bodyLines body) (h : w <:+: line) : w <:+: body := by
  by_cases hne : line = []
  · rw [hne, List.infix_nil] at h
    rw [h]
    exact List.nil_infix
  · obtain ⟨n, hn⟩ := List.mem_iff_getElem?.1 hline
    obtain ⟨raw, hraw, hblank, rfl⟩ := exists_of_getElem?_bodyLines hn hne
    rw [normalizeLine_full hblank, written] at h
    have hspaces : ∀ c ∈ List.replicate (lineWidth raw) ' ', Text.isBlank c = true := by
      intro c hc
      rw [List.eq_of_mem_replicate hc]
      decide
    have hbreak : '\n' ∉ w := by
      intro hmem
      have := hw _ hmem
      revert this
      decide
    have htrim : w <:+: Text.trimStart raw := Text.infix_of_blanks_append hw hspaces h
    have hwritten : w <:+: raw := htrim.trans (List.dropWhile_suffix _).isInfix
    have hlines : raw <:+: Text.unifyBreaks body := Text.infix_of_mem_splitOn (List.mem_of_getElem? hraw)
    exact Text.infix_of_unifyBreaks hbreak (hwritten.trans hlines)

/-! Modes with running text. -/

namespace Mode

theorem delimiters_subset (m : Mode) : m.delimiters ⊆ m.rules := by
  cases m <;> decide

theorem delimiterAt_of_textLength {m : Mode} {t : Text} (ht : t ≠ []) (h : m.textLength t = 0) :
    m.delimiterAt t = true := by
  cases t with
  | nil => exact absurd rfl ht
  | cons c t =>
    rw [textLength] at h
    split at h
    · assumption
    · omega

theorem find?_ne_none {m : Mode} (hm : m.hasText = true) {t : Text} (ht : t ≠ []) :
    m.find? t ≠ none := by
  intro hnone
  obtain ⟨hrules, htext⟩ := Option.or_eq_none_iff.1 hnone
  have hlength : m.textLength t = 0 := by
    simpa [hm] using htext
  obtain ⟨r, hr, hmatch⟩ := List.any_eq_true.1 (delimiterAt_of_textLength ht hlength)
  have hmiss := List.findSome?_eq_none_iff.1 hrules r (m.delimiters_subset hr)
  rw [Option.map_eq_none_iff.1 hmiss] at hmatch
  cases hmatch

theorem hasText_of_isLine {m : Mode} (hm : m.isLine = true) : m.hasText = true := by
  cases m with
  | base | option => rfl
  | _ => cases hm

end Mode

namespace Lexer

variable {l : Lexer} {e : LexError}

/-- An error tells the mode and the line it happened in, and the mode has no running text. -/
theorem eq_of_next_error (hline : Tidied l.line) (h : l.next = .error e) :
    e.cause = .invalidSyntax l.mode l.line ∧ l.mode.hasText = false := by
  obtain ⟨hmore, hready, hread⟩ := ready_of_next_error h
  have hinside := hready.cursor_lt hline hmore
  obtain ⟨hfind, rfl⟩ := read_eq_error_iff.1 hread
  rw [hready.mode_eq, hready.line_eq] at *
  refine ⟨rfl, Bool.eq_false_iff.2 fun htext => ?_⟩
  refine Mode.find?_ne_none htext ?_ hfind
  rw [ne_eq, List.drop_eq_nil_iff]
  omega

theorem eq_of_reply_error {body : Text} {n : Nat} (h : (ofBody body).reply n = .error e) :
    e.cause = .invalidSyntax ((ofBody body).calls n).mode ((ofBody body).calls n).line ∧
      ((ofBody body).calls n).mode.hasText = false := by
  have hplaced := (accounts_ofBody body).placed.calls n
  have hline := tidied_of_mem_bodyLines (List.mem_of_getElem? hplaced.line_eq)
  exact eq_of_next_error hline (next_of_call_error h)

end Lexer

/-! Text without commands and inline expressions. -/

structure Unopened (t : Text) : Prop where
  command : ¬ "<<".toList <:+: t
  brace : ¬ "\x7b".toList <:+: t

theorem Unopened.bodyLines {body : Text} (h : Unopened body) : ∀ line ∈ bodyLines body, Unopened line := by
  intro line hline
  refine ⟨fun hword => h.command (infix_of_mem_bodyLines ?_ hline hword),
    fun hword => h.brace (infix_of_mem_bodyLines ?_ hline hword)⟩
  · intro c hc
    obtain rfl : c = '<' := by simpa using hc
    rfl
  · intro c hc
    obtain rfl : c = '\x7b' := by simpa using hc
    rfl

theorem prefix_of_matchSymbol? {symbol : String} {t : Text} {n : Nat}
    (h : matchSymbol? symbol t = some n) : symbol.toList <+: t := by
  unfold matchSymbol? at h
  split at h
  · rename_i hstarts
    obtain ⟨rest, hrest⟩ := Option.isSome_iff_exists.1 hstarts
    exact ⟨rest, (Text.eq_append_of_afterPrefix? hrest).symm⟩
  · cases h

/-- Only what opens a command or an inline expression leads out of a line. -/
theorem Mode.isLine_after {m : Mode} (hm : m.isLine = true) {kind : TokenKind}
    (hcommand : kind ≠ .beginCommand) (hbrace : kind ≠ .leftBrace) : (m.after kind).isLine = true := by
  cases m with
  | base | option => cases kind <;> first | rfl | contradiction
  | _ => cases hm

namespace Lexer

variable {l l' : Lexer} {token : Token}

theorem Step.symbol_infix (h : Step l token l') {symbol : String} (hwritten : token.kind.isWritten = true)
    (htext : token.kind ≠ .text) (hsymbol : ∀ t, token.kind.matchLength? t = matchSymbol? symbol t) :
    symbol.toList <:+: l.line := by
  cases h with
  | @reads m found _ hready hfind =>
    rcases Mode.find?_cases hfind with hmatch | ⟨hkind, -⟩
    · rw [← hready.line_eq]
      rw [show found.kind.matchLength? _ = _ from hsymbol _] at hmatch
      exact (prefix_of_matchSymbol? hmatch).isInfix.trans (List.drop_suffix _ _).isInfix
    · exact absurd hkind htext
  | _ => cases hwritten

theorem Step.isLine (h : Step l token l') (hline : Unopened l.line) (hm : l.mode.isLine = true) :
    l'.mode.isLine = true := by
  rw [h.mode_eq.2]
  apply Mode.isLine_after hm
  · intro hkind
    exact hline.command (h.symbol_infix (by rw [hkind]; rfl) (by simp [hkind]) (by intro t; rw [hkind]; rfl))
  · intro hkind
    exact hline.brace (h.symbol_infix (by rw [hkind]; rfl) (by simp [hkind]) (by intro t; rw [hkind]; rfl))

theorem isLine_calls {lines : List Text} (hlines : ∀ line ∈ lines, Unopened line) (hplaced : Placed lines l)
    (hm : l.mode.isLine = true) (n : Nat) : (l.calls n).mode.isLine = true := by
  induction n generalizing l with
  | zero => exact hm
  | succ n ih =>
    have hline := hlines _ (List.mem_of_getElem? hplaced.line_eq)
    refine ih (hplaced.calls 1) ?_
    cases hnext : l.next with
    | ok next =>
      obtain ⟨token, rest⟩ := next
      rw [call_of_next hnext]
      exact (step_of_next hnext).isLine hline hm
    | error e =>
      obtain ⟨-, hready, -⟩ := ready_of_next_error hnext
      rw [call_of_next_error hnext, hready.mode_eq]
      exact hm

end Lexer

/-- The mode that an error reports is none of those with running text. A text that opens neither a command
nor an inline expression has tokens, whatever else stands in it. -/
theorem text_never_fails (body : Text) :
    (∀ n mode line span, (Lexer.ofBody body).reply n = .error ⟨.invalidSyntax mode line, span⟩ →
      mode ≠ .base ∧ mode ≠ .option ∧ mode ≠ .command) ∧
    (¬ "<<".toList <:+: body → ¬ "\x7b".toList <:+: body → ∃ tokens, tokenize body = .ok tokens) := by
  constructor
  · intro n mode line span hreply
    obtain ⟨hcause, htext⟩ := Lexer.eq_of_reply_error hreply
    cases hcause
    refine ⟨?_, ?_, ?_⟩ <;> intro hmode <;> rw [hmode] at htext <;> cases htext
  · intro hcommand hbrace
    cases htokens : tokenize body with
    | ok tokens => exact ⟨tokens, rfl⟩
    | error e =>
      obtain ⟨n, hreply⟩ := Lexer.exists_reply_of_tokens_error htokens
      obtain ⟨-, htext⟩ := Lexer.eq_of_reply_error hreply
      have hline := Lexer.isLine_calls (Unopened.bodyLines ⟨hcommand, hbrace⟩)
        (Lexer.accounts_ofBody body).placed rfl n
      rw [Mode.hasText_of_isLine hline] at htext
      cases htext

/-- Half of an opening mark, closing marks, and a backslash at the very end. -/
def stray : Text :=
  "-> < \x7d #(\r\n  \\- >> $x = @ \\".toList

theorem text_never_fails_stray :
    (∃ tokens, tokenize stray = .ok tokens) ∧
    (Lexer.ofBody "<< \x7b@".toList).reply 2 =
      .error ⟨.invalidSyntax .inlineInCommand "<< \x7b@".toList, ⟨1, 5, 6⟩⟩ ∧
    Mode.inlineInCommand ≠ .base ∧ Mode.inlineInCommand ≠ .option ∧ Mode.inlineInCommand ≠ .command := by
  have herror : (Lexer.ofBody "<< \x7b@".toList).reply 2 =
      .error ⟨.invalidSyntax .inlineInCommand "<< \x7b@".toList, ⟨1, 5, 6⟩⟩ := by decide +kernel
  exact ⟨(text_never_fails stray).2 (by decide) (by decide), herror, (text_never_fails _).1 _ _ _ _ herror⟩

end Parley.Body
