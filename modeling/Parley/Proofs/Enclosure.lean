import Parley.Proofs.LexerCalls
import Parley.Proofs.Modes
set_option autoImplicit false

/-!
Commands and inline expressions, and the lines they stand on.

Between the two tokens that enclose something the lexer is in modes of its own, so that lines end outside
of commands and expressions exactly if everything that is opened on a line is closed on it. The lexer reads
on behind the end of a line in any mode, and only the grammar refuses what it finds there.
-/

namespace Parley.Body

/-! Tokens that enclose something. -/

def Mode.kinds (m : Mode) : List TokenKind :=
  [.endOfLine, .endOfInput, .indent, .dedent, .text] ++ m.rules.map Rule.kind

theorem Mode.mem_kinds_of_admits {m : Mode} {kind : TokenKind} (h : m.admits kind = true) :
    kind ∈ m.kinds := by
  rw [admits, Bool.or_eq_true] at h
  rw [kinds, List.mem_append]
  rcases h with h | h
  · left
    cases kind <;> first | decide | cases h
  · split at h
    · rename_i htext
      left
      rw [htext]
      decide
    · right
      obtain ⟨r, hr, hkind⟩ := List.any_eq_true.1 h
      exact List.mem_map.2 ⟨r, hr, of_decide_eq_true hkind⟩

theorem Mode.isLine_iff_eq {m : Mode} : m.isLine = true ↔ m = .base ∨ m = .option := by
  cases m <;> decide

theorem Mode.after_lineEnd_iff {m : Mode} : m.after .endOfLine = .base ↔ m.isLine = true := by
  cases m <;> decide

structure Bracket where
  opening : TokenKind
  closing : TokenKind
  within : Mode → Bool
  opening_written : opening.isWritten = true
  closing_written : closing.isWritten = true
  within_after : ∀ m : Mode, ∀ kind ∈ m.kinds,
    (within (m.after kind) = true ↔ kind = opening ∨ within m = true ∧ kind ≠ closing)
  /-- What is enclosed is not opened again. -/
  not_nested : ∀ m : Mode, within m = true → opening ∉ m.kinds

namespace Bracket

def command : Bracket where
  opening := .beginCommand
  closing := .endCommand
  within m := m.isCommand || m = .assignment || m = .inlineInCommand
  opening_written := rfl
  closing_written := rfl
  within_after := by
    intro m
    cases m <;> decide
  not_nested := by
    intro m
    cases m <;> decide

def brace : Bracket where
  opening := .leftBrace
  closing := .rightBrace
  within m := m = .inline || m = .inlineInCommand || m = .inlineInOption
  opening_written := rfl
  closing_written := rfl
  within_after := by
    intro m
    cases m <;> decide
  not_nested := by
    intro m
    cases m <;> decide

theorem isLine_iff (m : Mode) :
    m.isLine = true ↔ command.within m = false ∧ brace.within m = false := by
  cases m <;> decide

def Settled (b : Bracket) : Mode → List Lexeme → Prop
  | _, [] => True
  | m, x :: xs =>
    (x.1 = .endOfLine ∨ x.1 = .endOfInput → b.within m = false) ∧ b.Settled (m.after x.1) xs

theorem tidy_iff_settled (m : Mode) (xs : List Lexeme) :
    Tidy m xs ↔ command.Settled m xs ∧ brace.Settled m xs := by
  induction xs generalizing m with
  | nil => simp [Tidy, Settled]
  | cons x xs ih =>
    simp only [Tidy, Settled, ih, isLine_iff, imp_and]
    exact and_and_and_comm

end Bracket

/-! Tokens on their lines. -/

/-- The next token of a closing kind stands on a line, and no token of the opening kind in front of it. -/
def ClosesOn (opening closing : TokenKind) (line : Nat) (tokens : List Token) : Prop :=
  ∃ inner last rest, tokens = inner ++ last :: rest ∧ last.kind = closing ∧ last.span.line = line ∧
    ∀ t ∈ inner, t.kind ≠ opening ∧ t.kind ≠ closing

/-- Every token of an opening kind is closed on its own line. -/
def ClosedOnLine (opening closing : TokenKind) (tokens : List Token) : Prop :=
  ∀ front first back, tokens = front ++ first :: back → first.kind = opening →
    ClosesOn opening closing first.span.line back

section OnLine

variable {opening closing : TokenKind} {line : Nat} {token : Token} {tokens : List Token}

@[simp] theorem not_closesOn_nil : ¬ ClosesOn opening closing line [] := by
  rintro ⟨inner, last, rest, h, -⟩
  simp at h

theorem closesOn_cons : ClosesOn opening closing line (token :: tokens) ↔
    token.kind = closing ∧ token.span.line = line ∨
      (token.kind ≠ opening ∧ token.kind ≠ closing) ∧ ClosesOn opening closing line tokens := by
  constructor
  · rintro ⟨inner, last, rest, h, hlast, hline, hinner⟩
    cases inner with
    | nil =>
      obtain ⟨rfl, rfl⟩ := List.cons.inj h
      exact .inl ⟨hlast, hline⟩
    | cons first inner =>
      obtain ⟨rfl, rfl⟩ := List.cons.inj h
      obtain ⟨hfirst, hinner⟩ := List.forall_mem_cons.1 hinner
      exact .inr ⟨hfirst, inner, last, rest, rfl, hlast, hline, hinner⟩
  · rintro (⟨hkind, hline⟩ | ⟨hkind, inner, last, rest, rfl, hlast, hline, hinner⟩)
    · exact ⟨[], token, tokens, rfl, hkind, hline, by simp⟩
    · exact ⟨token :: inner, last, rest, rfl, hlast, hline, List.forall_mem_cons.2 ⟨hkind, hinner⟩⟩

@[simp] theorem closedOnLine_nil : ClosedOnLine opening closing [] := by
  intro front first back h
  simp at h

theorem closedOnLine_cons : ClosedOnLine opening closing (token :: tokens) ↔
    (token.kind = opening → ClosesOn opening closing token.span.line tokens) ∧
      ClosedOnLine opening closing tokens := by
  constructor
  · intro h
    refine ⟨h [] token tokens rfl, fun front first back heq => ?_⟩
    exact h (token :: front) first back (by rw [heq, List.cons_append])
  · rintro ⟨hhead, htail⟩ front first back h
    cases front with
    | nil =>
      obtain ⟨rfl, rfl⟩ := List.cons.inj h
      exact hhead
    | cons t front =>
      obtain ⟨-, rfl⟩ := List.cons.inj h
      exact htail front first back rfl

theorem ClosesOn.exists_line (h : ClosesOn opening closing line tokens) :
    ∃ t ∈ tokens, t.span.line = line := by
  obtain ⟨inner, last, rest, rfl, -, hline, -⟩ := h
  exact ⟨last, by simp, hline⟩

end OnLine

namespace Lexer

variable {l l' m : Lexer} {token : Token} {tokens : List Token}

inductive Finishes : Lexer → List Token → Prop where
  | last {l l' : Lexer} {token : Token} (head : Step l token l') (hkind : token.kind = .endOfInput) :
      Finishes l [token]
  | cons {l m : Lexer} {token : Token} {tokens : List Token} (head : Step l token m)
      (hkind : token.kind ≠ .endOfInput) (tail : Finishes m tokens) : Finishes l (token :: tokens)

theorem finishes_of_tokens (h : l.tokens = .ok tokens) : Finishes l tokens := by
  fun_induction Lexer.tokens l generalizing tokens with
  | case1 l e hnext => cases h
  | case2 l token rest hnext hkind =>
    cases h
    exact .last (step_of_next hnext) hkind
  | case3 l token rest hnext hkind ih =>
    cases hrest : rest.tokens with
    | error e => simp [hrest, Except.map] at h
    | ok others =>
      simp only [hrest, Except.map, Except.ok.injEq] at h
      subst h
      exact .cons (step_of_next hnext) hkind (ih hrest)

theorem Finishes.path (h : Finishes l tokens) : ∃ l', Path l tokens l' := by
  induction h with
  | last head => exact ⟨_, .cons head .nil⟩
  | cons head _ _ ih =>
    obtain ⟨l', hpath⟩ := ih
    exact ⟨l', .cons head hpath⟩

theorem Finishes.not_closesOn (h : Finishes l tokens) {opening closing : TokenKind} {line : Nat}
    (hline : line < l.number) : ¬ ClosesOn opening closing line tokens := by
  intro hcloses
  obtain ⟨t, ht, hon⟩ := hcloses.exists_line
  obtain ⟨l', hpath⟩ := h.path
  have hle := hpath.number_le t ht
  omega

end Lexer

namespace Bracket

variable (b : Bracket)

theorem ne_of_unwritten {kind : TokenKind} (h : kind.isWritten = false) :
    kind ≠ b.opening ∧ kind ≠ b.closing :=
  ⟨(TokenKind.ne_of_isWritten b.opening_written h).symm,
    (TokenKind.ne_of_isWritten b.closing_written h).symm⟩

/-- Lines and the input end outside of what is enclosed exactly if all that is opened on a line is closed
on it, and what is open already is closed on the current line. -/
theorem settled_iff {l : Lexer} {tokens : List Token} (h : l.Finishes tokens) :
    b.Settled l.mode (tokens.map Token.lexeme) ↔
      (b.within l.mode = true → ClosesOn b.opening b.closing l.number tokens) ∧
        ClosedOnLine b.opening b.closing tokens := by
  induction h with
  | @last l l' token head hkind =>
    obtain ⟨hopening, hclosing⟩ : token.kind ≠ b.opening ∧ token.kind ≠ b.closing := by
      rw [hkind]
      exact b.ne_of_unwritten rfl
    have hnot : ¬ ClosesOn b.opening b.closing l.number [token] := by
      rw [closesOn_cons]
      rintro (⟨h, -⟩ | ⟨-, h⟩)
      · exact hclosing h
      · exact not_closesOn_nil h
    have hclosed : ClosedOnLine b.opening b.closing [token] :=
      closedOnLine_cons.2 ⟨fun h => absurd h hopening, closedOnLine_nil⟩
    simp [Settled, Token.lexeme, hkind, hnot, hclosed]
  | @cons l m token tokens head hkind tail ih =>
    obtain ⟨hadmits, hmode⟩ := head.mode_eq
    have hkinds := Mode.mem_kinds_of_admits hadmits
    have hafter := b.within_after l.mode token.kind hkinds
    have hnumber := head.number_eq
    rw [← hmode] at hafter
    rw [List.map_cons, Settled, closedOnLine_cons, closesOn_cons, head.line_eq,
      show l.mode.after token.lexeme.1 = m.mode from hmode.symm, ih]
    by_cases hbreak : token.kind = .endOfLine
    · obtain ⟨hopening, hclosing⟩ : .endOfLine ≠ b.opening ∧ .endOfLine ≠ b.closing :=
        b.ne_of_unwritten rfl
      have hbelow : ¬ ClosesOn b.opening b.closing l.number tokens :=
        tail.not_closesOn (by rw [hnumber, if_pos hbreak]; exact Nat.lt_succ_self _)
      have hsame : b.within m.mode = b.within l.mode := by
        rw [Bool.eq_iff_iff, hafter]
        simp [hbreak, hopening, hclosing]
      cases hwithin : b.within l.mode <;>
        simp [Token.lexeme, hbreak, hopening, hclosing, hbelow, hsame, hwithin]
    · rw [hnumber, if_neg hbreak, Nat.add_zero]
      constructor
      · rintro ⟨-, hin, hclosed⟩
        refine ⟨fun hwithin => ?_, fun h => hin (hafter.2 (.inl h)), hclosed⟩
        by_cases hclosing : token.kind = b.closing
        · exact .inl ⟨hclosing, rfl⟩
        · refine .inr ⟨⟨fun h => ?_, hclosing⟩, hin (hafter.2 (.inr ⟨hwithin, hclosing⟩))⟩
          exact b.not_nested l.mode hwithin (h ▸ hkinds)
      · rintro ⟨hin, hopened, hclosed⟩
        refine ⟨?_, fun hwithin => ?_, hclosed⟩
        · rintro (h | h)
          · exact absurd h hbreak
          · exact absurd h hkind
        · rcases hafter.1 hwithin with h | ⟨h, hclosing⟩
          · exact hopened h
          · exact ((hin h).resolve_left fun h => hclosing h.1).2

end Bracket

namespace Lexer

variable {l m : Lexer} {token : Token} {tokens : List Token}

/-- Behind the end of a line the lexer is ready for a new line, and at the end of the input it is between
commands. -/
def LeavesLines (l : Lexer) : Prop :=
  ∀ n token, l.reply n = .ok token →
    (token.kind = .endOfLine → (l.calls (n + 1)).mode = .base) ∧
    (token.kind = .endOfInput → (l.calls (n + 1)).mode = .base ∨ (l.calls (n + 1)).mode = .option)

theorem leavesLines_of_next (hnext : l.next = .ok (token, m)) (hkind : token.kind ≠ .endOfInput) :
    l.LeavesLines ↔ (token.kind = .endOfLine → m.mode = .base) ∧ m.LeavesLines := by
  have hcalls : ∀ n, l.calls (n + 1) = m.calls n := fun n => by rw [calls, call_of_next hnext]
  have hfirst : l.reply 0 = .ok token := by rw [reply, calls, call_of_next hnext]
  constructor
  · intro h
    refine ⟨fun hbreak => ?_, fun n t hreply => ?_⟩
    · have hmode := (h 0 token hfirst).1 hbreak
      rwa [hcalls] at hmode
    · rw [← reply_succ hnext] at hreply
      have hmode := h (n + 1) t hreply
      rwa [hcalls] at hmode
  · rintro ⟨hmode, h⟩ n t hreply
    rw [hcalls]
    cases n with
    | zero =>
      rw [hfirst] at hreply
      cases hreply
      exact ⟨hmode, fun hend => absurd hend hkind⟩
    | succ n =>
      rw [reply_succ hnext] at hreply
      exact h n t hreply

theorem leavesLines_of_inputEnd (hnext : l.next = .ok (token, m)) (hkind : token.kind = .endOfInput) :
    l.LeavesLines ↔ m.mode = .base ∨ m.mode = .option := by
  have hagain := next_of_inputEnd hnext hkind
  have hcalls : ∀ n, l.calls (n + 1) = m := fun n => by
    rw [calls, call_of_next hnext, calls_of_inputEnd hagain]
  have hreply : ∀ n, l.reply n = .ok token := by
    intro n
    cases n with
    | zero => rw [reply, calls, call_of_next hnext]
    | succ n => rw [reply, hcalls, call_of_next hagain]
  constructor
  · intro h
    have hmode := (h 0 token (hreply 0)).2 hkind
    rwa [hcalls] at hmode
  · intro hmode n t ht
    rw [hreply n] at ht
    cases ht
    rw [hcalls]
    refine ⟨fun hbreak => ?_, fun _ => hmode⟩
    rw [hkind] at hbreak
    cases hbreak

theorem leavesLines_iff (h : Finishes l tokens) :
    l.LeavesLines ↔ Tidy l.mode (tokens.map Token.lexeme) := by
  induction h with
  | @last l l' token head hkind =>
    have hmode : l'.mode = l.mode := by
      rw [head.mode_eq.2, hkind]
      exact Mode.after_unwritten _ rfl (by simp)
    rw [leavesLines_of_inputEnd (next_of_step head) hkind, hmode, ← Mode.isLine_iff_eq]
    simp [Tidy, Token.lexeme, hkind]
  | @cons l m token tokens head hkind _ ih =>
    rw [leavesLines_of_next (next_of_step head) hkind, ih, head.mode_eq.2]
    simp only [List.map_cons, Tidy, Token.lexeme, hkind, or_false]
    refine and_congr_left' (imp_congr_right fun hbreak => ?_)
    rw [hbreak]
    exact Mode.after_lineEnd_iff

end Lexer

/-- Lines end between commands exactly if all that is opened on a line is closed on it. -/
theorem leavesLines_iff_closedOnLine {body : Text} {tokens : List Token} (h : tokenize body = .ok tokens) :
    (Lexer.ofBody body).LeavesLines ↔
      ClosedOnLine .beginCommand .endCommand tokens ∧ ClosedOnLine .leftBrace .rightBrace tokens := by
  have hfinishes := Lexer.finishes_of_tokens h
  have hclosed : ∀ b : Bracket, b.within .base = false →
      (b.Settled .base (tokens.map Token.lexeme) ↔ ClosedOnLine b.opening b.closing tokens) := by
    intro b hb
    refine (b.settled_iff hfinishes).trans (and_iff_right fun hwithin => ?_)
    rw [show b.within (Lexer.ofBody body).mode = false from hb] at hwithin
    cases hwithin
  rw [Lexer.leavesLines_iff hfinishes]
  refine (Bracket.tidy_iff_settled _ _).trans (and_congr ?_ ?_)
  · exact hclosed .command rfl
  · exact hclosed .brace rfl

theorem leavesLines_of_parse {body : Text} {declared : Declarations} {ss : List Statement}
    (h : (parse body declared).1 = .ok ss) :
    (Lexer.ofBody body).LeavesLines ∧ ∃ tokens, tokenize body = .ok tokens := by
  have hsource : parseSource (Lexer.ofBody body) declared = (.ok ss, (parse body declared).2) :=
    Prod.ext h rfl
  obtain ⟨xs, ds, hspells, hderives, -⟩ := derives_of_parseSource hsource
  obtain ⟨tokens, htokens, hlexemes⟩ := hspells.tokens
  obtain ⟨-, -, l, -, hpath, -⟩ := Lexer.path_of_tokens htokens
  have hruns := hpath.runs
  rw [hlexemes] at hruns
  refine ⟨?_, tokens, htokens⟩
  rw [Lexer.leavesLines_iff (Lexer.finishes_of_tokens htokens), hlexemes]
  exact tidy_of_derives hderives hruns

/-- In a body that is parsed, the lexer is ready for a new line behind every line end, and between commands
at the end of the input. In any body that has tokens this is the same as that every command and every inline
expression is closed on the line on which it is opened. -/
theorem parse_closes_lines (body : Text) :
    (∀ declared ss, (parse body declared).1 = .ok ss → (Lexer.ofBody body).LeavesLines ∧
      ∃ tokens, tokenize body = .ok tokens ∧ ClosedOnLine .beginCommand .endCommand tokens ∧
        ClosedOnLine .leftBrace .rightBrace tokens) ∧
    ∀ tokens, tokenize body = .ok tokens → ((Lexer.ofBody body).LeavesLines ↔
      ClosedOnLine .beginCommand .endCommand tokens ∧ ClosedOnLine .leftBrace .rightBrace tokens) := by
  refine ⟨fun declared ss h => ?_, fun tokens => leavesLines_iff_closedOnLine⟩
  obtain ⟨hleaves, tokens, htokens⟩ := leavesLines_of_parse h
  exact ⟨hleaves, tokens, htokens, (leavesLines_iff_closedOnLine htokens).1 hleaves⟩

/-- The lexer reads on behind the first line as if the command went on. -/
def unfinished : Text :=
  "<<if $x\n>>".toList

theorem parse_closes_lines_unfinished :
    (Lexer.ofBody "-> Go \x7b$there\x7d\n  <<jump \x7b$there\x7d>>".toList).LeavesLines ∧
    ∃ tokens, tokenize unfinished = .ok tokens ∧
      ¬ (ClosedOnLine .beginCommand .endCommand tokens ∧ ClosedOnLine .leftBrace .rightBrace tokens) := by
  constructor
  · have hok : ((parse "-> Go \x7b$there\x7d\n  <<jump \x7b$there\x7d>>".toList .empty).1).isOk = true := by
      decide +kernel
    cases hparse : (parse "-> Go \x7b$there\x7d\n  <<jump \x7b$there\x7d>>".toList .empty).1 with
    | error e =>
      rw [hparse] at hok
      cases hok
    | ok ss => exact ((parse_closes_lines _).1 .empty ss hparse).1
  · have hok : (tokenize unfinished).isOk = true := by decide +kernel
    cases htokens : tokenize unfinished with
    | error e =>
      rw [htokens] at hok
      cases hok
    | ok tokens =>
      refine ⟨tokens, rfl, fun hclosed => ?_⟩
      have hleaves := ((parse_closes_lines unfinished).2 tokens htokens).2 hclosed
      have hreply : (Lexer.ofBody unfinished).reply 3 = .ok ⟨.endOfLine, [], ⟨1, 8, 8⟩⟩ := by decide +kernel
      have hmode : ((Lexer.ofBody unfinished).calls 4).mode ≠ .base := by decide +kernel
      exact hmode ((hleaves 3 _ hreply).1 rfl)

end Parley.Body
