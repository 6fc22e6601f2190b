import Parley.Proofs.Spans
set_option autoImplicit false

/-!
A lexer that is called again and again.

Every token but the end of the input brings the lexer nearer to its end, so that some call comes to the
end of the input or to an error, and every call behind it gets the same answer. A call that fails does
change the lexer, but nothing that a later call depends on.
-/

namespace Parley.Body

/-! The beginnings of spans. -/

def Span.BeginsBy (s t : Span) : Prop :=
  s.line < t.line ∨ s.line = t.line ∧ s.column ≤ t.column

theorem Span.beginsBy_refl (s : Span) : s.BeginsBy s :=
  .inr ⟨rfl, Nat.le_refl _⟩

theorem Span.BeginsBy.trans {s t u : Span} (h : s.BeginsBy t) (h' : t.BeginsBy u) : s.BeginsBy u := by
  unfold BeginsBy at *
  omega

/-! Lines as the lexer sees them. -/

def Tidied (line : Text) : Prop :=
  line ≠ [] → Text.indentWidth line < line.length

theorem tidied_of_mem_bodyLines {body line : Text} (h : line ∈ bodyLines body) : Tidied line := by
  intro hne
  obtain ⟨n, hn⟩ := List.mem_iff_getElem?.1 h
  obtain ⟨raw, -, hraw, rfl⟩ := exists_of_getElem?_bodyLines hn hne
  have hpos := List.length_pos_iff.2 (trimStart_full hraw).ne_nil
  rw [indentWidth_normalizeLine hraw, normalizeLine_full hraw, written, List.length_append,
    List.length_replicate]
  omega

namespace Lexer

variable {l l' m : Lexer} {token : Token} {tokens : List Token} {e : LexError}

def calls : Nat → Lexer → Lexer
  | 0, l => l
  | n + 1, l => calls n l.call.2

def reply (n : Nat) (l : Lexer) : Except LexError Token :=
  (l.calls n).call.1

theorem calls_add (n k : Nat) (l : Lexer) : l.calls (n + k) = (l.calls n).calls k := by
  induction n generalizing l with
  | zero => rw [Nat.zero_add, calls]
  | succ n ih =>
    rw [Nat.succ_add, calls, ih]
    rfl

theorem call_of_next (h : l.next = .ok (token, l')) : l.call = (.ok token, l') := by
  simp only [call, h]

theorem call_of_next_error (h : l.next = .error e) : l.call = (.error e, l.poised) := by
  simp only [call, h]

theorem next_of_call (h : l.call.1 = .ok token) : l.next = .ok (token, l.call.2) := by
  cases hnext : l.next with
  | error e =>
    rw [call_of_next_error hnext] at h
    cases h
  | ok next =>
    obtain ⟨first, rest⟩ := next
    rw [call_of_next hnext] at h ⊢
    cases h
    rfl

theorem next_of_call_error (h : l.call.1 = .error e) : l.next = .error e := by
  cases hnext : l.next with
  | error e' =>
    rw [call_of_next_error hnext] at h
    cases h
    rfl
  | ok next =>
    rw [call_of_next hnext] at h
    cases h

theorem reply_succ (h : l.next = .ok (token, l')) (n : Nat) : l.reply (n + 1) = l'.reply n := by
  rw [reply, calls, call_of_next h]
  rfl

/-! Calls that fail. -/

/-- A call fails only where a written token was to be read, and has passed the blanks in front of it. -/
theorem ready_of_next_error (h : l.next = .error e) :
    l.cursor < l.line.length ∧ Ready l l.poised ∧ l.poised.read = .error e := by
  have hmore : l.cursor < l.line.length := by
    apply Nat.lt_of_not_le
    intro hend
    cases hbelow : l.below <;> simp [next, hend, hbelow] at h
  refine ⟨hmore, ?_⟩
  rw [next_of_ready hmore] at h
  unfold poised
  split at h
  · rename_i hcursor
    rw [if_pos hcursor]
    rcases indentation_cases l with ⟨-, -, hindent⟩ | ⟨hflat, hindent⟩
    · rw [hindent] at h
      cases h
    · cases hclose : closeWider (Text.indentWidth l.line) l.levels with
      | block levels =>
        rw [hindent, hclose] at h
        cases h
      | settled levels =>
        rw [hindent, hclose] at h ⊢
        exact ⟨.start hcursor hflat hclose, h⟩
  · rename_i hcursor
    rw [if_neg hcursor]
    exact ⟨.within hcursor, h⟩

theorem closeWider_settled {width : Nat} {levels rest : List Level}
    (h : closeWider width levels = .settled rest) : closeWider width rest = .settled rest := by
  induction levels with
  | nil =>
    cases h
    rfl
  | cons v vs ih =>
    simp only [closeWider] at h
    split at h
    · split at h
      · cases h
      · exact ih h
    · rename_i hwidth
      cases h
      simp only [closeWider, if_neg hwidth]

/-- In front of a written token a call reads it, also if the token stands at the start of its line. -/
theorem next_of_readied (hready : Ready l m) (hmore : m.cursor < m.line.length) : m.next = m.read := by
  rw [next_of_ready hmore]
  split
  · rename_i hzero
    cases hready with
    | within hcursor => exact absurd hzero hcursor
    | start hcursor hflat hclose =>
      rename_i levels
      have hcases := indentation_cases { l with
        levels := levels, tracking := false, cursor := Text.indentWidth l.line }
      rcases hcases with ⟨htracking, -⟩ | ⟨-, hindent⟩
      · cases htracking
      · rw [hindent, closeWider_settled hclose]
  · rfl

theorem Ready.cursor_lt (hready : Ready l m) (hline : Tidied l.line) (hmore : l.cursor < l.line.length) :
    m.cursor < m.line.length := by
  rw [hready.line_eq]
  cases hready with
  | within => exact hmore
  | start => exact hline (List.length_pos_iff.1 (by omega))

theorem next_poised (hline : Tidied l.line) (h : l.next = .error e) : l.poised.next = .error e := by
  obtain ⟨hmore, hready, hread⟩ := ready_of_next_error h
  rw [next_of_readied hready (hready.cursor_lt hline hmore), hread]

theorem calls_of_next_error (hline : Tidied l.line) (h : l.next = .error e) (k : Nat) :
    (l.calls k).next = .error e ∧ (l.calls k).mode = l.mode := by
  induction k generalizing l with
  | zero => exact ⟨h, rfl⟩
  | succ k ih =>
    obtain ⟨-, hready, -⟩ := ready_of_next_error h
    rw [calls, call_of_next_error h]
    rw [← hready.line_eq] at hline
    rw [← hready.mode_eq]
    exact ih hline (next_poised (hready.line_eq ▸ hline) h)

/-! The end of the input. -/

theorem next_of_inputEnd (h : l.next = .ok (token, l')) (hkind : token.kind = .endOfInput) :
    l'.next = .ok (token, l') := by
  cases step_of_next h with
  | inputEnd hend hbelow => simp [next, hend, hbelow, atEnd, closeOne, unwritten, spanOf]
  | reads _ _ hfind => exact absurd hkind (TokenKind.ne_of_isWritten (Mode.find?_isWritten hfind) rfl)
  | _ => cases hkind

theorem calls_of_inputEnd (h : l.next = .ok (token, l)) (k : Nat) : l.calls k = l := by
  induction k with
  | zero => rfl
  | succ k ih => rw [calls, call_of_next h, ih]

theorem exists_last_reply (l : Lexer) : ∃ n ≤ l.weight, (∃ e, l.reply n = .error e) ∨
    ∃ token, l.reply n = .ok token ∧ token.kind = .endOfInput := by
  induction hweight : l.weight using Nat.strongRecOn generalizing l with
  | ind weight ih =>
    subst hweight
    cases hnext : l.next with
    | error e => exact ⟨0, Nat.zero_le _, .inl ⟨e, by rw [reply, calls, call_of_next_error hnext]⟩⟩
    | ok next =>
      obtain ⟨token, rest⟩ := next
      by_cases hkind : token.kind = .endOfInput
      · exact ⟨0, Nat.zero_le _, .inr ⟨token, by rw [reply, calls, call_of_next hnext], hkind⟩⟩
      · have hless := weight_next hnext hkind
        obtain ⟨n, hn, hreply⟩ := ih rest.weight hless rest rfl
        refine ⟨n + 1, by omega, ?_⟩
        rw [reply_succ hnext]
        exact hreply

/-! Tokens, lines and places. -/

theorem reply_of_tokens (h : l.tokens = .ok tokens) {i : Nat} (hi : tokens[i]? = some token) :
    l.reply i = .ok token := by
  fun_induction Lexer.tokens l generalizing tokens i with
  | case1 l e hnext => cases h
  | case2 l first rest hnext hkind =>
    cases h
    cases i with
    | zero =>
      cases hi
      rw [reply, calls, call_of_next hnext]
    | succ i => simp at hi
  | case3 l first rest hnext hkind ih =>
    cases hrest : rest.tokens with
    | error e => simp [hrest, Except.map] at h
    | ok others =>
      simp only [hrest, Except.map, Except.ok.injEq] at h
      subst h
      cases i with
      | zero =>
        cases hi
        rw [reply, calls, call_of_next hnext]
      | succ i =>
        rw [reply_succ hnext]
        exact ih hrest (by simpa using hi)

theorem exists_reply_of_tokens_error (h : l.tokens = .error e) : ∃ n, l.reply n = .error e := by
  fun_induction Lexer.tokens l with
  | case1 l e' hnext =>
    cases h
    exact ⟨0, by rw [reply, calls, call_of_next_error hnext]⟩
  | case2 => cases h
  | case3 l first rest hnext hkind ih =>
    cases hrest : rest.tokens with
    | ok others => simp [hrest, Except.map] at h
    | error e' =>
      simp only [hrest, Except.map, Except.error.injEq] at h
      subst h
      obtain ⟨n, hn⟩ := ih hrest
      exact ⟨n + 1, by rw [reply_succ hnext, hn]⟩

theorem Placed.calls {lines : List Text} (h : Placed lines l) (n : Nat) : Placed lines (l.calls n) := by
  induction n generalizing l with
  | zero => exact h
  | succ n ih =>
    apply ih
    cases hnext : l.next with
    | ok next =>
      obtain ⟨token, rest⟩ := next
      rw [call_of_next hnext]
      exact h.step (step_of_next hnext)
    | error e =>
      obtain ⟨-, hready, -⟩ := ready_of_next_error hnext
      rw [call_of_next_error hnext]
      obtain ⟨above, hlines, hnumber⟩ := h
      exact ⟨above, by rw [hready.line_eq, hready.below_eq, hlines], by rw [hready.number_eq, hnumber]⟩

theorem Step.number_eq (h : Step l token l') :
    l'.number = l.number + if token.kind = .endOfLine then 1 else 0 := by
  cases h with
  | @reads m found _ hready hfind =>
    have hkind : found.kind ≠ .endOfLine := TokenKind.ne_of_isWritten (Mode.find?_isWritten hfind) rfl
    rw [accept_snd, accept_kind, if_neg hkind]
    exact hready.number_eq
  | _ => rfl

theorem Path.number_eq (h : Path l tokens l') :
    l'.number = l.number + tokens.countP (·.kind = .endOfLine) := by
  induction h with
  | nil => rfl
  | cons head _ ih =>
    rw [ih, head.number_eq, List.countP_cons]
    simp only [decide_eq_true_eq]
    omega

theorem Step.line_eq (h : Step l token l') : token.span.line = l.number := by
  cases h with
  | reads _ hready => exact hready.number_eq
  | _ => rfl

/-- Where a lexer stands. -/
def place (l : Lexer) : Span :=
  l.spanOf l.cursor l.cursor

theorem Ready.place_beginsBy (h : Ready l m) : l.place.BeginsBy m.place := by
  cases h with
  | within => exact l.place.beginsBy_refl
  | start hcursor =>
    refine .inr ⟨rfl, ?_⟩
    simp [place, spanOf, hcursor]

theorem Step.beginsBy (h : Step l token l') :
    l.place.BeginsBy token.span ∧ token.span.BeginsBy l'.place := by
  cases h with
  | lineEnd => exact ⟨l.place.beginsBy_refl, .inl (Nat.lt_succ_self _)⟩
  | @reads m found _ hready _ =>
    refine ⟨hready.place_beginsBy, .inr ?_⟩
    rw [accept_snd]
    refine ⟨rfl, ?_⟩
    simp only [accept_span, place, spanOf]
    omega
  | _ => exact ⟨l.place.beginsBy_refl, l.place.beginsBy_refl⟩

theorem Path.beginsBy (h : Path l tokens l') : ∀ t ∈ tokens, l.place.BeginsBy t.span := by
  induction h with
  | nil => simp
  | cons head _ ih =>
    rw [List.forall_mem_cons]
    refine ⟨head.beginsBy.1, fun t ht => ?_⟩
    exact (head.beginsBy.1.trans head.beginsBy.2).trans (ih t ht)

theorem Path.number_le (h : Path l tokens l') : ∀ t ∈ tokens, l.number ≤ t.span.line := by
  intro t ht
  rcases h.beginsBy t ht with hbefore | ⟨hsame, -⟩
  · exact Nat.le_of_lt hbefore
  · exact Nat.le_of_eq hsame

theorem Path.ordered (h : Path l tokens l') : tokens.Pairwise fun t u => t.span.BeginsBy u.span := by
  induction h with
  | nil => exact .nil
  | cons head tail ih => exact .cons (fun t ht => head.beginsBy.2.trans (tail.beginsBy t ht)) ih

end Lexer

/-- How the tokens of some lines look as a whole: the end of the input comes last and only there, there
is a line end between any two lines, and no token begins before one in front of it. -/
structure Outlined (lines : List Text) (tokens : List Token) : Prop where
  ended : ∃ front last, tokens = front ++ [last] ∧ last.kind = .endOfInput ∧
    ∀ t ∈ front, t.kind ≠ .endOfInput
  lineEnds : tokens.countP (·.kind = .endOfLine) + 1 = lines.length
  ordered : tokens.Pairwise fun t u => t.span.BeginsBy u.span

theorem outlined_of_tokens {body : Text} {tokens : List Token} (h : tokenize body = .ok tokens) :
    Outlined (bodyLines body) tokens := by
  obtain ⟨front, last, l, rfl, hpath, hlast, hfront⟩ := Lexer.path_of_tokens h
  refine ⟨⟨front, last, rfl, hlast, hfront⟩, ?_, hpath.ordered⟩
  have hplaced := (Lexer.accounts_ofBody body).placed.path hpath
  have hnumber : l.number = 1 + _ := hpath.number_eq
  obtain ⟨m, -, hend⟩ := hpath.split
  cases hend with
  | cons head tail =>
    cases tail
    have hlines := (hplaced.getLast? (head.atEnd_of_endOfInput hlast).2).2
    omega

/-- Some call comes to the end of the input or to an error. The tokens of a body are the answers up to
the end of the input, and they have their outline. At the end of the input every further call gets the
same token, and behind an error the same error, in the same mode. -/
theorem tokenize_outlines (body : Text) :
    (∃ n ≤ (Lexer.ofBody body).weight, (∃ e, (Lexer.ofBody body).reply n = .error e) ∨
      ∃ token, (Lexer.ofBody body).reply n = .ok token ∧ token.kind = .endOfInput) ∧
    (∀ tokens, tokenize body = .ok tokens → Outlined (bodyLines body) tokens ∧
      ∀ i token, tokens[i]? = some token → (Lexer.ofBody body).reply i = .ok token) ∧
    (∀ e, tokenize body = .error e → ∃ n, (Lexer.ofBody body).reply n = .error e) ∧
    (∀ n token, (Lexer.ofBody body).reply n = .ok token → token.kind = .endOfInput →
      ∀ k, (Lexer.ofBody body).reply (n + k) = .ok token) ∧
    ∀ n e, (Lexer.ofBody body).reply n = .error e →
      ∀ k, (Lexer.ofBody body).reply (n + k) = .error e ∧
        ((Lexer.ofBody body).calls (n + k)).mode = ((Lexer.ofBody body).calls n).mode := by
  refine ⟨Lexer.exists_last_reply _, ?_, fun e => Lexer.exists_reply_of_tokens_error, ?_, ?_⟩
  · intro tokens htokens
    exact ⟨outlined_of_tokens htokens, fun i token => Lexer.reply_of_tokens htokens⟩
  · intro n token hreply hkind k
    have hlast := Lexer.next_of_call hreply
    have hagain := Lexer.next_of_inputEnd hlast hkind
    cases k with
    | zero => exact hreply
    | succ k =>
      rw [Lexer.reply, Lexer.calls_add, Lexer.calls, Lexer.calls_of_inputEnd hagain,
        Lexer.call_of_next hagain]
  · intro n e hreply k
    have hplaced := (Lexer.accounts_ofBody body).placed.calls n
    have hline : Tidied ((Lexer.ofBody body).calls n).line :=
      tidied_of_mem_bodyLines (List.mem_of_getElem? hplaced.line_eq)
    obtain ⟨hnext, hmode⟩ := Lexer.calls_of_next_error hline (Lexer.next_of_call_error hreply) k
    rw [Lexer.reply, Lexer.calls_add, Lexer.call_of_next_error hnext]
    exact ⟨rfl, hmode⟩

/-- The second line breaks off the command of the first one. -/
def brokenOff : Text :=
  "<<set $x =\n  @".toList

theorem tokenize_outlines_brokenOff :
    (∃ tokens, tokenize "-> Ask\n  Why?".toList = .ok tokens ∧
      Outlined (bodyLines "-> Ask\n  Why?".toList) tokens ∧
      ∀ k, (Lexer.ofBody "-> Ask\n  Why?".toList).reply (6 + k) = .ok ⟨.endOfInput, [], ⟨2, 7, 7⟩⟩) ∧
    (Lexer.ofBody brokenOff).calls 6 ≠ (Lexer.ofBody brokenOff).calls 5 ∧
    ∀ k, (Lexer.ofBody brokenOff).reply (5 + k) =
        .error ⟨.invalidSyntax .expression "  @".toList, ⟨2, 3, 4⟩⟩ ∧
      ((Lexer.ofBody brokenOff).calls (5 + k)).mode = .expression := by
  obtain ⟨-, htokens, -, hended, -⟩ := tokenize_outlines "-> Ask\n  Why?".toList
  obtain ⟨-, -, -, -, hfailed⟩ := tokenize_outlines brokenOff
  have hok : (tokenize "-> Ask\n  Why?".toList).isOk = true := by decide +kernel
  have hend : (Lexer.ofBody "-> Ask\n  Why?".toList).reply 6 = .ok ⟨.endOfInput, [], ⟨2, 7, 7⟩⟩ := by
    decide +kernel
  have herror : (Lexer.ofBody brokenOff).reply 5 =
      .error ⟨.invalidSyntax .expression "  @".toList, ⟨2, 3, 4⟩⟩ := by decide +kernel
  refine ⟨?_, by decide +kernel, fun k => ?_⟩
  · cases h : tokenize "-> Ask\n  Why?".toList with
    | error e =>
      rw [h] at hok
      cases hok
    | ok tokens => exact ⟨tokens, rfl, (htokens tokens h).1, hended 6 _ hend rfl⟩
  · have hmode : ((Lexer.ofBody brokenOff).calls 5).mode = .expression := by decide +kernel
    rw [← hmode]
    exact hfailed 5 _ herror k

end Parley.Body
