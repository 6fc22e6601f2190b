import Parley.Proofs.Steps
import Parley.Proofs.Lines
set_option autoImplicit false

/-!
The tokens for blocks enclose true blocks.

They are brackets that match, and between a matching pair no line that holds something is less deep
than the line the block was opened on. The open levels of the lexer carry the proof: a block stays in
the list of open blocks, at its place, from the token that opens it to the one that closes it.
-/

namespace Parley.Body

def opened (tokens : List Token) : Nat :=
  tokens.countP (·.kind = .indent)

def closed (tokens : List Token) : Nat :=
  tokens.countP (·.kind = .dedent)

def Balanced (tokens : List Token) : Prop :=
  (∀ front, front <+: tokens → closed front ≤ opened front) ∧ closed tokens = opened tokens

instance (tokens : List Token) : Decidable (Balanced tokens) :=
  decidable_of_iff ((∀ n, n < tokens.length + 1 → closed (tokens.take n) ≤ opened (tokens.take n)) ∧
      closed tokens = opened tokens) (by
    refine and_congr_left fun _ => ⟨fun h front hfront => ?_, fun h n _ => h _ (List.take_prefix n tokens)⟩
    rw [List.prefix_iff_eq_take.1 hfront]
    exact h _ (Nat.lt_succ_of_le hfront.length_le))

@[simp] theorem opened_cons (token : Token) (tokens : List Token) :
    opened (token :: tokens) = opened tokens + if token.kind = .indent then 1 else 0 := by
  simp [opened, List.countP_cons]

@[simp] theorem closed_cons (token : Token) (tokens : List Token) :
    closed (token :: tokens) = closed tokens + if token.kind = .dedent then 1 else 0 := by
  simp [closed, List.countP_cons]

namespace Lexer

variable {l l' : Lexer} {token : Token} {tokens : List Token}

/-- Every token for a block opens or closes one. -/
theorem Step.length_blocks (h : Step l token l') :
    (blocks l'.levels).length + (if token.kind = .dedent then 1 else 0) =
      (blocks l.levels).length + if token.kind = .indent then 1 else 0 := by
  cases h with
  | lineEnd => rfl
  | closeAtEnd _ _ hclose =>
    obtain ⟨width, hinner⟩ := innermost_of_closeOne hclose
    simp [hinner.blocks_eq]
  | inputEnd _ _ hclose =>
    rw [blocks_of_closeOne_none hclose]
    rfl
  | opens => simp [blocks_cons]
  | closes _ _ _ hclose =>
    obtain ⟨deeper, hinner, _⟩ := innermost_of_closeWider hclose
    simp [hinner.blocks_eq]
  | @reads m found _ hready hfind =>
    have hwritten := Mode.find?_isWritten hfind
    rw [accept_kind, if_neg (TokenKind.ne_of_isWritten hwritten rfl),
      if_neg (TokenKind.ne_of_isWritten hwritten rfl), accept_snd, blocks_levelsWith,
      hready.blocks_eq]

theorem Path.length_blocks (h : Path l tokens l') :
    (blocks l'.levels).length + closed tokens = (blocks l.levels).length + opened tokens := by
  induction h with
  | nil => simp [closed, opened]
  | cons head tail ih =>
    have hstep := head.length_blocks
    rw [opened_cons, closed_cons]
    omega

theorem Step.blocks_of_endOfInput (h : Step l token l') (hkind : token.kind = .endOfInput) :
    blocks l'.levels = [] := by
  cases h with
  | lineEnd => simp at hkind
  | closeAtEnd => simp at hkind
  | inputEnd => rfl
  | opens => simp at hkind
  | closes => simp at hkind
  | reads _ _ hfind =>
    exact absurd hkind (TokenKind.ne_of_isWritten (Mode.find?_isWritten hfind) rfl)

theorem Step.opens_of_indent (h : Step l token l') (hkind : token.kind = .indent) :
    l.cursor = 0 ∧ l.line ≠ [] ∧ token = l.unwritten .indent ∧
      l' = { l with levels := ⟨Text.indentWidth l.line, true⟩ :: l.levels, tracking := false } := by
  cases h with
  | lineEnd => simp at hkind
  | closeAtEnd => simp at hkind
  | inputEnd => simp at hkind
  | opens hcursor hline => exact ⟨hcursor, hline, rfl, rfl⟩
  | closes => simp at hkind
  | reads _ _ hfind =>
    exact absurd hkind (TokenKind.ne_of_isWritten (Mode.find?_isWritten hfind) rfl)

theorem Step.closes_of_dedent (h : Step l token l') (hkind : token.kind = .dedent) :
    token = l.unwritten .dedent ∧
      (l.AtEnd ∨ l.cursor = 0 ∧ l.line ≠ [] ∧
        ∃ deeper, Innermost l.levels deeper l'.levels ∧ Text.indentWidth l.line < deeper) := by
  cases h with
  | lineEnd => simp at hkind
  | closeAtEnd hend hbelow => exact ⟨rfl, .inl ⟨hend, hbelow⟩⟩
  | inputEnd => simp at hkind
  | opens => simp at hkind
  | closes hcursor hline _ hclose =>
    exact ⟨rfl, .inr ⟨hcursor, hline, innermost_of_closeWider hclose⟩⟩
  | reads _ _ hfind =>
    exact absurd hkind (TokenKind.ne_of_isWritten (Mode.find?_isWritten hfind) rfl)

theorem length_blocks (levels : List Level) :
    (blocks levels).length = levels.countP (·.significant) := by
  rw [blocks, List.length_map, List.countP_eq_length_filter]

def Placed (lines : List Text) (l : Lexer) : Prop :=
  ∃ above, lines = above ++ l.line :: l.below ∧ l.number = above.length + 1

theorem Placed.line_eq {lines : List Text} (h : Placed lines l) :
    lines[l.number - 1]? = some l.line := by
  obtain ⟨above, rfl, hnumber⟩ := h
  simp [hnumber]

theorem placed_ofLines {lines : List Text} (h : lines ≠ []) : Placed lines (ofLines lines) := by
  cases lines with
  | nil => exact absurd rfl h
  | cons line below => exact ⟨[], rfl, rfl⟩

theorem Placed.getLast? {lines : List Text} (h : Placed lines l) (hbelow : l.below = []) :
    lines.getLast? = some l.line ∧ l.number = lines.length := by
  obtain ⟨above, rfl, hnumber⟩ := h
  simp [hbelow, hnumber]

theorem Placed.below_eq {lines : List Text} (h : Placed lines l) (hnumber : l.number = lines.length) :
    l.below = [] := by
  obtain ⟨above, rfl, habove⟩ := h
  simp only [List.length_append, List.length_cons] at hnumber
  exact List.eq_nil_of_length_eq_zero (by omega)

theorem Placed.step {lines : List Text} (hl : Placed lines l) (h : Step l token l') :
    Placed lines l' := by
  obtain ⟨above, hlines, hnumber⟩ := hl
  cases h with
  | lineEnd hend hbelow =>
    refine ⟨above ++ [l.line], ?_, ?_⟩
    · simp [hlines, hbelow, nextLine]
    · simp [hnumber, nextLine]
  | closeAtEnd => exact ⟨above, hlines, hnumber⟩
  | inputEnd => exact ⟨above, hlines, hnumber⟩
  | opens => exact ⟨above, hlines, hnumber⟩
  | closes => exact ⟨above, hlines, hnumber⟩
  | @reads m found _ hready _ =>
    rw [accept_snd]
    exact ⟨above, by rw [hready.line_eq, hready.below_eq, hlines], by rw [hready.number_eq, hnumber]⟩

theorem Placed.path {lines : List Text} (hl : Placed lines l) (h : Path l tokens l') :
    Placed lines l' := by
  induction h with
  | nil => exact hl
  | cons head tail ih => exact ih (hl.step head)

/-- Within a block: it is still open, and no line since its first one that holds something and that
was looked at is less deep. -/
structure Inside (lines : List Text) (first width : Nat) (base : List Nat) (l : Lexer) : Prop where
  blocks_eq : ∃ top, blocks l.levels = top ++ width :: base
  above : ∀ n line, lines[n]? = some line → first ≤ n + 1 → n + 1 < l.number → line ≠ [] →
    width ≤ Text.indentWidth line
  here : l.cursor ≠ 0 → width ≤ Text.indentWidth l.line

section Inside

variable {lines : List Text} {first width : Nat} {base : List Nat}

theorem Inside.mem (h : Inside lines first width base l) : width ∈ blocks l.levels := by
  obtain ⟨top, htop⟩ := h.blocks_eq
  simp [htop]

theorem Inside.of_innermost (h : Inside lines first width base l) {deeper : Nat}
    {rest : List Level} (hinner : Innermost l.levels deeper rest)
    (hopen : base.length < (blocks rest).length) : ∃ top, blocks rest = top ++ width :: base := by
  obtain ⟨top, htop⟩ := h.blocks_eq
  rw [hinner.blocks_eq] at htop
  cases top with
  | nil =>
    simp only [List.nil_append, List.cons.injEq] at htop
    rw [htop.2] at hopen
    omega
  | cons outer top => exact ⟨top, (List.cons.inj htop).2⟩

theorem Inside.step (hl : Inside lines first width base l) (horder : Orderly l)
    (hplaced : Placed lines l) (h : Step l token l')
    (hopen : base.length < (blocks l'.levels).length) : Inside lines first width base l' := by
  cases h with
  | lineEnd hend hbelow =>
    refine ⟨hl.blocks_eq, ?_, fun h => absurd rfl h⟩
    intro n line hline hfirst hn hne
    rcases Nat.lt_or_ge (n + 1) l.number with hlt | hge
    · exact hl.above n line hline hfirst hlt hne
    · -- The line that ends here was read to its end, so its depth was looked at.
      have hnumber : n = l.number - 1 := by
        simp only [nextLine] at hn
        omega
      rw [hnumber, hplaced.line_eq, Option.some.injEq] at hline
      subst hline
      have hpos := List.length_pos_iff.2 hne
      exact hl.here (by omega)
  | closeAtEnd hend hbelow hclose =>
    obtain ⟨deeper, hinner⟩ := innermost_of_closeOne hclose
    exact ⟨hl.of_innermost hinner hopen, hl.above, hl.here⟩
  | inputEnd => simp [blocks] at hopen
  | opens =>
    obtain ⟨top, htop⟩ := hl.blocks_eq
    exact ⟨⟨_ :: top, by rw [blocks_cons, htop]; rfl⟩, hl.above, hl.here⟩
  | closes hcursor hline hflat hclose =>
    obtain ⟨deeper, hinner, _⟩ := innermost_of_closeWider hclose
    exact ⟨hl.of_innermost hinner hopen, hl.above, hl.here⟩
  | @reads m found hmore hready hfind =>
    rw [accept_snd]
    refine ⟨?_, ?_, ?_⟩
    · rw [blocks_levelsWith, hready.blocks_eq]
      exact hl.blocks_eq
    · rw [hready.number_eq]
      exact hl.above
    · intro _
      have hmem : width ∈ blocks m.levels := by
        rw [hready.blocks_eq]
        exact hl.mem
      rw [hready.line_eq]
      exact Nat.le_trans ((hready.nested horder).le_topWidth hmem) (hready.topWidth_le horder)

theorem Inside.path (hl : Inside lines first width base l) (horder : Orderly l)
    (hplaced : Placed lines l) (h : Path l tokens l')
    (hkind : ∀ token ∈ tokens, token.kind ≠ .endOfInput)
    (hopen : ∀ front, front <+: tokens →
      base.length + closed front < (blocks l.levels).length + opened front) :
    Inside lines first width base l' := by
  induction h with
  | nil => exact hl
  | @cons l m l' token tokens head tail ih =>
    have hlength := head.length_blocks
    have hm : base.length < (blocks m.levels).length := by
      have hfront := hopen [token] (by simp)
      rw [opened_cons, closed_cons] at hfront
      simp only [opened, closed, List.countP_nil] at hfront
      omega
    have hstep := hl.step horder hplaced head hm
    refine ih hstep (horder.step head (hkind token (List.mem_cons_self ..))) (hplaced.step head)
      (fun t ht => hkind t (List.mem_cons_of_mem _ ht)) ?_
    intro front hfront
    have hall := hopen (token :: front) (by simpa using hfront)
    rw [opened_cons, closed_cons] at hall
    omega

end Inside

end Lexer

/-- A token behind the last character of the text. -/
def EndsText (body : Text) (token : Token) : Prop :=
  token.span.line = (bodyLines body).length ∧
    ∀ last, (bodyLines body).getLast? = some last → last.length < token.span.column

/-- From the line a block is opened on up to where it is closed every line that is not blank is as
deep as the first one, and the line that closes it, if it is not the end of the text, is less deep. -/
def Encloses (body : Text) (opening closing : Token) : Prop :=
  ∃ first, (writtenLines body)[opening.span.line - 1]? = some first ∧
    (∀ n line, (writtenLines body)[n]? = some line → opening.span.line ≤ n + 1 →
      n + 1 < closing.span.line ∨ EndsText body closing → ¬ IsBlankLine line →
      lineWidth first ≤ lineWidth line) ∧
    (EndsText body closing ∨ ∃ last, (writtenLines body)[closing.span.line - 1]? = some last ∧
      ¬ IsBlankLine last ∧ lineWidth last < lineWidth first)

namespace Lexer

variable {body : Text} {l m m' l' : Lexer} {before inner : List Token} {opening closing : Token}

theorem placed_of_path (hbefore : Path (ofBody body) before l) : Placed (bodyLines body) l :=
  (placed_ofLines (bodyLines_ne_nil body)).path hbefore

theorem inside_of_path (hbefore : Path (ofBody body) before l) (hopening : Step l opening m)
    (hopen : opening.kind = .indent) (hinner : Path m inner m') (hbalanced : Balanced inner)
    (hkind : ∀ token ∈ before ++ inner, token.kind ≠ .endOfInput) :
    Inside (bodyLines body) l.number (Text.indentWidth l.line) (blocks l.levels) m' ∧
      blocks m'.levels = Text.indentWidth l.line :: blocks l.levels := by
  have horder : Orderly l := (orderly_ofLines (bodyLines body)).path hbefore fun token htoken =>
    hkind token (List.mem_append_left _ htoken)
  have hplaced : Placed (bodyLines body) l := placed_of_path hbefore
  obtain ⟨hcursor, hline, -, hm⟩ := hopening.opens_of_indent hopen
  have hblocks : blocks m.levels = Text.indentWidth l.line :: blocks l.levels := by
    rw [hm, blocks_cons]
    rfl
  have hinside : Inside (bodyLines body) l.number (Text.indentWidth l.line) (blocks l.levels) m := by
    refine ⟨⟨[], hblocks⟩, ?_, ?_⟩
    · intro n line _ hfirst hn
      rw [hm] at hn
      simp only at hn
      omega
    · intro hstart
      rw [hm] at hstart
      exact absurd hcursor hstart
  have hend : Inside (bodyLines body) l.number (Text.indentWidth l.line) (blocks l.levels) m' := by
    apply hinside.path (horder.step hopening (by simp [hopen])) (hplaced.step hopening) hinner
    · exact fun token htoken => hkind token (List.mem_append_right _ htoken)
    · intro front hfront
      have := hbalanced.1 front hfront
      rw [hblocks, List.length_cons]
      omega
  refine ⟨hend, ?_⟩
  -- As many blocks were closed inside as were opened, so this one is the innermost again.
  obtain ⟨top, htop⟩ := hend.blocks_eq
  have hlength := hinner.length_blocks
  rw [hbalanced.2, hblocks, htop, List.length_append] at hlength
  have hnil : top = [] := List.eq_nil_of_length_eq_zero (by omega)
  rw [htop, hnil, List.nil_append]

theorem encloses_of_path (hbefore : Path (ofBody body) before l) (hopening : Step l opening m)
    (hopen : opening.kind = .indent) (hinner : Path m inner m') (hbalanced : Balanced inner)
    (hclosing : Step m' closing l') (hclose : closing.kind = .dedent)
    (hkind : ∀ token ∈ before ++ inner, token.kind ≠ .endOfInput) : Encloses body opening closing := by
  obtain ⟨hinside, hblocks⟩ := inside_of_path hbefore hopening hopen hinner hbalanced hkind
  have hl := placed_of_path hbefore
  have hm := (hl.step hopening).path hinner
  obtain ⟨-, hline, rfl, -⟩ := hopening.opens_of_indent hopen
  obtain ⟨rfl, hcase⟩ := hclosing.closes_of_dedent hclose
  obtain ⟨first, hfirst, hfull, hnormal⟩ := exists_of_getElem?_bodyLines hl.line_eq hline
  have hwidth : lineWidth first = Text.indentWidth l.line := by
    rw [← indentWidth_normalizeLine hfull, hnormal]
  refine ⟨first, hfirst, ?_, ?_⟩
  · intro n line hn hfrom hupto hholds
    have hget := getElem?_bodyLines hn hholds
    have hne : normalizeLine line ≠ [] := fun hnil => hholds (normalizeLine_eq_nil_iff.1 hnil)
    rw [hwidth, ← indentWidth_normalizeLine hholds]
    rcases Nat.lt_or_ge (n + 1) m'.number with hlt | hge
    · exact hinside.above n _ hget hfrom hlt hne
    · -- Only at the end of the text does the last line itself belong to the block.
      obtain ⟨hnumber, hcolumn⟩ := hupto.resolve_left (Nat.not_lt_of_le hge)
      have hbelow := hm.below_eq hnumber
      have hlast := hcolumn _ (hm.getLast? hbelow).1
      have hlt := (List.getElem?_eq_some_iff.1 hget).1
      have hn : n = m'.number - 1 := by
        simp only [unwritten, spanOf] at hnumber
        omega
      rw [hn, hm.line_eq, Option.some.injEq] at hget
      rw [← hget] at hne ⊢
      apply hinside.here
      have hpos := List.length_pos_iff.2 hne
      simp only [unwritten, spanOf] at hlast
      omega
  · rcases hcase with hend | ⟨-, hlast, deeper, hdeeper, hlt⟩
    · refine .inl ⟨(hm.getLast? hend.2).2, ?_⟩
      intro last hget
      rw [(hm.getLast? hend.2).1, Option.some.injEq] at hget
      rw [← hget]
      exact Nat.lt_succ_of_le hend.1
    · obtain ⟨last, hget, hholds, hlastNormal⟩ := exists_of_getElem?_bodyLines hm.line_eq hlast
      refine .inr ⟨last, hget, hholds, ?_⟩
      have hsame : deeper = Text.indentWidth l.line := by
        rw [hdeeper.blocks_eq, List.cons.injEq] at hblocks
        exact hblocks.1
      rw [← indentWidth_normalizeLine hholds, hlastNormal, hwidth, ← hsame]
      exact hlt

end Lexer

theorem tokenize_blocks {body : Text} {tokens : List Token} (h : tokenize body = .ok tokens) :
    Balanced tokens ∧
    (∀ before opening inner closing behind,
      tokens = before ++ opening :: (inner ++ closing :: behind) →
      opening.kind = .indent → closing.kind = .dedent → Balanced inner →
      Encloses body opening closing) ∧
    (∀ front back l, tokens = front ++ back → back ≠ [] → Lexer.Path (Lexer.ofBody body) front l →
      Lexer.Nested l.levels ∧
        l.levels.countP (·.significant) + closed front = opened front) := by
  obtain ⟨tokens, last, l', rfl, hpath, hlast, htokens⟩ := Lexer.path_of_tokens h
  have hstart : Lexer.blocks (Lexer.ofBody body).levels = [] := rfl
  have hfront : ∀ front back, tokens ++ [last] = front ++ back → back ≠ [] →
      ∀ token ∈ front, token.kind ≠ .endOfInput := by
    intro front back heq hback token htoken
    rw [← List.dropLast_concat_getLast hback, ← List.append_assoc] at heq
    have hfront := (List.append_inj' heq rfl).1
    exact htokens token (by simp [hfront, htoken])
  refine ⟨⟨?_, ?_⟩, ?_, ?_⟩
  · rintro front ⟨back, hback⟩
    rw [← hback] at hpath
    obtain ⟨m, hm, -⟩ := hpath.split
    have hcount := hm.length_blocks
    rw [hstart, List.length_nil] at hcount
    omega
  · obtain ⟨m, -, hend⟩ := hpath.split
    cases hend with
    | cons head tail =>
      cases tail
      have hcount := hpath.length_blocks
      rw [hstart, head.blocks_of_endOfInput hlast, List.length_nil] at hcount
      omega
  · intro before opening inner closing behind heq hopening hclosing hbalanced
    have hbehind : behind ≠ [] := by
      rintro rfl
      have hsame : last = closing := by simpa [List.getLast?_cons] using congrArg List.getLast? heq
      rw [hsame, hclosing] at hlast
      simp at hlast
    rw [heq] at hpath
    obtain ⟨l, hbefore, hrest⟩ := hpath.split
    cases hrest with
    | cons head tail =>
      obtain ⟨m', hinner, hrest⟩ := tail.split
      cases hrest with
      | cons head' tail' =>
        apply Lexer.encloses_of_path hbefore head hopening hinner hbalanced head' hclosing
        intro token htoken
        apply hfront (before ++ opening :: (inner ++ [closing])) behind (by simp [heq]) hbehind
        rcases List.mem_append.1 htoken with htoken | htoken
        · simp [htoken]
        · simp [htoken]
  · intro front back l heq hback hl
    have horder := (Lexer.orderly_ofLines (bodyLines body)).path hl (hfront front back heq hback)
    have hcount := hl.length_blocks
    rw [hstart, List.length_nil, Nat.zero_add, Lexer.length_blocks] at hcount
    exact ⟨horder.nested, hcount⟩

instance decidableEqExcept {ε α : Type} [DecidableEq ε] [DecidableEq α] : DecidableEq (Except ε α)
  | .error e, .error e' => decidable_of_iff (e = e') (by simp)
  | .ok a, .ok b => decidable_of_iff (a = b) (by simp)
  | .error _, .ok _ => .isFalse (by simp)
  | .ok _, .error _ => .isFalse (by simp)

/-- A block of three lines, one of them blank, that a line behind it closes. -/
theorem encloses_reply : Encloses "-> Ask\n\tWhy?\n\n     Bye\nEnd".toList
    ⟨.indent, [], ⟨2, 1, 1⟩⟩ ⟨.dedent, [], ⟨5, 1, 1⟩⟩ := by
  have htokens : tokenize "-> Ask\n\tWhy?\n\n     Bye\nEnd".toList = .ok
      ([⟨.arrow, "->".toList, ⟨1, 1, 3⟩⟩, ⟨.text, "Ask".toList, ⟨1, 4, 7⟩⟩,
        ⟨.endOfLine, [], ⟨1, 7, 7⟩⟩] ++ ⟨.indent, [], ⟨2, 1, 1⟩⟩ ::
        ([⟨.text, "Why?".toList, ⟨2, 5, 9⟩⟩, ⟨.endOfLine, [], ⟨2, 9, 9⟩⟩, ⟨.endOfLine, [], ⟨3, 1, 1⟩⟩,
          ⟨.text, "Bye".toList, ⟨4, 6, 9⟩⟩, ⟨.endOfLine, [], ⟨4, 9, 9⟩⟩] ++
          ⟨.dedent, [], ⟨5, 1, 1⟩⟩ ::
          [⟨.text, "End".toList, ⟨5, 1, 4⟩⟩, ⟨.endOfInput, [], ⟨5, 4, 4⟩⟩])) := by decide +kernel
  exact (tokenize_blocks htokens).2.1 _ _ _ _ _ rfl rfl rfl (by decide)

end Parley.Body
