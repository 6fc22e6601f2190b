import Parley.Proofs.Outline
set_option autoImplicit false

/-!
The lexer reads the lines of an outline as its lexemes.

Within a line nothing happens to the open levels. From line to line the innermost level is that of the
list whose line comes next, which is all that the tokens for blocks depend on.
-/

namespace Parley.Text

@[simp] theorem drop_indentWidth (t : Text) : t.drop (indentWidth t) = trimStart t := by
  unfold indentWidth trimStart
  induction t with
  | nil => rfl
  | cons c t ih =>
    by_cases hc : isBlank c = true
    · simp [hc, ih]
    · simp [hc]

def StartsFull (t : Text) : Prop :=
  t.head?.any (fun c => !isBlank c) = true

instance (t : Text) : Decidable (StartsFull t) :=
  inferInstanceAs (Decidable (_ = true))

theorem StartsFull.append {t : Text} (h : StartsFull t) (rest : Text) : StartsFull (t ++ rest) := by
  cases t with
  | nil => simp [StartsFull] at h
  | cons c t => exact h

theorem StartsFull.ne_nil {t : Text} (h : StartsFull t) : t ≠ [] := by
  rintro rfl
  simp [StartsFull] at h

theorem StartsFull.trimStart_eq {t : Text} (h : StartsFull t) : trimStart t = t := by
  cases t with
  | nil => rfl
  | cons c t =>
    have hc : isBlank c = false := by simpa [StartsFull] using h
    simp [trimStart, hc]

end Parley.Text

namespace Parley.Body

theorem takeWhile_written (width : Nat) {content : Text} (h : content.StartsFull) :
    (written width content).takeWhile Text.isBlank = List.replicate width ' ' := by
  have hspace : Text.isBlank ' ' = true := by decide
  unfold written
  induction width with
  | zero =>
    cases content with
    | nil => rfl
    | cons c t =>
      have hc : Text.isBlank c = false := by simpa [Text.StartsFull] using h
      simp [hc]
  | succ width ih => simp [List.replicate_succ, hspace, ih]

theorem indentWidth_written (width : Nat) {content : Text} (h : content.StartsFull) :
    Text.indentWidth (written width content) = width := by
  rw [Text.indentWidth, takeWhile_written width h, List.length_replicate]

@[simp] theorem drop_written (width : Nat) (content : Text) :
    (written width content).drop width = content := by
  unfold written
  simp

/-! What each mode finds. -/

def textBreaks : List TokenKind :=
  [.escape, .comment, .hashtag, .beginCommand, .leftBrace]

theorem matchLength?_plain {kind : TokenKind} (hk : kind ∈ textBreaks) {c : Char}
    (hc : isSpecial c = false) (t : Text) : kind.matchLength? (c :: t) = none := by
  simp only [isSpecial, Bool.or_eq_false_iff, beq_eq_false_iff_ne, ne_eq] at hc
  obtain ⟨⟨⟨⟨h1, h2⟩, h3⟩, h4⟩, h5⟩ := hc
  simp only [textBreaks, List.mem_cons, List.not_mem_nil, or_false] at hk
  rcases hk with rfl | rfl | rfl | rfl | rfl
  · cases t <;> simp [TokenKind.matchLength?, matchEscape?, h1]
  · have h2' : ¬ '/' = c := fun h => h2 h.symm
    simp [TokenKind.matchLength?, matchComment?, Text.startsWith, Text.afterPrefix?, h2']
  · simp [TokenKind.matchLength?, matchMarked?, h3]
  · have h4' : ¬ '<' = c := fun h => h4 h.symm
    simp [TokenKind.matchLength?, matchSymbol?, Text.startsWith, Text.afterPrefix?, h4']
  · have h5' : ¬ '\x7b' = c := fun h => h5 h.symm
    simp [TokenKind.matchLength?, matchSymbol?, Text.startsWith, Text.afterPrefix?, h5']

def IsProse (m : Mode) : Prop :=
  m = .base ∨ m = .option

theorem IsProse.delimiters_kind {m : Mode} (h : IsProse m) :
    ∀ r ∈ m.delimiters, r.kind ∈ textBreaks := by
  rcases h with rfl | rfl <;> decide

theorem delimiterAt_plain {m : Mode} (hm : IsProse m) {c : Char} (hc : isSpecial c = false)
    (t : Text) : m.delimiterAt (c :: t) = false := by
  unfold Mode.delimiterAt
  rw [List.any_eq_false]
  intro r hr
  simp [matchLength?_plain (hm.delimiters_kind r hr) hc t]

theorem textLength_plain {m : Mode} (hm : IsProse m) {t rest : Text}
    (ht : ∀ c ∈ t, isSpecial c = false) (hrest : rest = [] ∨ m.delimiterAt rest = true) :
    m.textLength (t ++ rest) = t.length := by
  induction t with
  | nil =>
    cases rest with
    | nil => rfl
    | cons c rest =>
      have hd : m.delimiterAt (c :: rest) = true := by simpa using hrest
      simp [Mode.textLength, hd]
  | cons c t ih =>
    have hc := delimiterAt_plain hm (ht c (List.mem_cons_self ..)) (t ++ rest)
    have ih' := ih fun d hd => ht d (List.mem_cons_of_mem _ hd)
    simp only [List.cons_append, Mode.textLength, hc, Bool.false_eq_true, if_false, ih',
      List.length_cons]

theorem findSome?_delimiters {m : Mode} (hm : IsProse m) {c : Char} (hc : isSpecial c = false)
    (t : Text) : (m.delimiters.findSome? fun r =>
      (r.kind.matchLength? (c :: t)).map fun n => (⟨r.kind, n, r.next⟩ : Mode.Found)) = none := by
  rw [List.findSome?_eq_none_iff]
  intro r hr
  rw [matchLength?_plain (hm.delimiters_kind r hr) hc t]
  rfl

theorem PlainText.not_special (t : PlainText) : ∀ c ∈ t.text, isSpecial c = false := by
  intro c hc
  have h := List.all_eq_true.1 t.chars c hc
  simp only [Bool.and_eq_true, Bool.not_eq_true'] at h
  exact h.1.1

theorem PlainText.cons_eq (t : PlainText) : ∃ c rest, t.text = c :: rest := by
  have hne := Text.StartsFull.ne_nil t.first
  cases h : t.text with
  | nil => exact absurd h hne
  | cons c rest => exact ⟨c, rest, rfl⟩

theorem find?_line (t : PlainText) :
    Mode.base.find? t.text = some ⟨.text, t.text.length, none⟩ := by
  obtain ⟨c, rest, hc⟩ := t.cons_eq
  have hspecial := t.not_special c (by simp [hc])
  have hlength : Mode.base.textLength t.text = t.text.length := by
    simpa using textLength_plain (.inl rfl) t.not_special (.inl rfl)
  have harrow : TokenKind.matchLength? .arrow t.text = none := by
    simp only [TokenKind.matchLength?, matchSymbol?, t.noArrow, Bool.false_eq_true, if_false]
  have hpos : 0 < t.text.length := by simp [hc]
  unfold Mode.find? Mode.rules
  rw [List.findSome?_append, hlength]
  rw [hc] at harrow ⊢
  rw [findSome?_delimiters (.inl rfl) hspecial, List.findSome?_singleton, harrow]
  simp [Mode.hasText, Mode.afterText]

theorem find?_label (t : PlainText) {rest : Text}
    (hrest : rest = [] ∨ Mode.option.delimiterAt rest = true) :
    Mode.option.find? (t.text ++ rest) = some ⟨.text, t.text.length, some .base⟩ := by
  obtain ⟨c, tail, hc⟩ := t.cons_eq
  have hspecial := t.not_special c (by simp [hc])
  have hlength : Mode.option.textLength (t.text ++ rest) = t.text.length :=
    textLength_plain (.inr rfl) t.not_special hrest
  have hpos : 0 < t.text.length := by simp [hc]
  unfold Mode.find? Mode.rules
  rw [hlength]
  rw [hc, List.cons_append, findSome?_delimiters (.inr rfl) hspecial]
  simp [Mode.hasText, Mode.afterText]

theorem Mode.find?_of_rule {m : Mode} {t : Text} (before : List Rule) {after : List Rule}
    {kind : TokenKind} {next : Option Mode} {n : Nat}
    (hrules : m.rules = before ++ ⟨kind, next⟩ :: after)
    (hbefore : before.all (fun r => (r.kind.matchLength? t).isNone) = true)
    (hmatch : kind.matchLength? t = some n) : m.find? t = some ⟨kind, n, next⟩ := by
  have hnone : (before.findSome? fun r =>
      (r.kind.matchLength? t).map fun n => (⟨r.kind, n, r.next⟩ : Mode.Found)) = none := by
    rw [List.findSome?_eq_none_iff]
    intro r hr
    rw [Option.isNone_iff_eq_none.1 (List.all_eq_true.1 hbefore r hr)]
    rfl
  unfold Mode.find?
  rw [hrules, List.findSome?_append, hnone, List.findSome?_cons, hmatch]
  rfl

theorem matchLength?_variableName (v : VariableName) {rest : Text}
    (hrest : rest.head?.any isVariableChar = false) :
    TokenKind.matchLength? .variableName ('$' :: (v.name ++ rest)) = some (v.name.length + 1) := by
  have htake : (v.name ++ rest).takeWhile isVariableChar = v.name := by
    rw [List.takeWhile_append_of_pos (by simpa using v.chars)]
    cases rest with
    | nil => simp
    | cons c rest =>
      have hc : isVariableChar c = false := by simpa using hrest
      simp [hc]
  have hrun : matchRun? isVariableChar (v.name ++ rest) = some v.name.length := by
    unfold matchRun?
    rw [htake]
    cases hname : v.name with
    | nil => exact absurd hname v.nonempty
    | cons c name => rfl
  simp [TokenKind.matchLength?, matchMarked?, hrun]

def Mode.HoldsVariables (m : Mode) : Prop :=
  m = .expression ∨ m = .inline ∨ m = .inlineInOption ∨ m = .assignment

theorem find?_variableName {m : Mode} (hm : m.HoldsVariables) (v : VariableName) {rest : Text}
    (hrest : rest.head?.any isVariableChar = false) :
    m.find? (('$' :: v.name) ++ rest) = some ⟨.variableName, ('$' :: v.name).length, none⟩ := by
  have hmatch := matchLength?_variableName v hrest
  -- No rule in front of the one for variables takes a dollar sign.
  rcases hm with rfl | rfl | rfl | rfl
  · exact Mode.find?_of_rule (Mode.expression.rules.take 25) rfl rfl hmatch
  · exact Mode.find?_of_rule (Mode.inline.rules.take 23) rfl rfl hmatch
  · exact Mode.find?_of_rule (Mode.inlineInOption.rules.take 23) rfl rfl hmatch
  · exact Mode.find?_of_rule [] rfl rfl hmatch

namespace Lexer

/-- From one lexer to another by tokens that are written on the current line. -/
def Scans : Lexer → List Lexeme → Lexer → Prop
  | l, [], l' => l = l'
  | l, x :: xs, l' => ∃ token rest, l.read = .ok (token, rest) ∧ token.lexeme = x ∧
      Scans rest xs l'

theorem Scans.append {xs ys : List Lexeme} {l l' l'' : Lexer} (h : Scans l xs l')
    (h' : Scans l' ys l'') : Scans l (xs ++ ys) l'' := by
  induction xs generalizing l with
  | nil =>
    cases h
    exact h'
  | cons x xs ih =>
    obtain ⟨token, rest, hread, hx, hrest⟩ := h
    exact ⟨token, rest, hread, hx, ih hrest⟩

theorem lt_of_read {l l' : Lexer} {token : Token} (h : l.read = .ok (token, l')) :
    l.cursor < l.line.length := by
  apply Nat.lt_of_not_le
  intro hle
  rw [read, List.drop_eq_nil_of_le hle, Mode.find?_nil] at h
  simp at h

@[simp] theorem cursor_enter (l : Lexer) (mode : Mode) : (l.enter mode).cursor = l.cursor := by
  unfold enter
  split <;> rfl

theorem cursor_of_read {l l' : Lexer} {token : Token} (h : l.read = .ok (token, l')) :
    0 < l'.cursor := by
  unfold read at h
  split at h
  · rename_i found hfound
    have hpos := Mode.find?_length_pos hfound
    simp only [Except.ok.injEq] at h
    have hl : l' = (l.accept found).2 := by rw [h]
    rw [hl, accept]
    cases found.next with
    | none =>
      simp only
      omega
    | some mode =>
      simp only [cursor_enter]
      omega
  · simp at h

theorem Scans.leads {xs : List Lexeme} {l l' : Lexer} (h : Scans l xs l') (hc : 0 < l.cursor) :
    Leads l xs l' := by
  induction xs generalizing l with
  | nil => exact h
  | cons x xs ih =>
    obtain ⟨token, rest, hread, hx, hrest⟩ := h
    refine ⟨token, rest, ?_, hx, ih hrest (cursor_of_read hread)⟩
    show l.next = _
    have hlt := lt_of_read hread
    have hle : ¬ l.line.length ≤ l.cursor := by omega
    have hne : l.cursor ≠ 0 := by omega
    simp only [next, hle, hne, if_false, hread]

structure Within (l : Lexer) (rest : Text) (mode : Mode) (below : List Text) (levels : List Level)
    (tracking : Bool) : Prop where
  text_eq : l.line.drop l.cursor = rest
  mode_eq : l.mode = mode
  below_eq : l.below = below
  levels_eq : l.levels = levels
  tracking_eq : l.tracking = tracking
  level : topWidth levels = Text.indentWidth l.line

variable {l : Lexer} {mode : Mode} {below : List Text} {levels : List Level} {tracking : Bool}

/-- The only mode that does more than to take over makes the next line count. -/
theorem Within.enter {rest : Text} (h : Within l rest mode below levels tracking) (mode' : Mode) :
    Within (l.enter mode') rest mode' below levels (tracking || decide (mode' = .option)) := by
  unfold Lexer.enter
  by_cases hm : mode' = .option
  · subst hm
    have hlevel : ¬ topWidth l.levels < Text.indentWidth l.line := by
      rw [h.levels_eq, h.level]
      omega
    simp only [Mode.tracksIndentation, if_true, hlevel, if_false]
    exact ⟨h.text_eq, rfl, h.below_eq, h.levels_eq, by simp, h.level⟩
  · have htracks : mode'.tracksIndentation = false := by
      cases mode' <;> first | rfl | exact absurd rfl hm
    simp only [htracks, Bool.false_eq_true, if_false]
    exact ⟨h.text_eq, rfl, h.below_eq, h.levels_eq, by simp [h.tracking_eq, hm], h.level⟩

theorem textOf_eq {kind : TokenKind} (h : kind ≠ .string) (t : Text) : kind.textOf t = t := by
  cases kind <;> first | rfl | exact absurd rfl h

theorem scans_one (lexeme rest : Text) {kind : TokenKind} {changed : Option Mode}
    (h : Within l (lexeme ++ rest) mode below levels tracking)
    (hf : mode.find? (lexeme ++ rest) = some ⟨kind, lexeme.length, changed⟩)
    (hk : kind ≠ .string) (hb : keepsBlanks kind changed = false) :
    ∃ l', Scans l [(kind, lexeme)] l' ∧ Within l' (Text.trimStart rest) (changed.getD mode) below
      levels (tracking || decide (changed = some .option)) := by
  have hread : l.read = .ok (l.accept ⟨kind, lexeme.length, changed⟩) := by
    rw [read, h.mode_eq, h.text_eq, hf]
  refine ⟨(l.accept ⟨kind, lexeme.length, changed⟩).2, ⟨_, _, hread, ?_, rfl⟩, ?_⟩
  · simp [Token.lexeme, h.text_eq, textOf_eq hk]
  · have hstop : l.line.drop (l.cursor + lexeme.length) = rest := by
      rw [← List.drop_drop, h.text_eq, List.drop_left]
    have hrest : l.line.drop (l.cursor + lexeme.length + Text.indentWidth rest) =
        Text.trimStart rest := by
      rw [← List.drop_drop, hstop, Text.drop_indentWidth]
    have hmoved : Within { l with cursor := l.cursor + lexeme.length + Text.indentWidth rest }
        (Text.trimStart rest) mode below levels tracking :=
      ⟨hrest, h.mode_eq, h.below_eq, h.levels_eq, h.tracking_eq, h.level⟩
    unfold accept
    simp only [hb, hstop, Bool.false_eq_true, if_false]
    cases changed with
    | none => simpa using hmoved
    | some mode' => simpa using hmoved.enter mode'

/-! The contents of lines. -/

theorem trimStart_text {word : Text} (h : word.StartsFull) (rest : Text) :
    Text.trimStart (word ++ rest) = word ++ rest :=
  (h.append rest).trimStart_eq

theorem scans_condition {kind : TokenKind} {word : Text} (v : VariableName)
    (h : Within l (conditionText word v) .base below levels tracking) (hword : word.StartsFull)
    (hk : kind ≠ .string ∧ keepsBlanks kind (some .expression) = false)
    (hf : ∀ rest, Mode.command.find? (word ++ ' ' :: rest) =
      some ⟨kind, word.length, some .expression⟩) :
    ∃ l', Scans l (conditionLexemes kind word v) l' ∧ Within l' [] .base below levels tracking := by
  obtain ⟨l₁, hs₁, hw₁⟩ := scans_one _ _ h rfl (by decide) (by decide)
  rw [trimStart_text hword] at hw₁
  obtain ⟨l₂, hs₂, hw₂⟩ := scans_one _ _ hw₁ (hf _) hk.1 hk.2
  have hdollar : Text.trimStart (' ' :: '$' :: (v.name ++ ">>".toList)) =
      ('$' :: v.name) ++ ">>".toList := by
    simp [Text.trimStart, show Text.isBlank ' ' = true by decide,
      show Text.isBlank '$' = false by decide]
  rw [hdollar] at hw₂
  obtain ⟨l₃, hs₃, hw₃⟩ := scans_one _ _ hw₂ (find?_variableName (.inl rfl) v rfl) (by decide) (by decide)
  obtain ⟨l₄, hs₄, hw₄⟩ := scans_one ">>".toList [] hw₃ rfl (by decide) (by decide)
  refine ⟨l₄, ((hs₁.append hs₂).append hs₃).append hs₄, ?_⟩
  simpa [Text.trimStart] using hw₄

theorem scans_word {kind : TokenKind} {word : Text}
    (h : Within l (wordText word) .base below levels tracking) (hword : word.StartsFull)
    (hk : kind ≠ .string ∧ keepsBlanks kind none = false)
    (hf : Mode.command.find? (word ++ ">>".toList) = some ⟨kind, word.length, none⟩) :
    ∃ l', Scans l (wordLexemes kind word) l' ∧ Within l' [] .base below levels tracking := by
  obtain ⟨l₁, hs₁, hw₁⟩ := scans_one _ _ h rfl (by decide) (by decide)
  rw [trimStart_text hword] at hw₁
  obtain ⟨l₂, hs₂, hw₂⟩ := scans_one _ _ hw₁ hf hk.1 hk.2
  obtain ⟨l₃, hs₃, hw₃⟩ := scans_one ">>".toList [] hw₂ rfl (by decide) (by decide)
  refine ⟨l₃, (hs₁.append hs₂).append hs₃, ?_⟩
  simpa [Text.trimStart] using hw₃

theorem scans_if (v : VariableName)
    (h : Within l (conditionText "if".toList v) .base below levels tracking) :
    ∃ l', Scans l (conditionLexemes .ifWord "if".toList v) l' ∧
      Within l' [] .base below levels tracking :=
  scans_condition v h (by decide) (by decide) fun _ => rfl

theorem scans_elseif (v : VariableName)
    (h : Within l (conditionText "elseif".toList v) .base below levels tracking) :
    ∃ l', Scans l (conditionLexemes .elseifWord "elseif".toList v) l' ∧
      Within l' [] .base below levels tracking :=
  scans_condition v h (by decide) (by decide) fun _ => rfl

theorem scans_else (h : Within l (wordText "else".toList) .base below levels tracking) :
    ∃ l', Scans l (wordLexemes .elseWord "else".toList) l' ∧
      Within l' [] .base below levels tracking :=
  scans_word h (by decide) (by decide) rfl

theorem scans_endif (h : Within l (wordText "endif".toList) .base below levels tracking) :
    ∃ l', Scans l (wordLexemes .endifWord "endif".toList) l' ∧
      Within l' [] .base below levels tracking :=
  scans_word h (by decide) (by decide) rfl

theorem scans_line (t : PlainText) (h : Within l t.text .base below levels tracking) :
    ∃ l', Scans l [(.text, t.text)] l' ∧ Within l' [] .base below levels tracking := by
  rw [← List.append_nil t.text] at h
  obtain ⟨l', hs, hw⟩ := scans_one t.text [] h (by simpa using find?_line t) (by decide) (by decide)
  exact ⟨l', hs, by simpa [Text.trimStart] using hw⟩

theorem scans_guard (guard : Option VariableName)
    (h : Within l (guardText guard) .base below levels tracking) :
    ∃ l', Scans l (guardLexemes guard) l' ∧ Within l' [] .base below levels tracking := by
  cases guard with
  | none => exact ⟨l, rfl, h⟩
  | some v => exact scans_if v h

theorem scans_option (label : PlainText) (guard : Option VariableName)
    (h : Within l ("-> ".toList ++ (label.text ++ guardText guard)) .base below levels tracking) :
    ∃ l', Scans l (optionLexemes label guard) l' ∧ Within l' [] .base below levels true := by
  have hguard : guardText guard = [] ∨ Mode.option.delimiterAt (guardText guard) = true := by
    cases guard with
    | none => exact .inl rfl
    | some v => exact .inr rfl
  have htrim : Text.trimStart (guardText guard) = guardText guard := by
    cases guard with
    | none => rfl
    | some v => exact trimStart_text (by decide) _
  obtain ⟨l₁, hs₁, hw₁⟩ :=
    scans_one "->".toList (' ' :: (label.text ++ guardText guard)) h rfl (by decide) (by decide)
  have hspace : Text.trimStart (' ' :: (label.text ++ guardText guard)) =
      label.text ++ guardText guard := by
    have hskip : Text.trimStart (' ' :: (label.text ++ guardText guard)) =
        Text.trimStart (label.text ++ guardText guard) := by
      simp [Text.trimStart, show Text.isBlank ' ' = true by decide]
    rw [hskip, trimStart_text label.first]
  rw [hspace] at hw₁
  obtain ⟨l₂, hs₂, hw₂⟩ := scans_one _ _ hw₁ (find?_label label hguard) (by decide) (by decide)
  rw [htrim] at hw₂
  obtain ⟨l₃, hs₃, hw₃⟩ := scans_guard guard hw₂
  refine ⟨l₃, (hs₁.append hs₂).append hs₃, ?_⟩
  simpa using hw₃

/-! From line to line. -/

/-- A lexer in front of some lines. While the next line counts, it has to exceed the innermost
level. -/
def Before (l : Lexer) (lines : List Text) (levels : List Level) (tracking : Bool) : Prop :=
  l.levels = levels ∧
    match lines with
    | [] => l.below = [] ∧ l.line.length ≤ l.cursor
    | line :: below => l.line = line ∧ l.below = below ∧ l.cursor = 0 ∧ l.mode = .base ∧
        l.tracking = tracking ∧ (tracking = true → l.previous = topWidth levels)

theorem leads_lineEnd (h : Within l [] .base below levels tracking) :
    ∃ l', Leads l (breakIf (!below.isEmpty)) l' ∧ Before l' below levels tracking := by
  have hend : l.line.length ≤ l.cursor := List.drop_eq_nil_iff.1 h.text_eq
  cases hb : below with
  | nil => exact ⟨l, rfl, h.levels_eq, by rw [h.below_eq, hb], hend⟩
  | cons line rest =>
    refine ⟨l.nextLine line rest, ⟨l.unwritten .endOfLine, _, ?_, rfl, rfl⟩, h.levels_eq, rfl, rfl,
      rfl, ?_, h.tracking_eq, ?_⟩
    · show l.next = _
      simp only [next, hend, if_true, h.below_eq, hb]
    · simp [nextLine, h.mode_eq]
    · intro _
      simp only [nextLine, h.levels_eq]

theorem closeWider_top (levels : List Level) (width : Nat) (h : topWidth levels ≤ width) :
    closeWider width levels = .settled levels := by
  cases levels with
  | nil => rfl
  | cons v levels =>
    have hv : ¬ width < v.width := by
      simp only [topWidth] at h
      omega
    simp [closeWider, hv]

theorem next_of_start (hcursor : l.cursor = 0) (hline : l.line ≠ []) :
    l.next = match l.indentation with
      | .inl due => .ok due
      | .inr m => m.read := by
  have hlong : ¬ l.line.length ≤ l.cursor := by
    have hpos : 0 < l.line.length := List.length_pos_iff.2 hline
    omega
  exact (if_neg hlong).trans (if_pos hcursor)

theorem leads_line {content : Text} {xs : List Lexeme} {tracking' : Bool}
    (h : Before l (written (topWidth levels) content :: below) levels tracking)
    (hc : content.StartsFull) (hxs : xs ≠ [])
    (hscan : ∀ m, Within m content .base below levels false →
      ∃ m', Scans m xs m' ∧ Within m' [] .base below levels tracking') :
    ∃ l', Leads l (xs ++ breakIf (!below.isEmpty)) l' ∧ Before l' below levels tracking' := by
  obtain ⟨hlevels, hline, hbelow, hcursor, hmode, htracking, hprevious⟩ := h
  have hwidth : Text.indentWidth l.line = topWidth levels := by
    rw [hline, indentWidth_written _ hc]
  have hwithin : Within { l with levels := levels, tracking := false, cursor := topWidth levels }
      content .base below levels false :=
    ⟨by simp only [hline, drop_written], hmode, hbelow, rfl, rfl, hwidth.symm⟩
  obtain ⟨m, hs, hm⟩ := hscan _ hwithin
  obtain ⟨l', hl', hbefore⟩ := leads_lineEnd hm
  refine ⟨l', Leads.append ?_ hl', hbefore⟩
  cases xs with
  | nil => exact absurd rfl hxs
  | cons x xs =>
    obtain ⟨token, rest, hread, hx, hrest⟩ := hs
    refine ⟨token, rest, ?_, hx, hrest.leads (cursor_of_read hread)⟩
    show l.next = _
    have hne : l.line ≠ [] := by
      simp [hline, written, hc.ne_nil]
    have hflat : (l.tracking && decide (l.previous < topWidth levels)) = false := by
      cases htr : tracking with
      | false => simp [htracking, htr]
      | true => simp [hprevious htr]
    have hindent : l.indentation =
        .inr { l with levels := levels, tracking := false, cursor := topWidth levels } := by
      simp only [indentation, hwidth, hflat, Bool.false_eq_true, if_false, hlevels,
        closeWider_top levels _ (Nat.le_refl _)]
    rw [next_of_start hcursor hne, hindent]
    exact hread

theorem leads_indent {line : Text} (h : Before l (line :: below) levels true) (hne : line ≠ [])
    (hdeep : topWidth levels < Text.indentWidth line) :
    ∃ l', Leads l [(.indent, [])] l' ∧
      Before l' (line :: below) (⟨Text.indentWidth line, true⟩ :: levels) false := by
  obtain ⟨rfl, rfl, hbelow, hcursor, hmode, htracking, hprevious⟩ := h
  refine ⟨{ l with levels := ⟨Text.indentWidth l.line, true⟩ :: l.levels, tracking := false },
    ⟨l.unwritten .indent, _, ?_, rfl, rfl⟩, rfl, rfl, hbelow, hcursor, hmode, rfl, by simp⟩
  show l.next = _
  have hopen : (l.tracking && decide (l.previous < Text.indentWidth l.line)) = true := by
    simp [htracking, hprevious rfl, hdeep]
  have hindent : l.indentation = .inl (l.unwritten .indent,
      { l with levels := ⟨Text.indentWidth l.line, true⟩ :: l.levels, tracking := false }) := by
    simp only [indentation, hopen, if_true]
  rw [next_of_start hcursor hne, hindent]

theorem leads_dedent {lines : List Text} {width : Nat}
    (h : Before l lines (⟨width, true⟩ :: levels) tracking)
    (hlines : ∀ line ∈ lines.head?, line ≠ [] ∧ Text.indentWidth line < width) :
    ∃ l', Leads l [(.dedent, [])] l' ∧ Before l' lines levels false := by
  cases lines with
  | nil =>
    obtain ⟨hlevels, hbelow, hend⟩ := h
    refine ⟨{ l with levels := levels }, ⟨l.unwritten .dedent, _, ?_, rfl, rfl⟩, rfl, hbelow, hend⟩
    show l.next = _
    simp only [next, hend, if_true, hbelow, atEnd, hlevels, closeOne]
  | cons line below =>
    obtain ⟨hlevels, hline, hbelow, hcursor, hmode, htracking, hprevious⟩ := h
    obtain ⟨hne, hless⟩ := hlines line rfl
    refine ⟨{ l with levels := levels, tracking := false, previous := topWidth levels },
      ⟨l.unwritten .dedent, _, ?_, rfl, rfl⟩, rfl, hline, hbelow, hcursor, hmode, rfl, by simp⟩
    show l.next = _
    have hflat : (l.tracking && decide (l.previous < Text.indentWidth l.line)) = false := by
      cases htr : tracking with
      | false => simp [htracking, htr]
      | true =>
        have hp := hprevious htr
        simp only [topWidth] at hp
        simp only [hp, hline, Bool.and_eq_false_iff, decide_eq_false_iff_not]
        exact .inr (by omega)
    have hclose : closeWider (Text.indentWidth l.line) l.levels = .block levels := by
      simp [hlevels, closeWider, hline, hless]
    have hindent : l.indentation = .inl (l.unwritten .dedent,
        { l with levels := levels, tracking := false, previous := topWidth levels }) := by
      simp only [indentation, hflat, Bool.false_eq_true, if_false, hclose]
    rw [next_of_start hcursor (hline ▸ hne), hindent]

end Lexer

/-! Outlines. -/

theorem conditionText_full (word : Text) (v : VariableName) : (conditionText word v).StartsFull :=
  Text.StartsFull.append (by decide) _

theorem wordText_full (word : Text) : (wordText word).StartsFull :=
  Text.StartsFull.append (by decide) _

theorem optionText_full (label : PlainText) (guard : Option VariableName) :
    Text.StartsFull ("-> ".toList ++ (label.text ++ guardText guard)) :=
  Text.StartsFull.append (by decide) _

theorem Outline.isEmpty_lines (o : Outline) (width : Nat) : (o.lines width).isEmpty = o.isDone := by
  cases o <;> rfl

theorem Outline.more_eq (rest : Outline) (width : Nat) (below : List Text) :
    (!(rest.lines width ++ below).isEmpty) = (!below.isEmpty || !rest.isDone) := by
  rw [← rest.isEmpty_lines width]
  cases rest.lines width <;> simp

/-- Lines of which the first, if there is one, is not deeper than a width. -/
def Shallow (width : Nat) (lines : List Text) : Prop :=
  ∀ line ∈ lines.head?, line ≠ [] ∧ Text.indentWidth line ≤ width

theorem shallow_written (width : Nat) {content : Text} (h : content.StartsFull)
    (below : List Text) : Shallow width (written width content :: below) := by
  intro line hline
  simp only [List.head?_cons, Option.mem_def, Option.some.injEq] at hline
  subst hline
  exact ⟨by simp [written, h.ne_nil], Nat.le_of_eq (indentWidth_written width h)⟩

theorem Shallow.mono {width more : Nat} {lines : List Text} (h : Shallow width lines)
    (hle : width ≤ more) : Shallow more lines :=
  fun line hline => ⟨(h line hline).1, Nat.le_trans (h line hline).2 hle⟩

theorem Shallow.lt {width more : Nat} {lines : List Text} (h : Shallow width lines)
    (hlt : width < more) : ∀ line ∈ lines.head?, line ≠ [] ∧ Text.indentWidth line < more :=
  fun line hline => ⟨(h line hline).1, Nat.lt_of_le_of_lt (h line hline).2 hlt⟩

theorem Shallow.rest {width : Nat} {below : List Text} (h : Shallow width below) (o : Outline) :
    Shallow width (o.lines width ++ below) := by
  cases o with
  | done => exact h
  | line t rest => exact shallow_written width t.first _
  | option label guard deeper body rest => exact shallow_written width (optionText_full label guard) _
  | branch condition body arms rest => exact shallow_written width (conditionText_full _ condition) _

theorem Arms.shallow (arms : Arms) (width : Nat) (below : List Text) :
    Shallow width (arms.lines width ++ below) := by
  cases arms with
  | nothing => exact shallow_written width (wordText_full _) _
  | otherwise body => exact shallow_written width (wordText_full _) _
  | elseif condition body arms => exact shallow_written width (conditionText_full _ condition) _

theorem Arms.isEmpty_lines (arms : Arms) (width : Nat) (below : List Text) :
    (arms.lines width ++ below).isEmpty = false := by
  cases arms <;> rfl

theorem Outline.lines_cons {o : Outline} (h : o.isDone = false) (width : Nat) :
    ∃ line rest, o.lines width = line :: rest ∧ line ≠ [] ∧ Text.indentWidth line = width := by
  have hfirst {content : Text} (hc : content.StartsFull) :
      written width content ≠ [] ∧ Text.indentWidth (written width content) = width :=
    ⟨by simp [written, hc.ne_nil], indentWidth_written width hc⟩
  cases o with
  | done => simp [Outline.isDone] at h
  | line t rest => exact ⟨_, _, rfl, hfirst t.first⟩
  | option label guard deeper body rest => exact ⟨_, _, rfl, hfirst (optionText_full label guard)⟩
  | branch condition body arms rest =>
    exact ⟨_, _, rfl, hfirst (conditionText_full _ condition)⟩

namespace Lexer

mutual

/-- The lines of an outline at the innermost level are read as its lexemes, and the levels are then as
they were. -/
theorem leads_outline : ∀ (o : Outline) {l : Lexer} {below : List Text} {levels : List Level}
    {tracking : Bool}, Before l (o.lines (topWidth levels) ++ below) levels tracking →
    Shallow (topWidth levels) below →
    ∃ l' tracking', Leads l (o.lexemes (!below.isEmpty)) l' ∧ Before l' below levels tracking'
  | .done, l, below, levels, tracking, h, _ => ⟨l, tracking, rfl, h⟩
  | .line t rest, l, below, levels, tracking, h, hbelow => by
    simp only [Outline.lines, List.cons_append] at h
    obtain ⟨l₁, hl₁, hb₁⟩ := leads_line h t.first (by simp) fun m hm => scans_line t hm
    obtain ⟨l₂, tracking₂, hl₂, hb₂⟩ := leads_outline rest hb₁ hbelow
    refine ⟨l₂, tracking₂, ?_, hb₂⟩
    rw [rest.more_eq] at hl₁
    simpa [Outline.lexemes] using hl₁.append hl₂
  | .option label guard deeper body rest, l, below, levels, tracking, h, hbelow => by
    simp only [Outline.lines, List.cons_append, List.append_assoc] at h
    obtain ⟨l₁, hl₁, hb₁⟩ := leads_line h (optionText_full label guard) (by simp [optionLexemes])
      fun m hm => scans_option label guard hm
    cases hbody : body.isDone with
    | true =>
      have hnil : body.lines (topWidth levels + deeper + 1) = [] := by
        simpa [hbody] using body.isEmpty_lines (topWidth levels + deeper + 1)
      rw [hnil, List.nil_append] at hl₁ hb₁
      obtain ⟨l₂, tracking₂, hl₂, hb₂⟩ := leads_outline rest hb₁ hbelow
      refine ⟨l₂, tracking₂, ?_, hb₂⟩
      rw [rest.more_eq] at hl₁
      simpa [Outline.lexemes, hbody] using hl₁.append hl₂
    | false =>
      -- The first line of the body opens a level, and the first line behind the body closes it.
      obtain ⟨line, lines, hlines, hne, hwidth⟩ :=
        Outline.lines_cons hbody (topWidth levels + deeper + 1)
      rw [hlines, List.cons_append] at hl₁ hb₁
      obtain ⟨l₂, hl₂, hb₂⟩ := leads_indent hb₁ hne (by omega)
      rw [hwidth, ← List.cons_append, ← hlines] at hb₂
      have hshallow := hbelow.rest rest
      obtain ⟨l₃, tracking₃, hl₃, hb₃⟩ := leads_outline body hb₂ (hshallow.mono (by simp [topWidth]; omega))
      obtain ⟨l₄, hl₄, hb₄⟩ := leads_dedent hb₃ (hshallow.lt (by omega))
      obtain ⟨l₅, tracking₅, hl₅, hb₅⟩ := leads_outline rest hb₄ hbelow
      refine ⟨l₅, tracking₅, ?_, hb₅⟩
      rw [rest.more_eq] at hl₃
      have hall := (((hl₁.append hl₂).append hl₃).append hl₄).append hl₅
      simpa [Outline.lexemes, hbody, breakIf] using hall
  | .branch condition body arms rest, l, below, levels, tracking, h, hbelow => by
    simp only [Outline.lines, List.cons_append, List.append_assoc] at h
    obtain ⟨l₁, hl₁, hb₁⟩ := leads_line h (conditionText_full _ condition)
      (by simp [conditionLexemes]) fun m hm => scans_if condition hm
    obtain ⟨l₂, tracking₂, hl₂, hb₂⟩ := leads_outline body hb₁ (arms.shallow _ _)
    obtain ⟨l₃, tracking₃, hl₃, hb₃⟩ := leads_arms arms hb₂ (hbelow.rest rest)
    obtain ⟨l₄, tracking₄, hl₄, hb₄⟩ := leads_outline rest hb₃ hbelow
    refine ⟨l₄, tracking₄, ?_, hb₄⟩
    rw [body.more_eq, arms.isEmpty_lines, Bool.not_false, Bool.true_or] at hl₁
    rw [arms.isEmpty_lines, Bool.not_false] at hl₂
    rw [rest.more_eq] at hl₃
    have hall := ((hl₁.append hl₂).append hl₃).append hl₄
    simpa [Outline.lexemes, breakIf] using hall

theorem leads_arms : ∀ (a : Arms) {l : Lexer} {below : List Text} {levels : List Level}
    {tracking : Bool}, Before l (a.lines (topWidth levels) ++ below) levels tracking →
    Shallow (topWidth levels) below →
    ∃ l' tracking', Leads l (a.lexemes (!below.isEmpty)) l' ∧ Before l' below levels tracking'
  | .nothing, l, below, levels, tracking, h, _ => by
    obtain ⟨l₁, hl₁, hb₁⟩ := leads_line h (wordText_full _) (by simp [wordLexemes]) fun m hm =>
      scans_endif hm
    exact ⟨l₁, false, hl₁, hb₁⟩
  | .otherwise body, l, below, levels, tracking, h, _ => by
    simp only [Arms.lines, List.cons_append, List.append_assoc] at h
    obtain ⟨l₁, hl₁, hb₁⟩ := leads_line h (wordText_full _) (by simp [wordLexemes]) fun m hm =>
      scans_else hm
    obtain ⟨l₂, tracking₂, hl₂, hb₂⟩ := leads_outline body hb₁ (shallow_written _ (wordText_full _) _)
    obtain ⟨l₃, hl₃, hb₃⟩ := leads_line hb₂ (wordText_full _) (by simp [wordLexemes]) fun m hm =>
      scans_endif hm
    refine ⟨l₃, false, ?_, hb₃⟩
    have hall := (hl₁.append hl₂).append hl₃
    simpa [Arms.lexemes, breakIf] using hall
  | .elseif condition body arms, l, below, levels, tracking, h, hbelow => by
    simp only [Arms.lines, List.cons_append, List.append_assoc] at h
    obtain ⟨l₁, hl₁, hb₁⟩ := leads_line h (conditionText_full _ condition)
      (by simp [conditionLexemes]) fun m hm => scans_elseif condition hm
    obtain ⟨l₂, tracking₂, hl₂, hb₂⟩ := leads_outline body hb₁ (arms.shallow _ _)
    obtain ⟨l₃, tracking₃, hl₃, hb₃⟩ := leads_arms arms hb₂ hbelow
    refine ⟨l₃, tracking₃, ?_, hb₃⟩
    rw [body.more_eq, arms.isEmpty_lines, Bool.not_false, Bool.true_or] at hl₁
    rw [arms.isEmpty_lines, Bool.not_false] at hl₂
    have hall := (hl₁.append hl₂).append hl₃
    simpa [Arms.lexemes, breakIf] using hall

end

end Lexer

end Parley.Body
