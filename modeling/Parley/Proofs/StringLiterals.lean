import Parley.Proofs.SingleLine
set_option autoImplicit false

/-!
Strings in scripts.

A string is written between quotation marks, with a backslash in front of every backslash and every
quotation mark in it. The lexer finds its end by skipping escapes, and takes the backslashes off once:
wherever a string may stand, it is read back as it was.
-/

namespace Parley.Text

/-- The text with a backslash in front of every backslash and every quotation mark. -/
def escapeQuotes (s : Text) : Text :=
  s.flatMap fun c => if c = '\\' ∨ c = '"' then ['\\', c] else [c]

def quoted (s : Text) : Text :=
  '"' :: (escapeQuotes s ++ ['"'])

theorem escapeQuotes_cons (c : Char) (s : Text) :
    escapeQuotes (c :: s) = (if c = '\\' ∨ c = '"' then ['\\', c] else [c]) ++ escapeQuotes s := rfl

@[simp] theorem unescape_escapeQuotes (s : Text) : unescape (escapeQuotes s) = s := by
  induction s with
  | nil => rfl
  | cons c s ih =>
    rw [escapeQuotes_cons]
    split
    · simp [unescape, ih]
    · rename_i hplain
      have hc : c ≠ '\\' := fun hc => hplain (.inl hc)
      simp [unescape_plain hc, ih]

theorem quoted_oneLine {s : Text} (h : s.OneLine) : (quoted s).OneLine := by
  rw [oneLine_iff] at h ⊢
  have hmem : ∀ c, c ∉ s → c ≠ '\\' → c ∉ escapeQuotes s := by
    intro c hc hbackslash hmem
    obtain ⟨d, hd, hcd⟩ := List.mem_flatMap.1 hmem
    split at hcd
    · rcases List.mem_pair.1 hcd with rfl | rfl
      · exact hbackslash rfl
      · exact hc hd
    · rw [List.mem_singleton.1 hcd] at hc
      exact hc hd
  simp [quoted, hmem _ h.1, hmem _ h.2]

end Parley.Text

namespace Parley.Body

theorem matchStringEnd?_plain {c : Char} (hbackslash : c ≠ '\\') (hquote : c ≠ '"') (t : Text) :
    matchStringEnd? (c :: t) = (matchStringEnd? t).map (· + 1) := by
  cases t <;> simp [matchStringEnd?, hbackslash, hquote]

/-- The end of a string is the first quotation mark that is not escaped. -/
@[simp] theorem matchStringEnd?_escapeQuotes (s rest : Text) :
    matchStringEnd? (Text.escapeQuotes s ++ '"' :: rest) = some ((Text.escapeQuotes s).length + 1) := by
  induction s with
  | nil => cases rest <;> rfl
  | cons c s ih =>
    rw [Text.escapeQuotes_cons]
    split
    · simp [matchStringEnd?, ih]
    · rename_i hplain
      have hc : c ≠ '\\' ∧ c ≠ '"' := not_or.1 hplain
      simp [matchStringEnd?_plain hc.1 hc.2, ih]

@[simp] theorem matchLength?_quoted (s rest : Text) :
    TokenKind.matchLength? .string (Text.quoted s ++ rest) = some (Text.quoted s).length := by
  simp [TokenKind.matchLength?, matchString?, Text.quoted]

@[simp] theorem textOf_quoted (s : Text) : TokenKind.textOf .string (Text.quoted s) = s := by
  simp [TokenKind.textOf, Text.quoted]

theorem find?_quoted {m : Mode} (hm : m = .expression ∨ m = .inline) (s rest : Text) :
    m.find? (Text.quoted s ++ rest) = some ⟨.string, (Text.quoted s).length, none⟩ := by
  have hmatch := matchLength?_quoted s rest
  rcases hm with rfl | rfl
  · exact Mode.find?_of_rule (Mode.expression.rules.take 4) rfl rfl hmatch
  · exact Mode.find?_of_rule (Mode.inline.rules.take 2) rfl rfl hmatch

theorem begins_quoted {m : Mode} (hm : m = .expression ∨ m = .inline) (s : Text) {rest : Text}
    (hrest : rest.StartsFull) : Begins m (Text.quoted s ++ rest) [(.string, s)] m rest := by
  have hstring := begins_one _ _ (find?_quoted hm s rest)
  rw [textOf_quoted, if_neg (by decide), hrest.trimStart_eq] at hstring
  exact hstring

theorem readsExpr_string (s : Text) {x : Lexeme} (hx : operator? x.1 = none) (xs : List Lexeme) :
    ReadsExpr (.literal (.string s)) ((.string, s) :: x :: xs) (x :: xs) :=
  .binding (.literal rfl) (.stop (stops_of_none hx))

/-! Where strings stand. -/

def assignmentText (v : VariableName) (s : Text) : Text :=
  "<<set $".toList ++ (v.name ++ (" = ".toList ++ (Text.quoted s ++ ">>".toList)))

def assignmentLexemes (v : VariableName) (s : Text) : List Lexeme :=
  [(.beginCommand, "<<".toList), (.setWord, "set".toList), (.variableName, '$' :: v.name),
    (.assign, "=".toList), (.string, s), (.endCommand, ">>".toList)]

def inlineText (s : Text) : Text :=
  "\x7b".toList ++ (Text.quoted s ++ "\x7d".toList)

def inlineLexemes (s : Text) : List Lexeme :=
  [(.leftBrace, "\x7b".toList), (.string, s), (.rightBrace, "\x7d".toList)]

theorem begins_assignment (v : VariableName) (s : Text) :
    Begins .base (assignmentText v s) (assignmentLexemes v s) .base [] := by
  have hclose := begins_one ">>".toList [] (m := .expression) rfl
  have hvalue : Begins .expression (Text.quoted s ++ ">>".toList) [(.string, s)] .expression ">>".toList :=
    begins_quoted (.inl rfl) s (show Text.StartsFull ">>".toList by decide)
  have hassign := begins_token "=".toList " ".toList (Text.quoted s ++ ">>".toList) (m := .assignment) rfl
    (by decide) (by decide) (Text.StartsFull.trimStart_eq rfl)
  have hname : Begins .assignment (('$' :: v.name) ++ (" ".toList ++ ("=".toList ++ (" ".toList ++
      (Text.quoted s ++ ">>".toList))))) [(.variableName, '$' :: v.name)] .assignment
      ("=".toList ++ (" ".toList ++ (Text.quoted s ++ ">>".toList))) :=
    begins_token ('$' :: v.name) " ".toList _ (find?_variableName (.inr (.inr (.inr rfl))) v rfl)
      (by decide) (by decide) (Text.StartsFull.trimStart_eq rfl)
  have hset := begins_token "set".toList " ".toList (('$' :: v.name) ++ (" ".toList ++ ("=".toList ++
      (" ".toList ++ (Text.quoted s ++ ">>".toList))))) (m := .command) rfl (by decide) (by decide)
    (Text.StartsFull.trimStart_eq rfl)
  have hopen := begins_token "<<".toList [] ("set".toList ++ (" ".toList ++ (('$' :: v.name) ++
      (" ".toList ++ ("=".toList ++ (" ".toList ++ (Text.quoted s ++ ">>".toList)))))))
    (m := .base) rfl (by decide) (by decide) (Text.StartsFull.trimStart_eq rfl)
  exact hopen.trans (hset.trans (hname.trans (hassign.trans (hvalue.trans hclose))))

theorem begins_inline (s : Text) : Begins .base (inlineText s) (inlineLexemes s) .base [] := by
  have hopen := begins_token "\x7b".toList [] (Text.quoted s ++ "\x7d".toList) (m := .base) rfl (by decide)
    (by decide) (Text.StartsFull.trimStart_eq rfl)
  have hvalue : Begins .inline (Text.quoted s ++ "\x7d".toList) [(.string, s)] .inline "\x7d".toList :=
    begins_quoted (.inr rfl) s (show Text.StartsFull "\x7d".toList by decide)
  have hclose := begins_one "\x7d".toList [] (m := .inline) rfl
  exact hopen.trans (hvalue.trans hclose)

theorem derives_assignment (v : VariableName) (s : Text) :
    Derives (assignmentLexemes v s) [.assign v.name (.literal (.string s)) 0 []] [] := by
  have hplain : ReadsPlain (.statement (.assign (variableIn ('$' :: v.name)) (.literal (.string s)) 0 []))
      [] ((assignmentLexemes v s).tail ++ [inputEnd]) [inputEnd] :=
    .assign (readsExpr_string s rfl _) (.intro (.stop (by decide) (by decide) (by decide)))
  rw [variableIn, v.dropWhile_eq] at hplain
  exact .statement (.plain hplain) .inputEnd

theorem derives_inline (s : Text) :
    Derives (inlineLexemes s) [.line [.expr (.literal (.string s))] 0 []] [] :=
  .line (by simp) (.inline (readsExpr_string s rfl _) (.stop rfl))
    (.stop (by decide) (by decide) (by decide)) .inputEnd

theorem eq_assign_of_unnumbered {found : Statement} {name : Text} {e : Expr}
    (h : found.unnumbered = .assign name e 0 []) : ∃ number, found = .assign name e number [] := by
  cases found <;> simp [Statement.unnumbered] at h
  obtain ⟨rfl, rfl, rfl⟩ := h
  exact ⟨_, rfl⟩

theorem eq_line_of_unnumbered {found : Statement} {parts : List Part}
    (h : found.unnumbered = .line parts 0 []) : ∃ number, found = .line parts number [] := by
  cases found <;> simp [Statement.unnumbered] at h
  obtain ⟨rfl, rfl⟩ := h
  exact ⟨_, rfl⟩

/-- A string is read back as it was, in an assignment and as an inline expression. -/
theorem quoted_reads_back (v : VariableName) {s : Text} (hs : s.OneLine) :
    (∃ number, parseBody (assignmentText v s) =
      .ok [.assign v.name (.literal (.string s)) number []]) ∧
    ∃ number, parseBody (inlineText s) = .ok [.line [.expr (.literal (.string s))] number []] := by
  constructor
  · have hfull : (assignmentText v s).StartsFull := rfl
    have hone : (assignmentText v s).OneLine := by
      have hend := (Text.quoted_oneLine hs).append (show Text.OneLine ">>".toList by decide)
      have hvalue := Text.OneLine.append (show Text.OneLine " = ".toList by decide) hend
      exact Text.OneLine.append (show Text.OneLine "<<set $".toList by decide) (v.oneLine.append hvalue)
    obtain ⟨found, hparse, hfound⟩ :=
      parseBody_of_begins hfull hone (begins_assignment v s) (derives_assignment v s)
    obtain ⟨number, rfl⟩ := eq_assign_of_unnumbered hfound
    exact ⟨number, hparse⟩
  · have hfull : (inlineText s).StartsFull := rfl
    have hone : (inlineText s).OneLine := by
      have hend := (Text.quoted_oneLine hs).append (show Text.OneLine "\x7d".toList by decide)
      exact Text.OneLine.append (show Text.OneLine "\x7b".toList by decide) hend
    obtain ⟨found, hparse, hfound⟩ := parseBody_of_begins hfull hone (begins_inline s) (derives_inline s)
    obtain ⟨number, rfl⟩ := eq_line_of_unnumbered hfound
    exact ⟨number, hparse⟩

theorem quoted_reads_back_marks :
    (∃ number, parseBody (assignmentText ⟨"v".toList, by decide, by decide⟩ "\\\"\x7d>> #b // c\\".toList) =
      .ok [.assign "v".toList (.literal (.string "\\\"\x7d>> #b // c\\".toList)) number []]) ∧
    ∃ number, parseBody (inlineText "\\\"\x7d>> #b // c\\".toList) =
      .ok [.line [.expr (.literal (.string "\\\"\x7d>> #b // c\\".toList))] number []] :=
  quoted_reads_back ⟨"v".toList, by decide, by decide⟩ (by decide)

end Parley.Body
