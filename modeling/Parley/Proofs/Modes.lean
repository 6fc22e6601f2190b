import Parley.Proofs.Derivation
set_option autoImplicit false

/-!
The modes that a lexer goes through follow from the kinds of its tokens alone. Where the grammar derives
something from the tokens, a line never ends within a command or an expression.
-/

namespace Parley.Body

namespace Mode

def after (m : Mode) (kind : TokenKind) : Mode :=
  if kind = .endOfLine then (if m = .option then .base else m)
  else if kind = .text then m.afterText.getD m
  else ((m.rules.find? (·.kind = kind)).bind Rule.next).getD m

def admits (m : Mode) (kind : TokenKind) : Bool :=
  !kind.isWritten || (if kind = .text then m.hasText else m.rules.any (·.kind = kind))

def isLine : Mode → Bool
  | .base | .option => true
  | _ => false

def isInner : Mode → Bool
  | .expression | .inline | .inlineInCommand | .inlineInOption => true
  | _ => false

theorem rules_unique (m : Mode) :
    ∀ r ∈ m.rules, m.rules.find? (·.kind = r.kind) = some r ∧ r.kind ≠ .text ∧ r.kind ≠ .endOfLine := by
  cases m <;> decide

theorem find?_after {m : Mode} {t : Text} {found : Found} (h : m.find? t = some found) :
    m.admits found.kind = true ∧ found.next.getD m = m.after found.kind := by
  rcases Option.or_eq_some_iff.1 h with h | ⟨-, h⟩
  · obtain ⟨r, hr, hfound⟩ := List.exists_of_findSome?_eq_some h
    obtain ⟨n, -, rfl⟩ := Option.map_eq_some_iff.1 hfound
    obtain ⟨hfind, htext, hbreak⟩ := m.rules_unique r hr
    have hany : m.rules.any (·.kind = r.kind) = true :=
      List.any_eq_true.2 ⟨r, hr, by simp⟩
    simp [admits, after, hfind, htext, hbreak, hany]
  · split at h
    · rename_i htext
      cases h
      simp only [Bool.and_eq_true] at htext
      simp [admits, after, htext.1]
    · simp at h

theorem after_unwritten (m : Mode) {kind : TokenKind} (hkind : kind.isWritten = false)
    (hbreak : kind ≠ .endOfLine) : m.after kind = m := by
  cases kind with
  | endOfLine => exact absurd rfl hbreak
  | endOfInput | indent | dedent => cases m <;> rfl
  | _ => cases hkind

end Mode

/-- Lexemes that may come one after the other, from a mode on. -/
def Runs : Mode → List Lexeme → Prop
  | _, [] => True
  | m, x :: xs => m.admits x.1 = true ∧ Runs (m.after x.1) xs

def Tidy : Mode → List Lexeme → Prop
  | _, [] => True
  | m, x :: xs => (x.1 = .endOfLine ∨ x.1 = .endOfInput → m.isLine = true) ∧ Tidy (m.after x.1) xs

namespace Lexer

variable {l l' : Lexer} {token : Token}

theorem Step.mode_eq (h : Step l token l') :
    l.mode.admits token.kind = true ∧ l'.mode = l.mode.after token.kind := by
  cases h with
  | lineEnd => exact ⟨rfl, rfl⟩
  | closeAtEnd => exact ⟨rfl, (l.mode.after_unwritten rfl (by simp)).symm⟩
  | inputEnd => exact ⟨rfl, (l.mode.after_unwritten rfl (by simp)).symm⟩
  | opens => exact ⟨rfl, (l.mode.after_unwritten rfl (by simp)).symm⟩
  | closes => exact ⟨rfl, (l.mode.after_unwritten rfl (by simp)).symm⟩
  | reads _ hready hfind =>
    obtain ⟨hadmits, hafter⟩ := Mode.find?_after hfind
    rw [hready.mode_eq] at hadmits hafter
    rw [accept_snd, hready.mode_eq]
    exact ⟨hadmits, hafter⟩

theorem Path.runs {tokens : List Token} (h : Path l tokens l') :
    Runs l.mode (tokens.map Token.lexeme) := by
  induction h with
  | nil => trivial
  | cons head _ ih =>
    refine ⟨head.mode_eq.1, ?_⟩
    rw [head.mode_eq.2] at ih
    exact ih

end Lexer

/-- From modes of one sort to modes of another, over lexemes among which the lines end between
commands if those behind do. -/
def Keeps (p q : Mode → Prop) (xs ys : List Lexeme) : Prop :=
  ∀ m, p m → Runs m xs → ∃ m', q m' ∧ Runs m' ys ∧ (Tidy m' ys → Tidy m xs)

section Keeps

variable {p q r : Mode → Prop} {x : Lexeme} {xs ys zs : List Lexeme}

@[simp] theorem keeps_refl (p : Mode → Prop) (xs : List Lexeme) : Keeps p p xs xs :=
  fun m hm hxs => ⟨m, hm, hxs, id⟩

theorem Keeps.trans (h : Keeps p q xs ys) (h' : Keeps q r ys zs) : Keeps p r xs zs := by
  intro m hm hxs
  obtain ⟨m', hm', hys, htidy⟩ := h m hm hxs
  obtain ⟨m'', hm'', hzs, htidy'⟩ := h' m' hm' hys
  exact ⟨m'', hm'', hzs, fun h => htidy (htidy' h)⟩

theorem keeps_one (h : ∀ m, p m → m.admits x.1 = true → q (m.after x.1))
    (hline : ∀ m, p m → x.1 = .endOfLine ∨ x.1 = .endOfInput → m.isLine = true) :
    Keeps p q (x :: xs) xs :=
  fun m hm hxs => ⟨m.after x.1, h m hm hxs.1, hxs.2, fun htidy => ⟨hline m hm, htidy⟩⟩

theorem keeps_written (hx : x.1.isWritten = true)
    (h : ∀ m, p m → m.admits x.1 = true → q (m.after x.1)) : Keeps p q (x :: xs) xs := by
  refine keeps_one h ?_
  rintro m - (hbreak | hend)
  · rw [hbreak] at hx
    cases hx
  · rw [hend] at hx
    cases hx

theorem Keeps.of_imp (h : Keeps q r xs ys) (hpq : ∀ m, p m → q m) : Keeps p r xs ys :=
  fun m hm => h m (hpq m hm)

end Keeps

/-! Expressions keep their mode. -/

def TokenKind.isOperand (kind : TokenKind) : Bool :=
  operatorRules.any (·.kind = kind)

theorem after_isOperand {m : Mode} (hm : m.isInner = true) {kind : TokenKind}
    (hkind : kind.isOperand = true) : m.after kind = m ∧ kind.isWritten = true := by
  obtain ⟨r, hr, hkind⟩ := List.any_eq_true.1 hkind
  obtain rfl : r.kind = kind := by simpa using hkind
  have hall : ∀ r ∈ operatorRules, m.after r.kind = m ∧ r.kind.isWritten = true := by
    cases m with
    | expression | inline | inlineInCommand | inlineInOption => decide
    | _ => cases hm
  exact hall r hr

theorem keeps_operand {m : Mode} (hm : m.isInner = true) {x : Lexeme} (xs : List Lexeme)
    (hx : x.1.isOperand = true) : Keeps (· = m) (· = m) (x :: xs) xs := by
  refine keeps_written (after_isOperand hm hx).2 ?_
  rintro _ rfl -
  exact (after_isOperand hm hx).1

theorem isOperand_of_operator? {kind : TokenKind} {i : Operator} (h : operator? kind = some i) :
    kind.isOperand = true := by
  cases kind <;> first | rfl | cases h

theorem isOperand_of_literal? {x : Lexeme} {v : Value} (h : literal? x = some v) :
    x.1.isOperand = true := by
  obtain ⟨kind, t⟩ := x
  cases kind <;> first | rfl | cases h

theorem isOperand_of_negates {kind : TokenKind} (h : negates kind = true) :
    kind.isOperand = true := by
  cases kind <;> first | rfl | cases h

theorem Phrase.Reads.keeps {p : Phrase} {xs ys : List Lexeme} (h : p.Reads xs ys) {m : Mode}
    (hm : m.isInner = true) : Keeps (· = m) (· = m) xs ys := by
  induction h with
  | binding _ _ ihfirst ihrest => exact ihfirst.trans ihrest
  | stop => exact keeps_refl _ _
  | operator hop _ _ _ ihright ihrest =>
    exact (keeps_operand hm _ (isOperand_of_operator? hop)).trans (ihright.trans ihrest)
  | literal h => exact keeps_operand hm _ (isOperand_of_literal? h)
  | var => exact keeps_operand hm _ rfl
  | parens _ ih => exact (keeps_operand hm _ rfl).trans (ih.trans (keeps_operand hm _ rfl))
  | emptyCall =>
    exact (keeps_operand hm _ rfl).trans ((keeps_operand hm _ rfl).trans (keeps_operand hm _ rfl))
  | call _ _ ih => exact (keeps_operand hm _ rfl).trans ((keeps_operand hm _ rfl).trans ih)
  | not _ ih => exact (keeps_operand hm _ rfl).trans ih
  | negate hx _ ih => exact (keeps_operand hm _ (isOperand_of_negates hx)).trans ih
  | lastArgument _ ih => exact ih.trans (keeps_operand hm _ rfl)
  | argument _ _ ihfirst ihrest => exact ihfirst.trans ((keeps_operand hm _ rfl).trans ihrest)

/-! What stands on a line. -/

abbrev OnLine (m : Mode) : Prop := m.isLine = true

theorem keeps_line {x : Lexeme} (xs : List Lexeme) (hx : x.1.isWritten = true)
    (hbase : OnLine (Mode.base.after x.1)) (hoption : OnLine (Mode.option.after x.1)) :
    Keeps OnLine OnLine (x :: xs) xs := by
  refine keeps_written hx ?_
  intro m hm _
  cases m with
  | base => exact hbase
  | option => exact hoption
  | _ => cases hm

theorem keeps_lineEnd (t : Text) (xs : List Lexeme) :
    Keeps OnLine OnLine ((.endOfLine, t) :: xs) xs := by
  refine keeps_one ?_ fun m hm _ => hm
  intro m hm _
  cases m with
  | base | option => rfl
  | _ => cases hm

theorem Trails.keeps {hashtags : List Text} {xs ys : List Lexeme} (h : Trails hashtags xs ys) :
    Keeps OnLine OnLine xs ys := by
  induction h with
  | hashtag _ ih => exact (keeps_line _ rfl rfl rfl).trans ih
  | comment _ ih => exact (keeps_line _ rfl rfl rfl).trans ih
  | lineEnd => exact keeps_lineEnd _ _
  | stop => exact keeps_refl _ _

theorem keeps_inline {m : Mode} (hm : m.isInner = true) {e : Expr} {t u : Text}
    {xs ys : List Lexeme} (inner : ReadsExpr e xs ((.rightBrace, u) :: ys)) {p q : Mode → Prop}
    (hopen : ∀ n, p n → n.admits .leftBrace = true → n.after .leftBrace = m)
    (hclose : q (m.after .rightBrace)) : Keeps p q ((.leftBrace, t) :: xs) ys := by
  have hfirst : Keeps p (· = m) ((.leftBrace, t) :: xs) xs := keeps_written rfl hopen
  refine hfirst.trans ((inner.keeps hm).trans (keeps_written rfl ?_))
  rintro _ rfl -
  exact hclose

theorem ReadsParts.keeps {parts : List Part} {xs ys : List Lexeme} (h : ReadsParts parts xs ys) :
    Keeps OnLine OnLine xs ys := by
  induction h with
  | text _ ih => exact (keeps_line _ rfl rfl rfl).trans ih
  | escape _ ih => exact (keeps_line _ rfl rfl rfl).trans ih
  | @inline t u e parts xs ys zs inner _ ih =>
    refine Keeps.trans ?_ ih
    intro m hm hxs
    cases m with
    | base =>
      have hbase : Keeps (· = Mode.base) OnLine ((.leftBrace, t) :: xs) ys :=
        keeps_inline (m := .inline) rfl inner (by rintro _ rfl -; rfl) rfl
      exact hbase _ rfl hxs
    | option =>
      have hoption : Keeps (· = Mode.option) OnLine ((.leftBrace, t) :: xs) ys :=
        keeps_inline (m := .inlineInOption) rfl inner (by rintro _ rfl -; rfl) rfl
      exact hoption _ rfl hxs
    | _ => cases hm
  | stop => exact keeps_refl _ _

theorem ReadsCommandParts.keeps {parts : List Part} {xs ys : List Lexeme}
    (h : ReadsCommandParts parts xs ys) : Keeps (· = .command) (· = .command) xs ys := by
  induction h with
  | text _ ih =>
    refine Keeps.trans (keeps_written rfl ?_) ih
    rintro _ rfl -
    rfl
  | inline inner _ ih =>
    refine Keeps.trans (q := (· = .command)) (keeps_inline (m := .inlineInCommand) rfl inner ?_ rfl) ih
    rintro _ rfl -
    rfl
  | stop => exact keeps_refl _ _

def Mode.isCommand : Mode → Bool
  | .command | .expression | .declaration | .jump | .stop => true
  | _ => false

theorem Closes.keeps {hashtags : List Text} {xs ys : List Lexeme} (h : Closes hashtags xs ys) :
    Keeps (fun m => m.isCommand = true) OnLine xs ys := by
  cases h with
  | intro trail =>
    refine Keeps.trans (keeps_written rfl ?_) trail.keeps
    intro m hm _
    cases m with
    | command | expression | declaration | jump | stop => rfl
    | _ => cases hm

theorem keeps_beginCommand (t : Text) (xs : List Lexeme) :
    Keeps OnLine (fun m => m = .command ∨ m = .expression) ((.beginCommand, t) :: xs) xs := by
  refine keeps_written rfl ?_
  intro m hm _
  cases m with
  | base => exact .inl rfl
  | option => exact .inr rfl
  | _ => cases hm

theorem keeps_from {x : Lexeme} (xs : List Lexeme) (hx : x.1.isWritten = true) (m : Mode) :
    Keeps (· = m) (· = m.after x.1) (x :: xs) xs := by
  refine keeps_written hx ?_
  rintro _ rfl -
  rfl

/-- What does not start like an expression is read in the mode for commands. -/
theorem Keeps.of_command {x : Lexeme} {xs ys : List Lexeme} {q : Mode → Prop}
    (h : Keeps (· = .command) q (x :: xs) ys) (hx : Mode.expression.admits x.1 = false) :
    Keeps (fun m => m = .command ∨ m = .expression) q (x :: xs) ys := by
  rintro m (rfl | rfl) hxs
  · exact h _ rfl hxs
  · rw [hxs.1] at hx
    cases hx

theorem ReadsGuard.keeps {guard : Option Expr} {xs ys : List Lexeme}
    (h : ReadsGuard guard xs ys) : Keeps OnLine OnLine xs ys := by
  cases h with
  | none => exact keeps_refl _ _
  | @some t u w e xs ys condition =>
    refine (keeps_beginCommand _ _).trans (Keeps.of_command ((keeps_from _ rfl _).trans
      ((condition.keeps rfl).trans (keeps_written rfl ?_))) rfl)
    rintro _ rfl -
    rfl

theorem ReadsType.keeps {type : Option TypeName} {xs ys : List Lexeme} (h : ReadsType type xs ys) :
    Keeps (· = .expression) (· = .expression) xs ys := by
  cases h with
  | none => exact keeps_refl _ _
  | some =>
    have hword : ∀ (x : Lexeme) (xs : List Lexeme), x.1 = .asWord ∨ x.1 = .typeName →
        Keeps (· = .expression) (· = .expression) (x :: xs) xs := by
      rintro ⟨kind, t⟩ xs hkind
      refine keeps_written ?_ ?_
      · rcases hkind with rfl | rfl <;> rfl
      · rintro _ rfl -
        rcases hkind with rfl | rfl <;> rfl
    exact (hword _ _ (.inl rfl)).trans (hword _ _ (.inr rfl))

theorem ReadsTarget.keeps {target : JumpTarget} {xs ys : List Lexeme}
    (h : ReadsTarget target xs ys) : Keeps (· = .jump) (fun m => m.isCommand = true) xs ys := by
  cases h with
  | title =>
    refine keeps_written rfl ?_
    rintro _ rfl -
    rfl
  | expr inner =>
    refine keeps_inline (m := .inlineInCommand) rfl inner ?_ rfl
    rintro _ rfl -
    rfl

theorem ReadsPlain.keeps {c : Command} {ds : List Declaration} {xs ys : List Lexeme}
    (h : ReadsPlain c ds xs ys) : Keeps (· = .command) OnLine xs ys := by
  cases h with
  | assign right close =>
    exact (keeps_from _ rfl _).trans ((keeps_from _ rfl _).trans ((keeps_from _ rfl _).trans
      ((right.keeps rfl).trans (close.keeps.of_imp (by rintro _ rfl; rfl)))))
  | declare right typed close =>
    exact (keeps_from _ rfl _).trans ((keeps_from _ rfl _).trans ((keeps_from _ rfl _).trans
      ((right.keeps rfl).trans (typed.keeps.trans (close.keeps.of_imp (by rintro _ rfl; rfl))))))
  | jump aim close => exact (keeps_from _ rfl _).trans (aim.keeps.trans close.keeps)
  | stop close => exact (keeps_from _ rfl _).trans (close.keeps.of_imp (by rintro _ rfl; rfl))
  | generic _ words close => exact words.keeps.trans (close.keeps.of_imp (by rintro _ rfl; rfl))

/-! Blocks. -/

/-- The modes that a passage may start in. A command that is opened in place of the text of an option
is in the wrong mode from the start. -/
def Passage.Starts : Passage → Mode → Prop
  | .command _, m => m = .command ∨ m = .expression
  | _, m => OnLine m

theorem ReadsPlain.starts {c : Command} {ds : List Declaration} {xs ys : List Lexeme}
    (h : ReadsPlain c ds xs ys) : ∃ x rest, xs = x :: rest ∧ Mode.expression.admits x.1 = false := by
  cases h with
  | generic hparts words _ =>
    cases words with
    | text => exact ⟨_, _, rfl, rfl⟩
    | inline => exact ⟨_, _, rfl, rfl⟩
    | stop => exact absurd rfl hparts
  | _ => exact ⟨_, _, rfl, rfl⟩

theorem Passage.Reads.keeps {p : Passage} {ds : List Declaration} {xs ys : List Lexeme}
    (h : p.Reads ds xs ys) : Keeps p.Starts OnLine xs ys := by
  induction h with
  | @idle ss e ds x xs ys hx _ ih =>
    refine Keeps.trans ?_ ih
    obtain ⟨kind, t⟩ := x
    have hcases : kind = .endOfLine ∨ kind = .comment := by simpa [isIdle] using hx
    rcases hcases with rfl | rfl
    · exact keeps_lineEnd _ _
    · exact keeps_line _ rfl rfl rfl
  | inputEnd => exact keeps_refl _ _
  | dedent =>
    refine keeps_one ?_ (by simp)
    intro m hm _
    rw [m.after_unwritten rfl (by simp)]
    exact hm
  | option _ _ ihfirst ihrest => exact ihfirst.trans ihrest
  | line _ first trail _ ih => exact first.keeps.trans (trail.keeps.trans ih)
  | statement _ _ ihfirst ihrest => exact (keeps_beginCommand _ _).trans (ihfirst.trans ihrest)
  | declaration _ _ ihfirst ihrest => exact (keeps_beginCommand _ _).trans (ihfirst.trans ihrest)
  | ending _ ih => exact (keeps_beginCommand _ _).trans ih
  | leaf _ label hguard trail _ =>
    refine Keeps.trans (keeps_line _ rfl rfl rfl) (label.keeps.trans (hguard.keeps.trans trail.keeps))
  | nested _ label hguard trail _ ih =>
    refine Keeps.trans (keeps_line _ rfl rfl rfl) (label.keeps.trans (hguard.keeps.trans
      (trail.keeps.trans (Keeps.trans (keeps_one ?_ (by simp)) ih))))
    intro m hm _
    rw [m.after_unwritten rfl (by simp)]
    exact hm
  | plain h =>
    obtain ⟨x, rest, rfl, hx⟩ := h.starts
    exact h.keeps.of_command hx
  | branch test close _ ih =>
    refine Keeps.of_command ((keeps_from _ rfl _).trans ((test.keeps rfl).trans
      (Keeps.trans (close.keeps.of_imp ?_) ih))) rfl
    rintro _ rfl
    rfl
  | elseif test close =>
    refine Keeps.of_command ((keeps_from _ rfl _).trans ((test.keeps rfl).trans
      (close.keeps.of_imp ?_))) rfl
    rintro _ rfl
    rfl
  | otherwise close =>
    exact Keeps.of_command ((keeps_from _ rfl _).trans (close.keeps.of_imp (by rintro _ rfl; rfl))) rfl
  | endif close =>
    exact Keeps.of_command ((keeps_from _ rfl _).trans (close.keeps.of_imp (by rintro _ rfl; rfl))) rfl
  | lastArm _ ih => exact ih
  | nextArm _ _ ihbody ihrest => exact ihbody.trans ihrest
  | elseArm _ _ ihbody ihrest => exact ihbody.trans ihrest

/-- In a body that the grammar derives something from, lines end between commands. -/
theorem tidy_of_derives {xs : List Lexeme} {ss : List Statement} {ds : List Declaration}
    (h : Derives xs ss ds) (hruns : Runs .base (xs ++ [inputEnd])) : Tidy .base (xs ++ [inputEnd]) := by
  obtain ⟨m, hm, -, htidy⟩ := h.keeps .base rfl hruns
  exact htidy ⟨fun _ => hm, trivial⟩

end Parley.Body
