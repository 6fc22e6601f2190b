import Parley.Proofs.SingleLine
set_option autoImplicit false

/-!
Conditions behind the labels of options.

A label is made of runs of plain text, escaped characters and inline variables. The condition behind it
is looked for as in any line, but only once a run of text has been read: a label without one leaves the
lexer in the mode for labels, in which the word `if` is a name like any other. Behind the first run the
label also goes on like any line, and a run that begins with an arrow begins another option.
-/

namespace Parley.Body

/-! Labels. -/

inductive LabelPart where
  | run (t : Text)
  | escaped (c : Char)
  | inline (v : VariableName)

namespace LabelPart

def text : LabelPart → Text
  | .run t => t
  | .escaped c => ['\\', c]
  | .inline v => "\x7b".toList ++ (('$' :: v.name) ++ "\x7d".toList)

def part : LabelPart → Part
  | .run t => .text t
  | .escaped c => .escaped [c]
  | .inline v => .expr (.var v.name)

def lexemes : LabelPart → List Lexeme
  | .run t => [(.text, t)]
  | .escaped c => [(.escape, ['\\', c])]
  | .inline v =>
    [(.leftBrace, "\x7b".toList), (.variableName, '$' :: v.name), (.rightBrace, "\x7d".toList)]

def isRun : LabelPart → Bool
  | .run _ => true
  | _ => false

end LabelPart

def labelText (label : List LabelPart) : Text :=
  label.flatMap LabelPart.text

def labelLexemes (label : List LabelPart) : List Lexeme :=
  label.flatMap LabelPart.lexemes

@[simp] theorem labelText_cons (p : LabelPart) (label : List LabelPart) :
    labelText (p :: label) = p.text ++ labelText label := rfl

/-- No delimiter begins within the text when some other text stands behind it. -/
def isClear : Text → Text → Bool
  | [], _ => true
  | c :: t, rest => !Mode.base.delimiterAt (c :: t ++ rest) && isClear t rest

/-- Labels in front of some text. Runs are as long as they can be, so that no two of them meet. -/
inductive IsLabel (rest : Text) : List LabelPart → Prop where
  | done : IsLabel rest []
  | run {t : Text} {label : List LabelPart} (hne : t ≠ []) (hone : t.OneLine)
      (hclear : isClear t (labelText label ++ rest) = true)
      (hnext : label.head?.any LabelPart.isRun = false) (tail : IsLabel rest label) :
      IsLabel rest (.run t :: label)
  | escaped {c : Char} {label : List LabelPart} (hone : Text.OneLine [c]) (tail : IsLabel rest label) :
      IsLabel rest (.escaped c :: label)
  | inline {v : VariableName} {label : List LabelPart} (tail : IsLabel rest label) :
      IsLabel rest (.inline v :: label)

structure GuardedOption where
  label : List LabelPart
  guard : VariableName
  isLabel : IsLabel (conditionText "if".toList guard) label
  full : (labelText label).StartsFull

def GuardedOption.text (o : GuardedOption) : Text :=
  "-> ".toList ++ (labelText o.label ++ conditionText "if".toList o.guard)

theorem IsLabel.oneLine {rest : Text} {label : List LabelPart} (h : IsLabel rest label) :
    (labelText label).OneLine := by
  induction h with
  | done => rfl
  | run _ hone _ _ _ ih => exact hone.append ih
  | escaped hone _ ih =>
    exact Text.OneLine.append (Text.OneLine.append (show Text.OneLine ['\\'] by decide) hone) ih
  | @inline v _ _ ih =>
    have hname : Text.OneLine (('$' :: v.name) ++ "\x7d".toList) :=
      Text.OneLine.append (Text.OneLine.append (show Text.OneLine ['$'] by decide) v.oneLine) (by decide)
    exact Text.OneLine.append (Text.OneLine.append (show Text.OneLine "\x7b".toList by decide) hname) ih

theorem IsLabel.behind {rest : Text} {front back : List LabelPart} (h : IsLabel rest (front ++ back)) :
    IsLabel rest back := by
  induction front with
  | nil => exact h
  | cons p front ih =>
    cases h with
    | run _ _ _ _ tail => exact ih tail
    | escaped _ tail => exact ih tail
    | inline tail => exact ih tail

/-! The lexemes of a label. -/

theorem delimiterAt_eq {m : Mode} (hm : IsProse m) (t : Text) :
    m.delimiterAt t = Mode.base.delimiterAt t := by
  rcases hm with rfl | rfl <;> rfl

theorem isSpecial_of_delimiterAt {c : Char} {t : Text} (h : Mode.base.delimiterAt (c :: t) = true) :
    isSpecial c = true := by
  by_contra hc
  rw [delimiterAt_plain (.inl rfl) (by simpa using hc)] at h
  cases h

theorem startsFull_of_delimiterAt {t : Text} (h : Mode.base.delimiterAt t = true) : t.StartsFull := by
  cases t with
  | nil => cases h
  | cons c t =>
    have hc := isSpecial_of_delimiterAt h
    simp only [isSpecial, Bool.or_eq_true, beq_iff_eq] at hc
    obtain (((rfl | rfl) | rfl) | rfl) | rfl := hc <;> rfl

theorem delimiterAt_label {rest : Text} (hrest : Mode.base.delimiterAt rest = true)
    {label : List LabelPart} (h : label.head?.any LabelPart.isRun = false) :
    Mode.base.delimiterAt (labelText label ++ rest) = true := by
  cases label with
  | nil => exact hrest
  | cons p label =>
    cases p with
    | run t => simp [LabelPart.isRun] at h
    | escaped c => rfl
    | inline v => rfl

theorem textLength_clear {m : Mode} (hm : IsProse m) {t rest : Text} (h : isClear t rest = true)
    (hrest : Mode.base.delimiterAt rest = true) : m.textLength (t ++ rest) = t.length := by
  induction t with
  | nil =>
    cases rest with
    | nil => rfl
    | cons c rest => simp [Mode.textLength, delimiterAt_eq hm, hrest]
  | cons c t ih =>
    simp only [isClear, List.cons_append, Bool.and_eq_true, Bool.not_eq_true'] at h
    simp [Mode.textLength, delimiterAt_eq hm, h.1, ih h.2]

structure RunsUpTo (t rest : Text) : Prop where
  ne_nil : t ≠ []
  clear : isClear t rest = true
  delimiter : Mode.base.delimiterAt rest = true

theorem RunsUpTo.matchLength?_eq {m : Mode} (hm : IsProse m) {t rest : Text} (h : RunsUpTo t rest) :
    ∀ r ∈ m.delimiters, r.kind.matchLength? (t ++ rest) = none := by
  obtain ⟨hne, hclear, -⟩ := h
  have hnot : m.delimiterAt (t ++ rest) = false := by
    rw [delimiterAt_eq hm]
    cases t with
    | nil => exact absurd rfl hne
    | cons c t =>
      simp only [isClear, Bool.and_eq_true, Bool.not_eq_true'] at hclear
      exact hclear.1
  intro r hr
  simpa using List.any_eq_false.1 hnot r hr

theorem RunsUpTo.startsWith_arrow {t rest : Text} (h : RunsUpTo t rest) :
    Text.startsWith "->".toList (t ++ rest) = Text.startsWith "->".toList t := by
  obtain ⟨hne, -, hrest⟩ := h
  match t, rest with
  | [], _ => exact absurd rfl hne
  | [c], [] => cases hrest
  | [c], d :: rest =>
    -- No delimiter begins with the second character of an arrow.
    have hd : ¬ '>' = d := by
      rintro rfl
      exact absurd (isSpecial_of_delimiterAt hrest) (by decide)
    simp [Text.startsWith, Text.afterPrefix?, hd]
  | c :: d :: t, _ =>
    simp only [Text.startsWith, String.reduceToList, List.cons_append, Text.afterPrefix?]
    split_ifs <;> rfl

theorem RunsUpTo.find?_text {m : Mode} (hm : IsProse m) {t rest : Text} (h : RunsUpTo t rest)
    (harrow : m = .base → Text.startsWith "->".toList t = false) :
    m.find? (t ++ rest) = some ⟨.text, t.length, m.afterText⟩ := by
  have hlength := textLength_clear hm h.clear h.delimiter
  have hpos : 0 < t.length := List.length_pos_iff.2 h.ne_nil
  have hrules : ∀ r ∈ m.rules, r.kind.matchLength? (t ++ rest) = none := by
    rcases hm with rfl | rfl
    · intro r hr
      rcases List.mem_append.1 hr with hr | hr
      · exact h.matchLength?_eq (.inl rfl) r hr
      · rw [List.mem_singleton.1 hr]
        simp only [TokenKind.matchLength?, matchSymbol?, h.startsWith_arrow, harrow rfl,
          Bool.false_eq_true, if_false]
    · exact h.matchLength?_eq (.inr rfl)
  have hnone : (m.rules.findSome? fun r =>
      (r.kind.matchLength? (t ++ rest)).map fun n => (⟨r.kind, n, r.next⟩ : Mode.Found)) = none := by
    rw [List.findSome?_eq_none_iff]
    intro r hr
    rw [hrules r hr]
    rfl
  unfold Mode.find?
  rw [hnone, hlength]
  rcases hm with rfl | rfl <;> simp [Mode.hasText, hpos]

theorem begins_run {m : Mode} (hm : IsProse m) {t rest : Text} (h : RunsUpTo t rest)
    (harrow : m = .base → Text.startsWith "->".toList t = false) :
    Begins m (t ++ rest) [(.text, t)] .base rest := by
  have hone := begins_one t rest (h.find?_text hm harrow)
  rw [(startsFull_of_delimiterAt h.delimiter).trimStart_eq] at hone
  rcases hm with rfl | rfl <;> exact hone

theorem begins_arrow {t rest : Text} (h : RunsUpTo t rest)
    (harrow : Text.startsWith "->".toList t = true) :
    ∃ behind, Begins .base (t ++ rest) [(.arrow, "->".toList)] .option behind := by
  obtain ⟨tail, htail⟩ := Option.isSome_iff_exists.1 harrow
  obtain rfl := Text.eq_append_of_afterPrefix? htail
  have hmatch : TokenKind.matchLength? .arrow ("->".toList ++ tail ++ rest) =
      some "->".toList.length := by
    simp only [TokenKind.matchLength?, matchSymbol?, h.startsWith_arrow, harrow, if_true]
  have hfind := Mode.find?_of_rule (m := .base) Mode.base.delimiters rfl
    (by simpa using h.matchLength?_eq (.inl rfl)) hmatch
  rw [List.append_assoc] at hfind ⊢
  exact ⟨_, begins_one "->".toList (tail ++ rest) hfind⟩

theorem begins_escaped {m : Mode} (hm : IsProse m) (c : Char) (rest : Text) :
    Begins m (['\\', c] ++ rest) [(.escape, ['\\', c])] m rest := by
  rcases hm with rfl | rfl
  · exact begins_one ['\\', c] rest (show Mode.base.find? _ = some ⟨.escape, 2, none⟩ from rfl)
  · exact begins_one ['\\', c] rest (show Mode.option.find? _ = some ⟨.escape, 2, none⟩ from rfl)

theorem begins_variable {m : Mode} (hm : IsProse m) (v : VariableName) (rest : Text) :
    Begins m ((LabelPart.inline v).text ++ rest) (LabelPart.inline v).lexemes m rest := by
  have hfull : Text.StartsFull ("\x7d".toList ++ rest) := rfl
  have hname {inner : Mode} (hinner : inner.HoldsVariables) :
      Begins inner (('$' :: v.name) ++ ([] ++ ("\x7d".toList ++ rest))) [(.variableName, '$' :: v.name)]
        inner ("\x7d".toList ++ rest) :=
    begins_token ('$' :: v.name) [] _ (find?_variableName hinner v rfl) (by decide) rfl hfull.trimStart_eq
  rw [LabelPart.text, List.append_assoc, List.append_assoc]
  rcases hm with rfl | rfl
  · have hopen := begins_token "\x7b".toList [] (('$' :: v.name) ++ ("\x7d".toList ++ rest)) (m := .base)
      rfl (by decide) rfl (Text.StartsFull.trimStart_eq rfl)
    have hclose := begins_one "\x7d".toList rest (m := .inline) rfl
    exact hopen.trans ((hname (.inr (.inl rfl))).trans hclose)
  · have hopen := begins_token "\x7b".toList [] (('$' :: v.name) ++ ("\x7d".toList ++ rest)) (m := .option)
      rfl (by decide) rfl (Text.StartsFull.trimStart_eq rfl)
    have hclose := begins_one "\x7d".toList rest (m := .inlineInOption) rfl
    exact hopen.trans ((hname (.inr (.inr (.inl rfl)))).trans hclose)

/-- The mode behind the front of a label: the first run of text ends the mode for labels. -/
def modeBehind (m : Mode) (front : List LabelPart) : Mode :=
  if front.any LabelPart.isRun then .base else m

/-- No run that is read like any line begins with an arrow. -/
def Unbroken (m : Mode) (label : List LabelPart) : Prop :=
  ∀ front t behind, label = front ++ .run t :: behind → modeBehind m front = .base →
    Text.startsWith "->".toList t = false

theorem IsProse.modeBehind {m : Mode} (hm : IsProse m) (front : List LabelPart) :
    IsProse (modeBehind m front) := by
  unfold Body.modeBehind
  split
  · exact .inl rfl
  · exact hm

theorem modeBehind_option_iff (front : List LabelPart) :
    modeBehind .option front = .base ↔ front.any LabelPart.isRun = true := by
  unfold modeBehind
  split <;> simp_all

theorem modeBehind_cons (m : Mode) (p : LabelPart) (front : List LabelPart) :
    modeBehind m (p :: front) = modeBehind (modeBehind m [p]) front := by
  cases p <;> simp [modeBehind, LabelPart.isRun]

theorem unbroken_cons_iff {m : Mode} {p : LabelPart} {label : List LabelPart} :
    Unbroken m (p :: label) ↔
      (∀ t, p = .run t → m = .base → Text.startsWith "->".toList t = false) ∧
        Unbroken (modeBehind m [p]) label := by
  constructor
  · intro h
    refine ⟨fun t hp hm => h [] t label (by rw [hp]; rfl) hm, ?_⟩
    rintro front t behind rfl hmode
    exact h (p :: front) t behind rfl ((modeBehind_cons m p front).trans hmode)
  · rintro ⟨hp, h⟩ front t behind hlabel hmode
    cases front with
    | nil =>
      obtain ⟨rfl, rfl⟩ := List.cons.inj hlabel
      exact hp t rfl hmode
    | cons q front =>
      obtain ⟨rfl, rfl⟩ := List.cons.inj hlabel
      exact h front t behind rfl ((modeBehind_cons m p front).symm.trans hmode)

/-- Where a label is broken, its front up to there is not. -/
theorem exists_of_not_unbroken {m : Mode} {label : List LabelPart} (h : ¬ Unbroken m label) :
    ∃ front t behind, label = front ++ .run t :: behind ∧ Unbroken m front ∧
      modeBehind m front = .base ∧ Text.startsWith "->".toList t = true := by
  induction label generalizing m with
  | nil => exact absurd (fun front t behind hlabel => by simp at hlabel) h
  | cons p label ih =>
    by_cases hp : ∀ t, p = .run t → m = .base → Text.startsWith "->".toList t = false
    · have hlabel : ¬ Unbroken (modeBehind m [p]) label := fun hlabel =>
        h (unbroken_cons_iff.2 ⟨hp, hlabel⟩)
      obtain ⟨front, t, behind, rfl, hfront, hmode, harrow⟩ := ih hlabel
      exact ⟨p :: front, t, behind, rfl, unbroken_cons_iff.2 ⟨hp, hfront⟩,
        (modeBehind_cons m p front).trans hmode, harrow⟩
    · push Not at hp
      obtain ⟨t, rfl, rfl, harrow⟩ := hp
      exact ⟨[], t, label, rfl, fun front t behind hnil => by simp at hnil, rfl, by simpa using harrow⟩

theorem begins_front {rest : Text} (hrest : Mode.base.delimiterAt rest = true) {m : Mode}
    (hm : IsProse m) {front back : List LabelPart} (h : IsLabel rest (front ++ back))
    (hfront : Unbroken m front) :
    Begins m (labelText (front ++ back) ++ rest) (labelLexemes front) (modeBehind m front)
      (labelText back ++ rest) := by
  induction front generalizing m with
  | nil => exact begins_refl m _
  | cons p front ih =>
    rw [unbroken_cons_iff] at hfront
    have htext : labelText (p :: front ++ back) ++ rest =
        p.text ++ (labelText (front ++ back) ++ rest) := by
      rw [List.cons_append, labelText_cons, List.append_assoc]
    have hfirst : Begins m (p.text ++ (labelText (front ++ back) ++ rest)) p.lexemes (modeBehind m [p])
        (labelText (front ++ back) ++ rest) ∧ IsLabel rest (front ++ back) := by
      cases h with
      | run hne hone hclear hnext tail =>
        exact ⟨begins_run hm ⟨hne, hclear, delimiterAt_label hrest hnext⟩ (hfront.1 _ rfl), tail⟩
      | escaped hone tail => exact ⟨begins_escaped hm _ _, tail⟩
      | inline tail => exact ⟨begins_variable hm _ _, tail⟩
    rw [htext, modeBehind_cons]
    exact hfirst.1.trans (ih (hm.modeBehind [p]) hfirst.2 hfront.2)

/-! The grammar of labels. -/

theorem readsExpr_variable (v : VariableName) {x : Lexeme} (hx : operator? x.1 = none)
    (xs : List Lexeme) :
    ReadsExpr (.var v.name) ((.variableName, '$' :: v.name) :: x :: xs) (x :: xs) := by
  have hvar : (Phrase.operand (.var (variableIn ('$' :: v.name)))).Reads
      ((.variableName, '$' :: v.name) :: x :: xs) (x :: xs) := .var
  rw [variableIn, v.dropWhile_eq] at hvar
  exact .binding hvar (.stop (stops_of_none hx))

theorem eq_of_readsExpr_variable {e : Expr} {t : Text} {x : Lexeme} (hx : operator? x.1 = none)
    {xs ys : List Lexeme} (h : ReadsExpr e ((.variableName, t) :: x :: xs) ys) : ys = x :: xs := by
  cases h with
  | binding first rest =>
    cases first with
    | literal h => cases h
    | negate hnegates => cases hnegates
    | var =>
      cases rest with
      | stop => rfl
      | operator hop =>
        rw [hx] at hop
        cases hop

theorem readsParts_label (label : List LabelPart) {x : Lexeme} (hx : isPart x.1 = false)
    (xs : List Lexeme) :
    ReadsParts (label.map LabelPart.part) (labelLexemes label ++ x :: xs) (x :: xs) := by
  induction label with
  | nil => exact .stop hx
  | cons p label ih =>
    cases p with
    | run t => exact .text ih
    | escaped c => exact .escape (t := ['\\', c]) ih
    | inline v => exact .inline (readsExpr_variable v rfl _) ih

theorem eq_of_readsParts_label {parts : List Part} {label : List LabelPart} {x : Lexeme}
    (hx : isPart x.1 = false) {xs ys : List Lexeme}
    (h : ReadsParts parts (labelLexemes label ++ x :: xs) ys) : ys = x :: xs := by
  induction label generalizing parts with
  | nil =>
    cases h with
    | stop => rfl
    | _ => cases hx
  | cons p label ih =>
    cases p with
    | run t =>
      cases h with
      | text rest => exact ih rest
      | stop hstop => cases hstop
    | escaped c =>
      cases h with
      | escape rest => exact ih rest
      | stop hstop => cases hstop
    | inline v =>
      cases h with
      | inline inner rest =>
        obtain ⟨-, rfl⟩ := List.cons.inj (eq_of_readsExpr_variable rfl inner)
        exact ih rest
      | stop hstop => cases hstop

theorem not_derives_label {t : Text} {label : List LabelPart} {x : Lexeme} {xs : List Lexeme}
    {parts : List Part} {e : Expr} {ds : List Declaration} (hx : isPart x.1 = false)
    (hguard : ∀ ys, ¬ ReadsGuard (some e) (x :: (xs ++ [inputEnd])) ys) :
    ¬ Derives ((.arrow, t) :: (labelLexemes label ++ x :: xs))
      [.option ⟨parts, some e, none, 0, []⟩] ds := by
  intro h
  cases h with
  | idle hidle => cases hidle
  | option first rest =>
    cases first with
    | leaf hparts hlabel condition trail hleaf =>
      rw [List.append_eq, List.append_assoc, List.cons_append] at hlabel
      rw [eq_of_readsParts_label hx hlabel] at condition
      exact hguard _ condition

/-! Conditions. -/

theorem begins_condition (v : VariableName) :
    Begins .base (conditionText "if".toList v) (conditionLexemes .ifWord "if".toList v) .base [] := by
  have hname : Begins .expression (('$' :: v.name) ++ ([] ++ ">>".toList))
      [(.variableName, '$' :: v.name)] .expression ">>".toList :=
    begins_token ('$' :: v.name) [] _ (find?_variableName (.inl rfl) v rfl) (by decide) rfl rfl
  have hopen := begins_token "<<".toList [] ("if".toList ++ (" ".toList ++ (('$' :: v.name) ++ ">>".toList)))
    (m := .base) rfl (by decide) rfl (Text.StartsFull.trimStart_eq rfl)
  have hword := begins_token "if".toList " ".toList (('$' :: v.name) ++ ">>".toList) (m := .command) rfl
    (by decide) rfl (Text.StartsFull.trimStart_eq rfl)
  have hclose := begins_one ">>".toList [] (m := .expression) rfl
  exact hopen.trans (hword.trans (hname.trans hclose))

/-- In the mode for labels the word of a condition is a name. -/
theorem begins_condition_option (v : VariableName) : ∃ m rest, Begins .option
    (conditionText "if".toList v) [(.beginCommand, "<<".toList), (.identifier, "if".toList)] m rest := by
  have hopen := begins_token "<<".toList [] ("if".toList ++ (" ".toList ++ (('$' :: v.name) ++ ">>".toList)))
    (m := .option) rfl (by decide) rfl (Text.StartsFull.trimStart_eq rfl)
  have hword := begins_token "if".toList " ".toList (('$' :: v.name) ++ ">>".toList) (m := .expression) rfl
    (by decide) rfl (Text.StartsFull.trimStart_eq rfl)
  exact ⟨_, _, hopen.trans hword⟩

/-! Options with a condition. -/

theorem eq_option_of_unnumbered {found : Statement} {parts : List Part} {guard : Option Expr}
    (h : found.unnumbered = .option ⟨parts, guard, none, 0, []⟩) :
    ∃ number, found = .option ⟨parts, guard, none, number, []⟩ := by
  cases found <;> simp [Statement.unnumbered] at h
  rename_i o
  obtain ⟨label, guard, body, number, hashtags⟩ := o
  simp only [Choice.unnumbered, Choice.mk.injEq] at h
  obtain ⟨rfl, rfl, hbody, -, rfl⟩ := h
  cases body with
  | none => exact ⟨number, rfl⟩
  | some body => cases hbody

namespace GuardedOption

variable (o : GuardedOption)

theorem startsFull : o.text.StartsFull := rfl

theorem oneLine : o.text.OneLine := by
  have hcondition : (conditionText "if".toList o.guard).OneLine :=
    conditionText_oneLine (by decide) o.guard
  exact Text.OneLine.append (show Text.OneLine "-> ".toList by decide)
    (o.isLabel.oneLine.append hcondition)

theorem delimiterAt_condition : Mode.base.delimiterAt (conditionText "if".toList o.guard) = true := rfl

theorem begins_option {front back : List LabelPart} (hlabel : o.label = front ++ back)
    (hfront : Unbroken .option front) :
    Begins .base o.text ((.arrow, "->".toList) :: labelLexemes front) (modeBehind .option front)
      (labelText back ++ conditionText "if".toList o.guard) := by
  have hfull := o.full.append (conditionText "if".toList o.guard)
  have harrow := begins_token "->".toList " ".toList (labelText o.label ++ conditionText "if".toList o.guard)
    (m := .base) rfl (by decide) (by decide) hfull.trimStart_eq
  have hrest := begins_front o.delimiterAt_condition (.inr rfl) (hlabel ▸ o.isLabel) hfront
  rw [← hlabel] at hrest
  exact harrow.trans hrest

theorem runsUpTo {front behind : List LabelPart} {t : Text}
    (hlabel : o.label = front ++ .run t :: behind) :
    RunsUpTo t (labelText behind ++ conditionText "if".toList o.guard) := by
  have hrun : IsLabel (conditionText "if".toList o.guard) (.run t :: behind) :=
    IsLabel.behind (hlabel ▸ o.isLabel)
  cases hrun with
  | run hne hone hclear hnext tail =>
    exact ⟨hne, hclear, delimiterAt_label o.delimiterAt_condition hnext⟩

def statement (number : Nat) : Statement :=
  .option ⟨o.label.map LabelPart.part, some (.var o.guard.name), none, number, []⟩

theorem derives : Derives ((.arrow, "->".toList) :: (labelLexemes o.label ++
    conditionLexemes .ifWord "if".toList o.guard)) [o.statement 0] [] := by
  have hparts : o.label.map LabelPart.part ≠ [] := by
    have hfull := o.full
    cases hlabel : o.label with
    | nil => simp [hlabel, labelText, Text.StartsFull] at hfull
    | cons p label => simp
  have hlabel := readsParts_label o.label (x := (.beginCommand, "<<".toList)) rfl
    ((conditionLexemes .ifWord "if".toList o.guard).tail ++ [inputEnd])
  have hguard : ReadsGuard (some (.var o.guard.name))
      (conditionLexemes .ifWord "if".toList o.guard ++ [inputEnd]) [inputEnd] :=
    .some (readsExpr_variable o.guard rfl _)
  have hoption : (Passage.option ⟨o.label.map LabelPart.part, some (.var o.guard.name), none, 0, []⟩).Reads
      [] ((.arrow, "->".toList) :: (labelLexemes o.label ++
        (conditionLexemes .ifWord "if".toList o.guard ++ [inputEnd]))) [inputEnd] :=
    .leaf hparts hlabel hguard (.stop (by decide) (by decide) (by decide)) (by decide)
  rw [← List.append_assoc] at hoption
  exact .option hoption .inputEnd

theorem exists_parseBody (hmode : modeBehind .option o.label = .base)
    (hlabel : Unbroken .option o.label) : ∃ number, parseBody o.text = .ok [o.statement number] := by
  have hbegins := o.begins_option (List.append_nil _).symm hlabel
  rw [hmode] at hbegins
  obtain ⟨found, hparse, hfound⟩ := parseBody_of_begins o.startsFull o.oneLine
    (hbegins.trans (begins_condition o.guard)) o.derives
  obtain ⟨number, rfl⟩ := eq_option_of_unnumbered hfound
  exact ⟨number, hparse⟩

theorem not_derives (h : ¬ (modeBehind .option o.label = .base ∧ Unbroken .option o.label))
    {xs : List Lexeme} {m : Mode} {starts : Bool} (hscan : Scan .base o.text xs m starts)
    (ds : List Declaration) : ¬ Derives xs [o.statement 0] ds := by
  by_cases hlabel : Unbroken .option o.label
  · -- No run was read, and the condition comes in the mode for labels.
    have hmode : modeBehind .option o.label = .option := by
      unfold modeBehind at h ⊢
      split at h <;> simp_all
    obtain ⟨m', rest, hcondition⟩ := begins_condition_option o.guard
    have hbegins := o.begins_option (List.append_nil _).symm hlabel
    rw [hmode] at hbegins
    obtain ⟨ys, hxs, -⟩ := ((hbegins.trans hcondition) xs m).1 ⟨starts, hscan⟩
    rw [List.append_assoc, List.cons_append] at hxs
    rw [hxs]
    refine not_derives_label rfl ?_
    rintro zs ⟨⟩
  · -- Another option begins where the label is broken.
    obtain ⟨front, t, behind, hfront, hunbroken, hmode, harrow⟩ := exists_of_not_unbroken hlabel
    obtain ⟨rest, hrest⟩ := begins_arrow (o.runsUpTo hfront) harrow
    have hbegins := o.begins_option hfront hunbroken
    rw [hmode, labelText_cons, List.append_assoc] at hbegins
    obtain ⟨ys, hxs, -⟩ := ((hbegins.trans hrest) xs m).1 ⟨starts, hscan⟩
    rw [List.append_assoc, List.cons_append] at hxs
    rw [hxs]
    refine not_derives_label rfl ?_
    rintro zs ⟨⟩

end GuardedOption

/-- The condition of an option is recognised exactly if there is a run of text in the label and no
later run begins with an arrow. -/
theorem guard_recognised_iff (o : GuardedOption) :
    (∃ number, parseBody o.text = .ok [o.statement number]) ↔
      o.label.any LabelPart.isRun = true ∧ ∀ front t behind, o.label = front ++ .run t :: behind →
        front.any LabelPart.isRun = true → Text.startsWith "->".toList t = false := by
  have hlabel : (∀ front t behind, o.label = front ++ .run t :: behind →
      front.any LabelPart.isRun = true → Text.startsWith "->".toList t = false) ↔
        Unbroken .option o.label := by
    simp only [Unbroken, modeBehind_option_iff]
  rw [hlabel, ← modeBehind_option_iff]
  constructor
  · rintro ⟨number, hparse⟩
    obtain ⟨xs, m, ds, ⟨starts, hscan⟩, -, hderives, -⟩ :=
      (parseBody_line_iff o.startsFull o.oneLine [o.statement 0]).1 ⟨_, hparse, rfl⟩
    by_contra h
    exact o.not_derives h hscan ds hderives
  · rintro ⟨hrun, hunbroken⟩
    exact o.exists_parseBody hrun hunbroken

theorem guard_recognised_variable :
    (∃ number, parseBody (GuardedOption.text
        ⟨[.run "a".toList, .inline ⟨"v".toList, by decide, by decide⟩],
          ⟨"c".toList, by decide, by decide⟩, .run (by decide) rfl rfl rfl (.inline .done), rfl⟩) =
      .ok [.option ⟨[.text "a".toList, .expr (.var "v".toList)], some (.var "c".toList), none, number,
        []⟩]) ∧
    ¬ ∃ number, parseBody (GuardedOption.text ⟨[.inline ⟨"v".toList, by decide, by decide⟩],
        ⟨"c".toList, by decide, by decide⟩, .inline .done, rfl⟩) =
      .ok [.option ⟨[.expr (.var "v".toList)], some (.var "c".toList), none, number, []⟩] := by
  constructor
  · refine (guard_recognised_iff _).2 ⟨rfl, ?_⟩
    intro front t behind hlabel hrun
    have hlength := congrArg List.length hlabel
    match front, hlabel with
    | [_], hlabel => simp at hlabel
    | _ :: _ :: _, _ => simp at hlength
  · intro h
    exact absurd ((guard_recognised_iff _).1 h).1 (by decide)

end Parley.Body
