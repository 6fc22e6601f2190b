import Parley.Proofs.OutlineLexing
import Parley.Proofs.OutlineParsing
set_option autoImplicit false

/-!
An outline that is written down is read back.
-/

namespace Parley.Text

theorem unifyBreaks_of_no_return (t : Text) (h : '\r' ∉ t) : unifyBreaks t = t := by
  fun_induction unifyBreaks t with
  | case1 => rfl
  | case2 t ih => simp at h
  | case3 c t hne ih =>
    simp only [List.mem_cons, not_or] at h
    have hc : c ≠ '\r' := fun hc => h.1 hc.symm
    simp [hc, ih h.2]

theorem splitOn_of_not_mem {sep : Char} {t : Text} (h : sep ∉ t) : splitOn sep t = [t] := by
  induction t with
  | nil => rfl
  | cons c t ih =>
    simp only [List.mem_cons, not_or] at h
    have hc : c ≠ sep := fun hc => h.1 hc.symm
    simp [splitOn, hc, ih h.2]

theorem splitOn_append {sep : Char} {w : Text} (h : sep ∉ w) (t : Text) :
    splitOn sep (w ++ sep :: t) = w :: splitOn sep t := by
  induction w with
  | nil => simp [splitOn]
  | cons c w ih =>
    simp only [List.mem_cons, not_or] at h
    have hc : c ≠ sep := fun hc => h.1 hc.symm
    simp [splitOn, hc, ih h.2]

theorem splitOn_join {sep : Char} {ws : List Text} (hne : ws ≠ []) (h : ∀ w ∈ ws, sep ∉ w) :
    splitOn sep (join [sep] ws) = ws := by
  induction ws with
  | nil => exact absurd rfl hne
  | cons w ws ih =>
    have hw := h w (List.mem_cons_self ..)
    cases ws with
    | nil => simpa [join] using splitOn_of_not_mem hw
    | cons v vs =>
      have hvs := ih (by simp) fun x hx => h x (List.mem_cons_of_mem _ hx)
      simp only [join, List.append_assoc, List.singleton_append]
      rw [splitOn_append hw, hvs]

def OneLine (t : Text) : Prop :=
  t.all (fun c => c != '\n' && c != '\r') = true

instance (t : Text) : Decidable (OneLine t) :=
  inferInstanceAs (Decidable (_ = true))

theorem oneLine_iff {t : Text} : OneLine t ↔ '\n' ∉ t ∧ '\r' ∉ t := by
  simp only [OneLine, List.all_eq_true, Bool.and_eq_true, bne_iff_ne]
  constructor
  · intro h
    exact ⟨fun hc => (h _ hc).1 rfl, fun hc => (h _ hc).2 rfl⟩
  · intro h c hc
    exact ⟨fun he => h.1 (he ▸ hc), fun he => h.2 (he ▸ hc)⟩

theorem OneLine.append {t u : Text} (ht : OneLine t) (hu : OneLine u) : OneLine (t ++ u) := by
  rw [oneLine_iff] at *
  simp [ht, hu]

theorem not_mem_join {ws : List Text} (h : ∀ w ∈ ws, OneLine w) : '\r' ∉ join ['\n'] ws := by
  induction ws with
  | nil => simp [join]
  | cons w ws ih =>
    have hw : '\r' ∉ w := (oneLine_iff.1 (h w (List.mem_cons_self ..))).2
    have hws := ih fun x hx => h x (List.mem_cons_of_mem _ hx)
    cases ws with
    | nil => simpa [join] using hw
    | cons v vs => simp [join, hw, hws]

theorem getLast?_join {ws : List Text} (h : ∀ w ∈ ws, w ≠ [] ∧ OneLine w) :
    (join ['\n'] ws).getLast? ≠ some '\n' := by
  induction ws with
  | nil => simp [join]
  | cons w ws ih =>
    obtain ⟨hne, hw⟩ := h w (List.mem_cons_self ..)
    have hws := ih fun x hx => h x (List.mem_cons_of_mem _ hx)
    cases ws with
    | nil =>
      intro hlast
      exact (oneLine_iff.1 hw).1 (List.mem_of_getLast? hlast)
    | cons v vs =>
      have hjoin : join ['\n'] (v :: vs) ≠ [] := by
        have hv := (h v (by simp)).1
        cases vs <;> simp [join, hv]
      have hlast : (join ['\n'] (w :: v :: vs)).getLast? = (join ['\n'] (v :: vs)).getLast? := by
        have hsome := List.getLast?_isSome.2 hjoin
        simp only [join, List.getLast?_append]
        cases hj : (join ['\n'] (v :: vs)).getLast? with
        | none => simp [hj] at hsome
        | some c => rfl
      rw [hlast]
      exact hws

end Parley.Text

namespace Parley.Body

theorem flatMap_spaces (width : Nat) : (List.replicate width ' ').flatMap
    (fun c => List.replicate (if c = '\t' then 4 else 1) ' ') = List.replicate width ' ' := by
  induction width with
  | zero => rfl
  | succ width ih =>
    rw [List.replicate_succ, List.flatMap_cons, ih]
    rfl

theorem normalizeLine_written (width : Nat) {content : Text} (h : content.StartsFull) :
    normalizeLine (written width content) = written width content := by
  have htrim : Text.trimStart (written width content) = content := by
    rw [← Text.drop_indentWidth, indentWidth_written width h, drop_written]
  unfold normalizeLine
  rw [htrim, takeWhile_written width h, flatMap_spaces]
  cases content with
  | nil => exact absurd rfl h.ne_nil
  | cons c content => rfl

def IsWritten (line : Text) : Prop :=
  ∃ width content, line = written width content ∧ content.StartsFull ∧ content.OneLine

theorem IsWritten.ne_nil {line : Text} (h : IsWritten line) : line ≠ [] := by
  obtain ⟨width, content, rfl, hfull, _⟩ := h
  simp [written, hfull.ne_nil]

theorem IsWritten.oneLine {line : Text} (h : IsWritten line) : line.OneLine := by
  obtain ⟨width, content, rfl, _, hone⟩ := h
  refine Text.OneLine.append (Text.oneLine_iff.2 ?_) hone
  simp [List.mem_replicate]

theorem IsWritten.normalizeLine_eq {line : Text} (h : IsWritten line) :
    normalizeLine line = line := by
  obtain ⟨width, content, rfl, hfull, _⟩ := h
  exact normalizeLine_written width hfull

theorem bodyLines_join {lines : List Text} (hne : lines ≠ []) (h : ∀ line ∈ lines, IsWritten line) :
    bodyLines (Text.join ['\n'] lines) = lines := by
  have hreturn : '\r' ∉ Text.join ['\n'] lines :=
    Text.not_mem_join fun line hline => (h line hline).oneLine
  have hlast : (Text.join ['\n'] lines).getLast? ≠ some '\n' :=
    Text.getLast?_join fun line hline => ⟨(h line hline).ne_nil, (h line hline).oneLine⟩
  have hkept : ((Text.join ['\n'] lines).reverse.dropWhile (· == '\n')).reverse =
      Text.join ['\n'] lines := by
    rw [← List.head?_reverse] at hlast
    cases hr : (Text.join ['\n'] lines).reverse with
    | nil => simpa using congrArg List.reverse hr.symm
    | cons c t =>
      have hc : (c == '\n') = false := by simpa [hr] using hlast
      rw [List.dropWhile_cons, hc]
      simpa using congrArg List.reverse hr.symm
  unfold bodyLines
  simp only [Text.unifyBreaks_of_no_return _ hreturn, hkept]
  rw [Text.splitOn_join hne fun line hline => (Text.oneLine_iff.1 (h line hline).oneLine).1]
  rw [List.map_congr_left fun line hline => (h line hline).normalizeLine_eq, List.map_id']

theorem PlainText.oneLine (t : PlainText) : t.text.OneLine := by
  unfold Text.OneLine
  rw [List.all_eq_true]
  intro c hc
  have h := List.all_eq_true.1 t.chars c hc
  simp only [Bool.and_eq_true] at h ⊢
  exact ⟨h.1.2, h.2⟩

theorem VariableName.oneLine (v : VariableName) : v.name.OneLine := by
  rw [Text.oneLine_iff]
  constructor
  · intro hc
    exact absurd (List.all_eq_true.1 v.chars _ hc) (by decide)
  · intro hc
    exact absurd (List.all_eq_true.1 v.chars _ hc) (by decide)

theorem conditionText_oneLine {word : Text} (h : word.OneLine) (v : VariableName) :
    (conditionText word v).OneLine := by
  have hend : Text.OneLine (v.name ++ ">>".toList) := v.oneLine.append (by decide)
  have hcondition : Text.OneLine (" $".toList ++ (v.name ++ ">>".toList)) :=
    Text.OneLine.append (by decide) hend
  exact Text.OneLine.append (by decide) (h.append hcondition)

theorem wordText_oneLine {word : Text} (h : word.OneLine) : (wordText word).OneLine :=
  Text.OneLine.append (by decide) (h.append (by decide))

theorem optionText_oneLine (label : PlainText) (guard : Option VariableName) :
    Text.OneLine ("-> ".toList ++ (label.text ++ guardText guard)) := by
  have hguard : Text.OneLine (guardText guard) := by
    cases guard with
    | none => decide
    | some v => exact conditionText_oneLine (by decide) v
  exact Text.OneLine.append (by decide) (label.oneLine.append hguard)

theorem isWritten_condition (width : Nat) {word : Text} (h : word.OneLine) (v : VariableName) :
    IsWritten (written width (conditionText word v)) :=
  ⟨width, _, rfl, conditionText_full word v, conditionText_oneLine h v⟩

theorem isWritten_word (width : Nat) {word : Text} (h : word.OneLine) :
    IsWritten (written width (wordText word)) :=
  ⟨width, _, rfl, wordText_full word, wordText_oneLine h⟩

mutual

theorem Outline.isWritten : ∀ (o : Outline) (width : Nat), ∀ line ∈ o.lines width, IsWritten line
  | .done, width => by simp [Outline.lines]
  | .line t rest, width => by
    simp only [Outline.lines, List.forall_mem_cons]
    exact ⟨⟨width, _, rfl, t.first, t.oneLine⟩, rest.isWritten width⟩
  | .option label guard deeper body rest, width => by
    simp only [Outline.lines, List.forall_mem_cons, List.forall_mem_append]
    exact ⟨⟨width, _, rfl, optionText_full label guard, optionText_oneLine label guard⟩,
      body.isWritten _, rest.isWritten width⟩
  | .branch condition body arms rest, width => by
    simp only [Outline.lines, List.forall_mem_cons, List.forall_mem_append]
    exact ⟨isWritten_condition width (by decide) condition, body.isWritten width,
      arms.isWritten width, rest.isWritten width⟩

theorem Arms.isWritten : ∀ (a : Arms) (width : Nat), ∀ line ∈ a.lines width, IsWritten line
  | .nothing, width => by
    simp only [Arms.lines, List.forall_mem_singleton]
    exact isWritten_word width (by decide)
  | .otherwise body, width => by
    simp only [Arms.lines, List.forall_mem_cons, List.forall_mem_append]
    exact ⟨isWritten_word width (by decide), body.isWritten width,
      isWritten_word width (by decide), by simp⟩
  | .elseif condition body arms, width => by
    simp only [Arms.lines, List.forall_mem_cons, List.forall_mem_append]
    exact ⟨isWritten_condition width (by decide) condition, body.isWritten width,
      arms.isWritten width⟩

end

mutual

@[simp] theorem Outline.length_lines : ∀ (o : Outline) (width : Nat), (o.lines width).length = o.count
  | .done, _ => rfl
  | .line t rest, width => by
    simp only [Outline.lines, Outline.count, List.length_cons, rest.length_lines width]
    omega
  | .option label guard deeper body rest, width => by
    simp only [Outline.lines, Outline.count, List.length_cons, List.length_append,
      body.length_lines _, rest.length_lines width]
    omega
  | .branch condition body arms rest, width => by
    simp only [Outline.lines, Outline.count, List.length_cons, List.length_append,
      body.length_lines width, arms.length_lines width, rest.length_lines width]
    omega

@[simp] theorem Arms.length_lines : ∀ (a : Arms) (width : Nat), (a.lines width).length = a.count
  | .nothing, _ => rfl
  | .otherwise body, width => by
    simp only [Arms.lines, Arms.count, List.length_cons, List.length_append, List.length_nil,
      body.length_lines width]
    omega
  | .elseif condition body arms, width => by
    simp only [Arms.lines, Arms.count, List.length_cons, List.length_append,
      body.length_lines width, arms.length_lines width]
    omega

end

theorem length_le_linesWeight (lines : List Text) : lines.length ≤ Lexer.linesWeight lines := by
  induction lines with
  | nil => simp
  | cons line lines ih =>
    simp only [Lexer.linesWeight, List.length_cons]
    omega

theorem Outline.before_text (o : Outline) :
    (Lexer.ofBody o.text).Before (o.lines 0) [⟨0, false⟩] false ∧
      4 * o.count ≤ (Lexer.ofBody o.text).weight := by
  cases hd : o.isDone with
  | true =>
    cases o with
    | done => exact ⟨⟨rfl, rfl, Nat.le_refl 0⟩, Nat.zero_le _⟩
    | _ => simp [Outline.isDone] at hd
  | false =>
    obtain ⟨line, rest, hlines, hne, _⟩ := Outline.lines_cons hd 0
    have hpos : 0 < line.length := List.length_pos_iff.2 hne
    have hbody : bodyLines o.text = line :: rest := by
      rw [Outline.text, bodyLines_join (by simp [hlines]) (o.isWritten 0), hlines]
    have hcount := o.length_lines 0
    have hweight := length_le_linesWeight rest
    unfold Lexer.ofBody
    rw [hbody, hlines]
    refine ⟨⟨rfl, rfl, rfl, rfl, rfl, rfl, by simp⟩, ?_⟩
    rw [hlines, List.length_cons] at hcount
    simp only [Lexer.weight, Lexer.ofLines, List.tail_cons, List.headD_cons, List.length_singleton,
      cond_false]
    omega

/-- The tokens of a written outline are its lexemes and the end of the input. -/
theorem gives_text (o : Outline) :
    Gives (Lexer.ofBody o.text) (o.lexemes false ++ [(.endOfInput, [])]) := by
  have hbefore := o.before_text.1
  rw [← List.append_nil (o.lines 0)] at hbefore
  obtain ⟨l, tracking, hleads, hlevels, hbelow, hend⟩ :=
    Lexer.leads_outline o hbefore (by intro line hline; simp at hline)
  refine hleads.gives ⟨l.unwritten .endOfInput, { l with levels := [] }, ?_, rfl, trivial⟩
  show l.next = _
  simp only [Lexer.next, hend, if_true, hbelow, Lexer.atEnd, hlevels, Lexer.closeOne,
    Bool.false_eq_true, if_false]

/-- A written outline is read back as the statements it stands for, up to line numbers. -/
theorem parseBody_text (o : Outline) :
    (parseBody o.text).map unnumberedAll = .ok o.statements := by
  have hfuel : 1 + 6 * o.count ≤ 4 * TokenSource.weight (Lexer.ofBody o.text) + 8 := by
    have hweight : 4 * o.count ≤ TokenSource.weight (Lexer.ofBody o.text) := o.before_text.2
    omega
  obtain ⟨ss, c, hparse, hss, _⟩ := Parse.yields_body o [] _ hfuel
    ⟨Lexer.ofBody o.text, none, .empty⟩ (gives_text o)
  simp only [parseBody, parse, parseSource, hparse, Except.map, hss]

example : (Outline.branch ⟨"v".toList, by decide, by decide⟩
    (.option ⟨"Go".toList, by decide, by decide, by decide⟩ (some ⟨"w".toList, by decide, by decide⟩) 1
      (.line ⟨"Off".toList, by decide, by decide, by decide⟩ .done) .done)
    (.otherwise .done) .done).text =
      "<<if $v>>\n-> Go<<if $w>>\n  Off\n<<else>>\n<<endif>>".toList := by decide

end Parley.Body
