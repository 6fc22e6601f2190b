import Parley.Proofs.Prescan
import Parley.Proofs.ScriptRoundTrip
set_option autoImplicit false

/-!
A script in which every line is indented by the same number of spaces is split into the same nodes.

The line that begins the first body tells how far a script is indented, and it moves along with all other
lines. A script without such a line is all headers, of which the indentation does not matter.
-/

namespace Parley.Text

/-- Whether a line ends behind a character. A return in front of a line feed is part of the same break. -/
def endsLine (c : Char) (next : Option Char) : Bool :=
  c == '\n' || (c == '\r' && next != some '\n')

/-- The spaces in front of a line. Where no text is left, no line begins. -/
def margin (width : Nat) (t : Text) : Text :=
  if t.isEmpty then [] else List.replicate width ' '

def indentBreaks (width : Nat) : Text → Text
  | [] => []
  | c :: t =>
    if endsLine c t.head? then c :: (margin width t ++ indentBreaks width t)
    else c :: indentBreaks width t

def indentLines (width : Nat) (t : Text) : Text :=
  margin width t ++ indentBreaks width t

theorem indentLines_cons (width : Nat) (c : Char) (t : Text) :
    indentLines width (c :: t) = List.replicate width ' ' ++ indentBreaks width (c :: t) := rfl

theorem indentBreaks_break {width : Nat} {c : Char} {t : Text} (h : endsLine c t.head? = true) :
    indentBreaks width (c :: t) = c :: indentLines width t := by
  simp [indentBreaks, indentLines, h]

theorem indentBreaks_inner {width : Nat} {c : Char} {t : Text} (h : endsLine c t.head? = false) :
    indentBreaks width (c :: t) = c :: indentBreaks width t := by
  simp [indentBreaks, h]

@[simp] theorem head?_indentBreaks (width : Nat) (t : Text) :
    (indentBreaks width t).head? = t.head? := by
  cases t with
  | nil => rfl
  | cons c t =>
    unfold indentBreaks
    split <;> rfl

@[simp] theorem unifyBreaks_spaces (width : Nat) (t : Text) :
    unifyBreaks (List.replicate width ' ' ++ t) = List.replicate width ' ' ++ unifyBreaks t := by
  have hreturn : '\r' ∉ List.replicate width ' ' := by simp
  rw [unifyBreaks_append fun h => absurd (List.mem_of_getLast? h) hreturn,
    unifyBreaks_of_no_return _ hreturn]

@[simp] theorem isEmpty_unifyBreaks (t : Text) : (unifyBreaks t).isEmpty = t.isEmpty := by
  fun_cases unifyBreaks t <;> rfl

@[simp] theorem margin_unifyBreaks (width : Nat) (t : Text) :
    margin width (unifyBreaks t) = margin width t := by
  rw [margin, isEmpty_unifyBreaks, margin]

theorem unifyBreaks_indentLines_of {width : Nat} {t : Text}
    (h : unifyBreaks (indentBreaks width t) = indentBreaks width (unifyBreaks t)) :
    unifyBreaks (indentLines width t) = indentLines width (unifyBreaks t) := by
  rw [indentLines, indentLines, margin_unifyBreaks, margin, ← h]
  split
  · rfl
  · exact unifyBreaks_spaces width _

/-- The margins are the same whichever line breaks the text has. -/
theorem unifyBreaks_indentBreaks (width : Nat) (t : Text) :
    unifyBreaks (indentBreaks width t) = indentBreaks width (unifyBreaks t) := by
  fun_induction unifyBreaks t with
  | case1 => rfl
  | case2 t ih =>
    have hreturn : endsLine '\r' ('\n' :: t).head? = false := rfl
    rw [indentBreaks_inner hreturn, indentBreaks_break rfl, indentBreaks_break rfl, unifyBreaks,
      unifyBreaks_indentLines_of ih]
  | case3 c t hfirst ih =>
    have hnext : c = '\r' → t.head? ≠ some '\n' := by
      rintro rfl hhead
      obtain ⟨u, rfl⟩ := List.head?_eq_some_iff.1 hhead
      exact hfirst u rfl rfl
    by_cases hreturn : c = '\r'
    · subst hreturn
      have hends : endsLine '\r' t.head? = true := by simpa [endsLine] using hnext rfl
      have hhead : (indentLines width t).head? ≠ some '\n' := by
        cases t with
        | nil => simp [indentLines, margin, indentBreaks]
        | cons d t =>
          rw [indentLines_cons]
          cases width with
          | zero => simpa using hnext rfl
          | succ width => simp [List.replicate_succ]
      rw [indentBreaks_break hends, unifyBreaks_cons fun _ => hhead, unifyBreaks_indentLines_of ih]
      simp [indentBreaks_break, endsLine]
    · have hkept : (if c = '\r' then '\n' else c) = c := if_neg hreturn
      rw [hkept]
      cases hends : endsLine c t.head? with
      | true =>
        have hfeed : c = '\n' := by simpa [endsLine, hreturn] using hends
        subst hfeed
        rw [indentBreaks_break rfl, indentBreaks_break rfl, unifyBreaks_cons (by simp),
          unifyBreaks_indentLines_of ih]
        rfl
      | false =>
        have hends' : endsLine c (unifyBreaks t).head? = false := by
          simpa [endsLine, hreturn] using hends
        rw [indentBreaks_inner hends, indentBreaks_inner hends',
          unifyBreaks_cons fun h => absurd h hreturn, if_neg hreturn, ih]

/-! Lines -/

@[simp] theorem lines_feed (t : Text) : lines ('\n' :: t) = [] :: lines t := by
  unfold lines
  rw [splitOn, if_pos rfl]
  cases hs : splitOn '\n' t with
  | nil => exact absurd hs (splitOn_ne_nil '\n' t)
  | cons w ws => rfl

/-- A character belongs to the first line of what follows it, if there is one. -/
theorem lines_cons {c : Char} {t : Text} (hc : c ≠ '\n') (ht : '\r' ∉ c :: t) :
    lines (c :: t) = (c :: (lines t).headD []) :: (lines t).tail := by
  have hfirst : ∀ w ∈ splitOn '\n' t, dropReturn w = w ∧ dropReturn (c :: w) = c :: w := by
    intro w hw
    have hw' : '\r' ∉ c :: w := by
      simp only [List.mem_cons, not_or] at ht ⊢
      exact ⟨ht.1, fun hmem => ht.2 (mem_of_mem_splitOn hw hmem).1⟩
    exact ⟨dropReturn_of_not_mem fun h => hw' (List.mem_cons_of_mem _ h), dropReturn_of_not_mem hw'⟩
  unfold lines
  rw [splitOn, if_neg hc]
  cases hs : splitOn '\n' t with
  | nil => exact absurd hs (splitOn_ne_nil '\n' t)
  | cons w ws =>
    obtain ⟨hw, hcw⟩ := hfirst w (by simp [hs])
    cases ws with
    | nil => cases w <;> rfl
    | cons v vs => simp [linesOfPieces, hw, hcw]

theorem lines_eq_nil_iff {t : Text} (h : '\r' ∉ t) : lines t = [] ↔ t = [] := by
  constructor
  · intro hlines
    cases t with
    | nil => rfl
    | cons c t =>
      by_cases hc : c = '\n'
      · subst hc
        simp at hlines
      · simp [lines_cons hc h] at hlines
  · rintro rfl
    rfl

theorem lines_spaces {width : Nat} {t : Text} (ht : '\r' ∉ t) (hne : t ≠ []) :
    lines (List.replicate width ' ' ++ t) =
      (List.replicate width ' ' ++ (lines t).headD []) :: (lines t).tail := by
  induction width with
  | zero =>
    cases hlines : lines t with
    | nil => exact absurd ((lines_eq_nil_iff ht).1 hlines) hne
    | cons w ws => simp [hlines]
  | succ width ih =>
    have hreturn : '\r' ∉ ' ' :: (List.replicate width ' ' ++ t) := by simp [ht]
    rw [List.replicate_succ, List.cons_append, lines_cons (by decide) hreturn, ih]
    rfl

theorem not_mem_indentBreaks {width : Nat} {t : Text} (h : '\r' ∉ t) :
    '\r' ∉ indentBreaks width t := by
  induction t with
  | nil => exact h
  | cons c t ih =>
    simp only [List.mem_cons, not_or] at h
    have hmargin : '\r' ∉ margin width t := by
      unfold margin
      split <;> simp
    unfold indentBreaks
    split
    · simp [h.1, ih h.2, hmargin]
    · simp [h.1, ih h.2]

theorem lines_indentLines_of {width : Nat} {t : Text} (h : '\r' ∉ t)
    (hbreaks : lines (indentBreaks width t) =
      (lines t).take 1 ++ (lines t).tail.map (List.replicate width ' ' ++ ·)) :
    lines (indentLines width t) = (lines t).map (List.replicate width ' ' ++ ·) := by
  cases t with
  | nil => rfl
  | cons c t =>
    have hne : indentBreaks width (c :: t) ≠ [] := by
      intro hnil
      simpa [hnil] using head?_indentBreaks width (c :: t)
    rw [indentLines_cons, lines_spaces (not_mem_indentBreaks h) hne, hbreaks]
    cases hlines : lines (c :: t) with
    | nil => exact absurd ((lines_eq_nil_iff h).1 hlines) (by simp)
    | cons w ws => rfl

/-- Behind the first line, every line gets its margin. -/
theorem lines_indentBreaks (width : Nat) {t : Text} (h : '\r' ∉ t) :
    lines (indentBreaks width t) =
      (lines t).take 1 ++ (lines t).tail.map (List.replicate width ' ' ++ ·) := by
  induction t with
  | nil => rfl
  | cons c t ih =>
    have ht : '\r' ∉ t := fun hmem => h (List.mem_cons_of_mem _ hmem)
    have hreturn : c ≠ '\r' := fun hc => h (by simp [hc])
    by_cases hc : c = '\n'
    · subst hc
      rw [indentBreaks_break rfl, lines_feed, lines_feed, lines_indentLines_of ht (ih ht)]
      rfl
    · have hinner : endsLine c t.head? = false := by simp [endsLine, hc, hreturn]
      have hmem : '\r' ∉ c :: indentBreaks width t := by
        simp only [List.mem_cons, not_or]
        exact ⟨fun h => hreturn h.symm, not_mem_indentBreaks ht⟩
      rw [indentBreaks_inner hinner, lines_cons hc hmem, lines_cons hc h, ih ht]
      cases lines t <;> rfl

theorem not_mem_unifyBreaks (t : Text) : '\r' ∉ unifyBreaks t := by
  fun_induction unifyBreaks t with
  | case1 => simp
  | case2 t ih => simp [ih]
  | case3 c t hfirst ih =>
    by_cases hc : c = '\r'
    · simp [hc, ih]
    · simpa [hc, ih] using fun h => hc h.symm

theorem lines_indentLines (width : Nat) (t : Text) :
    lines (unifyBreaks (indentLines width t)) =
      (lines (unifyBreaks t)).map (List.replicate width ' ' ++ ·) := by
  rw [unifyBreaks_indentLines_of (unifyBreaks_indentBreaks width t)]
  exact lines_indentLines_of (not_mem_unifyBreaks t) (lines_indentBreaks width (not_mem_unifyBreaks t))

example : indentLines 2 "a\r\n\n b\rc\n".toList = "  a\r\n  \n   b\r  c\n".toList := by decide

/-! A single line -/

@[simp] theorem trim_spaces (width : Nat) (line : Text) :
    trim (List.replicate width ' ' ++ line) = trim line := by
  have hblank : ∀ c ∈ List.replicate width ' ', isBlank c = true := by
    intro c hc
    rw [List.eq_of_mem_replicate hc]
    decide
  rw [trim, trimStart, List.dropWhile_append_of_pos hblank, trim, trimStart]

@[simp] theorem indentSize_spaces (width : Nat) (line : Text) :
    indentSize (List.replicate width ' ' ++ line) = indentSize line + width := by
  induction width with
  | zero => rfl
  | succ width ih =>
    have hspace : isBlank ' ' = true ∧ Char.utf8Size ' ' = 1 := by decide
    rw [List.replicate_succ, List.cons_append, indentSize, if_pos hspace.1, hspace.2, ih]
    omega

@[simp] theorem dropIndent_spaces (width size : Nat) (line : Text) :
    dropIndent (size + width) (List.replicate width ' ' ++ line) = dropIndent size line := by
  induction width with
  | zero => rfl
  | succ width ih =>
    have hspace : isBlank ' ' = true ∧ Char.utf8Size ' ' = 1 := by decide
    rw [List.replicate_succ, List.cons_append, dropIndent, hspace.1, hspace.2, Bool.true_and,
      if_pos (decide_eq_true (by omega)), ← ih]
    rfl

end Parley.Text

namespace Parley.Script

namespace Splitter

variable {s t : Splitter} {line : Text} {lines : List Text}

theorem read_eq_of_trim (hs : s.inBody = false) {line' : Text}
    (h : Text.trim line' = Text.trim line) : s.read line' = s.read line := by
  simp [read, hs, h]

theorem inBody_of_read (hs : s.inBody = false) (hline : Text.trim line ≠ bodyMark)
    (h : s.read line = .ok t) : t.inBody = false := by
  unfold read at h
  simp only [hs, Bool.false_eq_true, if_false, if_neg hline] at h
  split at h
  · cases h
    exact hs
  · split at h
    · cases h
      rfl
    · split at h
      · cases h
        exact hs
      · cases hd : s.draft.addHeader (Text.trim line) with
        | error cause => simp [hd, Except.map] at h
        | ok d =>
          simp only [hd, Except.map, Except.ok.injEq] at h
          subst h
          rfl

/-- Without a line that begins a body, a margin changes nothing. -/
theorem readAll_spaces (width : Nat) (hs : s.inBody = false)
    (h : ∀ line ∈ lines, Text.trim line ≠ bodyMark) (number : Nat) :
    s.readAll number (lines.map (List.replicate width ' ' ++ ·)) = s.readAll number lines := by
  induction lines generalizing s number with
  | nil => rfl
  | cons line lines ih =>
    rw [List.forall_mem_cons] at h
    rw [List.map_cons, readAll, readAll, read_eq_of_trim hs (Text.trim_spaces width line)]
    cases hread : s.read line with
    | error cause => rfl
    | ok t => exact ih (inBody_of_read hs h.1 hread) h.2 (number + 1)

end Splitter

theorem find?_bodyMark_spaces (width : Nat) (lines : List Text) :
    (lines.map (List.replicate width ' ' ++ ·)).find? (fun line => Text.trim line == bodyMark) =
      (lines.find? fun line => Text.trim line == bodyMark).map (List.replicate width ' ' ++ ·) := by
  rw [List.find?_map]
  congr 2
  funext line
  simp

def strippedLines (lines : List Text) : List Text :=
  lines.map (Text.dropIndent (baseline lines))

theorem split_eq (script : Text) :
    split script = (Splitter.start.readAll 1
      (strippedLines (Text.lines (Text.unifyBreaks script)))).map Splitter.finish := rfl

theorem strippedLines_of_bodyMark {lines : List Text} {mark : Text} (width : Nat)
    (h : lines.find? (fun line => Text.trim line == bodyMark) = some mark) :
    strippedLines (lines.map (List.replicate width ' ' ++ ·)) = strippedLines lines := by
  have hbaseline : baseline lines = Text.indentSize mark := by
    rw [baseline, h]
  have hmoved : baseline (lines.map (List.replicate width ' ' ++ ·)) = baseline lines + width := by
    rw [baseline, find?_bodyMark_spaces, h, hbaseline]
    exact Text.indentSize_spaces width mark
  rw [strippedLines, hmoved, List.map_map]
  exact List.map_congr_left fun line _ => Text.dropIndent_spaces width (baseline lines) line

theorem strippedLines_of_no_bodyMark {lines : List Text}
    (h : lines.find? (fun line => Text.trim line == bodyMark) = none) : strippedLines lines = lines := by
  have hbaseline : baseline lines = 0 := by
    rw [baseline, h]
  rw [strippedLines, hbaseline, List.map_congr_left fun line _ => Text.dropIndent_zero line,
    List.map_id']

/-- A margin in front of every line of a script does not change what it is split into. -/
theorem split_indentLines (width : Nat) (script : Text) :
    split (Text.indentLines width script) = split script := by
  rw [split_eq, split_eq, Text.lines_indentLines]
  generalize Text.lines (Text.unifyBreaks script) = lines
  cases h : lines.find? fun line => Text.trim line == bodyMark with
  | some mark => rw [strippedLines_of_bodyMark width h]
  | none =>
    have hmoved := find?_bodyMark_spaces width lines
    rw [h] at hmoved
    rw [strippedLines_of_no_bodyMark hmoved, strippedLines_of_no_bodyMark h,
      Splitter.readAll_spaces width rfl]
    intro line hline hmark
    have hfound := List.find?_eq_none.1 h line hline
    simp [hmark] at hfound

end Parley.Script
