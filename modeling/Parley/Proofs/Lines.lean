import Mathlib.Algebra.GroupWithZero.Nat
import Parley.Proofs.OutlineLexing
set_option autoImplicit false

/-!
The lines of a body as they were written, against the lines that the lexer is given.
-/

namespace Parley.Text

@[simp] theorem splitOn_snoc_sep (sep : Char) (t : Text) :
    splitOn sep (t ++ [sep]) = splitOn sep t ++ [[]] := by
  induction t with
  | nil => simp [splitOn]
  | cons c t ih =>
    by_cases hc : c = sep
    · simp [splitOn, hc, ih]
    · cases hs : splitOn sep t with
      | nil => exact absurd hs (splitOn_ne_nil sep t)
      | cons w ws => simp [splitOn, hc, ih, hs]

theorem splitOn_snoc {sep c : Char} (hc : c ≠ sep) (t : Text) :
    ∃ ws w, splitOn sep (t ++ [c]) = ws ++ [w ++ [c]] := by
  induction t with
  | nil => exact ⟨[], [], by simp [splitOn, hc]⟩
  | cons d t ih =>
    obtain ⟨ws, w, hws⟩ := ih
    by_cases hd : d = sep
    · exact ⟨[] :: ws, w, by simp [splitOn, hd, hws]⟩
    · cases ws with
      | nil => exact ⟨[], d :: w, by simp [splitOn, hd, hws]⟩
      | cons v vs => exact ⟨(d :: v) :: vs, w, by simp [splitOn, hd, hws]⟩

/-- Lines without the empty ones at the end, of which one stays if there is no other. -/
def stripLines (lines : List Text) : List Text :=
  match (lines.reverse.dropWhile List.isEmpty).reverse with
  | [] => [[]]
  | line :: rest => line :: rest

@[simp] theorem stripLines_ne_nil (lines : List Text) : stripLines lines ≠ [] := by
  unfold stripLines
  split <;> simp

@[simp] theorem stripLines_snoc_empty (lines : List Text) :
    stripLines (lines ++ [[]]) = stripLines lines := by
  simp [stripLines]

theorem stripLines_snoc {line : Text} (h : line ≠ []) (lines : List Text) :
    stripLines (lines ++ [line]) = lines ++ [line] := by
  cases lines <;> simp [stripLines, h]

theorem eq_stripLines_append {lines : List Text} (h : lines ≠ []) :
    ∃ n, lines = stripLines lines ++ List.replicate n [] := by
  have hreverse : ∀ lines : List Text, lines ≠ [] →
      ∃ n, lines.reverse = stripLines lines.reverse ++ List.replicate n [] := by
    intro lines
    induction lines with
    | nil => exact fun h => absurd rfl h
    | cons line lines ih =>
      intro _
      rw [List.reverse_cons]
      by_cases hline : line = []
      · subst hline
        rw [stripLines_snoc_empty]
        by_cases hlines : lines = []
        · exact ⟨0, by rw [hlines]; rfl⟩
        · obtain ⟨n, hn⟩ := ih hlines
          refine ⟨n + 1, ?_⟩
          rw [List.replicate_succ', ← List.append_assoc, ← hn]
      · exact ⟨0, by rw [stripLines_snoc hline]; simp⟩
  have hlines := hreverse lines.reverse (by simpa using h)
  rwa [List.reverse_reverse] at hlines

end Parley.Text

namespace Parley.Body

def writtenLines (body : Text) : List Text :=
  Text.splitOn '\n' (Text.unifyBreaks body)

theorem bodyLines_eq (body : Text) :
    bodyLines body = (Text.stripLines (writtenLines body)).map normalizeLine := by
  -- Induction on the reversed text, from which breaks are dropped one by one.
  have hstrip : ∀ t : Text, Text.stripLines (Text.splitOn '\n' t.reverse) =
      Text.splitOn '\n' (t.dropWhile (· == '\n')).reverse := by
    intro t
    induction t with
    | nil => rfl
    | cons c t ih =>
      rw [List.reverse_cons]
      by_cases hc : c = '\n'
      · subst hc
        rw [Text.splitOn_snoc_sep, Text.stripLines_snoc_empty, ih]
        rfl
      · obtain ⟨ws, w, hws⟩ := Text.splitOn_snoc hc t.reverse
        have hdrop : (c :: t).dropWhile (· == '\n') = c :: t := by simp [hc]
        rw [hdrop, List.reverse_cons, hws]
        exact Text.stripLines_snoc (by simp) ws
  unfold bodyLines writtenLines
  simp only
  rw [← hstrip, List.reverse_reverse]

@[simp] theorem bodyLines_ne_nil (body : Text) : bodyLines body ≠ [] := by
  simp [bodyLines_eq]

def lineWidth (line : Text) : Nat :=
  ((line.takeWhile Text.isBlank).map fun c => if c = '\t' then 4 else 1).sum

def IsBlankLine (line : Text) : Prop :=
  Text.trimStart line = []

instance (line : Text) : Decidable (IsBlankLine line) :=
  inferInstanceAs (Decidable (_ = _))

theorem flatMap_replicate_space (t : Text) (width : Char → Nat) :
    t.flatMap (fun c => List.replicate (width c) ' ') =
      List.replicate (t.map width).sum ' ' := by
  induction t with
  | nil => rfl
  | cons c t ih => rw [List.flatMap_cons, ih, List.map_cons, List.sum_cons, List.replicate_append_replicate]

theorem trimStart_full {line : Text} (h : ¬ IsBlankLine line) : (Text.trimStart line).StartsFull := by
  unfold Text.StartsFull
  cases ht : Text.trimStart line with
  | nil => exact absurd ht h
  | cons c t =>
    have hc := List.head?_dropWhile_not Text.isBlank line
    have hhead : (line.dropWhile Text.isBlank).head? = some c := by
      rw [← Text.trimStart, ht]
      rfl
    rw [hhead] at hc
    simpa using hc

theorem normalizeLine_blank {line : Text} (h : IsBlankLine line) : normalizeLine line = [] := by
  unfold normalizeLine
  rw [h]

theorem normalizeLine_full {line : Text} (h : ¬ IsBlankLine line) :
    normalizeLine line = written (lineWidth line) (Text.trimStart line) := by
  unfold normalizeLine written lineWidth
  rw [flatMap_replicate_space]
  cases ht : Text.trimStart line with
  | nil => exact absurd ht h
  | cons c t => rfl

@[simp] theorem normalizeLine_eq_nil_iff {line : Text} :
    normalizeLine line = [] ↔ IsBlankLine line := by
  constructor
  · intro hnil
    apply Decidable.byContradiction
    intro h
    rw [normalizeLine_full h] at hnil
    exact (trimStart_full h).ne_nil (List.append_eq_nil_iff.1 hnil).2
  · exact normalizeLine_blank

theorem indentWidth_normalizeLine {line : Text} (h : ¬ IsBlankLine line) :
    Text.indentWidth (normalizeLine line) = lineWidth line := by
  rw [normalizeLine_full h, indentWidth_written _ (trimStart_full h)]

theorem drop_normalizeLine {line : Text} (h : ¬ IsBlankLine line) :
    (normalizeLine line).drop (lineWidth line) = Text.trimStart line := by
  rw [normalizeLine_full h, drop_written]

theorem getElem?_bodyLines {body line : Text} {n : Nat} (h : (writtenLines body)[n]? = some line)
    (hline : ¬ IsBlankLine line) : (bodyLines body)[n]? = some (normalizeLine line) := by
  obtain ⟨k, hk⟩ := Text.eq_stripLines_append (Text.splitOn_ne_nil '\n' (Text.unifyBreaks body))
  rw [bodyLines_eq, List.getElem?_map]
  unfold writtenLines at h ⊢
  rw [hk, List.getElem?_append] at h
  split at h
  · rw [h]
    rfl
  · rw [List.getElem?_replicate] at h
    split at h
    · simp only [Option.some.injEq] at h
      subst h
      exact absurd rfl hline
    · simp at h

theorem exists_of_getElem?_bodyLines {body line : Text} {n : Nat}
    (h : (bodyLines body)[n]? = some line) (hline : line ≠ []) :
    ∃ raw, (writtenLines body)[n]? = some raw ∧ ¬ IsBlankLine raw ∧ normalizeLine raw = line := by
  obtain ⟨k, hk⟩ := Text.eq_stripLines_append (Text.splitOn_ne_nil '\n' (Text.unifyBreaks body))
  rw [bodyLines_eq, List.getElem?_map] at h
  obtain ⟨raw, hraw, rfl⟩ := Option.map_eq_some_iff.1 h
  refine ⟨raw, ?_, fun hblank => hline (normalizeLine_blank hblank), rfl⟩
  unfold writtenLines at hraw ⊢
  rw [hk, List.getElem?_append_left (List.getElem?_eq_some_iff.1 hraw).1, hraw]

end Parley.Body
