import Mathlib.Data.List.Basic
import Parley.Proofs.MarkupExtent
set_option autoImplicit false

/-!
Where events lie after the second pass.

The escapes of a text are found from left to right, so a backslash behind a backslash may be escaped
itself. The second pass compares positions that it has moved already with the length of what it has
resolved so far; the result is told here by the positions and the backslashes of the text it began with.
-/

namespace Parley.Markup

/-! Escapes of a text -/

/-- The indices of the backslashes that escape the character behind them, for a text that begins at an
index. The character behind such a backslash is passed over. -/
def escapesFrom : Nat → Text → List Nat
  | _, [] => []
  | _, [_] => []
  | index, c :: d :: t =>
    if c = '\\' then index :: escapesFrom (index + 2) t else escapesFrom (index + 1) (d :: t)

def escapes (t : Text) : List Nat :=
  escapesFrom 0 t

def escapesBefore (t : Text) (position : Nat) : Nat :=
  (escapes t).countP (· < position)

def SplitsEscape (t : Text) (position : Nat) : Prop :=
  ∃ index ∈ escapes t, position = index + 1

def without (indices : List Nat) (t : Text) : Text :=
  (t.zipIdx.filter fun entry => entry.2 ∉ indices).map Prod.fst

theorem escapesFrom_ge {index : Nat} {t : Text} : ∀ k ∈ escapesFrom index t, index ≤ k := by
  fun_induction escapesFrom index t with
  | case1 => simp
  | case2 => simp
  | case3 index d t ih =>
    rw [List.forall_mem_cons]
    exact ⟨Nat.le_refl _, fun k hk => by have := ih k hk; omega⟩
  | case4 index c d t hc ih =>
    intro k hk
    have := ih k hk
    omega

theorem countP_escapesFrom_eq_zero {index position : Nat} (t : Text) (h : position ≤ index) :
    (escapesFrom index t).countP (· < position) = 0 := by
  rw [List.countP_eq_zero]
  intro k hk
  have := escapesFrom_ge k hk
  simp only [decide_eq_true_eq]
  omega

/-! Positions -/

/-- The second pass with some escapes behind it. A position that it has moved along with these escapes is
compared with the characters that they left; where the text began the comparison is with the backslash. -/
theorem shiftFrom_add_countP (t : Text) (resolved passed position : Nat) :
    shiftFrom t resolved position + (escapesFrom (resolved + passed) t).countP (· < position + passed) =
      position := by
  fun_induction shiftFrom t resolved position generalizing passed with
  | case1 => rfl
  | case2 => rfl
  | case3 d t resolved position ih =>
    rw [escapesFrom, if_pos rfl, List.countP_cons]
    by_cases h : resolved < position
    · have hih := ih (passed + 1)
      have hindex : resolved + 1 + (passed + 1) = resolved + passed + 2 := by omega
      have hposition : position - 1 + (passed + 1) = position + passed := by omega
      rw [if_pos h, hindex, hposition] at hih
      rw [if_pos h, if_pos (by simpa using h)]
      omega
    · -- The pass has come to the position already, so neither this escape nor a later one moves it.
      have hnone : (escapesFrom (resolved + passed + 2) t).countP (· < position + passed) = 0 :=
        countP_escapesFrom_eq_zero t (by omega)
      rw [if_neg h, if_neg (by simpa using h), hnone]
      exact shiftFrom_of_le t (by omega)
  | case4 c d t resolved position hc ih =>
    have hindex : resolved + 1 + passed = resolved + passed + 1 := by omega
    rw [escapesFrom, if_neg hc, ← hindex]
    exact ih passed

/-- A position moves to the left by the number of escapes that begin in front of it. -/
theorem shift_add_escapesBefore (t : Text) (position : Nat) :
    shift t position + escapesBefore t position = position := by
  simpa [shift, escapesBefore, escapes] using shiftFrom_add_countP t 0 0 position

/-! Texts -/

theorem unescape_eq_filter (t : Text) (index : Nat) :
    Text.unescape t =
      ((t.zipIdx index).filter fun entry => entry.2 ∉ escapesFrom index t).map Prod.fst := by
  fun_induction escapesFrom index t with
  | case1 => rfl
  | case2 index c => simp [Text.unescape]
  | case3 index d t ih =>
    have hkept : index + 1 ∉ index :: escapesFrom (index + 2) t := by
      rw [List.mem_cons]
      rintro (h | h)
      · omega
      · have := escapesFrom_ge _ h
        omega
    have hrest : ((t.zipIdx (index + 2)).filter fun entry => entry.2 ∉ index :: escapesFrom (index + 2) t) =
        (t.zipIdx (index + 2)).filter fun entry => entry.2 ∉ escapesFrom (index + 2) t := by
      apply List.filter_congr
      intro entry hentry
      have := (List.mem_zipIdx hentry).1
      have hne : entry.2 ≠ index := by omega
      simp [hne]
    simp only [List.zipIdx_cons, Nat.add_assoc, List.filter_cons, List.mem_cons_self, not_true_eq_false,
      decide_false, Bool.false_eq_true, if_false, hkept, not_false_eq_true, decide_true, if_true,
      List.map_cons, Text.unescape]
    rw [hrest, ih]
  | case4 index c d t hc ih =>
    have hkept : index ∉ escapesFrom (index + 1) (d :: t) := by
      intro h
      have := escapesFrom_ge _ h
      omega
    rw [Text.unescape, if_neg hc, List.zipIdx_cons, List.filter_cons]
    simp [hkept, ih]

theorem unescape_eq_without (t : Text) : Text.unescape t = without (escapes t) t :=
  unescape_eq_filter t 0

/-- Where no escape is split, a text is resolved in two parts, and the second pass moves the position
between them to the end of the first part. -/
theorem unescape_split (t : Text) (index resolved position : Nat) (hlength : position ≤ t.length)
    (hsplit : ∀ k ∈ escapesFrom index t, index + position ≠ k + 1) :
    Text.unescape t = Text.unescape (t.take position) ++ Text.unescape (t.drop position) ∧
      shiftFrom t resolved (resolved + position) =
        resolved + (Text.unescape (t.take position)).length := by
  fun_induction escapesFrom index t generalizing resolved position with
  | case1 =>
    obtain rfl : position = 0 := by simpa using hlength
    exact ⟨rfl, rfl⟩
  | case2 index c =>
    cases position with
    | zero => simp [Text.unescape, shiftFrom]
    | succ position =>
      have hzero : position = 0 := by simpa using hlength
      simp [hzero, Text.unescape, shiftFrom]
  | case3 index d t ih =>
    rcases position with _ | _ | position
    · exact ⟨rfl, shiftFrom_of_le _ (Nat.le_refl _)⟩
    · exact absurd rfl (hsplit index (List.mem_cons_self ..))
    · have hrest : ∀ k ∈ escapesFrom (index + 2) t, index + 2 + position ≠ k + 1 := by
        intro k hk
        have := hsplit k (List.mem_cons_of_mem _ hk)
        omega
      obtain ⟨htext, hshift⟩ := ih (resolved + 1) position (by simpa using hlength) hrest
      have hposition : resolved + (position + 2) - 1 = resolved + 1 + position := by omega
      simp only [List.take_succ_cons, List.drop_succ_cons, Text.unescape, if_true, List.cons_append,
        List.length_cons, shiftFrom]
      rw [if_pos (by omega), hposition, hshift, ← htext]
      exact ⟨rfl, by omega⟩
  | case4 index c d t hc ih =>
    cases position with
    | zero => exact ⟨rfl, shiftFrom_of_le _ (Nat.le_refl _)⟩
    | succ position =>
      have hrest : ∀ k ∈ escapesFrom (index + 1) (d :: t), index + 1 + position ≠ k + 1 := by
        intro k hk
        have := hsplit k hk
        omega
      obtain ⟨htext, hshift⟩ := ih (resolved + 1) position (by simpa using hlength) hrest
      have hposition : resolved + (position + 1) = resolved + 1 + position := by omega
      rw [List.take_succ_cons, List.drop_succ_cons, Text.unescape_plain hc, Text.unescape_plain hc,
        shiftFrom_plain hc, hposition, hshift, htext]
      exact ⟨rfl, by rw [List.length_cons]; omega⟩

/-! Events -/

/-- A position that splits no escape comes to lie behind the characters that stood in front of it. -/
theorem shift_eq_length {t : Text} {position : Nat} (hlength : position ≤ t.length)
    (hsplit : ¬ SplitsEscape t position) :
    shift t position = (Text.unescape (t.take position)).length ∧
      Text.unescape t = Text.unescape (t.take position) ++ Text.unescape (t.drop position) := by
  have hapart : ∀ k ∈ escapesFrom 0 t, 0 + position ≠ k + 1 := by
    intro k hk hposition
    exact hsplit ⟨k, hk, by omega⟩
  obtain ⟨htext, hshift⟩ := unescape_split t 0 0 position hlength hapart
  exact ⟨by simpa [shift] using hshift, htext⟩

theorem zip_resolveEscapes (s : Scanned) :
    s.events.zip s.resolveEscapes.events =
      s.events.map fun e => (e, { e with position := shift s.text e.position }) := by
  have hzip := List.zip_map' (f := id) (g := fun e : Event => { e with position := shift s.text e.position })
    (l := s.events)
  rwa [List.map_id] at hzip

/-- The second pass takes the backslash of each escape out of the text, and moves each event to the left by
the number of escapes that begin in front of it. So an event that splits no escape stands behind the same
characters as before, and events keep their order. -/
theorem resolveEscapes_exact (s : Scanned) (h : ∀ e ∈ s.events, e.position ≤ s.text.length) :
    s.resolveEscapes.text = without (escapes s.text) s.text ∧
      s.resolveEscapes.events =
        s.events.map (fun e => { e with position := e.position - escapesBefore s.text e.position }) ∧
      (∀ e ∈ s.events, escapesBefore s.text e.position ≤ e.position ∧
        (¬ SplitsEscape s.text e.position →
          e.position - escapesBefore s.text e.position =
            (Text.unescape (s.text.take e.position)).length ∧
          s.resolveEscapes.text =
            Text.unescape (s.text.take e.position) ++ Text.unescape (s.text.drop e.position))) ∧
      ∀ p ∈ s.events.zip s.resolveEscapes.events, ∀ q ∈ s.events.zip s.resolveEscapes.events,
        (p.1.position ≤ q.1.position → p.2.position ≤ q.2.position) ∧
          (p.1.position = q.1.position → p.2.position = q.2.position) := by
  have hmoved : ∀ e : Event, shift s.text e.position = e.position - escapesBefore s.text e.position := by
    intro e
    have := shift_add_escapesBefore s.text e.position
    omega
  refine ⟨unescape_eq_without s.text, ?_, ?_, ?_⟩
  · simp only [Scanned.resolveEscapes, hmoved]
  · intro e he
    have hle : escapesBefore s.text e.position ≤ e.position := by
      have := shift_add_escapesBefore s.text e.position
      omega
    refine ⟨hle, fun hsplit => ?_⟩
    rw [← hmoved]
    exact shift_eq_length (h e he) hsplit
  · rw [zip_resolveEscapes]
    simp only [List.forall_mem_map]
    intro e _ f _
    exact ⟨shift_mono s.text, congrArg _⟩

/-- Two backslashes, three before a bracket and one at the end. Events come out of order, and stand in front
of, within and behind an escape. -/
def backslashed : Scanned :=
  ⟨"\\\\a\\\\\\[b\\".toList,
    [9, 2, 6, 7, 2, 0, 1, 3, 5, 4].map fun position => ⟨.closeAll, position, 0⟩⟩

theorem resolveEscapes_exact_backslashed :
    (∀ e ∈ backslashed.events, e.position ≤ backslashed.text.length) ∧
      escapes backslashed.text = [0, 3, 5] ∧
      backslashed.resolveEscapes.text = "\\a\\[b\\".toList ∧
      backslashed.resolveEscapes.events.map Event.position = [6, 1, 3, 4, 1, 0, 0, 2, 3, 2] := by
  have hwithin : ∀ e ∈ backslashed.events, e.position ≤ backslashed.text.length := by decide
  obtain ⟨htext, hevents, -⟩ := resolveEscapes_exact backslashed hwithin
  rw [htext, hevents]
  exact ⟨hwithin, by decide, by decide, by decide⟩

end Parley.Markup
