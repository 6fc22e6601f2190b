import Parley.Body.Tokens
set_option autoImplicit false

/-!
What one call of the lexer can do.

`Step` lists it case by case, and every fact about whole runs of the lexer is derived from that list.
Of the open levels only the significant ones, the open blocks, are ever seen from outside.
-/

namespace Parley.Body

def TokenKind.isWritten : TokenKind → Bool
  | .endOfLine | .endOfInput | .indent | .dedent => false
  | _ => true

theorem Mode.find?_isWritten {m : Mode} {t : Text} {f : Mode.Found} (h : m.find? t = some f) :
    f.kind.isWritten = true := by
  rcases Option.or_eq_some_iff.1 h with h | ⟨_, h⟩
  · obtain ⟨r, hr, hf⟩ := List.exists_of_findSome?_eq_some h
    obtain ⟨n, _, rfl⟩ := Option.map_eq_some_iff.1 hf
    have hrules : ∀ r ∈ m.rules, r.kind.isWritten = true := by cases m <;> decide
    exact hrules r hr
  · split at h
    · simp only [Option.some.injEq] at h
      rw [← h]
      rfl
    · simp at h

theorem TokenKind.ne_of_isWritten {kind other : TokenKind} (h : kind.isWritten = true)
    (hother : other.isWritten = false) : kind ≠ other := by
  rintro rfl
  rw [h] at hother
  simp at hother

namespace Lexer

/-- From where a written token is read: the cursor within a line, or behind the blanks of a line that
neither opens nor closes a block. -/
inductive Ready (l : Lexer) : Lexer → Prop where
  | within (hcursor : l.cursor ≠ 0) : Ready l l
  | start {levels : List Level} (hcursor : l.cursor = 0)
      (hflat : l.tracking = true → Text.indentWidth l.line ≤ l.previous)
      (hclose : closeWider (Text.indentWidth l.line) l.levels = .settled levels) :
      Ready l { l with levels := levels, tracking := false, cursor := Text.indentWidth l.line }

inductive Step (l : Lexer) : Token → Lexer → Prop where
  | lineEnd {line : Text} {below : List Text} (hend : l.line.length ≤ l.cursor)
      (hbelow : l.below = line :: below) : Step l (l.unwritten .endOfLine) (l.nextLine line below)
  | closeAtEnd {levels : List Level} (hend : l.line.length ≤ l.cursor) (hbelow : l.below = [])
      (hclose : closeOne l.levels = some levels) :
      Step l (l.unwritten .dedent) { l with levels := levels }
  | inputEnd (hend : l.line.length ≤ l.cursor) (hbelow : l.below = [])
      (hclose : closeOne l.levels = none) :
      Step l (l.unwritten .endOfInput) { l with levels := [] }
  | opens (hcursor : l.cursor = 0) (hline : l.line ≠ []) (htracking : l.tracking = true)
      (hdeep : l.previous < Text.indentWidth l.line) :
      Step l (l.unwritten .indent)
        { l with levels := ⟨Text.indentWidth l.line, true⟩ :: l.levels, tracking := false }
  | closes {levels : List Level} (hcursor : l.cursor = 0) (hline : l.line ≠ [])
      (hflat : l.tracking = true → Text.indentWidth l.line ≤ l.previous)
      (hclose : closeWider (Text.indentWidth l.line) l.levels = .block levels) :
      Step l (l.unwritten .dedent)
        { l with levels := levels, tracking := false, previous := topWidth levels }
  | reads {m : Lexer} {found : Mode.Found} (hmore : l.cursor < l.line.length) (hready : Ready l m)
      (hfind : m.mode.find? (m.line.drop m.cursor) = some found) :
      Step l (m.accept found).1 (m.accept found).2

variable {l l' m : Lexer} {token : Token}

theorem read_eq_ok_iff :
    l.read = .ok (token, l') ↔
      ∃ found, l.mode.find? (l.line.drop l.cursor) = some found ∧ l.accept found = (token, l') := by
  unfold read
  cases l.mode.find? (l.line.drop l.cursor) <;> simp

theorem read_eq_error_iff {e : LexError} :
    l.read = .error e ↔ l.mode.find? (l.line.drop l.cursor) = none ∧
      e = ⟨.invalidSyntax l.mode l.line, l.spanOf l.cursor l.line.length⟩ := by
  unfold read
  cases l.mode.find? (l.line.drop l.cursor) <;> simp [eq_comm]

theorem step_of_read (hmore : l.cursor < l.line.length) (hready : Ready l m)
    (h : m.read = .ok (token, l')) : Step l token l' := by
  obtain ⟨found, hfind, haccept⟩ := read_eq_ok_iff.1 h
  have hstep := Step.reads hmore hready hfind
  rwa [haccept] at hstep

theorem indentation_cases (l : Lexer) :
    (l.tracking = true ∧ l.previous < Text.indentWidth l.line ∧
      l.indentation = .inl (l.unwritten .indent,
        { l with levels := ⟨Text.indentWidth l.line, true⟩ :: l.levels, tracking := false })) ∨
    ((l.tracking = true → Text.indentWidth l.line ≤ l.previous) ∧
      l.indentation = match closeWider (Text.indentWidth l.line) l.levels with
        | .block levels => .inl (l.unwritten .dedent,
            { l with levels := levels, tracking := false, previous := topWidth levels })
        | .settled levels =>
          .inr { l with levels := levels, tracking := false, cursor := Text.indentWidth l.line }) := by
  by_cases h : l.tracking = true ∧ l.previous < Text.indentWidth l.line
  · have hopen : (l.tracking && decide (l.previous < Text.indentWidth l.line)) = true := by simp [h]
    exact .inl ⟨h.1, h.2, by simp only [indentation, hopen, if_true]⟩
  · have hflat : l.tracking = true → Text.indentWidth l.line ≤ l.previous := by
      intro ht
      apply Nat.le_of_not_lt
      intro hlt
      exact h ⟨ht, hlt⟩
    have hopen : (l.tracking && decide (l.previous < Text.indentWidth l.line)) = false := by
      simpa using hflat
    exact .inr ⟨hflat, if_neg (by simp [hopen])⟩

theorem step_of_next (h : l.next = .ok (token, l')) : Step l token l' := by
  unfold next at h
  split at h
  · rename_i hend
    split at h
    · rename_i hbelow
      unfold atEnd at h
      split at h
      · rename_i levels hclose
        cases h
        exact .closeAtEnd hend hbelow hclose
      · rename_i hclose
        cases h
        exact .inputEnd hend hbelow hclose
    · rename_i line below hbelow
      cases h
      exact .lineEnd hend hbelow
  · rename_i hend
    have hmore : l.cursor < l.line.length := by omega
    split at h
    · rename_i hcursor
      have hline : l.line ≠ [] := by
        intro hnil
        simp [hnil] at hmore
      rcases indentation_cases l with ⟨htracking, hdeep, hindent⟩ | ⟨hflat, hindent⟩
      · simp only [hindent] at h
        cases h
        exact .opens hcursor hline htracking hdeep
      · cases hclose : closeWider (Text.indentWidth l.line) l.levels with
        | block levels =>
          simp only [hindent, hclose] at h
          cases h
          exact .closes hcursor hline hflat hclose
        | settled levels =>
          simp only [hindent, hclose] at h
          exact step_of_read hmore (.start hcursor hflat hclose) h
    · rename_i hcursor
      exact step_of_read hmore (.within hcursor) h

theorem next_of_ready (hmore : l.cursor < l.line.length) :
    l.next = if l.cursor = 0 then
      match l.indentation with
      | .inl due => .ok due
      | .inr m => m.read
    else l.read := by
  unfold next
  exact if_neg (Nat.not_le_of_lt hmore)

theorem Ready.next_eq (hready : Ready l m) (hmore : l.cursor < l.line.length) : l.next = m.read := by
  rw [next_of_ready hmore]
  cases hready with
  | within hcursor => rw [if_neg hcursor]
  | start hcursor hflat hclose =>
    rw [if_pos hcursor]
    rcases indentation_cases l with ⟨htracking, hdeep, _⟩ | ⟨_, hindent⟩
    · have := hflat htracking
      omega
    · rw [hindent, hclose]

theorem next_of_step (h : Step l token l') : l.next = .ok (token, l') := by
  cases h with
  | lineEnd hend hbelow => simp [next, hend, hbelow]
  | closeAtEnd hend hbelow hclose => simp [next, hend, hbelow, atEnd, hclose]
  | inputEnd hend hbelow hclose => simp [next, hend, hbelow, atEnd, hclose]
  | opens hcursor hline htracking hdeep =>
    have hmore : l.cursor < l.line.length := hcursor ▸ List.length_pos_iff.2 hline
    rw [next_of_ready hmore, if_pos hcursor]
    rcases indentation_cases l with ⟨_, _, hindent⟩ | ⟨hflat, _⟩
    · rw [hindent]
    · have := hflat htracking
      omega
  | closes hcursor hline hflat hclose =>
    have hmore : l.cursor < l.line.length := hcursor ▸ List.length_pos_iff.2 hline
    rw [next_of_ready hmore, if_pos hcursor]
    rcases indentation_cases l with ⟨htracking, hdeep, _⟩ | ⟨_, hindent⟩
    · have := hflat htracking
      omega
    · rw [hindent, hclose]
  | @reads m found hmore hready hfind =>
    rw [hready.next_eq hmore]
    exact read_eq_ok_iff.2 ⟨found, hfind, rfl⟩

@[simp] theorem unwritten_kind (l : Lexer) (kind : TokenKind) : (l.unwritten kind).kind = kind := rfl

@[simp] theorem accept_kind (l : Lexer) (found : Mode.Found) :
    (l.accept found).1.kind = found.kind := rfl

def starts (found : Mode.Found) : Bool :=
  found.next.any Mode.tracksIndentation

def levelsWith (l : Lexer) (found : Mode.Found) : List Level :=
  if starts found = true ∧ topWidth l.levels < Text.indentWidth l.line then
    ⟨Text.indentWidth l.line, false⟩ :: l.levels
  else l.levels

theorem accept_snd (l : Lexer) (found : Mode.Found) :
    (l.accept found).2 =
      { l with
        cursor := l.cursor + found.length +
          (if keepsBlanks found.kind found.next then 0
            else Text.indentWidth (l.line.drop (l.cursor + found.length)))
        mode := found.next.getD l.mode
        levels := l.levelsWith found
        tracking := starts found || l.tracking } := by
  obtain ⟨kind, length, next⟩ := found
  cases next with
  | none => simp [accept, starts, levelsWith]
  | some mode => cases h : mode.tracksIndentation <;> simp [accept, enter, starts, levelsWith, h]

/-! Open blocks. -/

def blocks (levels : List Level) : List Nat :=
  (levels.filter (·.significant)).map (·.width)

theorem blocks_cons (v : Level) (levels : List Level) :
    blocks (v :: levels) = if v.significant then v.width :: blocks levels else blocks levels := by
  unfold blocks
  cases h : v.significant <;> simp [h]

@[simp] theorem blocks_append (front back : List Level) :
    blocks (front ++ back) = blocks front ++ blocks back := by
  simp [blocks]

/-- The innermost block and the levels outside of it; the levels within are not significant. -/
def Innermost (levels : List Level) (width : Nat) (rest : List Level) : Prop :=
  ∃ within, levels = within ++ ⟨width, true⟩ :: rest ∧ blocks within = []

theorem Innermost.blocks_eq {levels rest : List Level} {width : Nat}
    (h : Innermost levels width rest) : blocks levels = width :: blocks rest := by
  obtain ⟨within, rfl, hwithin⟩ := h
  rw [blocks_append, hwithin, blocks_cons, List.nil_append]
  rfl

theorem Innermost.cons {levels rest : List Level} {width : Nat} (h : Innermost levels width rest)
    {v : Level} (hv : v.significant = false) : Innermost (v :: levels) width rest := by
  obtain ⟨within, rfl, hwithin⟩ := h
  refine ⟨v :: within, rfl, ?_⟩
  rw [blocks_cons, hv, hwithin]
  rfl

theorem innermost_of_closeOne {levels rest : List Level} (h : closeOne levels = some rest) :
    ∃ width, Innermost levels width rest := by
  induction levels with
  | nil => simp [closeOne] at h
  | cons v vs ih =>
    simp only [closeOne] at h
    split at h
    · rename_i hs
      simp only [Option.some.injEq] at h
      exact ⟨v.width, [], by rw [← hs, ← h]; rfl, rfl⟩
    · rename_i hs
      obtain ⟨width, hwidth⟩ := ih h
      exact ⟨width, hwidth.cons (by simpa using hs)⟩

theorem blocks_of_closeOne_none {levels : List Level} (h : closeOne levels = none) :
    blocks levels = [] := by
  induction levels with
  | nil => rfl
  | cons v vs ih =>
    rw [blocks_cons]
    cases hs : v.significant with
    | true => simp [closeOne, hs] at h
    | false =>
      simp only [closeOne, hs, Bool.false_eq_true, if_false] at h
      simpa using ih h

/-- A line that closes a block is less deep than the block. -/
theorem innermost_of_closeWider {width : Nat} {levels rest : List Level}
    (h : closeWider width levels = .block rest) :
    ∃ deeper, Innermost levels deeper rest ∧ width < deeper := by
  induction levels with
  | nil => simp [closeWider] at h
  | cons v vs ih =>
    simp only [closeWider] at h
    split at h
    · rename_i hwidth
      split at h
      · rename_i hs
        simp only [Closing.block.injEq] at h
        exact ⟨v.width, ⟨[], by rw [← hs, ← h]; rfl, rfl⟩, hwidth⟩
      · rename_i hs
        obtain ⟨deeper, hdeeper, hlt⟩ := ih h
        exact ⟨deeper, hdeeper.cons (by simpa using hs), hlt⟩
    · simp at h

/-- A line that closes no block leaves the open ones, and is as deep as the innermost level. -/
theorem blocks_of_closeWider_settled {width : Nat} {levels rest : List Level}
    (h : closeWider width levels = .settled rest) :
    rest <:+ levels ∧ blocks rest = blocks levels ∧ topWidth rest ≤ width := by
  induction levels with
  | nil =>
    simp only [closeWider, Closing.settled.injEq] at h
    subst h
    exact ⟨List.suffix_refl _, rfl, Nat.zero_le _⟩
  | cons v vs ih =>
    simp only [closeWider] at h
    split at h
    · split at h
      · simp at h
      · rename_i hs
        obtain ⟨hsuffix, hblocks, htop⟩ := ih h
        refine ⟨hsuffix.trans (List.suffix_cons v vs), ?_, htop⟩
        rw [blocks_cons, if_neg hs, hblocks]
    · rename_i hwidth
      simp only [Closing.settled.injEq] at h
      subst h
      refine ⟨List.suffix_refl _, rfl, ?_⟩
      simp only [topWidth]
      omega

/-- Levels grow strictly inwards, from the margin on. -/
structure Nested (levels : List Level) : Prop where
  sorted : levels.Pairwise fun inner outer => outer.width < inner.width
  bottom : levels.getLast? = some ⟨0, false⟩

theorem Nested.of_suffix {levels rest : List Level} (h : Nested levels) (hsuffix : rest <:+ levels)
    (hne : rest ≠ []) : Nested rest := by
  refine ⟨h.sorted.sublist hsuffix.sublist, ?_⟩
  obtain ⟨dropped, rfl⟩ := hsuffix
  have hbottom := h.bottom
  rwa [List.getLast?_append, List.getLast?_eq_some_getLast hne, Option.some_or,
    ← List.getLast?_eq_some_getLast hne] at hbottom

theorem Nested.of_innermost {levels rest : List Level} {width : Nat} (h : Nested levels)
    (hrest : Innermost levels width rest) : Nested rest := by
  obtain ⟨within, rfl, _⟩ := hrest
  apply h.of_suffix ⟨within ++ [⟨width, true⟩], by simp⟩
  rintro rfl
  have hbottom := h.bottom
  simp at hbottom

theorem Nested.of_settled {levels rest : List Level} {width : Nat} (h : Nested levels)
    (hrest : closeWider width levels = .settled rest) : Nested rest := by
  apply h.of_suffix (blocks_of_closeWider_settled hrest).1
  rintro rfl
  have hbottom := h.bottom
  induction levels with
  | nil => simp at hbottom
  | cons v vs ih =>
    simp only [closeWider] at hrest
    split at hrest
    · rename_i hwidth
      split at hrest
      · simp at hrest
      · cases vs with
        | nil =>
          simp only [List.getLast?_singleton, Option.some.injEq] at hbottom
          rw [hbottom] at hwidth
          simp at hwidth
        | cons u us =>
          rw [List.getLast?_cons_cons] at hbottom
          exact ih (h.of_suffix (List.suffix_cons v _) (by simp)) hrest hbottom
    · simp at hrest

theorem Nested.push {levels : List Level} (h : Nested levels) {v : Level}
    (hv : topWidth levels < v.width) : Nested (v :: levels) := by
  cases levels with
  | nil => simpa using h.bottom
  | cons u us =>
    have hsorted := h.sorted
    simp only [topWidth] at hv
    refine ⟨List.pairwise_cons.2 ⟨?_, hsorted⟩, by simpa using h.bottom⟩
    intro w hw
    rcases List.mem_cons.1 hw with rfl | hw
    · exact hv
    · exact Nat.lt_trans ((List.pairwise_cons.1 hsorted).1 w hw) hv

theorem Nested.width_le {levels : List Level} (h : Nested levels) {v : Level} (hv : v ∈ levels) :
    v.width ≤ topWidth levels := by
  cases levels with
  | nil => simp at hv
  | cons u us =>
    simp only [topWidth]
    rcases List.mem_cons.1 hv with rfl | hv
    · exact Nat.le_refl _
    · exact Nat.le_of_lt ((List.pairwise_cons.1 h.sorted).1 v hv)

theorem Nested.le_topWidth {levels : List Level} (h : Nested levels) {width : Nat}
    (hwidth : width ∈ blocks levels) : width ≤ topWidth levels := by
  obtain ⟨v, hv, rfl⟩ := List.mem_map.1 hwidth
  exact h.width_le (List.mem_filter.1 hv).1

theorem Nested.topWidth_innermost {levels rest : List Level} {width : Nat} (h : Nested levels)
    (hrest : Innermost levels width rest) : topWidth rest ≤ topWidth levels := by
  obtain ⟨within, rfl, _⟩ := hrest
  cases rest with
  | nil => exact Nat.zero_le _
  | cons v vs => exact h.width_le (v := v) (by simp)

/-! From call to call. -/

def AtEnd (l : Lexer) : Prop :=
  l.line.length ≤ l.cursor ∧ l.below = []

/-- What holds before every call up to the end of the input. Behind an option the innermost level has
the width of its line, which is what the next line is compared with. -/
structure Orderly (l : Lexer) : Prop where
  nested : Nested l.levels
  within : l.cursor ≠ 0 → topWidth l.levels ≤ Text.indentWidth l.line
  option : ¬ l.AtEnd → l.tracking = true →
    if l.cursor = 0 then l.previous = topWidth l.levels
    else topWidth l.levels = Text.indentWidth l.line

theorem orderly_ofLines (lines : List Text) : Orderly (ofLines lines) where
  nested := ⟨by simp [ofLines], rfl⟩
  within := fun h => absurd rfl h
  option := fun _ h => absurd h (by simp [ofLines])

theorem Ready.line_eq (h : Ready l m) : m.line = l.line := by
  cases h <;> rfl

theorem Ready.below_eq (h : Ready l m) : m.below = l.below := by
  cases h <;> rfl

theorem Ready.number_eq (h : Ready l m) : m.number = l.number := by
  cases h <;> rfl

theorem Ready.mode_eq (h : Ready l m) : m.mode = l.mode := by
  cases h <;> rfl

theorem Ready.blocks_eq (h : Ready l m) : blocks m.levels = blocks l.levels := by
  cases h with
  | within => rfl
  | start _ _ hclose => exact (blocks_of_closeWider_settled hclose).2.1

theorem Ready.nested (h : Ready l m) (hl : Orderly l) : Nested m.levels := by
  cases h with
  | within => exact hl.nested
  | start _ _ hclose => exact hl.nested.of_settled hclose

theorem Ready.topWidth_le (h : Ready l m) (hl : Orderly l) :
    topWidth m.levels ≤ Text.indentWidth l.line := by
  cases h with
  | within hcursor => exact hl.within hcursor
  | start _ _ hclose => exact (blocks_of_closeWider_settled hclose).2.2

@[simp] theorem blocks_levelsWith (l : Lexer) (found : Mode.Found) :
    blocks (l.levelsWith found) = blocks l.levels := by
  unfold levelsWith
  split
  · rw [blocks_cons]
    rfl
  · rfl

theorem Nested.levelsWith (h : Nested l.levels) (found : Mode.Found) :
    Nested (l.levelsWith found) := by
  unfold Lexer.levelsWith
  split
  · rename_i hpush
    exact h.push hpush.2
  · exact h

theorem topWidth_levelsWith_le (found : Mode.Found)
    (h : topWidth l.levels ≤ Text.indentWidth l.line) :
    topWidth (l.levelsWith found) ≤ Text.indentWidth l.line := by
  unfold levelsWith
  split
  · exact Nat.le_refl _
  · exact h

theorem topWidth_levelsWith_eq {found : Mode.Found} (hstarts : starts found = true)
    (h : topWidth l.levels ≤ Text.indentWidth l.line) :
    topWidth (l.levelsWith found) = Text.indentWidth l.line := by
  unfold levelsWith
  split
  · rfl
  · rename_i hpush
    have hnot : ¬ topWidth l.levels < Text.indentWidth l.line := fun hlt => hpush ⟨hstarts, hlt⟩
    omega

theorem cursor_accept_ne_zero {found : Mode.Found}
    (hfind : m.mode.find? (m.line.drop m.cursor) = some found) :
    (m.accept found).2.cursor ≠ 0 := by
  have hpos := Mode.find?_length_pos hfind
  rw [accept_snd]
  simp only
  omega

theorem Orderly.step (hl : Orderly l) (h : Step l token l') (hkind : token.kind ≠ .endOfInput) :
    Orderly l' := by
  cases h with
  | lineEnd hend hbelow =>
    exact ⟨hl.nested, fun h => absurd rfl h, fun _ _ => rfl⟩
  | closeAtEnd hend hbelow hclose =>
    obtain ⟨width, hinner⟩ := innermost_of_closeOne hclose
    have hrest := hl.nested.of_innermost hinner
    refine ⟨hrest, ?_, fun hmore => absurd ⟨hend, hbelow⟩ hmore⟩
    intro hcursor
    exact Nat.le_trans (hl.nested.topWidth_innermost hinner) (hl.within hcursor)
  | inputEnd => exact absurd rfl hkind
  | opens hcursor hline htracking hdeep =>
    have hmore : ¬ l.AtEnd := by
      intro hend
      have hpos := List.length_pos_iff.2 hline
      have := hend.1
      omega
    have hprevious := hl.option hmore htracking
    rw [if_pos hcursor] at hprevious
    refine ⟨hl.nested.push (by simpa [← hprevious] using hdeep), fun h => absurd hcursor h, ?_⟩
    intro _ h
    simp at h
  | closes hcursor hline hflat hclose =>
    obtain ⟨deeper, hinner, _⟩ := innermost_of_closeWider hclose
    refine ⟨hl.nested.of_innermost hinner, fun h => absurd hcursor h, ?_⟩
    intro _ h
    simp at h
  | @reads m found hmore hready hfind =>
    have hcursor := cursor_accept_ne_zero hfind
    have htop : topWidth m.levels ≤ Text.indentWidth m.line := by
      rw [hready.line_eq]
      exact hready.topWidth_le hl
    rw [accept_snd] at hcursor ⊢
    refine ⟨(hready.nested hl).levelsWith found, fun _ => topWidth_levelsWith_le found htop, ?_⟩
    intro _ htracking
    rw [if_neg hcursor]
    simp only [Bool.or_eq_true] at htracking
    rcases htracking with hstarts | htracking
    · exact topWidth_levelsWith_eq hstarts htop
    · cases hready with
      | start => simp at htracking
      | within hwithin =>
        have hoption := hl.option (fun hend => Nat.not_lt_of_le hend.1 hmore) htracking
        rw [if_neg hwithin] at hoption
        simp [levelsWith, hoption]

inductive Path : Lexer → List Token → Lexer → Prop where
  | nil {l : Lexer} : Path l [] l
  | cons {l m l' : Lexer} {token : Token} {tokens : List Token} (head : Step l token m)
      (tail : Path m tokens l') : Path l (token :: tokens) l'

theorem Path.split {front back : List Token} (h : Path l (front ++ back) l') :
    ∃ m, Path l front m ∧ Path m back l' := by
  induction front generalizing l with
  | nil => exact ⟨l, .nil, h⟩
  | cons token front ih =>
    cases h with
    | cons head tail =>
      obtain ⟨m, hfront, hback⟩ := ih tail
      exact ⟨m, .cons head hfront, hback⟩

theorem Orderly.path {tokens : List Token} (hl : Orderly l) (h : Path l tokens l')
    (hkind : ∀ token ∈ tokens, token.kind ≠ .endOfInput) : Orderly l' := by
  induction h with
  | nil => exact hl
  | cons head tail ih =>
    have hm := hl.step head (hkind _ (List.mem_cons_self ..))
    exact ih hm fun token htoken => hkind token (List.mem_cons_of_mem _ htoken)

theorem path_of_tokens {tokens : List Token} (h : l.tokens = .ok tokens) :
    ∃ front last l', tokens = front ++ [last] ∧ Path l tokens l' ∧ last.kind = .endOfInput ∧
      ∀ token ∈ front, token.kind ≠ .endOfInput := by
  fun_induction Lexer.tokens l generalizing tokens with
  | case1 l e hnext => simp at h
  | case2 l token rest hnext hkind =>
    cases h
    exact ⟨[], token, rest, rfl, .cons (step_of_next hnext) .nil, hkind, by simp⟩
  | case3 l token rest hnext hkind ih =>
    cases hrest : rest.tokens with
    | error e => simp [hrest, Except.map] at h
    | ok others =>
      simp only [hrest, Except.map, Except.ok.injEq] at h
      obtain ⟨front, last, l', rfl, hpath, hlast, hfront⟩ := ih hrest
      refine ⟨token :: front, last, l', h.symm, ?_, hlast, ?_⟩
      · rw [← h]
        exact .cons (step_of_next hnext) hpath
      · intro t ht
        rcases List.mem_cons.1 ht with rfl | ht
        · exact hkind
        · exact hfront t ht

end Lexer

end Parley.Body
