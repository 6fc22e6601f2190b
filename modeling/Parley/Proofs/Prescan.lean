import Mathlib.Data.List.ReduceOption
import Parley.Play.Playthrough
import Parley.Proofs.Excerpt
import Parley.Proofs.OutlineRoundTrip
import Parley.Proofs.Padding
set_option autoImplicit false

/-!
The lines that look like declarations, parsed together, against the bodies that they were taken from.

The lines are cut at line feeds only, so that to the lexer one of them may be several lines.
-/

namespace Parley.Text

@[simp] theorem splitOn_append_sep (sep : Char) (t u : Text) :
    splitOn sep (t ++ sep :: u) = splitOn sep t ++ splitOn sep u := by
  induction t with
  | nil => simp [splitOn]
  | cons c t ih =>
    by_cases hc : c = sep
    · simp [splitOn, hc, ih]
    · cases hs : splitOn sep t with
      | nil => exact absurd hs (splitOn_ne_nil sep t)
      | cons w ws => simp [splitOn, hc, ih, hs]

theorem unifyBreaks_cons {c : Char} {t : Text} (h : c = '\r' → t.head? ≠ some '\n') :
    unifyBreaks (c :: t) = (if c = '\r' then '\n' else c) :: unifyBreaks t := by
  rw [unifyBreaks]
  rintro u rfl rfl
  exact h rfl rfl

theorem unifyBreaks_append {t u : Text} (h : t.getLast? = some '\r' → u.head? ≠ some '\n') :
    unifyBreaks (t ++ u) = unifyBreaks t ++ unifyBreaks u := by
  fun_induction unifyBreaks t with
  | case1 => rfl
  | case2 t ih =>
    have hlast : t.getLast? = some '\r' → u.head? ≠ some '\n' := by
      intro ht
      apply h
      simp [List.getLast?_cons, ht]
    simp [unifyBreaks, ih hlast]
  | case3 c t hfirst ih =>
    cases t with
    | nil =>
      have hc : c = '\r' → u.head? ≠ some '\n' := by
        rintro rfl
        exact h rfl
      rw [List.singleton_append, unifyBreaks_cons hc]
      rfl
    | cons d t =>
      have hc : c = '\r' → (d :: t ++ u).head? ≠ some '\n' := by
        rintro rfl hd
        exact hfirst t rfl (by rw [Option.some.inj hd])
      rw [List.cons_append, unifyBreaks_cons hc, ih (by simpa using h), List.cons_append]

theorem eq_or_dropReturn (t : Text) :
    dropReturn t = t ∧ t.getLast? ≠ some '\r' ∨ t = dropReturn t ++ ['\r'] := by
  unfold dropReturn
  split
  · rename_i hlast
    right
    obtain ⟨init, rfl⟩ := List.getLast?_eq_some_iff.1 hlast
    simp
  · rename_i hlast
    exact .inl ⟨rfl, hlast⟩

/-- A return at the end of a line belongs to the line feed behind it. -/
theorem unifyBreaks_line (t u : Text) :
    unifyBreaks (t ++ '\n' :: u) = unifyBreaks (dropReturn t) ++ '\n' :: unifyBreaks u := by
  rcases eq_or_dropReturn t with ⟨heq, hlast⟩ | heq
  · rw [heq, unifyBreaks_append fun h => absurd h hlast, unifyBreaks_cons (by simp)]
    rfl
  · generalize dropReturn t = init at heq
    rw [heq, List.append_assoc, unifyBreaks_append (by simp)]
    rfl

end Parley.Text

namespace Parley.Body

theorem writtenLines_line (t u : Text) :
    writtenLines (t ++ '\n' :: u) = writtenLines (Text.dropReturn t) ++ writtenLines u := by
  unfold writtenLines
  rw [Text.unifyBreaks_line, Text.splitOn_append_sep]

theorem writtenLines_join {pieces : List Text} (h : pieces ≠ []) :
    ∃ n, writtenLines (Text.join ['\n'] pieces) =
      (Text.linesOfPieces pieces).flatMap writtenLines ++ List.replicate n [] := by
  induction pieces with
  | nil => exact absurd rfl h
  | cons w ws ih =>
    cases ws with
    | nil =>
      cases w with
      | nil => exact ⟨1, rfl⟩
      | cons c w => exact ⟨0, by simp [Text.join, Text.linesOfPieces]⟩
    | cons v vs =>
      obtain ⟨n, hn⟩ := ih (by simp)
      refine ⟨n, ?_⟩
      have hjoin : Text.join ['\n'] (w :: v :: vs) = w ++ '\n' :: Text.join ['\n'] (v :: vs) := by
        simp [Text.join]
      have hpieces : Text.linesOfPieces (w :: v :: vs) =
          Text.dropReturn w :: Text.linesOfPieces (v :: vs) := rfl
      rw [hjoin, writtenLines_line, hn, hpieces, List.flatMap_cons, List.append_assoc]

def fullLines (body : Text) : List Text :=
  (writtenLines body).filter fun line => !decide (IsBlankLine line)

@[simp] theorem fullLines_dropReturn (t : Text) : fullLines (Text.dropReturn t) = fullLines t := by
  rcases Text.eq_or_dropReturn t with ⟨heq, -⟩ | heq
  · rw [heq]
  · generalize Text.dropReturn t = init at heq
    subst heq
    have hlines : writtenLines (init ++ ['\r']) = writtenLines init ++ [[]] := by
      unfold writtenLines
      rw [Text.unifyBreaks_append (by simp)]
      exact Text.splitOn_snoc_sep '\n' _
    unfold fullLines
    rw [hlines, List.filter_append]
    simp

@[simp] theorem fullLines_nil : fullLines [] = [] := by
  decide

theorem fullLines_linesOfPieces (pieces : List Text) :
    (Text.linesOfPieces pieces).flatMap fullLines = pieces.flatMap fullLines := by
  induction pieces with
  | nil => rfl
  | cons w ws ih =>
    cases ws with
    | nil =>
      cases w with
      | nil => simp [Text.linesOfPieces]
      | cons c w => simp [Text.linesOfPieces]
    | cons v vs =>
      have hpieces : Text.linesOfPieces (w :: v :: vs) =
          Text.dropReturn w :: Text.linesOfPieces (v :: vs) := rfl
      rw [hpieces, List.flatMap_cons, ih, fullLines_dropReturn]
      rfl

@[simp] theorem fullLines_join (pieces : List Text) :
    fullLines (Text.join ['\n'] pieces) = pieces.flatMap fullLines := by
  cases pieces with
  | nil => rfl
  | cons w ws =>
    obtain ⟨n, hn⟩ := writtenLines_join (List.cons_ne_nil w ws)
    have hblanks : (List.replicate n ([] : Text)).filter (fun line => !decide (IsBlankLine line)) =
        [] := by
      simp
    rw [← fullLines_linesOfPieces, fullLines, hn, List.filter_append, List.filter_flatMap, hblanks,
      List.append_nil]
    rfl

/-! Tokens of a line on its own. -/

theorem mem_weave {levels : List Level} {tracking : Bool} {rows : List (Option Row)} {r : Row}
    (hr : some r ∈ rows) {x : Lexeme} (hx : x ∈ r.lexemes) : x ∈ weave levels tracking rows := by
  induction rows generalizing levels tracking with
  | nil => simp at hr
  | cons row rows ih =>
    cases row with
    | none =>
      rw [weave]
      exact List.mem_append_right _ (ih (by simpa using hr))
    | some s =>
      rw [weave]
      rcases List.mem_cons.1 hr with hr | hr
      · cases hr
        simp [hx]
      · simp [ih hr]

theorem tokenize_of_row {line : Text} {rows : List (Option Row)}
    (h : List.Forall₂ ReadLine (writtenLines line) rows) :
    ∃ tokens, tokenize line = .ok tokens ∧
      ∀ r, some r ∈ rows → ∀ x ∈ r.lexemes, ∃ token ∈ tokens, token.kind = x.1 := by
  obtain ⟨kept, n, rfl, -, hspells⟩ := spells_of_rows h
  obtain ⟨tokens, htokens, hlexemes⟩ := hspells.tokens
  refine ⟨tokens, htokens, fun r hr x hx => ?_⟩
  have hkept : some r ∈ kept := by simpa using hr
  have hmem : x ∈ tokens.map Token.lexeme := by
    rw [hlexemes]
    exact List.mem_append_left _ (mem_weave hkept hx)
  obtain ⟨token, htoken, rfl⟩ := List.mem_map.1 hmem
  exact ⟨token, htoken, rfl⟩

/-! Lines that are kept and lines that are dropped. -/

/-- What is known of a line that is kept or dropped. -/
def Row.Fits (r : Row) (kept : Bool) : Prop :=
  r.Written ∧ if kept then r.starts = false ∧ ∀ x ∈ r.lexemes, x.1.isBranching = false
    else ∀ x ∈ r.lexemes, x.1 ≠ .declareWord

def keptRows (marked : List (Bool × Option Row)) : List Row :=
  marked.filterMap fun m => if m.1 then m.2 else none

def content (rows : List Row) : List Lexeme :=
  rows.flatMap fun r => r.lexemes ++ [(.endOfLine, [])]

section Marked

variable {behind xs zs : List Lexeme}

theorem Excerpt.behind_indentation {front : List Lexeme} (h : Excerpt behind .start xs zs)
    (hfront : ∀ x ∈ front, x.1 = .indent ∨ x.1 = .dedent) : Excerpt behind .start (front ++ xs) zs := by
  induction front with
  | nil => exact h
  | cons x front ih =>
    exact .indentation (hfront x (List.mem_cons_self ..))
      (ih fun y hy => hfront y (List.mem_cons_of_mem _ hy))

theorem Excerpt.behind_kept {front : List Lexeme} (h : Excerpt behind .kept xs zs)
    (hwritten : ∀ x ∈ front, x.1.isWritten = true) (hplain : ∀ x ∈ front, x.1.isBranching = false) :
    Excerpt behind .kept (front ++ xs) (front ++ zs) := by
  induction front with
  | nil => exact h
  | cons x front ih =>
    exact .kept (hwritten x (List.mem_cons_self ..)) (hplain x (List.mem_cons_self ..))
      (ih (fun y hy => hwritten y (List.mem_cons_of_mem _ hy))
        fun y hy => hplain y (List.mem_cons_of_mem _ hy))

theorem Excerpt.behind_dropped {front : List Lexeme} (h : Excerpt behind .dropped xs zs)
    (hwritten : ∀ x ∈ front, x.1.isWritten = true) (hplain : ∀ x ∈ front, x.1 ≠ .declareWord) :
    Excerpt behind .dropped (front ++ xs) zs := by
  induction front with
  | nil => exact h
  | cons x front ih =>
    exact .dropped (hwritten x (List.mem_cons_self ..)) (hplain x (List.mem_cons_self ..))
      (ih (fun y hy => hwritten y (List.mem_cons_of_mem _ hy))
        fun y hy => hplain y (List.mem_cons_of_mem _ hy))

theorem Row.Fits.excerpt {r : Row} {kept : Bool} (hr : r.Fits kept) {rows : List (Option Row)}
    {levels : List Level} {tracking : Bool}
    (h : Excerpt behind .start (weave levels tracking rows ++ [inputEnd]) zs) :
    Excerpt behind .start
      (r.lexemes ++ (breakIf (!rows.isEmpty) ++ (weave levels tracking rows ++ [inputEnd])))
      ((if kept then r.lexemes ++ [(.endOfLine, [])] else []) ++ zs) := by
  obtain ⟨⟨hne, hwritten⟩, hplain⟩ := hr
  obtain ⟨x, front, hfront⟩ := List.exists_cons_of_ne_nil hne
  have hx := hwritten x (by simp [hfront])
  cases kept with
  | true =>
    have hend : Excerpt behind .kept
        (breakIf (!rows.isEmpty) ++ (weave levels tracking rows ++ [inputEnd]))
        ((.endOfLine, []) :: zs) := by
      cases rows with
      | nil =>
        obtain ⟨y, rest, hy, hclose⟩ := endings_starts levels
        rw [weave, hy] at h ⊢
        exact .keptEnd hclose h
      | cons => exact .keptBreak h
    have hline := hend.behind_kept hwritten hplain.2
    rw [hfront] at hline ⊢
    simpa using Excerpt.keep hx hline
  | false =>
    have hend : Excerpt behind .dropped
        (breakIf (!rows.isEmpty) ++ (weave levels tracking rows ++ [inputEnd])) zs := by
      cases rows with
      | nil =>
        obtain ⟨y, rest, hy, hclose⟩ := endings_starts levels
        rw [weave, hy] at h ⊢
        exact .droppedEnd hclose h
      | cons => exact .droppedBreak h
    have hline := hend.behind_dropped hwritten hplain
    rw [hfront] at hline ⊢
    exact .drop hx hline

theorem excerpt_weave {marked : List (Bool × Option Row)}
    (h : ∀ m ∈ marked, ∀ r, m.2 = some r → r.Fits m.1) (levels : List Level) (tracking : Bool) :
    Excerpt behind .start (weave levels tracking (marked.map Prod.snd) ++ [inputEnd])
      (content (keptRows marked) ++ behind) := by
  induction marked generalizing levels tracking with
  | nil =>
    refine Excerpt.done.behind_indentation fun x hx => ?_
    rw [List.eq_of_mem_replicate hx]
    exact .inr rfl
  | cons m marked ih =>
    have ih := ih fun m hm => h m (List.mem_cons_of_mem _ hm)
    obtain ⟨kept, row⟩ := m
    cases row with
    | none =>
      have hkept : keptRows ((kept, none) :: marked) = keptRows marked := by
        cases kept <;> rfl
      rw [hkept, List.map_cons, weave, List.append_assoc]
      cases hmore : (!(marked.map Prod.snd).isEmpty) with
      | true => exact .blank (ih levels tracking)
      | false => exact ih levels tracking
    | some r =>
      have hr : r.Fits kept := h _ (List.mem_cons_self ..) r rfl
      have hkept : content (keptRows ((kept, some r) :: marked)) =
          (if kept then r.lexemes ++ [(.endOfLine, [])] else []) ++ content (keptRows marked) := by
        cases kept <;> simp [keptRows, content]
      rw [hkept, List.map_cons, weave]
      simp only [List.append_assoc]
      refine Excerpt.behind_indentation ?_ fun x hx => mem_entry hx
      exact hr.excerpt (ih _ _)

end Marked

/-! Lines that are not blank. -/

abbrev ReadFull (line : Text) (r : Row) : Prop :=
  ReadLine line (some r)

theorem readFull_of_readLine {lines : List Text} {rows : List (Option Row)}
    (h : List.Forall₂ ReadLine lines rows) :
    List.Forall₂ ReadFull (lines.filter fun line => !decide (IsBlankLine line)) rows.reduceOption := by
  induction h with
  | nil => exact .nil
  | @cons line row lines rows hrow _ ih =>
    by_cases hblank : IsBlankLine line
    · obtain rfl := (readLine_blank hblank).1 hrow
      simpa [hblank] using ih
    · cases row with
      | none => exact absurd (normalizeLine_eq_nil_iff.1 hrow) hblank
      | some r =>
        rw [List.filter_cons_of_pos (by simpa using hblank), List.reduceOption_cons_of_some]
        exact .cons hrow ih

theorem exists_readLine {lines : List Text} {rows : List Row}
    (h : List.Forall₂ ReadFull (lines.filter fun line => !decide (IsBlankLine line)) rows) :
    ∃ all, List.Forall₂ ReadLine lines all ∧ all.reduceOption = rows := by
  induction lines generalizing rows with
  | nil =>
    obtain rfl := List.forall₂_nil_left_iff.1 h
    exact ⟨[], .nil, rfl⟩
  | cons line lines ih =>
    by_cases hblank : IsBlankLine line
    · obtain ⟨all, hall, hrows⟩ := ih (by simpa [hblank] using h)
      exact ⟨none :: all, .cons ((readLine_blank hblank).2 rfl) hall, by simpa using hrows⟩
    · rw [List.filter_cons_of_pos (by simpa using hblank)] at h
      obtain ⟨r, rest, hrow, hrest, rfl⟩ := List.forall₂_cons_left_iff.1 h
      obtain ⟨all, hall, hrows⟩ := ih hrest
      exact ⟨some r :: all, .cons hrow hall, by rw [List.reduceOption_cons_of_some, hrows]⟩

/-- A line without an option does not change the indentation. -/
theorem woven_cons {r : Row} (h : r.starts = false) (rows : List (Option Row)) :
    woven (some r :: rows) = r.lexemes ++ (breakIf (!rows.isEmpty) ++ woven rows) := by
  simp [woven, weave, entry, Opens, dedents, settle, Row.levels, h]

theorem flat_content {rows : List Row} (h : ∀ r ∈ rows, r.Written) :
    Flat (content rows ++ [inputEnd]) := by
  cases rows with
  | nil => exact ⟨inputEnd, [], rfl, by simp [inputEnd]⟩
  | cons r rows =>
    have hflat := (h r (List.mem_cons_self ..)).flat ((.endOfLine, []) :: (content rows ++ [inputEnd]))
    simpa [content] using hflat

theorem pads_content {rows : List (Option Row)}
    (h : ∀ r ∈ rows.reduceOption, r.Written ∧ r.starts = false) :
    ∃ front zs, woven rows ++ [inputEnd] = front ++ zs ∧ AllIdle front ∧
      Pads (content rows.reduceOption ++ [inputEnd]) zs := by
  induction rows with
  | nil => exact ⟨[], _, rfl, by simp, pads_refl _⟩
  | cons row rows ih =>
    cases row with
    | none =>
      rw [List.reduceOption_cons_of_none] at h ⊢
      obtain ⟨front, zs, hwoven, hfront, hpads⟩ := ih h
      cases rows with
      | nil => exact ⟨front, zs, hwoven, hfront, hpads⟩
      | cons next rows =>
        refine ⟨(.endOfLine, []) :: front, zs, congrArg _ hwoven, ?_, hpads⟩
        intro x hx
        rcases List.mem_cons.1 hx with rfl | hx
        · rfl
        · exact hfront x hx
    | some r =>
      rw [List.reduceOption_cons_of_some] at h ⊢
      have hrest : ∀ r ∈ rows.reduceOption, r.Written ∧ r.starts = false := fun s hs =>
        h s (List.mem_cons_of_mem _ hs)
      obtain ⟨front, zs, hwoven, hfront, hpads⟩ := ih hrest
      refine ⟨[], woven (some r :: rows) ++ [inputEnd], rfl, by simp, ?_⟩
      have hcontent : content (r :: rows.reduceOption) ++ [inputEnd] =
          r.lexemes ++ (.endOfLine, []) :: (content rows.reduceOption ++ [inputEnd]) := by
        simp [content]
      rw [woven_cons (h r (List.mem_cons_self ..)).2, hcontent, List.append_assoc, List.append_assoc]
      refine Pads.append ?_ r.lexemes
      cases rows with
      | nil =>
        have hlast : Pads ((.endOfLine, []) :: ([] ++ [inputEnd])) [inputEnd] :=
          .join (.inr rfl) (by simp) (pads_refl _)
        exact hlast
      | cons next rows =>
        have hflat := flat_content fun s hs => (hrest s hs).1
        rw [hwoven]
        have hline : Pads
            ((.endOfLine, []) :: ([] ++ (content (next :: rows).reduceOption ++ [inputEnd])))
            ((.endOfLine, []) :: (front ++ zs)) := .pad rfl (by simp) hfront hflat hpads
        exact hline

end Parley.Body

namespace Parley.Play

open Body Script

/-- On a line that looks like a declaration there is no option and no part of a conditional, and on any
other line there is no declaration. As for options this asks for more than it takes: an option behind a
declaration does no harm as long as no block opens behind it. -/
def standsApart (line : Text) : Bool :=
  match tokenize line with
  | .ok tokens => tokens.all fun token =>
      if isDeclarationLine line then !token.kind.isBranching else token.kind != .declareWord
  | .error _ => true

theorem fits_of_standsApart {line : Text} {rows : List (Option Row)}
    (h : List.Forall₂ ReadLine (writtenLines line) rows) (hline : standsApart line = true) {r : Row}
    (hr : some r ∈ rows) : r.Fits (isDeclarationLine line) := by
  obtain ⟨tokens, htokens, hmem⟩ := tokenize_of_row h
  have hall : ∀ x ∈ r.lexemes,
      (if isDeclarationLine line then !x.1.isBranching else x.1 != .declareWord) = true := by
    intro x hx
    obtain ⟨token, htoken, hkind⟩ := hmem r hr x hx
    unfold standsApart at hline
    rw [htokens] at hline
    rw [← hkind]
    exact List.all_eq_true.1 hline token htoken
  refine ⟨written_of_readLines h r hr, ?_⟩
  cases hlooks : isDeclarationLine line with
  | true =>
    have hplain : ∀ x ∈ r.lexemes, x.1.isBranching = false := fun x hx => by
      simpa [hlooks] using hall x hx
    refine ⟨?_, hplain⟩
    obtain ⟨line', -, -, m, -, hscan⟩ := exists_readLine_of_mem h hr
    refine hscan.not_starts (by simp) fun x hx harrow => ?_
    have hx := hplain x hx
    rw [harrow] at hx
    cases hx
  | false => exact fun x hx => by simpa [hlooks] using hall x hx

@[simp] theorem keptRows_append (marked marked' : List (Bool × Option Row)) :
    keptRows (marked ++ marked') = keptRows marked ++ keptRows marked' :=
  List.filterMap_append

theorem keptRows_mark (kept : Bool) (rows : List (Option Row)) :
    keptRows (rows.map (kept, ·)) = if kept then rows.reduceOption else [] := by
  unfold keptRows
  rw [List.filterMap_map]
  cases kept with
  | true => rfl
  | false => simp

/-- The lines as the lexer sees them are marked like the lines that they were cut from. -/
theorem exists_marked {lines : List Text} {rows : List (Option Row)}
    (h : List.Forall₂ ReadLine (lines.flatMap writtenLines) rows)
    (hlines : ∀ line ∈ lines, standsApart line = true) :
    ∃ marked : List (Bool × Option Row), marked.map Prod.snd = rows ∧
      (∀ m ∈ marked, ∀ r, m.2 = some r → r.Fits m.1) ∧
      List.Forall₂ ReadFull ((lines.filter isDeclarationLine).flatMap fullLines) (keptRows marked) := by
  induction lines generalizing rows with
  | nil =>
    obtain rfl := List.forall₂_nil_left_iff.1 h
    exact ⟨[], rfl, by simp, .nil⟩
  | cons line lines ih =>
    obtain ⟨group, rest, rfl, hgroup, hrest⟩ := forall₂_split h
    obtain ⟨marked, rfl, hfits, hkept⟩ := ih hrest fun line' hline' =>
      hlines line' (List.mem_cons_of_mem _ hline')
    refine ⟨group.map (isDeclarationLine line, ·) ++ marked, by simp [Function.comp_def], ?_, ?_⟩
    · intro m hm r hr
      rcases List.mem_append.1 hm with hm | hm
      · obtain ⟨row, hrow, rfl⟩ := List.mem_map.1 hm
        obtain rfl : row = some r := hr
        exact fits_of_standsApart hgroup (hlines line (List.mem_cons_self ..)) hrow
      · exact hfits m hm r hr
    · rw [keptRows_append, keptRows_mark]
      cases hlooks : isDeclarationLine line with
      | true =>
        rw [List.filter_cons_of_pos hlooks, List.flatMap_cons]
        exact List.rel_append (readFull_of_readLine hgroup) hkept
      | false => simpa [hlooks] using hkept

structure KeptLines (lines : List Text) (rows : List Row) : Prop where
  reads : List.Forall₂ ReadFull (lines.flatMap fullLines) rows
  fits : ∀ r ∈ rows, r.Fits true

theorem KeptLines.append {lines lines' : List Text} {rows rows' : List Row} (h : KeptLines lines rows)
    (h' : KeptLines lines' rows') : KeptLines (lines ++ lines') (rows ++ rows') where
  reads := by
    rw [List.flatMap_append]
    exact List.rel_append h.reads h'.reads
  fits := by
    intro r hr
    rcases List.mem_append.1 hr with hr | hr
    · exact h.fits r hr
    · exact h'.fits r hr

theorem excerpt_body {body : Text} {rows : List (Option Row)}
    (h : List.Forall₂ ReadLine (writtenLines body) rows)
    (hlines : ∀ line ∈ Text.lines body, standsApart line = true) :
    ∃ kept, KeptLines ((Text.lines body).filter isDeclarationLine) kept ∧
      ∀ behind, Excerpt behind .start (woven rows ++ [inputEnd]) (content kept ++ behind) := by
  obtain ⟨n, hn⟩ := writtenLines_join (Text.splitOn_ne_nil '\n' body)
  rw [Text.join_splitOn] at hn
  rw [hn] at h
  obtain ⟨rows, blanks, rfl, hrows, hblanks⟩ := forall₂_split h
  obtain rfl := readLine_empties.1 hblanks
  obtain ⟨marked, rfl, hfits, hkept⟩ := exists_marked hrows hlines
  have hmarks : (marked ++ (List.replicate n none).map (false, ·)).map Prod.snd =
      marked.map Prod.snd ++ List.replicate n none := by simp
  have hsame : keptRows (marked ++ (List.replicate n none).map (false, ·)) = keptRows marked := by
    rw [keptRows_append, keptRows_mark]
    simp
  refine ⟨keptRows marked, ⟨hkept, ?_⟩, fun behind => ?_⟩
  · intro r hr
    obtain ⟨⟨kept, row⟩, hm, hrow⟩ := List.mem_filterMap.1 hr
    cases kept with
    | true => exact hfits _ hm r hrow
    | false => cases hrow
  · rw [← hmarks, ← hsame]
    refine excerpt_weave ?_ _ _
    intro m hm r hr
    rcases List.mem_append.1 hm with hm | hm
    · exact hfits m hm r hr
    · simp at hm
      rw [hm.2] at hr
      cases hr

/-- Bodies parsed one after the other, into one record. -/
def ParseEach : List Node → Declarations → Declarations → Prop
  | [], declared, declared' => declared = declared'
  | node :: nodes, declared, declared' => ∃ ss between,
      parse node.body declared = (.ok ss, between) ∧ ParseEach nodes between declared'

theorem declarationLines_cons (node : Node) (nodes : List Node) :
    declarationLines (node :: nodes) =
      (Text.lines node.body).filter isDeclarationLine ++ declarationLines nodes := by
  simp [declarationLines]

theorem exists_kept {nodes : List Node} {declared declared' : Declarations}
    (h : ParseEach nodes declared declared')
    (hlines : ∀ node ∈ nodes, ∀ line ∈ Text.lines node.body, standsApart line = true) :
    ∃ kept ds, KeptLines (declarationLines nodes) kept ∧
      (∀ behind, Prepends ds (content kept ++ behind) behind) ∧ declared.Admits ds ∧
      declared.Grows ds declared' := by
  induction nodes generalizing declared with
  | nil =>
    obtain rfl : declared = declared' := h
    exact ⟨[], [], ⟨.nil, by simp⟩, prepends_refl, declared.admits_nil, declared.grows_nil⟩
  | cons node nodes ih =>
    obtain ⟨ss, between, hparse, hrest⟩ := h
    obtain ⟨rows, ds, hrows, hderives, hadmits, hgrows⟩ := rows_of_parse hparse
    obtain ⟨kept, hkept, hexcerpt⟩ := excerpt_body hrows (hlines node (List.mem_cons_self ..))
    obtain ⟨kept', ds', hkept', hprepends, hadmits', hgrows'⟩ :=
      ih hrest fun node' hnode' => hlines node' (List.mem_cons_of_mem _ hnode')
    refine ⟨kept ++ kept', ds ++ ds', ?_, fun behind => ?_, (hgrows.admits_iff hadmits).2 hadmits',
      hgrows.append hgrows'⟩
    · rw [declarationLines_cons]
      exact hkept.append hkept'
    · have hfirst := prepends_of_derives hderives (hexcerpt (content kept' ++ behind))
      have hall := hfirst.trans (hprepends behind)
      simpa [content] using hall

/-- Lines that are kept parse on their own to what they were in front of the end of the input. -/
theorem parse_kept {lines : List Text} {kept : List Row} {ds : List Declaration}
    {declared : Declarations} (h : KeptLines lines kept)
    (hprepends : ∀ behind, Prepends ds (content kept ++ behind) behind) (hadmits : declared.Admits ds) :
    ∃ ss declared', parse (Text.join ['\n'] lines) declared = (.ok ss, declared') ∧
      declared.Grows ds declared' := by
  obtain ⟨ss, hderives⟩ := hprepends [inputEnd] [] .endOfInput [] [inputEnd] .inputEnd
  rw [List.append_nil] at hderives
  have hreads := h.reads
  rw [← fullLines_join] at hreads
  obtain ⟨rows, hrows, rfl⟩ := exists_readLine hreads
  obtain ⟨front, zs, hwoven, hfront, hpads⟩ :=
    pads_content fun r hr => ⟨(h.fits r hr).1, (h.fits r hr).2.1⟩
  -- The kept lines were followed by one break each, whatever breaks there are between the lines.
  have hloose : Loose (content rows.reduceOption ++ [inputEnd]) (woven rows ++ [inputEnd]) := by
    rw [hwoven]
    exact .pad (f := []) (by simp) hfront (flat_content fun r hr => (h.fits r hr).1) hpads
  obtain ⟨found, declared', hparse, -, hgrows⟩ :=
    parse_of_rows hrows (derives_of_loose hderives hloose) hadmits
  exact ⟨found, declared', hparse, hgrows⟩

/-! First values. -/

section Values

variable {store : Store} {functions : Functions} {staged out : Staged} {ds ds' : List Declaration}

theorem stage_congr (h : ds.map Declaration.unnumbered = ds'.map Declaration.unnumbered) :
    stage store functions staged ds = stage store functions staged ds' := by
  induction ds generalizing ds' staged with
  | nil =>
    obtain rfl := List.map_eq_nil_iff.1 h.symm
    rfl
  | cons d ds ih =>
    obtain ⟨d', rest, rfl, hd, hrest⟩ := List.map_eq_cons_iff.1 h.symm
    have hvalue : ∀ env, initialValue env d = initialValue env d' := by
      obtain ⟨name, value, type, number⟩ := d
      obtain ⟨name', value', type', number'⟩ := d'
      simp only [Declaration.unnumbered, Declaration.mk.injEq, and_true] at hd
      obtain ⟨rfl, rfl, rfl⟩ := hd
      exact fun env => rfl
    have hname : d.name = d'.name := (congrArg Declaration.name hd).symm
    simp only [stage, hvalue, hname, ih hrest.symm]

theorem stage_covers (h : stage store functions staged ds = .ok out) :
    (∀ e ∈ staged, e ∈ out) ∧
      ∀ d ∈ ds, store.contains d.name = true ∨ ∃ v, (d.name, v) ∈ out := by
  induction ds generalizing staged with
  | nil =>
    cases h
    exact ⟨fun e he => he, by simp⟩
  | cons d ds ih =>
    simp only [stage] at h
    cases hvalue : initialValue ⟨staged.lookup store, functions, []⟩ d with
    | error e =>
      rw [hvalue] at h
      cases h
    | ok v =>
      rw [hvalue] at h
      change (if store.contains d.name then stage store functions staged ds
        else stage store functions (staged ++ [(d.name, v)]) ds) = .ok out at h
      split at h
      · rename_i hstored
        obtain ⟨hstaged, hds⟩ := ih h
        exact ⟨hstaged, List.forall_mem_cons.2 ⟨.inl hstored, hds⟩⟩
      · obtain ⟨hstaged, hds⟩ := ih h
        refine ⟨fun e he => hstaged e (List.mem_append_left _ he), List.forall_mem_cons.2 ⟨?_, hds⟩⟩
        exact .inr ⟨v, hstaged _ (by simp)⟩

theorem contains_put (store : Store) (name other : Text) (v : Value) :
    (store.put name v).contains other = (decide (name = other) || store.contains other) := by
  unfold Table.contains
  rw [Table.get?_put]
  by_cases h : name = other <;> simp [h]

theorem contains_commit {name : Text} (h : store.contains name = true ∨ ∃ v, (name, v) ∈ staged) :
    (staged.commit store).contains name = true := by
  induction staged generalizing store with
  | nil => simpa [Staged.commit] using h
  | cons e staged ih =>
    apply ih
    show (store.put e.1 e.2).contains name = true ∨ _
    rw [contains_put]
    rcases h with h | ⟨v, hv⟩
    · exact .inl (by simp [h])
    · rcases List.mem_cons.1 hv with rfl | hv
      · exact .inl (by simp)
      · exact .inr ⟨v, hv⟩

theorem seed_of_parse {nodes : List Node} {ss : List Statement}
    (h : parse (Text.join ['\n'] (declarationLines nodes)) .empty = (.ok ss, ⟨ds, false⟩)) :
    (seed nodes .empty store functions).1 = stage store functions [] ds := by
  unfold seed
  split
  · rename_i hnone
    rw [hnone] at h
    have hentries : (parse [] .empty).2.entries = [] := rfl
    have hds : (parse [] .empty).2.entries = ds := congrArg (·.2.entries) h
    rw [← hds, hentries]
    rfl
  · rw [h]

theorem load_eq_ok {p p' : Playthrough} {nodes : List Node} (h : p.load nodes = (.ok (), p')) :
    ∃ staged, (seed nodes .empty p.store p.functions).1 = .ok staged ∧
      p'.store = staged.commit p.store := by
  unfold Playthrough.load at h
  split at h
  · cases h
  · split at h
    · cases h
    · rename_i staged hseed
      cases h
      exact ⟨staged, hseed, rfl⟩

end Values

/-- The lines that look like declarations record what the bodies record, and loading gives first values to
the variables that are declared in the bodies. -/
theorem declarationLines_agree {nodes : List Node} {declared declared' : Declarations}
    (hlocked : declared.locked = false) (h : ParseEach nodes declared declared')
    (hlines : ∀ node ∈ nodes, ∀ line ∈ Text.lines node.body, standsApart line = true) :
    ∃ added, declared'.entries = declared.entries ++ added ∧
      (∃ ss recorded, parse (Text.join ['\n'] (declarationLines nodes)) declared =
          (.ok ss, ⟨declared.entries ++ recorded, false⟩) ∧
        recorded.map Declaration.unnumbered = added.map Declaration.unnumbered) ∧
      (∀ store functions, (seed nodes .empty store functions).1 = stage store functions [] added) ∧
      ∀ p p' : Playthrough, p.load nodes = (.ok (), p') →
        ∀ d ∈ added, p'.store.contains d.name = true := by
  obtain ⟨kept, ds, hkept, hprepends, hadmits, added, hadded, rfl⟩ := exists_kept h hlines
  obtain ⟨ss, after, hparse, recorded, hrecorded, rfl⟩ := parse_kept hkept hprepends hadmits
  simp only [hlocked, Bool.false_eq_true, if_false] at hparse ⊢
  have hempty : Declarations.empty.Admits ds := by
    rcases hadmits with hadmits | hadmits
    · simp [hlocked] at hadmits
    · exact .inr ⟨hadmits.1, by simp [Declarations.empty]⟩
  have hseed : ∀ store functions,
      (seed nodes .empty store functions).1 = stage store functions [] added := by
    intro store functions
    obtain ⟨ss', after', hparse', fresh, hfresh, rfl⟩ := parse_kept hkept hprepends hempty
    rw [seed_of_parse hparse']
    exact stage_congr (hfresh.trans hadded.symm)
  refine ⟨added, rfl, ⟨ss, recorded, hparse, hrecorded.trans hadded.symm⟩, hseed, ?_⟩
  intro p p' hload d hd
  obtain ⟨staged, hstaged, hstore⟩ := load_eq_ok hload
  rw [hseed] at hstaged
  rw [hstore]
  exact contains_commit ((stage_covers hstaged).2 d hd)

theorem parseEach_cons {node : Node} {nodes : List Node} {declared declared' : Declarations}
    (h : (parse node.body declared).1.toBool = true)
    (hrest : ParseEach nodes (parse node.body declared).2 declared') :
    ParseEach (node :: nodes) declared declared' := by
  cases hparse : (parse node.body declared).1 with
  | ok ss => exact ⟨ss, _, Prod.ext hparse rfl, hrest⟩
  | error e =>
    rw [hparse] at h
    cases h

def nestedDeclarations : List Node :=
  [⟨"A".toList, [], "Hi\n<<if true>>\n <<declare $x = 1>> // c\n<<endif>>".toList⟩,
    ⟨"B".toList, [], "-> Ask\r\n\t<<declare $y = $x as Number>>\r\n".toList⟩]

theorem declarationLines_agree_nested : ∃ added,
    added.map Declaration.name = ["x".toList, "y".toList] ∧
      ∀ store functions,
        (seed nestedDeclarations .empty store functions).1 = stage store functions [] added := by
  obtain ⟨declared', hparse, hnames⟩ : ∃ declared', ParseEach nestedDeclarations .empty declared' ∧
      declared'.entries.map Declaration.name = ["x".toList, "y".toList] :=
    ⟨_, parseEach_cons (by decide +kernel) (parseEach_cons (by decide +kernel) rfl), by decide +kernel⟩
  obtain ⟨added, hadded, -, hseed, -⟩ := declarationLines_agree rfl hparse (by decide +kernel)
  rw [hadded] at hnames
  exact ⟨added, hnames, hseed⟩

def inlineDeclaration : List Node :=
  [⟨"A".toList, [], "Hi <<declare $x = 1>>".toList⟩]

/-- It is recorded with its body, but it is not on a line that looks like a declaration. -/
theorem inlineDeclaration_disagrees : ∃ declared', ParseEach inlineDeclaration .empty declared' ∧
    ¬ ∃ ss after,
      parse (Text.join ['\n'] (declarationLines inlineDeclaration)) .empty = (.ok ss, after) ∧
        after.entries.map Declaration.unnumbered = declared'.entries.map Declaration.unnumbered := by
  refine ⟨_, parseEach_cons (by decide +kernel) rfl, ?_⟩
  rintro ⟨ss, after, hparse, hsame⟩
  have hlength := congrArg List.length hsame
  rw [← show _ = after from congrArg Prod.snd hparse] at hlength
  revert hlength
  decide +kernel

end Parley.Play
