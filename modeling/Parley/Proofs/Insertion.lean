import Parley.Proofs.Comments
set_option autoImplicit false

/-!
Blank lines and lines with only a comment, put between the lines of a body.

The statements stay the same in front of the line and behind it. A blank line changes them only between an
option and its block, where nothing is parsed any more.
-/

namespace Parley.Body

/-! Rows put between others. -/

section Rows

open Lexer

variable {levels : List Level} {tracking fresh : Bool} {width : Nat} {rows : List (Option Row)}
  {items : List Item} {ds : List Declaration} {xs : List Lexeme}

theorem flat_dedents (h : Flat xs) (n : Nat) : Flat (List.replicate n (.dedent, []) ++ xs) := by
  cases n with
  | zero => exact h
  | succ n => exact ⟨_, _, rfl, by simp⟩

theorem flat_layout (h : Nested levels) (hrows : ∀ r, some r ∈ rows → r.Written)
    (hnext : ∀ width ∈ nextWidth rows, ¬ Opens levels tracking width) :
    Flat (layout levels tracking rows ++ [inputEnd]) := by
  cases rows with
  | nil => exact flat_dedents ⟨inputEnd, [], rfl, by simp [inputEnd]⟩ _
  | cons row rows =>
    cases row with
    | none =>
      rw [layout_none]
      exact ⟨_, _, rfl, by simp⟩
    | some r =>
      rw [layout_flat h (hnext _ rfl), List.append_assoc, List.append_assoc]
      exact flat_dedents ((hrows r (List.mem_cons_self ..)).flat _) _

theorem Lists.blank (h : Lists fresh items ds (layout levels tracking rows ++ [inputEnd]))
    (hnested : Nested levels) (hrows : ∀ r, some r ∈ rows → r.Written)
    (hnext : ∀ width ∈ nextWidth rows, ¬ Opens levels tracking width) :
    Lists fresh items ds (layout levels tracking (none :: rows) ++ [inputEnd]) := by
  rw [layout_none]
  exact .idle rfl (h.stale (flat_layout hnested hrows hnext))

theorem sameUpTo_fore (levels : List Level) (tracking : Bool) (rows : List (Option Row))
    (tail tail' : List Lexeme) :
    SameUpTo tail tail' (fore levels tracking rows ++ tail) (fore levels tracking rows ++ tail') := by
  by_cases hrows : rows = []
  · subst hrows
    exact .inr ⟨rfl, rfl⟩
  · obtain ⟨front, hfore, -⟩ := fore_eq levels tracking hrows
    exact .inl ⟨front, by simp [hfore], by simp [hfore]⟩

end Rows

section Derives

variable {upper lower : List (Option Row)} {row : Option Row} {ss : List Statement}
  {ds ds' : List Declaration} {width : Nat}

/-- What stands below some lines, from the levels behind them on. -/
def layoutBelow (upper lower : List (Option Row)) : List Lexeme :=
  layout (arrive [⟨0, false⟩] false upper).1 (arrive [⟨0, false⟩] false upper).2 lower

theorem derives_below (upper : List (Option Row)) (hlower : lower ≠ []) :
    Derives (woven (upper ++ lower)) ss ds ↔ Lists false (itemsAll ss) ds
      (fore [⟨0, false⟩] false upper ++ (layoutBelow upper lower ++ [inputEnd])) := by
  rw [← derives_layout (by simp [hlower]), derives_iff_lists, layout_append, List.append_assoc]
  rfl

theorem derives_insert (h : Derives (woven (upper ++ lower)) ss ds) (hlower : lower ≠ [])
    (hrow : ∀ {fresh items ds}, Lists fresh items ds (layoutBelow upper lower ++ [inputEnd]) →
      Lists fresh items ds (layoutBelow upper (row :: lower) ++ [inputEnd])) :
    Derives (woven (upper ++ row :: lower)) ss ds := by
  rw [derives_below upper hlower] at h
  obtain ⟨above, below, ds₁, ds₂, again, hitems, rfl, hbelow, hcut⟩ :=
    h.cut (sameUpTo_fore _ _ upper _ (layoutBelow upper (row :: lower) ++ [inputEnd]))
  rw [derives_below upper (by simp), hitems]
  exact hcut (hrow hbelow)

theorem not_derives_behind_blank (hnext : nextWidth lower = some width)
    (hopens : Opens (arrive [⟨0, false⟩] false upper).1 (arrive [⟨0, false⟩] false upper).2 width) :
    ¬ Derives (woven (upper ++ none :: lower)) ss ds := by
  intro h
  rw [derives_below upper (by simp)] at h
  obtain ⟨-, below, -, ds₂, again, -, -, hbelow, -⟩ := h.cut (sameUpTo_fore _ _ upper _ [])
  rw [layoutBelow, layout_none] at hbelow
  obtain ⟨-, -, hfresh, -⟩ := hbelow.of_lineEnd.of_opening hnext hopens
  cases hfresh

theorem fits_of_derives (h : Derives (woven (upper ++ lower)) ss ds) (hlower : lower ≠ [])
    (hrows : ∀ r, some r ∈ lower → r.Proper) {t : Text}
    (h' : Derives (woven (upper ++ some (commentRow width t) :: lower)) ss ds') :
    Fits (arrive [⟨0, false⟩] false upper).1 (arrive [⟨0, false⟩] false upper).2 width lower := by
  rw [derives_below upper hlower] at h
  rw [derives_below upper (by simp)] at h'
  have hsigns := h.signs_eq.trans h'.signs_eq.symm
  simp only [signs_append, List.append_cancel_left_eq, List.append_cancel_right_eq] at hsigns
  exact fits_of_signs (nested_arrive ⟨List.pairwise_singleton _ _, rfl⟩ false upper) hrows t hsigns

end Derives

/-! Lines put between others. -/

/-- The body is parsed, and the statements are these but for their line numbers. -/
def ParsesTo (body : Text) (ss : List Statement) : Prop :=
  ∃ found, parseBody body = .ok found ∧ unnumberedAll found = unnumberedAll ss

def IsCommentLine (line : Text) : Prop :=
  Text.startsWith "//".toList (Text.trimStart line) = true

instance (line : Text) : Decidable (IsCommentLine line) :=
  inferInstanceAs (Decidable (_ = _))

/-- The levels that are open behind some lines, and whether a deeper line would open a block there. -/
def Arrives (lines : List Text) (levels : List Level) (tracking : Bool) : Prop :=
  ∃ rows, List.Forall₂ ReadLine lines rows ∧ arrive [⟨0, false⟩] false rows = (levels, tracking)

def widthBelow (lines : List Text) : Option Nat :=
  (lines.find? fun line => !decide (IsBlankLine line)).map lineWidth

theorem nextWidth_eq {lines : List Text} {rows : List (Option Row)}
    (h : List.Forall₂ ReadLine lines rows) : nextWidth rows = widthBelow lines := by
  induction h with
  | nil => rfl
  | @cons line row lines rows hrow _ ih =>
    cases row with
    | none =>
      have hblank : IsBlankLine line := normalizeLine_eq_nil_iff.1 hrow
      simpa [nextWidth, widthBelow, hblank] using ih
    | some r =>
      obtain ⟨hblank, hwidth, -⟩ := hrow
      have hline : ¬ IsBlankLine line := fun h => hblank (by rw [normalizeLine_blank h]; rfl)
      rw [indentWidth_normalizeLine hline] at hwidth
      simp [nextWidth, widthBelow, hline, hwidth]

theorem find?_comment (t : Text) :
    Mode.base.find? ('/' :: '/' :: t) = some ⟨.comment, t.length + 2, none⟩ := by
  simp [Mode.find?, Mode.rules, Mode.delimiters, TokenKind.matchLength?, matchEscape?, matchComment?,
    Text.startsWith, Text.afterPrefix?]

theorem readLine_comment {line : Text} (h : IsCommentLine line) :
    ∃ t, ReadLine line (some (commentRow (lineWidth line) t)) := by
  have hline : ¬ IsBlankLine line := by
    intro hblank
    rw [IsCommentLine, hblank] at h
    exact absurd h (by decide)
  obtain ⟨rest, hrest⟩ := Option.isSome_iff_exists.1 h
  have htext : Text.trimStart line = '/' :: '/' :: rest := Text.eq_append_of_afterPrefix? hrest
  have htrim : Text.trimStart (normalizeLine line) = '/' :: '/' :: rest := by
    rw [← Text.drop_indentWidth, indentWidth_normalizeLine hline, drop_normalizeLine hline, htext]
  refine ⟨'/' :: '/' :: rest, ?_, (indentWidth_normalizeLine hline).symm, .base, rfl, ?_⟩
  · rw [IsBlankLine, htrim]
    simp
  · rw [htrim]
    have hend : Scan .base (Mode.Found.rest ⟨.comment, rest.length + 2, none⟩ ('/' :: '/' :: rest)) []
        .base false := by
      simp [Mode.Found.rest, Lexer.keepsBlanks, Text.trimStart, Scan.done]
    simpa [commentRow, TokenKind.textOf, Lexer.starts] using Scan.read (find?_comment rest) hend

variable {body body' extra : Text} {above below : List Text} {ss : List Statement}

theorem parsesTo_of_rows {rows : List (Option Row)} {ds : List Declaration}
    (hrows : List.Forall₂ ReadLine (writtenLines body) rows)
    (h : Derives (woven rows) (unnumberedAll ss) ds) (hadmits : Declarations.empty.Admits ds) :
    ParsesTo body ss := by
  obtain ⟨found, declared, hparse, hfound, -⟩ := parse_of_rows hrows h hadmits
  exact ⟨found, congrArg Prod.fst hparse, hfound⟩

theorem rows_of_parseBody (h : parseBody body = .ok ss) :
    ∃ rows ds, List.Forall₂ ReadLine (writtenLines body) rows ∧
      Derives (woven rows) (unnumberedAll ss) ds ∧ Declarations.empty.Admits ds := by
  have hparse : parse body .empty = (.ok ss, (parse body .empty).2) := Prod.ext h rfl
  obtain ⟨rows, ds, hrows, hderives, hadmits, -⟩ := rows_of_parse hparse
  exact ⟨rows, ds, hrows, hderives, hadmits⟩

theorem proper_of_readLines {lines : List Text} {rows : List (Option Row)}
    (h : List.Forall₂ ReadLine lines rows) (r : Row) (hr : some r ∈ rows) : r.Proper := by
  obtain ⟨line, hline⟩ := exists_readLine_of_mem h hr
  exact ReadAs.proper hline

/-- A line put into a body that is parsed. A blank line keeps the statements exactly where the next line
does not open a block, and a comment exactly where it fits. -/
theorem parseBody_insert (h : parseBody body = .ok ss) (hbody : writtenLines body = above ++ below)
    (hbelow : below ≠ []) (hbody' : writtenLines body' = above ++ extra :: below) :
    ∃ levels tracking lower, Arrives above levels tracking ∧ List.Forall₂ ReadLine below lower ∧
      (IsBlankLine extra →
        (ParsesTo body' ss ↔ ∀ width ∈ widthBelow below, ¬ Opens levels tracking width)) ∧
      (IsCommentLine extra →
        (ParsesTo body' ss ↔ Fits levels tracking (lineWidth extra) lower)) := by
  obtain ⟨rows, ds, hrows, hderives, hadmits⟩ := rows_of_parseBody h
  rw [hbody] at hrows
  obtain ⟨upper, lower, rfl, hupper, hlower⟩ := forall₂_split hrows
  have hne : lower ≠ [] := by
    rintro rfl
    exact hbelow (List.forall₂_nil_right_iff.1 hlower)
  have hnested := nested_arrive ⟨List.pairwise_singleton _ _, rfl⟩ false upper
  have hproper := proper_of_readLines hlower
  have hinsert : ∀ {row}, ReadLine extra row →
      List.Forall₂ ReadLine (writtenLines body') (upper ++ row :: lower) := by
    intro row hrow
    rw [hbody']
    exact List.rel_append hupper (.cons hrow hlower)
  have hderives' : ∀ {row}, ReadLine extra row → ParsesTo body' ss →
      ∃ ds', Derives (woven (upper ++ row :: lower)) (unnumberedAll ss) ds' := by
    rintro row hrow ⟨found, hfound, hsame⟩
    obtain ⟨rows', ds', hrows', hderives', -⟩ := rows_of_parseBody hfound
    rw [readLines_unique hrows' (hinsert hrow), hsame] at hderives'
    exact ⟨ds', hderives'⟩
  rw [← nextWidth_eq hlower]
  refine ⟨_, _, lower, ⟨upper, hupper, rfl⟩, hlower, fun hblank => ?_, fun hcomment => ?_⟩
  · have hrow : ReadLine extra none := (readLine_blank hblank).2 rfl
    constructor
    · intro hparses width hwidth hopens
      obtain ⟨ds', hderives'⟩ := hderives' hrow hparses
      exact not_derives_behind_blank hwidth hopens hderives'
    · intro hflat
      exact parsesTo_of_rows (hinsert hrow) (derives_insert hderives hne fun hlists =>
        hlists.blank hnested (fun r hr => (hproper r hr).1) hflat) hadmits
  · obtain ⟨t, hrow⟩ := readLine_comment hcomment
    constructor
    · intro hparses
      obtain ⟨ds', hderives'⟩ := hderives' hrow hparses
      exact fits_of_derives hderives hne hproper hderives'
    · intro hfits
      exact parsesTo_of_rows (hinsert hrow) (derives_insert hderives hne fun hlists =>
        hlists.comment hnested hproper hfits t) hadmits

theorem parseBody_insert_reply :
    ∃ ss, parseBody "-> a\n    b".toList = .ok ss ∧ ¬ ParsesTo "-> a\n\n    b".toList ss ∧
      ParsesTo "-> a\n  // c\n    b".toList ss ∧ ¬ ParsesTo "-> a\n// c\n    b".toList ss := by
  obtain ⟨ss, hss⟩ : ∃ ss, parseBody "-> a\n    b".toList = .ok ss := by
    cases hparse : parseBody "-> a\n    b".toList with
    | ok ss => exact ⟨ss, rfl⟩
    | error e =>
      have hok : (parseBody "-> a\n    b".toList).toBool = true := by decide +kernel
      rw [hparse] at hok
      cases hok
  have hbody : writtenLines "-> a\n    b".toList = ["-> a".toList] ++ ["    b".toList] := by decide
  have hoption : ReadLine "-> a".toList (some ⟨0, [(.arrow, ['-', '>']), (.text, ['a'])], true⟩) := by
    have harrow : Mode.base.find? "-> a".toList = some ⟨.arrow, 2, some .option⟩ := by decide
    have htext : Mode.option.find? "a".toList = some ⟨.text, 1, some .base⟩ := by decide
    exact ⟨by decide, rfl, .base, rfl, .read harrow (.read htext .done)⟩
  have hreply : ReadLine "    b".toList (some ⟨4, [(.text, ['b'])], false⟩) := by
    have htext : Mode.base.find? "b".toList = some ⟨.text, 1, none⟩ := by decide
    exact ⟨by decide, rfl, .base, rfl, .read htext .done⟩
  have hinsert : ∀ {body' extra : Text},
      writtenLines body' = ["-> a".toList] ++ extra :: ["    b".toList] →
        (IsBlankLine extra → ¬ ParsesTo body' ss) ∧ (IsCommentLine extra → (ParsesTo body' ss ↔
          Fits [⟨0, false⟩] true (lineWidth extra) [some ⟨4, [(.text, ['b'])], false⟩])) := by
    intro body' extra hbody'
    obtain ⟨levels, tracking, lower, ⟨rows, hrows, harrive⟩, hlower, hblank, hcomment⟩ :=
      parseBody_insert hss hbody (by simp) hbody'
    obtain rfl := readLines_unique hrows (.cons hoption .nil)
    obtain rfl := readLines_unique hlower (.cons hreply .nil)
    obtain ⟨rfl, rfl⟩ : [⟨0, false⟩] = levels ∧ true = tracking := by
      simpa [arrive, entry, Opens, settle, Row.levels, Lexer.topWidth] using harrive
    exact ⟨fun h hparses => (hblank h).1 hparses 4 (by decide) (by decide), hcomment⟩
  refine ⟨ss, hss, ?_, ?_, ?_⟩
  · have hbody' : writtenLines "-> a\n\n    b".toList = ["-> a".toList] ++ [] :: ["    b".toList] := by
      decide
    exact (hinsert hbody').1 isBlankLine_nil
  · have hbody' : writtenLines "-> a\n  // c\n    b".toList =
        ["-> a".toList] ++ "  // c".toList :: ["    b".toList] := by decide
    have hwidth : lineWidth "  // c".toList = 2 := by decide
    refine ((hinsert hbody').2 (by decide)).2 ?_
    rw [hwidth]
    simp [Fits, Opens, Lexer.topWidth, nextWidth, depths, Row.isLoud, TokenKind.sign?]
  · have hbody' : writtenLines "-> a\n// c\n    b".toList =
        ["-> a".toList] ++ "// c".toList :: ["    b".toList] := by decide
    have hwidth : lineWidth "// c".toList = 0 := by decide
    rw [(hinsert hbody').2 (by decide), hwidth]
    simp [Fits, Opens, Lexer.topWidth, nextWidth]

end Parley.Body
