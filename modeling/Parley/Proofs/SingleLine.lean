import Parley.Proofs.OutlineRoundTrip
import Parley.Proofs.Rows
set_option autoImplicit false

/-!
Bodies of a single line.

Such a body opens no block, so that its lexemes are those of the line. It is parsed exactly if the line
ends outside of commands and the grammar derives something from the lexemes.
-/

namespace Parley.Body

/-- The first token of a text is known, and the rest is read behind it. -/
theorem Scan.read_iff {m m' : Mode} {t : Text} {found : Mode.Found} {xs : List Lexeme} {starts : Bool}
    (hfind : m.find? t = some found) :
    Scan m t xs m' starts ↔ ∃ ys more,
      xs = (found.kind, found.kind.textOf (t.take found.length)) :: ys ∧
        starts = (Lexer.starts found || more) ∧
        Scan (found.next.getD m) (found.rest t) ys m' more := by
  constructor
  · intro h
    cases h with
    | done =>
      rw [Mode.find?_nil] at hfind
      cases hfind
    | read hfound rest =>
      obtain rfl := Option.some.inj (hfind.symm.trans hfound)
      exact ⟨_, _, rfl, rfl, rest⟩
  · rintro ⟨ys, more, rfl, rfl, rest⟩
    exact .read hfind rest

/-- A text is read as some lexemes and then as what its rest is read as in a mode. -/
def Begins (m : Mode) (t : Text) (front : List Lexeme) (m' : Mode) (rest : Text) : Prop :=
  ∀ xs last, (∃ starts, Scan m t xs last starts) ↔
    ∃ ys, xs = front ++ ys ∧ ∃ starts, Scan m' rest ys last starts

theorem begins_refl (m : Mode) (t : Text) : Begins m t [] m t := by
  intro xs last
  simp

theorem Begins.trans {m m' m'' : Mode} {t t' t'' : Text} {front back : List Lexeme}
    (h : Begins m t front m' t') (h' : Begins m' t' back m'' t'') :
    Begins m t (front ++ back) m'' t'' := by
  intro xs last
  rw [h xs last]
  constructor
  · rintro ⟨ys, rfl, hys⟩
    obtain ⟨zs, rfl, hzs⟩ := (h' ys last).1 hys
    exact ⟨zs, (List.append_assoc ..).symm, hzs⟩
  · rintro ⟨zs, rfl, hzs⟩
    exact ⟨back ++ zs, List.append_assoc .., (h' _ last).2 ⟨zs, rfl, hzs⟩⟩

/-- A token in front of some text. Blanks behind it are skipped unless they belong to running text. -/
theorem begins_one (lexeme rest : Text) {m : Mode} {kind : TokenKind} {next : Option Mode}
    (hfind : m.find? (lexeme ++ rest) = some ⟨kind, lexeme.length, next⟩) :
    Begins m (lexeme ++ rest) [(kind, kind.textOf lexeme)] (next.getD m)
      (if Lexer.keepsBlanks kind next then rest else Text.trimStart rest) := by
  have hlexeme : (lexeme ++ rest).take lexeme.length = lexeme := List.take_left
  have hrest : Mode.Found.rest ⟨kind, lexeme.length, next⟩ (lexeme ++ rest) =
      if Lexer.keepsBlanks kind next then rest else Text.trimStart rest := by
    rw [Mode.Found.rest, List.drop_left]
  intro xs last
  constructor
  · rintro ⟨starts, hscan⟩
    obtain ⟨ys, more, hxs, -, hys⟩ := (Scan.read_iff hfind).1 hscan
    rw [hlexeme] at hxs
    rw [hrest] at hys
    exact ⟨ys, hxs, more, hys⟩
  · rintro ⟨ys, rfl, more, hys⟩
    rw [← hrest] at hys
    refine ⟨_, (Scan.read_iff hfind).2 ⟨ys, more, ?_, rfl, hys⟩⟩
    rw [hlexeme]
    rfl

theorem begins_token (lexeme blanks rest : Text) {m : Mode} {kind : TokenKind} {next : Option Mode}
    (hfind : m.find? (lexeme ++ (blanks ++ rest)) = some ⟨kind, lexeme.length, next⟩)
    (hskips : Lexer.keepsBlanks kind next = false) (hblanks : blanks.all Text.isBlank = true)
    (hrest : Text.trimStart rest = rest) :
    Begins m (lexeme ++ (blanks ++ rest)) [(kind, kind.textOf lexeme)] (next.getD m) rest := by
  have htrim : Text.trimStart (blanks ++ rest) = rest := by
    rw [Text.trimStart, List.dropWhile_append_of_pos (by simpa using hblanks)]
    exact hrest
  have hone := begins_one lexeme _ hfind
  rwa [hskips, if_neg (by decide), htrim] at hone

section Line

variable {line : Text} (hfull : line.StartsFull) (hone : line.OneLine)
include hfull hone

theorem bodyLines_line : bodyLines line = [line] := by
  have hwritten : ∀ l ∈ [line], IsWritten l := by
    intro l hl
    exact ⟨0, line, List.mem_singleton.1 hl, hfull, hone⟩
  exact bodyLines_join (by simp) hwritten

omit hone in
theorem readAs_line_iff {row : Option Row} : ReadAs line row ↔ ∃ xs m starts,
    row = some ⟨0, xs, starts⟩ ∧ m.isLine = true ∧ Scan .base line xs m starts := by
  have htrim : Text.trimStart line = line := hfull.trimStart_eq
  have hwidth : Text.indentWidth line = 0 := by
    have hlength := Text.length_trimStart line
    rw [htrim] at hlength
    omega
  cases row with
  | none => simpa using show ¬ ReadAs line none from hfull.ne_nil
  | some r =>
    obtain ⟨width, xs, starts⟩ := r
    simp only [ReadAs, IsBlankLine, htrim, hwidth, hfull.ne_nil, not_false_eq_true, true_and,
      Option.some.injEq, Row.mk.injEq]
    constructor
    · rintro ⟨rfl, m, hm, hscan⟩
      exact ⟨xs, m, starts, ⟨rfl, rfl, rfl⟩, hm, hscan⟩
    · rintro ⟨xs, m, starts, ⟨rfl, rfl, rfl⟩, hm, hscan⟩
      exact ⟨rfl, m, hm, hscan⟩

omit hfull hone in
@[simp] theorem woven_line (xs : List Lexeme) (starts : Bool) : woven [some ⟨0, xs, starts⟩] = xs := by
  simp [weave, entry, Opens, dedents, settle, breakIf, Row.levels, endings, Lexer.topWidth,
    Lexer.blocks]

theorem spells_line {xs : List Lexeme} {m : Mode} {starts : Bool} (hm : m.isLine = true)
    (hscan : Scan .base line xs m starts) : (Lexer.ofBody line).Spells xs := by
  have hrow : ReadAs line (some ⟨0, xs, starts⟩) :=
    (readAs_line_iff hfull).2 ⟨xs, m, starts, rfl, hm, hscan⟩
  have hrows := spells_woven (by simp) (.cons hrow .nil)
  rwa [woven_line, ← bodyLines_line hfull hone] at hrows

/-- A line is parsed exactly if it is read to its end and the grammar derives something from it. -/
theorem parseBody_line_iff (ss : List Statement) :
    (∃ found, parseBody line = .ok found ∧ unnumberedAll found = ss) ↔
      ∃ xs m ds, (∃ starts, Scan .base line xs m starts) ∧ m.isLine = true ∧ Derives xs ss ds ∧
        Declarations.empty.Admits ds := by
  constructor
  · rintro ⟨found, hparse, rfl⟩
    have hsource : parseSource (Lexer.ofBody line) .empty = (.ok found, (parse line .empty).2) :=
      Prod.ext hparse rfl
    obtain ⟨xs, ds, hxs, hderives, hadmits, -⟩ := derives_of_parseSource hsource
    rw [Lexer.ofBody, bodyLines_line hfull hone] at hxs
    obtain ⟨rows, hrows, rfl⟩ := exists_rows (by simp) hxs hderives
    cases hrows with
    | cons hrow hnone =>
      cases hnone
      obtain ⟨xs, m, starts, rfl, hm, hscan⟩ := (readAs_line_iff hfull).1 hrow
      rw [woven_line] at hderives
      exact ⟨xs, m, ds, ⟨starts, hscan⟩, hm, hderives, hadmits⟩
  · rintro ⟨xs, m, ds, ⟨starts, hscan⟩, hm, hderives, hadmits⟩
    obtain ⟨found, declared, hparse, hfound, -⟩ :=
      parseSource_of_derives (spells_line hfull hone hm hscan) hderives hadmits
    exact ⟨found, congrArg Prod.fst hparse, hfound⟩

theorem parseBody_of_begins {xs : List Lexeme} {s : Statement} (hbegins : Begins .base line xs .base [])
    (hderives : Derives xs [s] []) : ∃ found, parseBody line = .ok [found] ∧ found.unnumbered = s := by
  have hscan : ∃ starts, Scan .base line xs .base starts :=
    (hbegins xs .base).2 ⟨[], (List.append_nil xs).symm, false, .done⟩
  obtain ⟨found, hparse, hfound⟩ := (parseBody_line_iff hfull hone [s]).2
    ⟨xs, .base, [], hscan, rfl, hderives, Declarations.empty.admits_nil⟩
  match found, hfound with
  | [t], hfound =>
    simp only [unnumberedAll, List.cons.injEq, and_true] at hfound
    exact ⟨t, hparse, hfound⟩

end Line

end Parley.Body
