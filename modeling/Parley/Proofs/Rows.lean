import Mathlib.Data.List.Forall2
import Parley.Proofs.Lines
import Parley.Proofs.Modes
set_option autoImplicit false

/-!
Lexing, line by line.

Where lines end between commands, each line is read on its own, and what goes from line to line is only
the indentation. The lexemes of a body are those of its lines, woven together with line breaks and with
the tokens for blocks.
-/

namespace Parley.Body

/-! One line. -/

def Mode.Found.rest (found : Mode.Found) (t : Text) : Text :=
  if Lexer.keepsBlanks found.kind found.next then t.drop found.length
  else Text.trimStart (t.drop found.length)

/-- What the rest of a line is read as, the mode at its end, and whether an option is on it. -/
inductive Scan : Mode → Text → List Lexeme → Mode → Bool → Prop where
  | done {m : Mode} : Scan m [] [] m false
  | read {m m' : Mode} {t : Text} {found : Mode.Found} {xs : List Lexeme} {starts : Bool}
      (hfind : m.find? t = some found) (rest : Scan (found.next.getD m) (found.rest t) xs m' starts) :
      Scan m t ((found.kind, found.kind.textOf (t.take found.length)) :: xs) m'
        (Lexer.starts found || starts)

/-- A line that is not blank, as it is read between commands. -/
structure Row where
  width : Nat
  lexemes : List Lexeme
  starts : Bool

/-- What a line is read as; blank lines are empty. -/
def ReadAs (line : Text) : Option Row → Prop
  | none => line = []
  | some r => ¬ IsBlankLine line ∧ r.width = Text.indentWidth line ∧
      ∃ m : Mode, m.isLine = true ∧ Scan .base (Text.trimStart line) r.lexemes m r.starts

theorem Scan.ne_nil {m m' : Mode} {t : Text} {xs : List Lexeme} {starts : Bool}
    (h : Scan m t xs m' starts) (ht : t ≠ []) : xs ≠ [] := by
  cases h with
  | done => exact absurd rfl ht
  | read => simp

theorem Scan.isWritten {m m' : Mode} {t : Text} {xs : List Lexeme} {starts : Bool}
    (h : Scan m t xs m' starts) : ∀ x ∈ xs, x.1.isWritten = true := by
  induction h with
  | done => simp
  | read hfind _ ih =>
    intro x hx
    rcases List.mem_cons.1 hx with rfl | hx
    · exact Mode.find?_isWritten hfind
    · exact ih x hx

def Row.Written (r : Row) : Prop :=
  r.lexemes ≠ [] ∧ ∀ x ∈ r.lexemes, x.1.isWritten = true

theorem ReadAs.written {line : Text} {r : Row} (h : ReadAs line (some r)) : r.Written := by
  obtain ⟨hblank, -, m, -, hscan⟩ := h
  exact ⟨hscan.ne_nil hblank, hscan.isWritten⟩

theorem Scan.unique {m m₁ m₂ : Mode} {t : Text} {xs ys : List Lexeme} {starts starts' : Bool}
    (h : Scan m t xs m₁ starts) (h' : Scan m t ys m₂ starts') : xs = ys ∧ starts = starts' := by
  induction h generalizing ys starts' with
  | @done m =>
    cases h' with
    | done => exact ⟨rfl, rfl⟩
    | read hfind =>
      rw [Mode.find?_nil] at hfind
      cases hfind
  | read hfind _ ih =>
    cases h' with
    | done =>
      rw [Mode.find?_nil] at hfind
      cases hfind
    | read hfind' rest' =>
      obtain rfl : _ = _ := Option.some.inj (hfind.symm.trans hfind')
      obtain ⟨rfl, rfl⟩ := ih rest'
      exact ⟨rfl, rfl⟩

/-- Only an arrow leads into an option. -/
theorem Mode.find?_not_starts {m : Mode} {t : Text} {found : Mode.Found} (h : m.find? t = some found)
    (hm : m ≠ .option ∧ m ≠ .inlineInOption) (hkind : found.kind ≠ .arrow) :
    Lexer.starts found = false ∧ found.next.getD m ≠ .option ∧ found.next.getD m ≠ .inlineInOption := by
  have hnext : (∀ r ∈ m.rules, r.kind ≠ .arrow → r.next.any Mode.tracksIndentation = false ∧
      r.next.getD m ≠ .option ∧ r.next.getD m ≠ .inlineInOption) ∧
      m.afterText.any Mode.tracksIndentation = false ∧
        m.afterText.getD m ≠ .option ∧ m.afterText.getD m ≠ .inlineInOption := by
    obtain ⟨hoption, hinline⟩ := hm
    cases m with
    | option => exact absurd rfl hoption
    | inlineInOption => exact absurd rfl hinline
    | _ => decide
  rcases Option.or_eq_some_iff.1 h with h | ⟨-, h⟩
  · obtain ⟨r, hr, hfound⟩ := List.exists_of_findSome?_eq_some h
    obtain ⟨n, -, rfl⟩ := Option.map_eq_some_iff.1 hfound
    exact hnext.1 r hr hkind
  · split at h
    · cases h
      exact hnext.2
    · cases h

theorem Scan.not_starts {m m' : Mode} {t : Text} {xs : List Lexeme} {starts : Bool}
    (h : Scan m t xs m' starts) (hm : m ≠ .option ∧ m ≠ .inlineInOption)
    (hxs : ∀ x ∈ xs, x.1 ≠ .arrow) : starts = false := by
  induction h with
  | done => rfl
  | read hfind _ ih =>
    obtain ⟨hstarts, hnext⟩ := Mode.find?_not_starts hfind hm (hxs _ (List.mem_cons_self ..))
    rw [hstarts, ih hnext fun x hx => hxs x (List.mem_cons_of_mem _ hx)]
    rfl

theorem ReadAs.unique {line : Text} {row row' : Option Row} (h : ReadAs line row)
    (h' : ReadAs line row') : row = row' := by
  cases row with
  | none =>
    cases row' with
    | none => rfl
    | some r' =>
      obtain rfl : line = [] := h
      exact absurd rfl h'.1
  | some r =>
    cases row' with
    | none =>
      obtain rfl : line = [] := h'
      exact absurd rfl h.1
    | some r' =>
      obtain ⟨width, lexemes, starts⟩ := r
      obtain ⟨width', lexemes', starts'⟩ := r'
      obtain ⟨-, rfl, m, -, hscan⟩ := h
      obtain ⟨-, rfl, m', -, hscan'⟩ := h'
      obtain ⟨rfl, rfl⟩ := hscan.unique hscan'
      rfl

/-! From line to line. -/

def dedents (width : Nat) : List Level → List Lexeme
  | [] => []
  | v :: vs =>
    if width < v.width then
      if v.significant then (.dedent, []) :: dedents width vs else dedents width vs
    else []

def settle (width : Nat) (levels : List Level) : List Level :=
  levels.dropWhile fun v => width < v.width

def Opens (levels : List Level) (tracking : Bool) (width : Nat) : Prop :=
  tracking = true ∧ Lexer.topWidth levels < width

instance (levels : List Level) (tracking : Bool) (width : Nat) :
    Decidable (Opens levels tracking width) :=
  inferInstanceAs (Decidable (_ ∧ _))

/-- The tokens for blocks at the start of a line, and the levels behind them. -/
def entry (levels : List Level) (tracking : Bool) (width : Nat) : List Lexeme × List Level :=
  if Opens levels tracking width then ([(.indent, [])], ⟨width, true⟩ :: levels)
  else (dedents width levels, settle width levels)

/-- The levels behind a line; an option on it adds the width of the line. -/
def Row.levels (r : Row) (levels : List Level) : List Level :=
  if r.starts = true ∧ Lexer.topWidth levels < r.width then ⟨r.width, false⟩ :: levels else levels

def endings (levels : List Level) : List Lexeme :=
  List.replicate (Lexer.blocks levels).length (.dedent, [])

/-- The lexemes of some lines, from open levels on and from whether the first line may open a block. -/
def weave : List Level → Bool → List (Option Row) → List Lexeme
  | levels, _, [] => endings levels
  | levels, tracking, none :: rows => breakIf (!rows.isEmpty) ++ weave levels tracking rows
  | levels, tracking, some r :: rows =>
    (entry levels tracking r.width).1 ++ (r.lexemes ++ (breakIf (!rows.isEmpty) ++
      weave (r.levels (entry levels tracking r.width).2) r.starts rows))

/-- The levels behind some lines, and whether the next line may open a block. -/
def arrive : List Level → Bool → List (Option Row) → List Level × Bool
  | levels, tracking, [] => (levels, tracking)
  | levels, tracking, none :: rows => arrive levels tracking rows
  | levels, tracking, some r :: rows =>
    arrive (r.levels (entry levels tracking r.width).2) r.starts rows

def fore : List Level → Bool → List (Option Row) → List Lexeme
  | _, _, [] => []
  | levels, tracking, none :: rows => (.endOfLine, []) :: fore levels tracking rows
  | levels, tracking, some r :: rows =>
    (entry levels tracking r.width).1 ++ (r.lexemes ++ (.endOfLine, []) ::
      fore (r.levels (entry levels tracking r.width).2) r.starts rows)

theorem weave_append (levels : List Level) (tracking : Bool) (rows : List (Option Row))
    {below : List (Option Row)} (hbelow : below ≠ []) :
    weave levels tracking (rows ++ below) = fore levels tracking rows ++
      weave (arrive levels tracking rows).1 (arrive levels tracking rows).2 below := by
  have hmore : ∀ rows : List (Option Row), breakIf (!(rows ++ below).isEmpty) = [(.endOfLine, [])] := by
    intro rows
    cases rows <;> cases below <;> first | rfl | exact absurd rfl hbelow
  induction rows generalizing levels tracking with
  | nil => rfl
  | cons row rows ih => cases row <;> simp [weave, fore, arrive, hmore, ih]

theorem fore_eq (levels : List Level) (tracking : Bool) {rows : List (Option Row)} (hrows : rows ≠ []) :
    ∃ front, fore levels tracking rows = front ++ [(.endOfLine, [])] ∧
      weave levels tracking rows = front ++ endings (arrive levels tracking rows).1 := by
  induction rows generalizing levels tracking with
  | nil => exact absurd rfl hrows
  | cons row rows ih =>
    cases rows with
    | nil =>
      cases row with
      | none => exact ⟨[], rfl, rfl⟩
      | some r =>
        exact ⟨(entry levels tracking r.width).1 ++ r.lexemes, by simp [fore],
          by simp [weave, breakIf, arrive]⟩
    | cons next rows =>
      cases row with
      | none =>
        obtain ⟨front, hfore, hweave⟩ := ih levels tracking (by simp)
        refine ⟨(.endOfLine, []) :: front, ?_, ?_⟩
        · rw [fore, hfore, List.cons_append]
        · rw [weave, hweave]
          rfl
      | some r =>
        obtain ⟨front, hfore, hweave⟩ :=
          ih (r.levels (entry levels tracking r.width).2) r.starts (by simp)
        refine ⟨(entry levels tracking r.width).1 ++ (r.lexemes ++ (.endOfLine, []) :: front), ?_, ?_⟩
        · rw [fore, hfore]
          simp
        · rw [weave, hweave]
          simp [breakIf, arrive]

namespace Lexer

theorem dedents_of_closeWider (width : Nat) (levels : List Level) :
    match closeWider width levels with
    | .block rest => dedents width levels = (.dedent, []) :: dedents width rest ∧
        settle width levels = settle width rest
    | .settled rest => dedents width levels = [] ∧ settle width levels = rest := by
  induction levels with
  | nil => exact ⟨rfl, rfl⟩
  | cons v vs ih =>
    by_cases hwidth : width < v.width
    · cases hs : v.significant with
      | true => simp [closeWider, dedents, settle, hwidth, hs]
      | false => simpa [closeWider, dedents, settle, hwidth, hs] using ih
    · simp [closeWider, dedents, settle, hwidth]

variable {l l' m : Lexer} {levels : List Level} {tracking : Bool} {below : List Text}

structure AtStart (l : Lexer) (line : Text) (below : List Text) (levels : List Level) : Prop where
  line_eq : l.line = line
  below_eq : l.below = below
  mode_eq : l.mode = .base
  ready : Ready l { l with
    levels := levels
    tracking := false
    cursor := Text.indentWidth line }

/-- Blocks are closed one by one, up to the place where a line is read. -/
theorem leads_dedents {line : Text} (h : Before l (line :: below) levels tracking)
    (hline : line ≠ []) (hflat : ¬ Opens levels tracking (Text.indentWidth line)) :
    ∃ l', Leads l (dedents (Text.indentWidth line) levels) l' ∧
      AtStart l' line below (settle (Text.indentWidth line) levels) := by
  -- Each step may drop several levels that were not announced, hence the strong induction.
  induction hn : levels.length using Nat.strongRecOn generalizing l levels tracking with
  | _ n ih =>
    obtain ⟨rfl, rfl, hbelow, hcursor, hmode, rfl, hprevious⟩ := h
    have hshallow : l.tracking = true → Text.indentWidth l.line ≤ l.previous := by
      intro htracking
      rw [hprevious htracking]
      exact Nat.le_of_not_lt fun hlt => hflat ⟨htracking, hlt⟩
    have hclosing := dedents_of_closeWider (Text.indentWidth l.line) l.levels
    cases hclose : closeWider (Text.indentWidth l.line) l.levels with
    | settled rest =>
      rw [hclose] at hclosing
      obtain ⟨hdedents, hsettle⟩ := hclosing
      rw [hdedents, hsettle]
      exact ⟨l, rfl, rfl, hbelow, hmode, .start hcursor hshallow hclose⟩
    | block rest =>
      rw [hclose] at hclosing
      obtain ⟨hdedents, hsettle⟩ := hclosing
      have hshort := closeWider_length (Text.indentWidth l.line) l.levels
      rw [hclose] at hshort
      obtain ⟨l', hleads, hstart⟩ := ih rest.length (hn ▸ hshort)
        (l := { l with levels := rest, tracking := false, previous := topWidth rest })
        ⟨rfl, rfl, hbelow, hcursor, hmode, rfl, by simp⟩ (by simp [Opens]) rfl
      rw [hdedents, hsettle]
      exact ⟨l', ⟨_, _, next_of_step (.closes hcursor hline hshallow hclose), rfl, hleads⟩, hstart⟩

theorem leads_entry {line : Text} (h : Before l (line :: below) levels tracking) (hline : line ≠ []) :
    ∃ l', Leads l (entry levels tracking (Text.indentWidth line)).1 l' ∧
      AtStart l' line below (entry levels tracking (Text.indentWidth line)).2 := by
  unfold entry
  split
  · rename_i hopens
    obtain ⟨rfl, hdeep⟩ := hopens
    obtain ⟨l', hleads, hbefore⟩ := leads_indent h hline hdeep
    obtain ⟨hlevels, rfl, hbelow, hcursor, hmode, htracking, -⟩ := hbefore
    have hclose : closeWider (Text.indentWidth l'.line) l'.levels =
        .settled (⟨Text.indentWidth l'.line, true⟩ :: levels) := by
      rw [hlevels]
      exact closeWider_top _ _ (Nat.le_refl _)
    exact ⟨l', hleads, rfl, hbelow, hmode, .start hcursor (by simp [htracking]) hclose⟩
  · rename_i hflat
    exact leads_dedents h hline hflat

/-! Within a line. -/

theorem drop_accept (m : Lexer) (found : Mode.Found) :
    (m.accept found).2.line.drop (m.accept found).2.cursor = found.rest (m.line.drop m.cursor) := by
  rw [accept_snd]
  unfold Mode.Found.rest
  simp only [List.drop_drop]
  split
  · rfl
  · rw [← Text.drop_indentWidth, List.drop_drop]

theorem levels_accept (m : Lexer) (found : Mode.Found) (starts : Bool) :
    (Row.mk (Text.indentWidth m.line) [] starts).levels (m.accept found).2.levels =
      (Row.mk (Text.indentWidth m.line) [] (Lexer.starts found || starts)).levels m.levels := by
  rw [accept_snd]
  simp only [levelsWith, Row.levels]
  by_cases hwidth : topWidth m.levels < Text.indentWidth m.line
  · by_cases hstarts : Lexer.starts found = true
    · simp only [hstarts, hwidth, and_self, if_true]
      simp [topWidth]
    · simp [hstarts]
  · simp [hwidth]

theorem leads_scan {mode : Mode} {xs : List Lexeme} {starts : Bool} (hready : Ready l m)
    (hscan : Scan m.mode (m.line.drop m.cursor) xs mode starts) (hxs : xs ≠ [] ∨ l.cursor ≠ 0) :
    ∃ l', Leads l xs l' ∧ l'.line = l.line ∧ l'.line.length ≤ l'.cursor ∧ l'.below = l.below ∧
      l'.mode = mode ∧ l'.tracking = (starts || m.tracking) ∧
      l'.levels = (Row.mk (Text.indentWidth l.line) [] starts).levels m.levels := by
  generalize ht : m.line.drop m.cursor = t at hscan
  generalize hmode : m.mode = start at hscan
  induction hscan generalizing l m with
  | done =>
    cases hready with
    | within =>
      exact ⟨l, rfl, rfl, List.drop_eq_nil_iff.1 ht, rfl, hmode, by simp, by simp [Row.levels]⟩
    | start hcursor => simp [hcursor] at hxs
  | @read start mode t found xs starts hfind rest ih =>
    subst ht hmode
    have hmore : l.cursor < l.line.length := by
      have hlt : m.cursor < m.line.length := by
        apply Nat.lt_of_not_le
        intro hle
        rw [List.drop_eq_nil_of_le hle, Mode.find?_nil] at hfind
        simp at hfind
      cases hready with
      | within => exact hlt
      | start hcursor => exact Nat.lt_of_le_of_lt (Nat.le_of_eq hcursor) (Nat.zero_lt_of_lt hlt)
    have hstep := Step.reads hmore hready hfind
    have hcursor := cursor_accept_ne_zero hfind
    obtain ⟨l', hleads, hline, hend, hbelow, hmode, htracking, hlevels⟩ :=
      ih (.within hcursor) (.inr hcursor) (drop_accept m found) (by rw [accept_snd])
    have hlines : (m.accept found).2.line = l.line := by
      rw [accept_snd]
      exact hready.line_eq
    refine ⟨l', ⟨_, _, next_of_step hstep, rfl, hleads⟩, hline.trans hlines, hend, ?_, hmode, ?_, ?_⟩
    · rw [hbelow, accept_snd]
      exact hready.below_eq
    · rw [htracking, accept_snd]
      simp only [Bool.or_comm, Bool.or_left_comm]
    · rw [hlevels, hlines, ← hready.line_eq, levels_accept]

theorem leads_break {tracking : Bool} (hend : l.line.length ≤ l.cursor) (hmode : l.mode.isLine = true)
    (htracking : l.tracking = tracking) :
    ∃ l', Leads l (breakIf (!l.below.isEmpty)) l' ∧ Before l' l.below l.levels tracking := by
  cases hbelow : l.below with
  | nil => exact ⟨l, rfl, rfl, hbelow, hend⟩
  | cons line rest =>
    refine ⟨l.nextLine line rest, ⟨_, _, next_of_step (.lineEnd hend hbelow), rfl, rfl⟩, rfl, rfl, rfl,
      rfl, ?_, htracking, fun _ => rfl⟩
    cases hm : l.mode with
    | base | option => simp [nextLine, hm]
    | _ => simp [hm, Mode.isLine] at hmode

theorem leads_endings (h : Before l [] levels tracking) :
    ∃ l', Leads l (endings levels ++ [inputEnd]) l' := by
  obtain ⟨rfl, hbelow, hend⟩ := h
  induction hn : (blocks l.levels).length generalizing l with
  | zero =>
    have hclose : closeOne l.levels = none := by
      cases hclose : closeOne l.levels with
      | none => rfl
      | some rest =>
        obtain ⟨width, hinner⟩ := innermost_of_closeOne hclose
        simp [hinner.blocks_eq] at hn
    unfold endings
    rw [hn]
    exact ⟨_, _, _, next_of_step (.inputEnd hend hbelow hclose), rfl, rfl⟩
  | succ n ih =>
    cases hclose : closeOne l.levels with
    | none => simp [blocks_of_closeOne_none hclose] at hn
    | some rest =>
      obtain ⟨width, hinner⟩ := innermost_of_closeOne hclose
      have hrest : (blocks rest).length = n := by simpa [hinner.blocks_eq] using hn
      obtain ⟨l', hleads⟩ := ih (l := { l with levels := rest }) hbelow hend hrest
      refine ⟨l', ?_⟩
      unfold endings at hleads ⊢
      rw [hn, List.replicate_succ]
      rw [hrest] at hleads
      exact ⟨_, _, next_of_step (.closeAtEnd hend hbelow hclose), rfl, hleads⟩

theorem leads_weave {lines : List Text} {rows : List (Option Row)}
    (hrows : List.Forall₂ ReadAs lines rows) (h : Before l lines levels tracking) :
    ∃ l', Leads l (weave levels tracking rows ++ [inputEnd]) l' := by
  induction hrows generalizing l levels tracking with
  | nil => exact leads_endings h
  | @cons line row lines rows hrow hrows ih =>
    have hempty : (!lines.isEmpty) = (!rows.isEmpty) := by cases hrows <;> rfl
    cases row with
    | none =>
      obtain rfl : line = [] := hrow
      obtain ⟨rfl, hline, rfl, hcursor, hmode, htracking, -⟩ := h
      obtain ⟨l₁, hbreak, hbefore⟩ := leads_break (l := l) (by simp [hline, hcursor])
        (by rw [hmode]; rfl) htracking
      obtain ⟨l', hrest⟩ := ih hbefore
      rw [hempty] at hbreak
      exact ⟨l', by rw [weave, List.append_assoc]; exact hbreak.append hrest⟩
    | some r =>
      obtain ⟨hblank, hwidth, m, hm, hscan⟩ := hrow
      have hne : line ≠ [] := by
        rintro rfl
        exact hblank rfl
      obtain ⟨l₁, hentry, hstart⟩ := leads_entry h hne
      obtain ⟨rfl, rfl, hmode, hready⟩ := hstart
      have hlexemes := hscan.ne_nil hblank
      rw [← Text.drop_indentWidth, ← hmode] at hscan
      obtain ⟨l₂, hscanned, -, hend, hbelow, rfl, htracking, hlevels⟩ :=
        leads_scan hready hscan (.inl hlexemes)
      obtain ⟨l₃, hbreak, hbefore⟩ := leads_break hend hm htracking
      rw [hbelow, hlevels] at hbefore
      obtain ⟨l', hrest⟩ := ih hbefore
      rw [hbelow, hempty] at hbreak
      refine ⟨l', ?_⟩
      rw [weave, hwidth]
      simp only [List.append_assoc]
      refine hentry.append (hscanned.append (hbreak.append ?_))
      simpa [Row.levels, hwidth] using hrest

structure Readable (l : Lexer) : Prop where
  within : l.cursor ≠ 0 → ∃ xs m starts, m.isLine = true ∧
    Scan l.mode (l.line.drop l.cursor) xs m starts
  atStart : l.cursor = 0 → l.mode = .base → ∃ row, ReadAs l.line row
  below : ∀ line ∈ l.below, ∃ row, ReadAs line row

theorem Readable.of_end (hend : l.line.length ≤ l.cursor) (hmode : l.mode.isLine = true)
    (hbelow : ∀ line ∈ l.below, ∃ row, ReadAs line row) : Readable l where
  within := fun _ => ⟨[], l.mode, false, hmode, by rw [List.drop_eq_nil_of_le hend]; exact .done⟩
  atStart := by
    intro hcursor _
    exact ⟨none, List.eq_nil_of_length_eq_zero (by omega)⟩
  below := hbelow

theorem Readable.of_step {token : Token} (h : Step l token l') (hl' : Readable l')
    (hend : token.kind = .endOfLine ∨ token.kind = .endOfInput → l.mode.isLine = true) :
    Readable l := by
  cases h with
  | @lineEnd line below hlong hbelow =>
    have hmode := hend (.inl rfl)
    refine .of_end hlong hmode ?_
    rw [hbelow]
    have hbase : (l.nextLine line below).mode = .base := by
      cases hm : l.mode with
      | base | option => simp [nextLine, hm]
      | _ => simp [hm, Mode.isLine] at hmode
    intro line' hline'
    rcases List.mem_cons.1 hline' with rfl | hline'
    · exact hl'.atStart rfl hbase
    · exact hl'.below line' hline'
  | inputEnd hlong hbelow => exact .of_end hlong (hend (.inr rfl)) (by simp [hbelow])
  | closeAtEnd => exact ⟨hl'.within, hl'.atStart, hl'.below⟩
  | opens => exact ⟨hl'.within, hl'.atStart, hl'.below⟩
  | closes => exact ⟨hl'.within, hl'.atStart, hl'.below⟩
  | @reads m found hmore hready hfind =>
    obtain ⟨xs, mode, starts, hmode, hscan⟩ := hl'.within (cursor_accept_ne_zero hfind)
    rw [drop_accept, accept_snd] at hscan
    have hread := Scan.read hfind hscan
    have hbelow : ∀ line ∈ l.below, ∃ row, ReadAs line row := by
      rw [← hready.below_eq]
      have hrest := hl'.below
      rwa [accept_snd] at hrest
    cases hready with
    | within hcursor =>
      exact ⟨fun _ => ⟨_, mode, _, hmode, hread⟩, fun h => absurd h hcursor, hbelow⟩
    | start hcursor =>
      refine ⟨fun h => absurd hcursor h, fun _ hbase => ?_, hbelow⟩
      rw [Text.drop_indentWidth, hbase] at hread
      refine ⟨some ⟨Text.indentWidth l.line, _, _⟩, ?_, rfl, mode, hmode, hread⟩
      intro hblank
      rw [Text.drop_indentWidth, hblank, Mode.find?_nil] at hfind
      cases hfind

theorem readable_of_path {tokens : List Token} (h : Path l tokens l')
    (htidy : Tidy l.mode (tokens.map Token.lexeme))
    (hlast : ∃ front last, tokens = front ++ [last] ∧ last.kind = .endOfInput) : Readable l := by
  induction h with
  | nil =>
    obtain ⟨front, last, heq, -⟩ := hlast
    simp at heq
  | @cons l m l' token tokens head tail ih =>
    obtain ⟨hend, htidy⟩ := htidy
    obtain ⟨front, last, heq, hlast⟩ := hlast
    rw [show l.mode.after token.lexeme.1 = m.mode from head.mode_eq.2.symm] at htidy
    cases front with
    | nil =>
      obtain ⟨rfl, rfl⟩ := List.cons.inj heq
      cases head with
      | inputEnd hlong hbelow => exact .of_end hlong (hend (.inr rfl)) (by simp [hbelow])
      | reads _ _ hfind =>
        have hwritten := Mode.find?_isWritten hfind
        rw [show Mode.Found.kind _ = _ from hlast] at hwritten
        cases hwritten
      | _ => cases hlast
    | cons first front =>
      obtain ⟨-, rfl⟩ := List.cons.inj heq
      exact .of_step head (ih htidy ⟨front, last, rfl, hlast⟩) hend

end Lexer

/-! Whole bodies. -/

abbrev woven (rows : List (Option Row)) : List Lexeme :=
  weave [⟨0, false⟩] false rows

theorem mem_entry {levels : List Level} {tracking : Bool} {width : Nat} {x : Lexeme}
    (hx : x ∈ (entry levels tracking width).1) : x.1 = .indent ∨ x.1 = .dedent := by
  have hdedents : ∀ levels, x ∈ dedents width levels → x.1 = .dedent := by
    intro levels
    induction levels with
    | nil => simp [dedents]
    | cons v vs ih =>
      unfold dedents
      split
      · split
        · intro hx
          rcases List.mem_cons.1 hx with rfl | hx
          · rfl
          · exact ih hx
        · exact ih
      · simp
  unfold entry at hx
  split at hx
  · rw [List.mem_singleton.1 hx]
    exact .inl rfl
  · exact .inr (hdedents levels hx)

theorem isInner_weave {lines : List Text} {rows : List (Option Row)}
    (h : List.Forall₂ ReadAs lines rows) (levels : List Level) (tracking : Bool) :
    ∀ x ∈ weave levels tracking rows, x.1.isInner = true := by
  have hbreak : ∀ more, ∀ x ∈ breakIf more, x.1.isInner = true := by
    intro more
    cases more <;> simp [breakIf, TokenKind.isInner]
  induction h generalizing levels tracking with
  | nil =>
    intro x hx
    rw [List.eq_of_mem_replicate hx]
    rfl
  | @cons line row lines rows hrow _ ih =>
    intro x hx
    cases row with
    | none =>
      rcases List.mem_append.1 hx with hx | hx
      · exact hbreak _ x hx
      · exact ih _ _ x hx
    | some r =>
      obtain ⟨-, -, m, -, hscan⟩ := hrow
      rcases List.mem_append.1 hx with hx | hx
      · rcases mem_entry hx with hx | hx <;> rw [hx] <;> rfl
      rcases List.mem_append.1 hx with hx | hx
      · exact TokenKind.isInner_of_isWritten (hscan.isWritten x hx)
      rcases List.mem_append.1 hx with hx | hx
      · exact hbreak _ x hx
      · exact ih _ _ x hx

theorem spells_woven {lines : List Text} {rows : List (Option Row)} (hne : lines ≠ [])
    (h : List.Forall₂ ReadAs lines rows) : (Lexer.ofLines lines).Spells (woven rows) := by
  refine ⟨isInner_weave h _ _, ?_⟩
  cases lines with
  | nil => exact absurd rfl hne
  | cons line lines => exact Lexer.leads_weave h ⟨rfl, rfl, rfl, rfl, rfl, rfl, by simp⟩

/-- In a body that the grammar derives something from, every line is read on its own. -/
theorem exists_rows {lines : List Text} {xs : List Lexeme} {ss : List Statement}
    {ds : List Declaration} (hne : lines ≠ []) (hxs : (Lexer.ofLines lines).Spells xs)
    (h : Derives xs ss ds) : ∃ rows, List.Forall₂ ReadAs lines rows ∧ xs = woven rows := by
  obtain ⟨-, l', hleads⟩ := id hxs
  obtain ⟨tokens, htokens, hpath⟩ := Lexer.path_of_leads hleads
  have hruns := hpath.runs
  rw [htokens] at hruns
  have hlast : ∃ front last, tokens = front ++ [last] ∧ last.kind = .endOfInput := by
    obtain ⟨front, back, rfl, -, hback⟩ := List.map_eq_append_iff.1 htokens
    obtain ⟨last, rfl, hlast⟩ := List.map_eq_singleton_iff.1 hback
    exact ⟨front, last, rfl, congrArg Prod.fst hlast⟩
  have hreadable := Lexer.readable_of_path hpath (by rw [htokens]; exact tidy_of_derives h hruns) hlast
  have hall : ∀ line ∈ lines, ∃ row, ReadAs line row := by
    cases lines with
    | nil => exact absurd rfl hne
    | cons line lines =>
      intro line' hline'
      rcases List.mem_cons.1 hline' with rfl | hline'
      · exact hreadable.atStart rfl rfl
      · exact hreadable.below line' hline'
  obtain ⟨rows, hrows⟩ : ∃ rows, List.Forall₂ ReadAs lines rows := by
    clear hne hxs hleads hpath hruns hreadable
    induction lines with
    | nil => exact ⟨[], .nil⟩
    | cons line lines ih =>
      obtain ⟨row, hrow⟩ := hall line (List.mem_cons_self ..)
      obtain ⟨rows, hrows⟩ := ih fun line' hline' => hall line' (List.mem_cons_of_mem _ hline')
      exact ⟨row :: rows, .cons hrow hrows⟩
  exact ⟨rows, hrows, hxs.unique (spells_woven hne hrows)⟩

end Parley.Body
