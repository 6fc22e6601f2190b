import Mathlib.Data.List.TakeWhile
import Parley.Proofs.Padding
import Parley.Proofs.Signs
set_option autoImplicit false

/-!
Lines with only a comment.

Such a line takes part in the indentation: it may open a block or close some. The lines below it then
open and close blocks from other levels on. What matters is how many blocks are open at each of them
on which a part of a statement is written; in between, blocks may be closed earlier or later.
-/

namespace Parley.Body

/-! Open levels. -/

section Levels

open Lexer

variable {levels levels' : List Level} {tracking : Bool} {width : Nat}

theorem topWidth_settle (levels : List Level) (width : Nat) : topWidth (settle width levels) ≤ width := by
  induction levels with
  | nil => exact Nat.zero_le _
  | cons v vs ih =>
    by_cases hwidth : width < v.width
    · simpa [settle, hwidth] using ih
    · simpa [settle, hwidth, topWidth] using Nat.le_of_not_lt hwidth

theorem Lexer.Nested.settle (h : Nested levels) (width : Nat) : Nested (Body.settle width levels) := by
  refine h.of_suffix (List.dropWhile_suffix _) ?_
  intro hnil
  have hbottom : ⟨0, false⟩ ∈ levels := List.mem_of_getLast? h.bottom
  have hall := List.dropWhile_eq_nil_iff.1 hnil _ hbottom
  simp at hall

/-- In nested levels, the wider ones are those in front. -/
theorem dedents_eq (h : levels.Pairwise fun inner outer => outer.width < inner.width) (width : Nat) :
    dedents width levels =
        List.replicate ((blocks levels).countP fun b => decide (width < b)) (.dedent, []) ∧
      blocks (Body.settle width levels) = (blocks levels).filter fun b => decide (b ≤ width) := by
  induction levels with
  | nil => exact ⟨rfl, rfl⟩
  | cons v vs ih =>
    obtain ⟨houter, hvs⟩ := List.pairwise_cons.1 h
    obtain ⟨ihdedents, ihblocks⟩ := ih hvs
    by_cases hwidth : width < v.width
    · have hsettle : Body.settle width (v :: vs) = Body.settle width vs := by
        simp [Body.settle, hwidth]
      rw [hsettle, ihblocks, blocks_cons]
      cases hs : v.significant with
      | true =>
        have hnot : ¬ v.width ≤ width := by omega
        simp [dedents, hwidth, hnot, hs, ihdedents, List.replicate_succ]
      | false => simp [dedents, hwidth, hs, ihdedents]
    · have hall : ∀ b ∈ blocks (v :: vs), b ≤ width := by
        intro b hb
        obtain ⟨u, hu, rfl⟩ := List.mem_map.1 hb
        rcases List.mem_cons.1 (List.mem_filter.1 hu).1 with rfl | hu
        · omega
        · have hlt := houter u hu
          omega
      have hcount : (blocks (v :: vs)).countP (fun b => decide (width < b)) = 0 := by
        rw [List.countP_eq_zero]
        intro b hb
        simpa using hall b hb
      have hfilter : (blocks (v :: vs)).filter (fun b => decide (b ≤ width)) = blocks (v :: vs) := by
        rw [List.filter_eq_self]
        intro b hb
        simpa using hall b hb
      rw [hcount, hfilter]
      simp [dedents, Body.settle, hwidth]

theorem Lexer.Nested.entry (h : Nested levels) (tracking : Bool) (width : Nat) :
    Nested (Body.entry levels tracking width).2 ∧
      topWidth (Body.entry levels tracking width).2 ≤ width := by
  unfold Body.entry
  split
  · rename_i hopens
    exact ⟨h.push hopens.2, Nat.le_refl width⟩
  · exact ⟨h.settle width, topWidth_settle levels width⟩

theorem Lexer.Nested.row (h : Nested levels) {r : Row} (hr : topWidth levels ≤ r.width) :
    Nested (r.levels levels) ∧ (r.starts = true → topWidth (r.levels levels) = r.width) := by
  unfold Row.levels
  split
  · rename_i hdeep
    exact ⟨h.push hdeep.2, fun _ => rfl⟩
  · rename_i hflat
    refine ⟨h, fun hstarts => ?_⟩
    have hle : ¬ topWidth levels < r.width := fun hlt => hflat ⟨hstarts, hlt⟩
    omega

@[simp] theorem blocks_row (r : Row) (levels : List Level) :
    blocks (r.levels levels) = blocks levels := by
  unfold Row.levels
  split
  · simp [blocks_cons]
  · rfl

theorem nested_arrive (h : Nested levels) (tracking : Bool) (rows : List (Option Row)) :
    Nested (arrive levels tracking rows).1 := by
  induction rows generalizing levels tracking with
  | nil => exact h
  | cons row rows ih =>
    cases row with
    | none => exact ih h tracking
    | some r =>
      obtain ⟨hentry, htop⟩ := h.entry tracking r.width
      exact ih (hentry.row htop).1 r.starts

/-- How many blocks stay open on a line of some depth. -/
def Lexer.blocksAt (levels : List Level) (width : Nat) : Nat :=
  (blocks levels).countP fun b => decide (b ≤ width)

def Lexer.closedAt (levels : List Level) (width : Nat) : Nat :=
  (blocks levels).countP fun b => decide (width < b)

theorem closedAt_add_blocksAt (levels : List Level) (width : Nat) :
    closedAt levels width + blocksAt levels width = (blocks levels).length := by
  rw [closedAt, blocksAt, List.length_eq_countP_add_countP fun b => decide (width < b)]
  simp

theorem Lexer.Nested.dedents_eq (h : Nested levels) (width : Nat) :
    dedents width levels = List.replicate (closedAt levels width) (.dedent, []) :=
  (Body.dedents_eq h.sorted width).1

theorem Lexer.Nested.length_settle (h : Nested levels) (width : Nat) :
    (blocks (Body.settle width levels)).length = blocksAt levels width := by
  rw [(Body.dedents_eq h.sorted width).2, blocksAt, List.countP_eq_length_filter]

theorem Lexer.Nested.blocksAt_settle (h : Nested levels) (width m : Nat) :
    blocksAt (Body.settle width levels) m = blocksAt levels (min width m) := by
  rw [blocksAt, blocksAt, (Body.dedents_eq h.sorted width).2, List.countP_filter]
  refine List.countP_congr fun b _ => ?_
  simp only [Bool.and_eq_true, decide_eq_true_eq]
  omega

theorem Lexer.Nested.closedAt_deep (h : Nested levels) (hdeep : topWidth levels < width) :
    closedAt levels width = 0 := by
  refine List.countP_eq_zero.2 fun b hb => ?_
  have hle := h.le_topWidth hb
  simp only [decide_eq_true_eq]
  omega

theorem blocksAt_cons (width : Nat) (levels : List Level) (m : Nat) :
    blocksAt (⟨width, true⟩ :: levels) m = blocksAt levels m + if width ≤ m then 1 else 0 := by
  rw [blocksAt, blocks_cons]
  simp [List.countP_cons, blocksAt]

theorem Lexer.Nested.blocksAt_min (h : Nested levels) (hdeep : topWidth levels < width) (m : Nat) :
    blocksAt levels (min width m) = blocksAt levels m := by
  refine List.countP_congr fun b hb => ?_
  have hle := h.le_topWidth hb
  simp only [decide_eq_true_eq]
  omega

theorem blocksAt_row (r : Row) (levels : List Level) (m : Nat) :
    blocksAt (r.levels levels) m = blocksAt levels m := by
  rw [blocksAt, blocksAt, blocks_row]

end Levels

/-! Rows, each with its end. -/

def Row.isLoud (r : Row) : Bool :=
  !(signs r.lexemes).isEmpty

/-- Only an option makes the next line count, and it is a part of a statement. -/
def Row.Proper (r : Row) : Prop :=
  r.Written ∧ (r.starts = true → r.isLoud = true)

theorem ReadAs.proper {line : Text} {r : Row} (h : ReadAs line (some r)) : r.Proper := by
  refine ⟨h.written, fun hstarts => ?_⟩
  obtain ⟨-, -, m, -, hscan⟩ := h
  by_contra hquiet
  have hnil : signs r.lexemes = [] := by simpa [Row.isLoud] using hquiet
  have hflat := hscan.not_starts (by decide) fun x hx harrow => by
    have hsign := List.filterMap_eq_nil_iff.1 hnil x hx
    rw [harrow] at hsign
    cases hsign
  rw [hflat] at hstarts
  cases hstarts

theorem Row.Written.signs_eq {r : Row} (h : r.Written) :
    ∃ n, signs r.lexemes = List.replicate n .part ∧ (r.isLoud = true ↔ n ≠ 0) := by
  have hall : ∀ s ∈ signs r.lexemes, s = .part := by
    intro s hs
    obtain ⟨x, hx, hsign⟩ := List.mem_filterMap.1 hs
    exact eq_part_of_isWritten (h.2 x hx) hsign
  obtain ⟨n, hn⟩ : ∃ n, signs r.lexemes = List.replicate n .part :=
    ⟨_, List.eq_replicate_iff.2 ⟨rfl, hall⟩⟩
  refine ⟨n, hn, ?_⟩
  cases n <;> simp [Row.isLoud, hn, List.replicate_succ]

/-- The lexemes of some lines that all end with a line end. -/
abbrev layout (levels : List Level) (tracking : Bool) (rows : List (Option Row)) : List Lexeme :=
  weave levels tracking (rows ++ [none])

theorem derives_layout {rows : List (Option Row)} {ss : List Statement} {ds : List Declaration}
    (hrows : rows ≠ []) :
    Derives (layout [⟨0, false⟩] false rows) ss ds ↔ Derives (woven rows) ss ds :=
  derives_blanks hrows 1

section Rows

open Lexer

variable {levels levels' : List Level} {tracking : Bool} {width : Nat} {rows : List (Option Row)}
  {r : Row}

theorem layout_none (levels : List Level) (tracking : Bool) (rows : List (Option Row)) :
    layout levels tracking (none :: rows) = (.endOfLine, []) :: layout levels tracking rows := by
  simp [layout, weave, breakIf]

theorem layout_some (levels : List Level) (tracking : Bool) (r : Row) (rows : List (Option Row)) :
    layout levels tracking (some r :: rows) = (entry levels tracking r.width).1 ++
      (r.lexemes ++ (.endOfLine, []) ::
        layout (r.levels (entry levels tracking r.width).2) r.starts rows) := by
  simp [layout, weave, breakIf]

theorem layout_append (levels : List Level) (tracking : Bool) (rows below : List (Option Row)) :
    layout levels tracking (rows ++ below) = fore levels tracking rows ++
      layout (arrive levels tracking rows).1 (arrive levels tracking rows).2 below := by
  rw [layout, List.append_assoc, weave_append _ _ _ (by simp)]

theorem layout_opens (hopens : Opens levels tracking r.width) :
    layout levels tracking (some r :: rows) = (.indent, []) ::
      (r.lexemes ++ (.endOfLine, []) :: layout (r.levels (⟨r.width, true⟩ :: levels)) r.starts rows) := by
  rw [layout_some, entry, if_pos hopens]
  rfl

theorem layout_flat (h : Nested levels) (hflat : ¬ Opens levels tracking r.width) :
    layout levels tracking (some r :: rows) =
      List.replicate (closedAt levels r.width) (.dedent, []) ++
        (r.lexemes ++ (.endOfLine, []) :: layout (r.levels (settle r.width levels)) r.starts rows) := by
  rw [layout_some, entry, if_neg hflat, h.dedents_eq]

/-- The widths of lines with a part of a statement, each lowered to the least width above it. -/
def depths : List (Option Row) → List Nat
  | [] => []
  | none :: rows => depths rows
  | some r :: rows => (if r.isLoud then [r.width] else []) ++ (depths rows).map (min r.width)

theorem forall_depths_some {p : Nat → Prop} : (∀ m ∈ depths (some r :: rows), p m) ↔
    (r.isLoud = true → p r.width) ∧ ∀ m ∈ depths rows, p (min r.width m) := by
  cases h : r.isLoud <;> simp [depths, h]

end Rows

/-! Items in front of what is not written, and of what is written up to the end of a line. -/

section Lists

variable {fresh : Bool} {items : List Item} {ds : List Declaration} {xs : List Lexeme}

theorem Lists.of_lineEnd {t : Text} (h : Lists fresh items ds ((.endOfLine, t) :: xs)) :
    Lists false items ds xs := by
  cases h with
  | idle _ rest => exact rest
  | item _ first =>
    cases first with
    | line hparts first =>
      obtain ⟨x, rest, hxs, hx⟩ := first.starts hparts
      obtain ⟨rfl, -⟩ := List.cons.inj hxs
      cases hx

theorem Lists.of_indent {t : Text} (h : Lists fresh items ds ((.indent, t) :: xs)) :
    ∃ rest, items = .opens :: rest ∧ fresh = true ∧ Lists false rest ds xs := by
  cases h with
  | idle hx => cases hx
  | @item _ i rest _ _ _ hfresh first hrest =>
    by_cases hi : i = .opens
    · subst hi
      cases first with
      | opens => exact ⟨rest, rfl, hfresh rfl, hrest⟩
    · obtain ⟨x, _, hxs, hx⟩ := first.not_indent hi
      obtain ⟨rfl, -⟩ := List.cons.inj hxs
      exact absurd rfl hx

theorem Lists.stale (h : Lists fresh items ds xs) (hflat : Flat xs) : Lists false items ds xs := by
  cases h with
  | done => exact .done
  | idle hidle rest => exact .idle hidle rest
  | declaration first rest => exact .declaration first rest
  | item hfresh first rest =>
    refine .item (fun hopens => ?_) first rest
    subst hopens
    cases first
    obtain ⟨x, _, hxs, hx⟩ := hflat
    obtain ⟨rfl, -⟩ := List.cons.inj hxs
    exact absurd rfl hx

theorem Lists.of_dedent {t : Text} (h : Lists fresh items ds ((.dedent, t) :: xs)) :
    ∃ rest, items = .ending .dedent :: rest ∧ Lists false rest ds xs := by
  cases h with
  | idle hx => cases hx
  | @item _ i rest _ _ _ _ first hrest =>
    cases first with
    | line hparts first =>
      cases first with
      | stop => exact absurd rfl hparts
    | dedent => exact ⟨rest, rfl, hrest⟩

theorem Lists.of_dedents {n : Nat} (hflat : Flat xs)
    (h : Lists fresh items ds (List.replicate n (.dedent, []) ++ xs)) :
    ∃ rest, items = List.replicate n (.ending .dedent) ++ rest ∧ Lists false rest ds xs := by
  induction n generalizing fresh items with
  | zero => exact ⟨items, rfl, h.stale hflat⟩
  | succ n ih =>
    rw [List.replicate_succ, List.cons_append] at h
    obtain ⟨below, rfl, hbelow⟩ := h.of_dedent
    obtain ⟨rest, rfl, hrest⟩ := ih hbelow
    exact ⟨rest, by rw [List.replicate_succ, List.cons_append], hrest⟩

theorem Lists.dedents (h : Lists false items ds xs) (n : Nat) (fresh : Bool) :
    Lists fresh (List.replicate n (.ending .dedent) ++ items) ds (List.replicate n (.dedent, []) ++ xs) := by
  induction n generalizing fresh with
  | zero => exact h.refresh fresh
  | succ n ih => exact Item.Reads.dedent.lists (by simp) (ih false) fresh

theorem Lists.replace {front tail tail' : List Lexeme}
    (h : Lists fresh items ds (front ++ (.endOfLine, []) :: tail))
    (htail : ∀ {again items ds}, Lists again items ds tail → Lists again items ds tail') :
    Lists fresh items ds (front ++ (.endOfLine, []) :: tail') := by
  have hfront : SameFront tail tail' (front ++ (.endOfLine, []) :: tail) _ := ⟨front, rfl, rfl⟩
  obtain ⟨above, below, ds₁, ds₂, again, rfl, rfl, hbelow, hcut⟩ := h.cut (.inl hfront)
  exact hcut (htail hbelow)

/-- No item ends on a line that has no sign of one. -/
theorem Lists.cut_quiet {front tail : List Lexeme} (hsigns : signs front = [])
    (h : Lists fresh items ds (front ++ (.endOfLine, []) :: tail)) (tail' : List Lexeme) :
    ∃ ds₁ ds₂ again, ds = ds₁ ++ ds₂ ∧ Lists again items ds₂ tail ∧ ∀ {items' ds'},
      Lists again items' ds' tail' →
        Lists fresh items' (ds₁ ++ ds') (front ++ (.endOfLine, []) :: tail') := by
  have hfront : SameFront tail tail' (front ++ (.endOfLine, []) :: tail) _ := ⟨front, rfl, rfl⟩
  obtain ⟨above, below, ds₁, ds₂, again, rfl, rfl, hbelow, hcut⟩ := h.cut (.inl hfront)
  cases above with
  | nil => exact ⟨ds₁, ds₂, again, rfl, hbelow, hcut⟩
  | cons i above =>
    obtain ⟨_, _, _, _, -, hitem, -⟩ := h.uncons
    have hall := h.signs_eq
    rw [signs_append, hsigns, signs_cons, hbelow.signs_eq] at hall
    have hlength := congrArg List.length hall
    have hpos := List.length_pos_of_ne_nil hitem.signs_ne_nil
    simp only [TokenKind.sign?, Option.toList_none, List.nil_append, List.cons_append,
      List.flatMap_cons, List.flatMap_append, List.length_append] at hlength
    omega

end Lists

/-! The same lines from other levels on. -/

/-- Two sets of levels in front of the same line. Since the last part of a statement `i` blocks were
closed on the way to the one and `j` on the way to the other. -/
structure Abreast (i j : Nat) (levels levels' : List Level) (tracking : Bool) : Prop where
  nested : Lexer.Nested levels
  nested' : Lexer.Nested levels'
  count : i + (Lexer.blocks levels).length = j + (Lexer.blocks levels').length
  level : tracking = true → i = j ∧ Lexer.topWidth levels = Lexer.topWidth levels'

section Abreast

open Lexer

variable {i j : Nat} {levels levels' : List Level} {tracking : Bool} {width : Nat}
  {rows : List (Option Row)} {r : Row}

theorem Abreast.opens_iff (h : Abreast i j levels levels' tracking) :
    Opens levels tracking width ↔ Opens levels' tracking width := by
  unfold Opens
  refine and_congr_right fun htracking => ?_
  rw [(h.level htracking).2]

theorem Abreast.closedAt_eq_iff (h : Abreast i j levels levels' tracking) :
    i + closedAt levels width = j + closedAt levels' width ↔
      blocksAt levels width = blocksAt levels' width := by
  have hcount := h.count
  rw [← closedAt_add_blocksAt levels width, ← closedAt_add_blocksAt levels' width] at hcount
  omega

theorem Abreast.opened (h : Abreast i j levels levels' tracking)
    (hopens : Opens levels tracking r.width) :
    Abreast 0 0 (r.levels (⟨r.width, true⟩ :: levels)) (r.levels (⟨r.width, true⟩ :: levels'))
      r.starts := by
  have hnested : Nested (⟨r.width, true⟩ :: levels) := h.nested.push hopens.2
  have hnested' : Nested (⟨r.width, true⟩ :: levels') := h.nested'.push (h.opens_iff.1 hopens).2
  obtain ⟨hrow, htop⟩ := hnested.row (r := r) (Nat.le_refl _)
  obtain ⟨hrow', htop'⟩ := hnested'.row (r := r) (Nat.le_refl _)
  refine ⟨hrow, hrow', ?_, fun hstarts => ⟨rfl, (htop hstarts).trans (htop' hstarts).symm⟩⟩
  obtain ⟨rfl, -⟩ := h.level hopens.1
  simpa [blocks_cons] using h.count

theorem Abreast.settled (h : Abreast i j levels levels' tracking)
    (hstarts : r.starts = true → i + closedAt levels r.width = j + closedAt levels' r.width) :
    Abreast (i + closedAt levels r.width) (j + closedAt levels' r.width)
      (r.levels (settle r.width levels)) (r.levels (settle r.width levels')) r.starts := by
  obtain ⟨hrow, htop⟩ := (h.nested.settle r.width).row (r := r) (topWidth_settle _ _)
  obtain ⟨hrow', htop'⟩ := (h.nested'.settle r.width).row (r := r) (topWidth_settle _ _)
  refine ⟨hrow, hrow', ?_, fun hs => ⟨hstarts hs, (htop hs).trans (htop' hs).symm⟩⟩
  rw [blocks_row, blocks_row, h.nested.length_settle, h.nested'.length_settle, Nat.add_assoc,
    Nat.add_assoc, closedAt_add_blocksAt, closedAt_add_blocksAt]
  exact h.count

theorem Abreast.even {n : Nat} (h : Abreast n n levels levels' tracking) :
    Abreast 0 0 levels levels' tracking :=
  ⟨h.nested, h.nested', by simpa using h.count, fun htracking => ⟨rfl, (h.level htracking).2⟩⟩

/-! What the signs of the lines tell of the levels. -/

theorem closes_part_inj {m n : Nat} {xs ys : List Sign}
    (h : List.replicate m .closes ++ .part :: xs = List.replicate n .closes ++ .part :: ys) :
    m = n ∧ xs = ys := by
  induction m generalizing n with
  | zero => cases n <;> simp_all [List.replicate_succ]
  | succ m ih =>
    cases n with
    | zero => simp [List.replicate_succ] at h
    | succ n =>
      obtain ⟨rfl, rfl⟩ := ih (by simpa [List.replicate_succ] using h)
      exact ⟨rfl, rfl⟩

theorem Abreast.blocksAt_of_opens (h : Abreast i j levels levels' tracking)
    (hopens : Opens levels tracking width) : blocksAt levels width = blocksAt levels' width := by
  rw [← h.closedAt_eq_iff, h.nested.closedAt_deep hopens.2,
    h.nested'.closedAt_deep (h.opens_iff.1 hopens).2, (h.level hopens.1).1]

theorem Abreast.blocksAt_opened_iff (h : Abreast i j levels levels' tracking)
    (hopens : Opens levels tracking r.width) (m : Nat) :
    blocksAt (r.levels (⟨r.width, true⟩ :: levels)) m =
        blocksAt (r.levels (⟨r.width, true⟩ :: levels')) m ↔
      blocksAt levels (min r.width m) = blocksAt levels' (min r.width m) := by
  rw [blocksAt_row, blocksAt_row, blocksAt_cons, blocksAt_cons, h.nested.blocksAt_min hopens.2,
    h.nested'.blocksAt_min (h.opens_iff.1 hopens).2, Nat.add_right_cancel_iff]

theorem Abreast.blocksAt_settled_iff (h : Abreast i j levels levels' tracking) (r : Row) (m : Nat) :
    blocksAt (r.levels (settle r.width levels)) m = blocksAt (r.levels (settle r.width levels')) m ↔
      blocksAt levels (min r.width m) = blocksAt levels' (min r.width m) := by
  rw [blocksAt_row, blocksAt_row, h.nested.blocksAt_settle, h.nested'.blocksAt_settle]

/-- Where the signs are the same, the same blocks are open wherever a part of a statement is written. -/
theorem Abreast.blocksAt_eq (h : Abreast i j levels levels' tracking)
    (hrows : ∀ r, some r ∈ rows → r.Proper)
    (hsigns : List.replicate i .closes ++ signs (layout levels tracking rows) =
      List.replicate j .closes ++ signs (layout levels' tracking rows)) :
    ∀ m ∈ depths rows, blocksAt levels m = blocksAt levels' m := by
  induction rows generalizing i j levels levels' tracking with
  | nil => simp [depths]
  | cons row rows ih =>
    have hbelow : ∀ r, some r ∈ rows → r.Proper := fun r hr => hrows r (List.mem_cons_of_mem _ hr)
    cases row with
    | none =>
      rw [layout_none, layout_none] at hsigns
      exact ih h hbelow (by simpa [TokenKind.sign?] using hsigns)
    | some r =>
      obtain ⟨hwritten, hstarts⟩ := hrows r (List.mem_cons_self ..)
      obtain ⟨n, hn, hloud⟩ := hwritten.signs_eq
      rw [forall_depths_some]
      by_cases hopens : Opens levels tracking r.width
      · obtain ⟨rfl, -⟩ := h.level hopens.1
        rw [layout_opens hopens, layout_opens (h.opens_iff.1 hopens)] at hsigns
        have hrest := ih (h.opened hopens) hbelow (by simpa [hn, TokenKind.sign?] using hsigns)
        exact ⟨fun _ => h.blocksAt_of_opens hopens,
          fun m hm => (h.blocksAt_opened_iff hopens m).1 (hrest m hm)⟩
      · have hflat' : ¬ Opens levels' tracking r.width := fun h' => hopens (h.opens_iff.2 h')
        rw [layout_flat h.nested hopens, layout_flat h.nested' hflat'] at hsigns
        simp only [signs_append, signs_replicate_dedent, hn, signs_cons, ← List.append_assoc,
          List.replicate_append_replicate] at hsigns
        have hboth : (r.isLoud = true → i + closedAt levels r.width = j + closedAt levels' r.width) ∧
            ∀ m ∈ depths rows, blocksAt (r.levels (settle r.width levels)) m =
              blocksAt (r.levels (settle r.width levels')) m := by
          cases n with
          | zero =>
            have hquiet : ¬ r.isLoud = true := by simp [hloud]
            have habreast := h.settled (r := r) fun hs => absurd (hstarts hs) hquiet
            refine ⟨fun h => absurd h hquiet, ih habreast hbelow ?_⟩
            simpa [TokenKind.sign?] using hsigns
          | succ n =>
            -- The part of a statement shows how many blocks were closed in front of it.
            obtain ⟨heq, hrest⟩ := closes_part_inj (by
              simpa [List.replicate_succ, TokenKind.sign?] using hsigns)
            refine ⟨fun _ => heq, ih (h.settled fun _ => heq) hbelow ?_⟩
            rw [heq, List.append_cancel_left hrest]
        exact ⟨fun hr => h.closedAt_eq_iff.1 (hboth.1 hr),
          fun m hm => (h.blocksAt_settled_iff r m).1 (hboth.2 m hm)⟩

/-! Items of the lines. -/

theorem Lists.of_and {b fresh : Bool} {items : List Item} {ds : List Declaration} {xs : List Lexeme}
    (h : Lists (b && fresh) items ds xs) : Lists fresh items ds xs := by
  cases b with
  | false => exact h.refresh fresh
  | true => exact h

/-- The items of some lines are those of the same lines from other levels on, but for the blocks that the
one has closed already and the other has not. -/
theorem Abreast.lists (h : Abreast i j levels levels' tracking) (hrows : ∀ r, some r ∈ rows → r.Proper)
    (hdepths : ∀ m ∈ depths rows, blocksAt levels m = blocksAt levels' m) {fresh : Bool}
    {items : List Item} {ds : List Declaration}
    (hlists : Lists fresh items ds (layout levels tracking rows ++ [inputEnd])) :
    ∃ items', List.replicate i (.ending .dedent) ++ items = List.replicate j (.ending .dedent) ++ items' ∧
      Lists (tracking && fresh) items' ds (layout levels' tracking rows ++ [inputEnd]) := by
  induction rows generalizing i j levels levels' tracking fresh items ds with
  | nil =>
    have hend : Flat [inputEnd] := ⟨inputEnd, [], rfl, by simp [inputEnd]⟩
    obtain ⟨rest, rfl, hrest⟩ := hlists.of_dedents hend
    refine ⟨_, ?_, hrest.dedents (blocks levels').length _⟩
    rw [← List.append_assoc, ← List.append_assoc, List.replicate_append_replicate,
      List.replicate_append_replicate, h.count]
  | cons row rows ih =>
    have hbelow : ∀ r, some r ∈ rows → r.Proper := fun r hr => hrows r (List.mem_cons_of_mem _ hr)
    cases row with
    | none =>
      rw [layout_none] at hlists
      obtain ⟨items', heq, hrest⟩ := ih h hbelow hdepths hlists.of_lineEnd
      refine ⟨items', heq, ?_⟩
      rw [layout_none]
      exact .idle rfl hrest.of_and
    | some r =>
      obtain ⟨hwritten, hstarts⟩ := hrows r (List.mem_cons_self ..)
      obtain ⟨n, hn, hloud⟩ := hwritten.signs_eq
      obtain ⟨hown, hdeeper⟩ := forall_depths_some.1 hdepths
      by_cases hopens : Opens levels tracking r.width
      · obtain ⟨rfl, -⟩ := h.level hopens.1
        rw [layout_opens hopens, List.cons_append, List.append_assoc, List.cons_append] at hlists
        obtain ⟨rest, rfl, rfl, hopened⟩ := hlists.of_indent
        refine ⟨_, rfl, ?_⟩
        rw [layout_opens (h.opens_iff.1 hopens), hopens.1, List.cons_append, List.append_assoc,
          List.cons_append]
        refine .item (fun _ => rfl) .opens (hopened.replace fun htail => ?_)
        obtain ⟨items', rfl, htail'⟩ := ih (h.opened hopens) hbelow
          (fun m hm => (h.blocksAt_opened_iff hopens m).2 (hdeeper m hm)) htail
        exact htail'.of_and
      · have hflat' : ¬ Opens levels' tracking r.width := fun h' => hopens (h.opens_iff.2 h')
        have hdepths' := fun m hm => (h.blocksAt_settled_iff r m).2 (hdeeper m hm)
        rw [layout_flat h.nested hopens, List.append_assoc, List.append_assoc, List.cons_append]
          at hlists
        obtain ⟨rest, rfl, hrest⟩ := hlists.of_dedents (hwritten.flat _)
        obtain ⟨items', heq, hitems'⟩ : ∃ items',
            List.replicate (i + closedAt levels r.width) (.ending .dedent) ++ rest =
                List.replicate (j + closedAt levels' r.width) (.ending .dedent) ++ items' ∧
              Lists false items' ds (r.lexemes ++ (.endOfLine, []) ::
                (layout (r.levels (settle r.width levels')) r.starts rows ++ [inputEnd])) := by
          -- What the two have closed is the same only in front of a part of a statement. On another line no
          -- item ends, so the difference goes on to the lines below.
          by_cases hr : r.isLoud = true
          · have hsame := h.closedAt_eq_iff.2 (hown hr)
            refine ⟨rest, by rw [hsame], hrest.replace fun htail => ?_⟩
            have habreast := h.settled (r := r) fun _ => hsame
            rw [hsame] at habreast
            obtain ⟨items', rfl, htail'⟩ := ih habreast.even hbelow hdepths' htail
            exact htail'.of_and
          · have hquiet : signs r.lexemes = [] := by
              simpa [hn] using mt hloud.2 hr
            obtain ⟨ds₁, ds₂, again, rfl, htail, hcut⟩ := hrest.cut_quiet hquiet
              (layout (r.levels (settle r.width levels')) r.starts rows ++ [inputEnd])
            obtain ⟨items', heq, htail'⟩ := ih (h.settled fun hs => absurd (hstarts hs) hr) hbelow
              hdepths' htail
            exact ⟨items', heq, hcut htail'.of_and⟩
        refine ⟨List.replicate (closedAt levels' r.width) (.ending .dedent) ++ items', ?_, ?_⟩
        · rw [← List.append_assoc, ← List.append_assoc, List.replicate_append_replicate,
            List.replicate_append_replicate, heq]
        · rw [layout_flat h.nested' hflat', List.append_assoc, List.append_assoc, List.cons_append]
          exact hitems'.dedents _ _

end Abreast

/-! A line with only a comment in front of other lines. -/

def nextWidth : List (Option Row) → Option Nat
  | [] => none
  | none :: rows => nextWidth rows
  | some r :: _ => some r.width

def commentRow (width : Nat) (t : Text) : Row :=
  ⟨width, [(.comment, t)], false⟩

/-- Where a comment of some width is ignored. If it opens a block, the next line would open this block,
and every part of a statement below is within both or within neither. Otherwise it does not take a block
from the next line, nor close a block that a part of a statement below is within. -/
def Fits (levels : List Level) (tracking : Bool) (width : Nat) (rows : List (Option Row)) : Prop :=
  if Opens levels tracking width then
    ∃ next ∈ nextWidth rows, Opens levels tracking next ∧ ∀ m ∈ depths rows, next ≤ m ↔ width ≤ m
  else
    (∀ next ∈ nextWidth rows, ¬ Opens levels tracking next) ∧
      ∀ m ∈ depths rows, ∀ b ∈ Lexer.blocks levels, width < b → m < b

section Comment

open Lexer

variable {levels : List Level} {tracking fresh : Bool} {width next : Nat} {rows : List (Option Row)}
  {items : List Item} {ds : List Declaration}

theorem Lexer.Nested.blocksAt_settle_iff (h : Nested levels) (width m : Nat) :
    blocksAt levels m = blocksAt (Body.settle width levels) m ↔
      ∀ b ∈ blocks levels, width < b → m < b := by
  rw [h.blocksAt_settle, blocksAt, blocksAt]
  generalize blocks levels = bs
  induction bs with
  | nil => simp
  | cons b bs ih =>
    have hle : (bs.countP fun b => decide (b ≤ min width m)) ≤ bs.countP fun b => decide (b ≤ m) :=
      List.countP_mono_left fun b _ hb => by simp at hb ⊢; omega
    rw [List.forall_mem_cons, ← ih, List.countP_cons, List.countP_cons]
    simp only [decide_eq_true_eq]
    split <;> split <;> omega

theorem blocksAt_cons_iff (width next m : Nat) (levels : List Level) :
    blocksAt (⟨next, true⟩ :: levels) m = blocksAt (⟨width, true⟩ :: levels) m ↔
      (next ≤ m ↔ width ≤ m) := by
  rw [blocksAt_cons, blocksAt_cons]
  split <;> split <;> omega

theorem layout_comment (levels : List Level) (tracking : Bool) (width : Nat) (t : Text)
    (rows : List (Option Row)) : layout levels tracking (some (commentRow width t) :: rows) =
      (entry levels tracking width).1 ++ (.comment, t) :: (.endOfLine, []) ::
        layout (entry levels tracking width).2 false rows := by
  simp [layout_some, commentRow, Row.levels]

/-- Without a line that opens a block, nothing shows that one could. -/
theorem layout_untracked (hnext : ∀ next ∈ nextWidth rows, ¬ Opens levels tracking next) :
    layout levels tracking rows = layout levels false rows := by
  induction rows with
  | nil => rfl
  | cons row rows ih =>
    cases row with
    | none => rw [layout_none, layout_none, ih hnext]
    | some r =>
      have hflat : ¬ Opens levels tracking r.width := hnext _ rfl
      have hflat' : ¬ Opens levels false r.width := fun h => absurd h.1 (by simp)
      rw [layout_some, layout_some, entry, entry, if_neg hflat, if_neg hflat']

theorem layout_within (levels : List Level) (r : Row) (rows : List (Option Row)) :
    layout (⟨r.width, true⟩ :: levels) false (some r :: rows) =
      r.lexemes ++ (.endOfLine, []) :: layout (r.levels (⟨r.width, true⟩ :: levels)) r.starts rows := by
  simp [layout_some, entry, Opens, dedents, settle]

theorem signs_opens (hnext : nextWidth rows = some next) (hopens : Opens levels tracking next) :
    signs (layout levels tracking rows) =
      .opens :: signs (layout (⟨next, true⟩ :: levels) false rows) := by
  induction rows with
  | nil => cases hnext
  | cons row rows ih =>
    cases row with
    | none =>
      rw [layout_none, layout_none]
      simpa [TokenKind.sign?] using ih hnext
    | some r =>
      obtain rfl : r.width = next := Option.some.inj hnext
      rw [layout_opens hopens, layout_within]
      simp [TokenKind.sign?]

theorem Lists.of_opening (hnext : nextWidth rows = some next) (hopens : Opens levels tracking next)
    (h : Lists fresh items ds (layout levels tracking rows ++ [inputEnd])) :
    ∃ rest, items = .opens :: rest ∧ fresh = true ∧
      Lists false rest ds (layout (⟨next, true⟩ :: levels) false rows ++ [inputEnd]) := by
  induction rows generalizing fresh with
  | nil => cases hnext
  | cons row rows ih =>
    cases row with
    | none =>
      rw [layout_none] at h
      obtain ⟨_, -, hfresh, -⟩ := ih hnext h.of_lineEnd
      cases hfresh
    | some r =>
      obtain rfl : r.width = next := Option.some.inj hnext
      rw [layout_opens hopens] at h
      rw [layout_within]
      exact h.of_indent

theorem not_signs_opens (h : Nested levels) (hrows : ∀ r, some r ∈ rows → r.Proper) (n : Nat)
    (back : List Sign) :
    List.replicate n .closes ++ signs (layout levels false rows) ≠ .opens :: back := by
  cases n with
  | succ n => simp [List.replicate_succ]
  | zero =>
    induction rows generalizing levels with
    | nil =>
      have hlayout : layout levels false [] = endings levels := rfl
      rw [hlayout, endings, signs_replicate_dedent]
      cases (blocks levels).length <;> simp [List.replicate_succ]
    | cons row rows ih =>
      have hbelow : ∀ r, some r ∈ rows → r.Proper := fun r hr => hrows r (List.mem_cons_of_mem _ hr)
      cases row with
      | none =>
        rw [layout_none]
        simpa [TokenKind.sign?] using ih h hbelow
      | some r =>
        obtain ⟨hwritten, hstarts⟩ := hrows r (List.mem_cons_self ..)
        obtain ⟨k, hk, hloud⟩ := hwritten.signs_eq
        rw [layout_flat h (by simp [Opens])]
        simp only [signs_append, signs_replicate_dedent, hk]
        cases closedAt levels r.width with
        | succ c => simp [List.replicate_succ]
        | zero =>
          cases k with
          | succ k => simp [List.replicate_succ]
          | zero =>
            have hquiet : r.starts = false := by simpa [hloud] using mt hstarts
            have hnested := ((h.settle r.width).row (r := r) (topWidth_settle _ _)).1
            rw [hquiet]
            simpa [TokenKind.sign?] using ih hnested hbelow

theorem abreast_opened (h : Nested levels) (hnext : topWidth levels < next)
    (hwidth : topWidth levels < width) :
    Abreast 0 0 (⟨next, true⟩ :: levels) (⟨width, true⟩ :: levels) false :=
  ⟨h.push hnext, h.push hwidth, by simp [blocks_cons], by simp⟩

theorem abreast_settled (h : Nested levels) (width : Nat) :
    Abreast 0 (closedAt levels width) levels (settle width levels) false :=
  ⟨h, h.settle width, by rw [Nat.zero_add, h.length_settle, closedAt_add_blocksAt], by simp⟩

/-- Where the comment changes no sign, it fits. -/
theorem fits_of_signs (h : Nested levels) (hrows : ∀ r, some r ∈ rows → r.Proper) (t : Text)
    (hsigns : signs (layout levels tracking rows) =
      signs (layout levels tracking (some (commentRow width t) :: rows))) :
    Fits levels tracking width rows := by
  rw [layout_comment] at hsigns
  by_cases hopens : Opens levels tracking width
  · rw [Fits, if_pos hopens]
    rw [entry, if_pos hopens] at hsigns
    by_cases hnext : ∃ next ∈ nextWidth rows, Opens levels tracking next
    · obtain ⟨next, hnext, hopens'⟩ := hnext
      rw [signs_opens hnext hopens'] at hsigns
      refine ⟨next, hnext, hopens', fun m hm => (blocksAt_cons_iff width next m levels).1 ?_⟩
      exact (abreast_opened h hopens'.2 hopens.2).blocksAt_eq hrows
        (by simpa [TokenKind.sign?] using hsigns) m hm
    · rw [layout_untracked (by simpa using hnext)] at hsigns
      exact absurd hsigns (not_signs_opens h hrows 0 _)
  · rw [Fits, if_neg hopens]
    rw [entry, if_neg hopens, h.dedents_eq] at hsigns
    have hsigns' : signs (layout levels tracking rows) = List.replicate (closedAt levels width) .closes ++
        signs (layout (settle width levels) false rows) := by
      simpa [TokenKind.sign?] using hsigns
    have hnext : ∀ next ∈ nextWidth rows, ¬ Opens levels tracking next := by
      intro next hnext hopens'
      rw [signs_opens hnext hopens'] at hsigns'
      exact not_signs_opens (h.settle width) hrows _ _ hsigns'.symm
    rw [layout_untracked hnext] at hsigns'
    exact ⟨hnext, fun m hm => (h.blocksAt_settle_iff width m).1
      ((abreast_settled h width).blocksAt_eq hrows hsigns' m hm)⟩

theorem Lists.comment (h : Lists fresh items ds (layout levels tracking rows ++ [inputEnd]))
    (hnested : Nested levels) (hrows : ∀ r, some r ∈ rows → r.Proper)
    (hfits : Fits levels tracking width rows) (t : Text) :
    Lists fresh items ds (layout levels tracking (some (commentRow width t) :: rows) ++ [inputEnd]) := by
  rw [layout_comment]
  by_cases hopens : Opens levels tracking width
  · rw [Fits, if_pos hopens] at hfits
    obtain ⟨next, hnext, hopens', hdepths⟩ := hfits
    obtain ⟨rest, rfl, rfl, hrest⟩ := h.of_opening hnext hopens'
    obtain ⟨items', rfl, hitems'⟩ := (abreast_opened hnested hopens'.2 hopens.2).lists hrows
      (fun m hm => (blocksAt_cons_iff ..).2 (hdepths m hm)) hrest
    rw [entry, if_pos hopens]
    exact .item (fun _ => rfl) .opens (.idle rfl (.idle rfl hitems'))
  · rw [Fits, if_neg hopens] at hfits
    rw [layout_untracked hfits.1] at h
    obtain ⟨items', rfl, hitems'⟩ := (abreast_settled hnested width).lists hrows
      (fun m hm => (hnested.blocksAt_settle_iff width m).2 (hfits.2 m hm)) h
    rw [entry, if_neg hopens, hnested.dedents_eq, List.append_assoc]
    exact Lists.dedents (.idle rfl (.idle rfl hitems')) _ _

end Comment

end Parley.Body
