import Parley.Proofs.Rows
import Parley.Proofs.Transfer
set_option autoImplicit false

/-!
Blank lines and lines with a comment only, between the lines of a body.

The grammar passes over line ends and comments where a statement may start. It does not look for the
block of an option behind more than one line end.
-/

namespace Parley.Body

/-! Lexemes that are passed over. -/

abbrev AllIdle (xs : List Lexeme) : Prop :=
  ∀ x ∈ xs, isIdle x.1 = true

/-- Something comes, and it is not the start of a block. -/
def Flat (xs : List Lexeme) : Prop :=
  ∃ x rest, xs = x :: rest ∧ x.1 ≠ .indent

def TokenKind.isBoundary (kind : TokenKind) : Bool :=
  kind = .endOfLine || kind = .indent || kind = .dedent

/-- Other line ends and comments stand where statements may start, except that nothing comes between an
option and its block. Before blocks or the input end, a line may end or not. -/
inductive Pads : List Lexeme → List Lexeme → Prop where
  | nil : Pads [] []
  | keep {x : Lexeme} {xs ys : List Lexeme} (rest : Pads xs ys) : Pads (x :: xs) (x :: ys)
  | pad {x : Lexeme} {f g xs ys : List Lexeme} (hx : x.1.isBoundary = true) (hf : AllIdle f)
      (hg : AllIdle g) (hxs : Flat xs) (rest : Pads xs ys) : Pads (x :: (f ++ xs)) (x :: (g ++ ys))
  | close {x : Lexeme} {t : Text} {f xs ys : List Lexeme} (hx : x.1 = .dedent ∨ x.1 = .endOfInput)
      (hf : AllIdle f) (rest : Pads (x :: xs) (x :: ys)) :
      Pads (x :: xs) ((.endOfLine, t) :: (f ++ x :: ys))
  | join {x : Lexeme} {t : Text} {f xs ys : List Lexeme} (hx : x.1 = .dedent ∨ x.1 = .endOfInput)
      (hf : AllIdle f) (rest : Pads (x :: xs) (x :: ys)) :
      Pads ((.endOfLine, t) :: (f ++ x :: xs)) (x :: ys)

/-- The same where a statement may start. -/
inductive Loose : List Lexeme → List Lexeme → Prop where
  | tight {xs ys : List Lexeme} (h : Pads xs ys) : Loose xs ys
  | pad {f g xs ys : List Lexeme} (hf : AllIdle f) (hg : AllIdle g) (hxs : Flat xs)
      (h : Pads xs ys) : Loose (f ++ xs) (g ++ ys)

@[simp] theorem pads_refl (xs : List Lexeme) : Pads xs xs := by
  induction xs with
  | nil => exact .nil
  | cons x xs ih => exact .keep ih

theorem Pads.append {xs ys : List Lexeme} (h : Pads xs ys) (front : List Lexeme) :
    Pads (front ++ xs) (front ++ ys) := by
  induction front with
  | nil => exact h
  | cons x front ih => exact .keep ih

theorem Pads.loose {x : Lexeme} {front xs ys : List Lexeme} (h : Pads (x :: xs) ys)
    (hx : x.1 ≠ .indent) (hfront : AllIdle front) : Loose (x :: xs) (front ++ ys) :=
  .pad (f := []) (by simp) hfront ⟨x, xs, rfl, hx⟩ h

theorem isBoundary_of_isWritten {kind : TokenKind} (h : kind.isWritten = true) :
    kind.isBoundary = false := by
  cases kind <;> first | rfl | cases h

theorem carries_pads : Carries Pads where
  written := by
    intro x xs zs h hx
    cases h with
    | keep rest => exact ⟨_, rfl, rest⟩
    | pad hboundary =>
      rw [isBoundary_of_isWritten hx] at hboundary
      cases hboundary
    | close hclose =>
      rcases hclose with hclose | hclose
      all_goals
        rw [hclose] at hx
        cases hx
    | join => cases hx
  unwritten := by
    intro x xs zs h hx
    cases h with
    | keep => exact ⟨_, _, rfl, hx⟩
    | pad => exact ⟨_, _, rfl, hx⟩
    | close => exact ⟨_, _, rfl, rfl⟩
    | join hclose =>
      refine ⟨_, _, rfl, ?_⟩
      rcases hclose with hclose | hclose <;> rw [hclose] <;> rfl

theorem carriesOver_pads : CarriesOver Pads Loose := by
  intro hashtags xs ys zs h hxs
  induction h generalizing zs with
  | hashtag _ ih =>
    obtain ⟨us, rfl, hus⟩ := carries_pads.written hxs rfl
    obtain ⟨ws, htrail, hws⟩ := ih hus
    exact ⟨ws, .hashtag htrail, hws⟩
  | comment _ ih =>
    obtain ⟨us, rfl, hus⟩ := carries_pads.written hxs rfl
    obtain ⟨ws, htrail, hws⟩ := ih hus
    exact ⟨ws, .comment htrail, hws⟩
  | lineEnd =>
    cases hxs with
    | keep rest => exact ⟨_, .lineEnd, .tight rest⟩
    | pad _ hfront hfront' hxs rest => exact ⟨_, .lineEnd, .pad hfront hfront' hxs rest⟩
    | close hclose => rcases hclose with hclose | hclose <;> cases hclose
    | join hclose hf rest =>
      refine ⟨_, .stop ?_ ?_ ?_, .pad (g := []) hf (by simp) ⟨_, _, rfl, ?_⟩ rest⟩
      all_goals rcases hclose with hclose | hclose <;> simp [hclose]
  | @stop x xs hhashtag hcomment hbreak =>
    cases hxs with
    | keep rest => exact ⟨_, .stop hhashtag hcomment hbreak, .tight (.keep rest)⟩
    | pad hx hfront hfront' hxs rest =>
      exact ⟨_, .stop hhashtag hcomment hbreak, .tight (.pad hx hfront hfront' hxs rest)⟩
    | @close _ _ front _ _ hclose hfront rest =>
      have hflat : x.1 ≠ .indent := by
        rcases hclose with hclose | hclose <;> simp [hclose]
      exact ⟨_, .lineEnd, rest.loose hflat hfront⟩
    | join => exact absurd rfl hbreak

/-! Blocks. -/

variable {ds : List Declaration} {ss : List Statement} {e : BlockEnd} {x : Lexeme}
  {xs ys zs front : List Lexeme}

theorem Passage.Reads.behind_idle (h : (Passage.block ss e).Reads ds xs ys) (hfront : AllIdle front) :
    (Passage.block ss e).Reads ds (front ++ xs) ys := by
  induction front with
  | nil => exact h
  | cons x front ih =>
    exact .idle (hfront x (List.mem_cons_self ..))
      (ih fun y hy => hfront y (List.mem_cons_of_mem _ hy))

theorem Pads.of_keep (h : Pads (x :: xs) (x :: ys)) (hx : x.1 ≠ .endOfLine) : Loose xs ys := by
  generalize hall : x :: ys = all at h
  cases h with
  | keep rest =>
    obtain ⟨-, rfl⟩ := List.cons.inj hall
    exact .tight rest
  | pad _ hf hg hflat rest =>
    obtain ⟨-, rfl⟩ := List.cons.inj hall
    exact .pad hf hg hflat rest
  | close =>
    obtain ⟨rfl, -⟩ := List.cons.inj hall
    exact absurd rfl hx
  | join => exact absurd rfl hx

/-- The next lexeme comes next in both, but behind what is passed over; or it is passed over. -/
theorem Pads.uncons (h : Pads (x :: xs) zs) :
    (∃ front rest, zs = front ++ x :: rest ∧ AllIdle front ∧ Pads (x :: xs) (x :: rest) ∧
      Loose xs rest ∧ (x.1 = .indent → front = [])) ∨
    isIdle x.1 = true ∧ ∃ f tail, xs = f ++ tail ∧ AllIdle f ∧ Flat tail ∧ Pads tail zs := by
  cases h with
  | keep rest => exact .inl ⟨[], _, rfl, by simp, .keep rest, .tight rest, fun _ => rfl⟩
  | pad hx hf hg hflat rest =>
    exact .inl ⟨[], _, rfl, by simp, .pad hx hf hg hflat rest, .pad hf hg hflat rest, fun _ => rfl⟩
  | @close _ t f _ ys hx hf rest =>
    have hkinds : x.1 ≠ .endOfLine ∧ x.1 ≠ .indent := by
      rcases hx with hx | hx <;> simp [hx]
    refine .inl ⟨(.endOfLine, t) :: f, ys, rfl, ?_, rest, rest.of_keep hkinds.1,
      fun hindent => absurd hindent hkinds.2⟩
    intro y hy
    rcases List.mem_cons.1 hy with rfl | hy
    · rfl
    · exact hf y hy
  | @join x _ f xs ys hx hf rest =>
    refine .inr ⟨rfl, f, x :: xs, rfl, hf, ⟨x, xs, rfl, ?_⟩, rest⟩
    rcases hx with hx | hx <;> simp [hx]

theorem Loose.uncons (h : Loose (x :: xs) zs) :
    (∃ front rest, zs = front ++ x :: rest ∧ AllIdle front ∧ Pads (x :: xs) (x :: rest) ∧
      Loose xs rest ∧ (x.1 = .indent → front = [])) ∨ isIdle x.1 = true ∧ Loose xs zs := by
  generalize hall : x :: xs = all at h
  cases h with
  | tight h =>
    subst hall
    rcases h.uncons with h | ⟨hx, f, tail, rfl, hf, hflat, h⟩
    · exact .inl h
    · exact .inr ⟨hx, .pad (g := []) hf (by simp) hflat h⟩
  | @pad f g all ys hf hg hflat h =>
    cases f with
    | nil =>
      obtain ⟨y, tail, rfl, hy⟩ := hflat
      obtain ⟨rfl, rfl⟩ := List.cons.inj hall
      rcases h.uncons with ⟨front, rest, rfl, hfront, hpads, hloose, -⟩ | ⟨hx, f, tail, rfl, hf, hflat, h⟩
      · refine .inl ⟨g ++ front, rest, by simp, ?_, hpads, hloose, fun hindent => absurd hindent hy⟩
        intro y hy
        rcases List.mem_append.1 hy with hy | hy
        · exact hg y hy
        · exact hfront y hy
      · exact .inr ⟨hx, .pad hf hg hflat h⟩
    | cons y f =>
      obtain ⟨rfl, rfl⟩ := List.cons.inj hall
      exact .inr ⟨hf x (List.mem_cons_self ..),
        .pad (fun y hy => hf y (List.mem_cons_of_mem _ hy)) hg hflat h⟩

theorem Loose.of_head (h : Loose (x :: xs) zs) (hx : isIdle x.1 = false) :
    ∃ front rest, zs = front ++ x :: rest ∧ AllIdle front ∧ Pads (x :: xs) (x :: rest) ∧
      Loose xs rest ∧ (x.1 = .indent → front = []) := by
  rcases h.uncons with h | ⟨hidle, -⟩
  · exact h
  · rw [hx] at hidle
    cases hidle

theorem Pads.flat (h : Pads (x :: xs) zs) (hx : x.1 ≠ .indent) : Flat zs := by
  cases h with
  | keep => exact ⟨_, _, rfl, hx⟩
  | pad => exact ⟨_, _, rfl, hx⟩
  | close => exact ⟨_, _, rfl, by simp⟩
  | join hclose =>
    refine ⟨_, _, rfl, ?_⟩
    rcases hclose with hclose | hclose <;> simp [hclose]

theorem Loose.flat (h : Loose (x :: xs) zs) (hx : x.1 ≠ .indent) : Flat zs := by
  generalize hall : x :: xs = all at h
  cases h with
  | tight h =>
    subst hall
    exact h.flat hx
  | @pad f g all ys hf hg hflat h =>
    cases g with
    | nil =>
      obtain ⟨y, rest, rfl, hy⟩ := hflat
      exact h.flat hy
    | cons y g =>
      refine ⟨y, _, rfl, ?_⟩
      have hidle := hg y (List.mem_cons_self ..)
      intro hindent
      rw [hindent] at hidle
      cases hidle

def Passage.Padded : Passage → List Lexeme → List Lexeme → Prop
  | .block .. | .arms .. => Loose
  | .option _ | .command _ => Pads

theorem ReadsParts.starts {parts : List Part} (h : ReadsParts parts xs ys) (hparts : parts ≠ []) :
    ∃ x rest, xs = x :: rest ∧ isIdle x.1 = false := by
  cases h with
  | stop => exact absurd rfl hparts
  | _ => exact ⟨_, _, rfl, rfl⟩

theorem Passage.Reads.padded {p : Passage} (h : p.Reads ds xs ys) (hxs : p.Padded xs zs) :
    ∃ ws, p.Reads ds zs ws ∧ Loose ys ws := by
  induction h generalizing zs with
  | idle hx _ ih =>
    rcases Loose.uncons hxs with ⟨front, rest, rfl, hfront, -, hloose, -⟩ | ⟨-, hloose⟩
    · obtain ⟨ws, hrest, hws⟩ := ih hloose
      exact ⟨ws, (Passage.Reads.idle hx hrest).behind_idle hfront, hws⟩
    · exact ih hloose
  | inputEnd =>
    obtain ⟨front, rest, rfl, hfront, hpads, -⟩ := Loose.of_head hxs rfl
    exact ⟨_, Passage.Reads.inputEnd.behind_idle hfront, .tight hpads⟩
  | dedent =>
    obtain ⟨front, rest, rfl, hfront, -, hloose, -⟩ := Loose.of_head hxs rfl
    exact ⟨_, Passage.Reads.dedent.behind_idle hfront, hloose⟩
  | @option o ss e ds ds' xs ys zs first _ ihfirst ihrest =>
    obtain ⟨t, tail, rfl⟩ : ∃ t tail, xs = (.arrow, t) :: tail := by
      cases first <;> exact ⟨_, _, rfl⟩
    obtain ⟨front, rest, rfl, hfront, hpads, -⟩ := Loose.of_head hxs rfl
    obtain ⟨us, hoption, hus⟩ := ihfirst hpads
    obtain ⟨ws, hrest, hws⟩ := ihrest hus
    exact ⟨ws, (Passage.Reads.option hoption hrest).behind_idle hfront, hws⟩
  | line hparts first trail _ ih =>
    obtain ⟨x, tail, rfl, hx⟩ := first.starts hparts
    obtain ⟨front, rest, rfl, hfront, hpads, -⟩ := Loose.of_head hxs hx
    obtain ⟨us, hfirst, hus⟩ := first.carry carries_pads hpads
    obtain ⟨vs, htrail, hvs⟩ := carriesOver_pads trail hus
    obtain ⟨ws, hrest, hws⟩ := ih hvs
    exact ⟨ws, (Passage.Reads.line hparts hfirst htrail hrest).behind_idle hfront, hws⟩
  | statement _ _ ihfirst ihrest =>
    obtain ⟨front, rest, rfl, hfront, hpads, -⟩ := Loose.of_head hxs rfl
    obtain ⟨us, hus, hpads⟩ := carries_pads.written hpads rfl
    obtain ⟨-, rfl⟩ := List.cons.inj hus
    obtain ⟨vs, hfirst, hvs⟩ := ihfirst hpads
    obtain ⟨ws, hrest, hws⟩ := ihrest hvs
    exact ⟨ws, (Passage.Reads.statement hfirst hrest).behind_idle hfront, hws⟩
  | declaration _ _ ihfirst ihrest =>
    obtain ⟨front, rest, rfl, hfront, hpads, -⟩ := Loose.of_head hxs rfl
    obtain ⟨us, hus, hpads⟩ := carries_pads.written hpads rfl
    obtain ⟨-, rfl⟩ := List.cons.inj hus
    obtain ⟨vs, hfirst, hvs⟩ := ihfirst hpads
    obtain ⟨ws, hrest, hws⟩ := ihrest hvs
    exact ⟨ws, (Passage.Reads.declaration hfirst hrest).behind_idle hfront, hws⟩
  | ending _ ih =>
    obtain ⟨front, rest, rfl, hfront, hpads, -⟩ := Loose.of_head hxs rfl
    obtain ⟨us, hus, hpads⟩ := carries_pads.written hpads rfl
    obtain ⟨-, rfl⟩ := List.cons.inj hus
    obtain ⟨ws, honly, hws⟩ := ih hpads
    exact ⟨ws, (Passage.Reads.ending honly).behind_idle hfront, hws⟩
  | leaf hparts label hguard trail hx =>
    obtain ⟨us, rfl, hus⟩ := carries_pads.written hxs rfl
    obtain ⟨vs, hlabel, hvs⟩ := label.carry carries_pads hus
    obtain ⟨ws, hguard, hws⟩ := hguard.carry carries_pads hvs
    obtain ⟨rest, htrail, hrest⟩ := carriesOver_pads trail hws
    obtain ⟨y, tail, rfl, hy⟩ := hrest.flat hx
    exact ⟨_, .leaf hparts hlabel hguard htrail hy, hrest⟩
  | nested hparts label hguard trail _ ih =>
    obtain ⟨us, rfl, hus⟩ := carries_pads.written hxs rfl
    obtain ⟨vs, hlabel, hvs⟩ := label.carry carries_pads hus
    obtain ⟨ws, hguard, hws⟩ := hguard.carry carries_pads hvs
    obtain ⟨rest, htrail, hrest⟩ := carriesOver_pads trail hws
    -- Nothing was put between the option and its block.
    obtain ⟨front, tail, rfl, -, -, hloose, hnone⟩ := hrest.of_head rfl
    obtain rfl := hnone rfl
    obtain ⟨last, hbody, hlast⟩ := ih hloose
    exact ⟨last, .nested hparts hlabel hguard htrail hbody, hlast⟩
  | plain h =>
    obtain ⟨ws, hplain, hws⟩ := h.carry carries_pads carriesOver_pads hxs
    exact ⟨ws, .plain hplain, hws⟩
  | branch test close _ ih =>
    obtain ⟨us, rfl, hus⟩ := carries_pads.written hxs rfl
    obtain ⟨vs, htest, hvs⟩ := test.carry carries_pads hus
    obtain ⟨ws, hclose, hws⟩ := close.carry carries_pads carriesOver_pads hvs
    obtain ⟨rest, hrest, hlast⟩ := ih hws
    exact ⟨rest, .branch htest hclose hrest, hlast⟩
  | elseif test close =>
    obtain ⟨us, rfl, hus⟩ := carries_pads.written hxs rfl
    obtain ⟨vs, htest, hvs⟩ := test.carry carries_pads hus
    obtain ⟨ws, hclose, hws⟩ := close.carry carries_pads carriesOver_pads hvs
    exact ⟨ws, .elseif htest hclose, hws⟩
  | otherwise close =>
    obtain ⟨us, rfl, hus⟩ := carries_pads.written hxs rfl
    obtain ⟨ws, hclose, hws⟩ := close.carry carries_pads carriesOver_pads hus
    exact ⟨ws, .otherwise hclose, hws⟩
  | endif close =>
    obtain ⟨us, rfl, hus⟩ := carries_pads.written hxs rfl
    obtain ⟨ws, hclose, hws⟩ := close.carry carries_pads carriesOver_pads hus
    exact ⟨ws, .endif hclose, hws⟩
  | lastArm _ ih =>
    obtain ⟨ws, hbody, hws⟩ := ih hxs
    exact ⟨ws, .lastArm hbody, hws⟩
  | nextArm _ _ ihbody ihrest =>
    obtain ⟨us, hbody, hus⟩ := ihbody hxs
    obtain ⟨ws, hrest, hws⟩ := ihrest hus
    exact ⟨ws, .nextArm hbody hrest, hws⟩
  | elseArm _ _ ihbody ihrest =>
    obtain ⟨us, hbody, hus⟩ := ihbody hxs
    obtain ⟨ws, hrest, hws⟩ := ihrest hus
    exact ⟨ws, .elseArm hbody hrest, hws⟩

theorem Pads.of_inputEnd (h : Pads [inputEnd] (inputEnd :: ys)) : ys = [] := by
  generalize hall : [inputEnd] = all at h
  generalize hall' : inputEnd :: ys = all' at h
  cases h with
  | nil => cases hall
  | keep rest =>
    obtain ⟨-, rfl⟩ := List.cons.inj hall
    obtain ⟨-, rfl⟩ := List.cons.inj hall'
    cases rest
    rfl
  | pad hx =>
    obtain ⟨rfl, -⟩ := List.cons.inj hall
    cases hx
  | close =>
    obtain ⟨hend, -⟩ := List.cons.inj hall'
    cases hend
  | join =>
    obtain ⟨hend, -⟩ := List.cons.inj hall
    cases hend

theorem Row.Written.flat {r : Row} (h : r.Written) (rest : List Lexeme) : Flat (r.lexemes ++ rest) := by
  obtain ⟨hne, hwritten⟩ := h
  cases hlexemes : r.lexemes with
  | nil => exact absurd hlexemes hne
  | cons x xs =>
    refine ⟨x, xs ++ rest, rfl, fun hindent => ?_⟩
    have hx := hwritten x (by simp [hlexemes])
    rw [hindent] at hx
    cases hx

theorem derives_of_loose (h : Derives xs ss ds)
    (hloose : Loose (xs ++ [inputEnd]) (ys ++ [inputEnd])) : Derives ys ss ds := by
  obtain ⟨ws, hreads, hws⟩ := Passage.Reads.padded h hloose
  obtain ⟨t, tail, rfl⟩ := hreads.inputEnd_of_block
  have htail : (.endOfInput, t) :: tail = [inputEnd] := by
    obtain ⟨front, rest, heq, hfront, hpads, -⟩ := hws.of_head rfl
    cases front with
    | nil =>
      obtain ⟨hend, rfl⟩ := List.cons.inj heq
      rw [hend, hpads.of_inputEnd]
    | cons y front =>
      obtain ⟨rfl, -⟩ := List.cons.inj heq
      have hidle := hfront _ (List.mem_cons_self ..)
      cases hidle
  rw [htail] at hreads
  exact hreads

/-! Blank lines at the end of a body, which the lexer is not given. -/

theorem endings_starts (levels : List Level) :
    ∃ x rest, endings levels ++ [inputEnd] = x :: rest ∧ (x.1 = .dedent ∨ x.1 = .endOfInput) := by
  unfold endings
  cases (Lexer.blocks levels).length with
  | zero => exact ⟨_, _, rfl, .inr rfl⟩
  | succ n => exact ⟨_, _, rfl, .inl rfl⟩

theorem weave_blanks (levels : List Level) (tracking : Bool) (n : Nat) :
    weave levels tracking (List.replicate (n + 1) none) =
      List.replicate n (.endOfLine, []) ++ endings levels := by
  induction n with
  | zero => rfl
  | succ n ih =>
    rw [List.replicate_succ, weave, ih]
    simp [breakIf, List.replicate_succ]

theorem allIdle_lineEnds (n : Nat) : AllIdle (List.replicate n (.endOfLine, [])) := by
  intro x hx
  rw [List.eq_of_mem_replicate hx]
  rfl

theorem derives_blanks {rows : List (Option Row)} (hrows : rows ≠ []) (n : Nat) :
    Derives (woven (rows ++ List.replicate n none)) ss ds ↔ Derives (woven rows) ss ds := by
  cases n with
  | zero => simp
  | succ n =>
    obtain ⟨front, hfore, hweave⟩ := fore_eq [⟨0, false⟩] false hrows
    obtain ⟨x, rest, hend, hx⟩ := endings_starts (arrive [⟨0, false⟩] false rows).1
    have hshort : woven rows ++ [inputEnd] = front ++ x :: rest := by
      rw [woven, hweave, List.append_assoc, hend]
    have hlong : woven (rows ++ List.replicate (n + 1) none) ++ [inputEnd] =
        front ++ (.endOfLine, []) :: (List.replicate n (.endOfLine, []) ++ x :: rest) := by
      rw [woven, weave_append _ _ _ (by simp), hfore, weave_blanks, ← hend]
      simp
    constructor
    · intro h
      refine derives_of_loose h (.tight ?_)
      rw [hshort, hlong]
      exact Pads.append (.join hx (allIdle_lineEnds n) (pads_refl _)) front
    · intro h
      refine derives_of_loose h (.tight ?_)
      rw [hshort, hlong]
      exact Pads.append (.close hx (allIdle_lineEnds n) (pads_refl _)) front

/-! Bodies, by the lines that they were written in. -/

abbrev ReadLine (line : Text) (row : Option Row) : Prop :=
  ReadAs (normalizeLine line) row

@[simp] theorem isBlankLine_nil : IsBlankLine [] :=
  rfl

theorem readLine_blank {line : Text} {row : Option Row} (hline : IsBlankLine line) :
    ReadLine line row ↔ row = none := by
  rw [ReadLine, normalizeLine_blank hline]
  cases row with
  | none => simp [ReadAs]
  | some r => simp [ReadAs, IsBlankLine, Text.trimStart]

theorem forall₂_split {α β : Type} {R : α → β → Prop} {l l' : List α} {rows : List β}
    (h : List.Forall₂ R (l ++ l') rows) :
    ∃ above below, rows = above ++ below ∧ List.Forall₂ R l above ∧ List.Forall₂ R l' below := by
  induction l generalizing rows with
  | nil => exact ⟨[], rows, rfl, .nil, h⟩
  | cons a l ih =>
    cases h with
    | cons hrow hrows =>
      obtain ⟨above, below, rfl, habove, hbelow⟩ := ih hrows
      exact ⟨_, below, rfl, .cons hrow habove, hbelow⟩

theorem readLine_empties {n : Nat} {rows : List (Option Row)} :
    List.Forall₂ ReadLine (List.replicate n []) rows ↔ rows = List.replicate n none := by
  induction n generalizing rows with
  | zero => simp
  | succ n ih =>
    rw [List.replicate_succ, List.forall₂_cons_left_iff, List.replicate_succ]
    constructor
    · rintro ⟨row, rest, hrow, hrest, rfl⟩
      rw [(readLine_blank isBlankLine_nil).1 hrow, ih.1 hrest]
    · rintro rfl
      exact ⟨none, _, (readLine_blank isBlankLine_nil).2 rfl, ih.2 rfl, rfl⟩

theorem readLines_unique {lines : List Text} {rows rows' : List (Option Row)}
    (h : List.Forall₂ ReadLine lines rows) (h' : List.Forall₂ ReadLine lines rows') : rows = rows' := by
  have hunique : Relator.RightUnique ReadLine := fun _ _ _ hrow hrow' => ReadAs.unique hrow hrow'
  exact List.right_unique_forall₂' hunique h h'

theorem exists_readLine_of_mem {lines : List Text} {rows : List (Option Row)}
    (h : List.Forall₂ ReadLine lines rows) {row : Option Row} (hrow : row ∈ rows) :
    ∃ line, ReadLine line row := by
  induction h with
  | nil => simp at hrow
  | cons hfirst _ ih =>
    rcases List.mem_cons.1 hrow with rfl | hrow
    · exact ⟨_, hfirst⟩
    · exact ih hrow

theorem written_of_readLines {lines : List Text} {rows : List (Option Row)}
    (h : List.Forall₂ ReadLine lines rows) (r : Row) (hr : some r ∈ rows) : r.Written := by
  obtain ⟨line, hline⟩ := exists_readLine_of_mem h hr
  exact ReadAs.written hline

variable {body : Text} {declared declared' : Declarations} {rows : List (Option Row)}

theorem exists_empties (body : Text) :
    ∃ lines n, writtenLines body = lines ++ List.replicate n [] ∧ lines ≠ [] ∧
      bodyLines body = lines.map normalizeLine := by
  obtain ⟨n, hn⟩ := Text.eq_stripLines_append (Text.splitOn_ne_nil '\n' (Text.unifyBreaks body))
  exact ⟨_, n, hn, Text.stripLines_ne_nil _, bodyLines_eq body⟩

theorem rows_of_parse (h : parse body declared = (.ok ss, declared')) :
    ∃ rows ds, List.Forall₂ ReadLine (writtenLines body) rows ∧
      Derives (woven rows) (unnumberedAll ss) ds ∧ declared.Admits ds ∧ declared.Grows ds declared' := by
  obtain ⟨xs, ds, hxs, hderives, hadmits, hgrows⟩ := derives_of_parseSource h
  obtain ⟨lines, n, hwritten, hne, hlines⟩ := exists_empties body
  rw [Lexer.ofBody, hlines] at hxs
  obtain ⟨rows, hrows, rfl⟩ := exists_rows (by simpa using hne) hxs hderives
  rw [List.forall₂_map_left_iff] at hrows
  have hrowsNe : rows ≠ [] := by
    rintro rfl
    exact hne (List.forall₂_nil_right_iff.1 hrows)
  refine ⟨rows ++ List.replicate n none, ds, ?_, (derives_blanks hrowsNe n).2 hderives, hadmits, hgrows⟩
  rw [hwritten]
  exact List.rel_append hrows (readLine_empties.2 rfl)

theorem spells_of_rows (h : List.Forall₂ ReadLine (writtenLines body) rows) :
    ∃ kept n, rows = kept ++ List.replicate n none ∧ kept ≠ [] ∧
      (Lexer.ofBody body).Spells (woven kept) := by
  obtain ⟨lines, n, hwritten, hne, hlines⟩ := exists_empties body
  rw [hwritten] at h
  obtain ⟨kept, blanks, rfl, hkept, hblanks⟩ := forall₂_split h
  obtain rfl := readLine_empties.1 hblanks
  refine ⟨kept, n, rfl, ?_, ?_⟩
  · rintro rfl
    exact hne (List.forall₂_nil_right_iff.1 hkept)
  · rw [Lexer.ofBody, hlines]
    exact spells_woven (by simpa using hne) (List.forall₂_map_left_iff.2 hkept)

theorem parse_of_rows (hrows : List.Forall₂ ReadLine (writtenLines body) rows)
    (h : Derives (woven rows) ss ds) (hadmits : declared.Admits ds) :
    ∃ found declared', parse body declared = (.ok found, declared') ∧ unnumberedAll found = ss ∧
      declared.Grows ds declared' := by
  obtain ⟨kept, n, rfl, hkept, hspells⟩ := spells_of_rows hrows
  exact parseSource_of_derives hspells ((derives_blanks hkept n).1 h) hadmits

end Parley.Body
