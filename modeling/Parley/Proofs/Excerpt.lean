import Parley.Proofs.Transfer
set_option autoImplicit false

/-!
Some lines of a body on their own.

The lines with declarations are kept and the others are dropped, with all indentation. Where no kept line
holds an option or a part of a conditional, the kept lines are derived to statements of their own, with
the declarations of the whole body.
-/

namespace Parley.Body

def TokenKind.isBranching (kind : TokenKind) : Bool :=
  kind = .arrow || kind = .ifWord || kind = .elseifWord || kind = .elseWord || kind = .endifWord

/-- Places in a body: at the start of a line, within one that is kept or within one that is dropped. -/
inductive Place where
  | start
  | kept
  | dropped

/-- The lexemes of a body from a place on, and those of its kept lines with others behind them. Each kept
line has its own end. -/
inductive Excerpt (behind : List Lexeme) : Place → List Lexeme → List Lexeme → Prop where
  | done : Excerpt behind .start [inputEnd] behind
  | indentation {x : Lexeme} {xs zs : List Lexeme} (hx : x.1 = .indent ∨ x.1 = .dedent)
      (rest : Excerpt behind .start xs zs) : Excerpt behind .start (x :: xs) zs
  | blank {t : Text} {xs zs : List Lexeme} (rest : Excerpt behind .start xs zs) :
      Excerpt behind .start ((.endOfLine, t) :: xs) zs
  | keep {x : Lexeme} {xs zs : List Lexeme} (hx : x.1.isWritten = true)
      (rest : Excerpt behind .kept (x :: xs) zs) : Excerpt behind .start (x :: xs) zs
  | drop {x : Lexeme} {xs zs : List Lexeme} (hx : x.1.isWritten = true)
      (rest : Excerpt behind .dropped (x :: xs) zs) : Excerpt behind .start (x :: xs) zs
  | kept {x : Lexeme} {xs zs : List Lexeme} (hx : x.1.isWritten = true)
      (hplain : x.1.isBranching = false) (rest : Excerpt behind .kept xs zs) :
      Excerpt behind .kept (x :: xs) (x :: zs)
  | keptBreak {t : Text} {xs zs : List Lexeme} (rest : Excerpt behind .start xs zs) :
      Excerpt behind .kept ((.endOfLine, t) :: xs) ((.endOfLine, []) :: zs)
  | keptEnd {x : Lexeme} {xs zs : List Lexeme} (hx : x.1 = .dedent ∨ x.1 = .endOfInput)
      (rest : Excerpt behind .start (x :: xs) zs) :
      Excerpt behind .kept (x :: xs) ((.endOfLine, []) :: zs)
  | dropped {x : Lexeme} {xs zs : List Lexeme} (hx : x.1.isWritten = true)
      (hplain : x.1 ≠ .declareWord) (rest : Excerpt behind .dropped xs zs) :
      Excerpt behind .dropped (x :: xs) zs
  | droppedBreak {t : Text} {xs zs : List Lexeme} (rest : Excerpt behind .start xs zs) :
      Excerpt behind .dropped ((.endOfLine, t) :: xs) zs
  | droppedEnd {x : Lexeme} {xs zs : List Lexeme} (hx : x.1 = .dedent ∨ x.1 = .endOfInput)
      (rest : Excerpt behind .start (x :: xs) zs) : Excerpt behind .dropped (x :: xs) zs

def ExcerptSome (behind xs zs : List Lexeme) : Prop :=
  ∃ place, Excerpt behind place xs zs

section Excerpt

variable {behind xs ys zs : List Lexeme} {x : Lexeme} {place : Place}

theorem isWritten_of_indentation {kind : TokenKind} (h : kind = .indent ∨ kind = .dedent) :
    kind.isWritten = false := by
  rcases h with rfl | rfl <;> rfl

theorem isWritten_of_end {kind : TokenKind} (h : kind = .dedent ∨ kind = .endOfInput) :
    kind.isWritten = false := by
  rcases h with rfl | rfl <;> rfl

/-! Kept lines. -/

theorem carries_kept (behind : List Lexeme) : Carries (Excerpt behind .kept) where
  written := by
    intro x xs zs h hx
    cases h with
    | kept _ _ rest => exact ⟨_, rfl, rest⟩
    | keptBreak => cases hx
    | keptEnd hend =>
      rw [isWritten_of_end hend] at hx
      cases hx
  unwritten := by
    intro x xs zs h hx
    cases h with
    | kept hwritten =>
      rw [hx] at hwritten
      cases hwritten
    | keptBreak => exact ⟨_, _, rfl, rfl⟩
    | keptEnd => exact ⟨_, _, rfl, rfl⟩

theorem carriesOver_kept (behind : List Lexeme) :
    CarriesOver (Excerpt behind .kept) (ExcerptSome behind) := by
  intro hashtags xs ys zs h hxs
  induction h generalizing zs with
  | hashtag _ ih =>
    obtain ⟨us, rfl, hus⟩ := (carries_kept behind).written hxs rfl
    obtain ⟨ws, htrail, hws⟩ := ih hus
    exact ⟨ws, .hashtag htrail, hws⟩
  | comment _ ih =>
    obtain ⟨us, rfl, hus⟩ := (carries_kept behind).written hxs rfl
    obtain ⟨ws, htrail, hws⟩ := ih hus
    exact ⟨ws, .comment htrail, hws⟩
  | lineEnd =>
    cases hxs with
    | kept hx => cases hx
    | keptBreak rest => exact ⟨_, .lineEnd, _, rest⟩
    | keptEnd hend => rcases hend with hend | hend <;> cases hend
  | stop hhashtag hcomment hbreak =>
    cases hxs with
    | kept hx hplain rest => exact ⟨_, .stop hhashtag hcomment hbreak, _, .kept hx hplain rest⟩
    | keptBreak => exact absurd rfl hbreak
    | keptEnd _ rest => exact ⟨_, .lineEnd, _, rest⟩

theorem Excerpt.not_branching (h : Excerpt behind .kept (x :: xs) zs) (hx : x.1.isBranching = true) :
    False := by
  cases h with
  | kept _ hplain =>
    rw [hx] at hplain
    cases hplain
  | keptBreak => cases hx
  | keptEnd hend => rcases hend with hend | hend <;> rw [hend] at hx <;> cases hx

/-! Dropped lines. -/

theorem Excerpt.tail (h : Excerpt behind .dropped (x :: xs) zs) (hx : x.1.isWritten = true) :
    Excerpt behind .dropped xs zs ∧ x.1 ≠ .declareWord := by
  cases h with
  | dropped _ hplain rest => exact ⟨rest, hplain⟩
  | droppedBreak => cases hx
  | droppedEnd hend =>
    rw [isWritten_of_end hend] at hx
    cases hx

theorem Uses.drop {n : Nat} (h : Uses TokenKind.isWritten n xs ys) (hxs : Excerpt behind .dropped xs zs) :
    Excerpt behind .dropped ys zs := by
  obtain ⟨front, rfl, -, hfront⟩ := h
  induction front with
  | nil => exact hxs
  | cons x front ih =>
    exact ih (hxs.tail (hfront x (List.mem_cons_self ..))).1 fun y hy =>
      hfront y (List.mem_cons_of_mem _ hy)

theorem Trails.drop {hashtags : List Text} (h : Trails hashtags xs ys)
    (hxs : Excerpt behind .dropped xs zs) : ExcerptSome behind ys zs := by
  induction h with
  | hashtag _ ih => exact ih (hxs.tail rfl).1
  | comment _ ih => exact ih (hxs.tail rfl).1
  | lineEnd =>
    cases hxs with
    | dropped hx => cases hx
    | droppedBreak rest => exact ⟨_, rest⟩
    | droppedEnd hend => rcases hend with hend | hend <;> cases hend
  | stop => exact ⟨_, hxs⟩

theorem Closes.drop {hashtags : List Text} (h : Closes hashtags xs ys)
    (hxs : Excerpt behind .dropped xs zs) : ExcerptSome behind ys zs := by
  cases h with
  | intro trail => exact trail.drop (hxs.tail rfl).1

theorem ReadsPlain.drop {c : Command} {ds : List Declaration} (h : ReadsPlain c ds xs ys)
    (hxs : Excerpt behind .dropped xs zs) : ds = [] ∧ ExcerptSome behind ys zs := by
  cases h with
  | assign right close =>
    have hright := (((hxs.tail rfl).1.tail rfl).1.tail rfl).1
    exact ⟨rfl, close.drop (right.uses.drop hright)⟩
  | declare => exact absurd rfl (hxs.tail rfl).2
  | jump aim close => exact ⟨rfl, close.drop (aim.uses.drop (hxs.tail rfl).1)⟩
  | stop close => exact ⟨rfl, close.drop (hxs.tail rfl).1⟩
  | generic _ words close => exact ⟨rfl, close.drop (words.uses.drop hxs)⟩

/-! Statements in front of others. -/

/-- From the first lexemes statements with some declarations are derived, and then a block goes on with
the second lexemes. -/
def Prepends (ds : List Declaration) (xs ys : List Lexeme) : Prop :=
  ∀ (ss : List Statement) (e : BlockEnd) (ds' : List Declaration) (zs : List Lexeme),
    (Passage.block ss e).Reads ds' ys zs → ∃ ss', (Passage.block ss' e).Reads (ds ++ ds') xs zs

theorem prepends_refl (xs : List Lexeme) : Prepends [] xs xs :=
  fun ss _ _ _ h => ⟨ss, h⟩

theorem Prepends.trans {ds ds' : List Declaration} (h : Prepends ds xs ys) (h' : Prepends ds' ys zs) :
    Prepends (ds ++ ds') xs zs := by
  intro ss e ds'' ws hrest
  obtain ⟨ss', hrest⟩ := h' _ _ _ _ hrest
  obtain ⟨ss'', hrest⟩ := h _ _ _ _ hrest
  exact ⟨ss'', by rwa [List.append_assoc]⟩

theorem Prepends.idle {ds : List Declaration} (h : Prepends ds xs ys) (hx : isIdle x.1 = true) :
    Prepends ds (x :: xs) ys := by
  intro ss e ds' zs hrest
  obtain ⟨ss', hrest⟩ := h _ _ _ _ hrest
  exact ⟨ss', .idle hx hrest⟩

def Yields (behind : List Lexeme) (ds : List Declaration) (zs ys : List Lexeme) : Prop :=
  ∃ ws, Prepends ds zs ws ∧ ExcerptSome behind ys ws

theorem Yields.of_some (h : ExcerptSome behind ys zs) : Yields behind [] zs ys :=
  ⟨zs, prepends_refl zs, h⟩

theorem Yields.idle {ds : List Declaration} (h : Yields behind ds zs ys) (hx : isIdle x.1 = true) :
    Yields behind ds (x :: zs) ys := by
  obtain ⟨ws, hprepends, hws⟩ := h
  exact ⟨ws, hprepends.idle hx, hws⟩

theorem ExcerptSome.written (h : ExcerptSome behind (x :: xs) zs) (hx : x.1.isWritten = true) :
    Excerpt behind .kept (x :: xs) zs ∨ Excerpt behind .dropped (x :: xs) zs := by
  obtain ⟨place, h⟩ := h
  cases place with
  | kept => exact .inl h
  | dropped => exact .inr h
  | start =>
    cases h with
    | done => cases hx
    | indentation hindent =>
      rw [isWritten_of_indentation hindent] at hx
      cases hx
    | blank => cases hx
    | keep _ rest => exact .inl rest
    | drop _ rest => exact .inr rest

theorem Excerpt.indented (h : Excerpt behind .start (x :: xs) zs) (hx : x.1 = .indent ∨ x.1 = .dedent) :
    Excerpt behind .start xs zs := by
  have hwritten := isWritten_of_indentation hx
  cases h with
  | done => rcases hx with hx | hx <;> cases hx
  | indentation _ rest => exact rest
  | blank => rcases hx with hx | hx <;> cases hx
  | keep hx =>
    rw [hwritten] at hx
    cases hx
  | drop hx =>
    rw [hwritten] at hx
    cases hx

theorem Yields.behind_indentation {ds : List Declaration} (h : ExcerptSome behind (x :: xs) zs)
    (hx : x.1 = .indent ∨ x.1 = .dedent)
    (hrest : ∀ zs, ExcerptSome behind xs zs → Yields behind ds zs ys) : Yields behind ds zs ys := by
  have hwritten := isWritten_of_indentation hx
  obtain ⟨place, h⟩ := h
  cases place with
  | start => exact hrest zs ⟨_, h.indented hx⟩
  | kept =>
    cases h with
    | kept hx =>
      rw [hwritten] at hx
      cases hx
    | keptBreak => rcases hx with hx | hx <;> cases hx
    | keptEnd _ rest => exact (hrest _ ⟨_, rest.indented hx⟩).idle rfl
  | dropped =>
    cases h with
    | dropped hx =>
      rw [hwritten] at hx
      cases hx
    | droppedBreak => rcases hx with hx | hx <;> cases hx
    | droppedEnd _ rest => exact hrest zs ⟨_, rest.indented hx⟩

theorem Yields.behind_idle {ds : List Declaration} (h : ExcerptSome behind (x :: xs) zs)
    (hx : isIdle x.1 = true) (hrest : ∀ zs, ExcerptSome behind xs zs → Yields behind ds zs ys) :
    Yields behind ds zs ys := by
  cases hwritten : x.1.isWritten with
  | true =>
    rcases h.written hwritten with h | h
    · obtain ⟨ws, rfl, hws⟩ := (carries_kept behind).written h hwritten
      exact (hrest ws ⟨_, hws⟩).idle hx
    · exact hrest zs ⟨_, (h.tail hwritten).1⟩
  | false =>
    obtain ⟨t, rfl⟩ : ∃ t, x = (.endOfLine, t) := by
      obtain ⟨kind, t⟩ := x
      have hkind : kind = .endOfLine ∨ kind = .comment := by simpa [isIdle] using hx
      rcases hkind with rfl | rfl
      · exact ⟨t, rfl⟩
      · cases hwritten
    obtain ⟨place, h⟩ := h
    cases h with
    | indentation hindent => rcases hindent with hindent | hindent <;> cases hindent
    | blank rest => exact hrest zs ⟨_, rest⟩
    | keep hx => cases hx
    | drop hx => cases hx
    | kept hx => cases hx
    | keptBreak rest => exact (hrest _ ⟨_, rest⟩).idle rfl
    | keptEnd hend => rcases hend with hend | hend <;> cases hend
    | dropped hx => cases hx
    | droppedBreak rest => exact hrest zs ⟨_, rest⟩
    | droppedEnd hend => rcases hend with hend | hend <;> cases hend

theorem Yields.trans {ds ds' : List Declaration} {us : List Lexeme} (h : Yields behind ds us xs)
    (hrest : ∀ zs, ExcerptSome behind xs zs → Yields behind ds' zs ys) :
    Yields behind (ds ++ ds') us ys := by
  obtain ⟨ws, hprepends, hws⟩ := h
  obtain ⟨vs, hprepends', hvs⟩ := hrest ws hws
  exact ⟨vs, hprepends.trans hprepends', hvs⟩

/-- What a passage of a body gives for the kept lines. A command on a kept line is kept itself. -/
def Passage.Excerpted (behind : List Lexeme) (ds : List Declaration) (xs ys : List Lexeme) :
    Passage → Prop
  | .command c => ∀ zs, (Excerpt behind .dropped xs zs → Yields behind ds zs ys) ∧
      (Excerpt behind .kept xs zs → ∃ ws, ReadsPlain c ds zs ws ∧ ExcerptSome behind ys ws)
  | _ => ∀ zs, ExcerptSome behind xs zs → Yields behind ds zs ys

theorem Uses.starts {p : TokenKind → Bool} {n : Nat} (h : Uses p n xs ys) (hn : n ≠ 0) :
    ∃ x tail, xs = x :: tail ∧ p x.1 = true := by
  obtain ⟨front, rfl, hlength, hfront⟩ := h
  cases front with
  | nil => exact absurd (Nat.le_zero.1 hlength) hn
  | cons x front => exact ⟨x, front ++ ys, rfl, hfront x (List.mem_cons_self ..)⟩

theorem Passage.Reads.excerpted {p : Passage} {ds : List Declaration} (h : p.Reads ds xs ys) :
    p.Excerpted behind ds xs ys := by
  induction h with
  | idle hx _ ih => exact fun zs hxs => .behind_idle hxs hx ih
  | inputEnd => exact fun zs hxs => .of_some hxs
  | dedent => exact fun zs hxs => .behind_indentation hxs (.inr rfl) fun _ => .of_some
  | option _ _ ihfirst ihrest => exact fun zs hxs => (ihfirst zs hxs).trans ihrest
  | line hparts first trail _ ih =>
    -- What stands on a kept line is derived again, in front of what the rest of the body gives.
    intro zs hxs
    obtain ⟨x, tail, rfl, hx⟩ := first.uses.starts (by simpa using hparts)
    rcases hxs.written hx with hxs | hxs
    · obtain ⟨us, hfirst, hus⟩ := first.carry (carries_kept behind) hxs
      obtain ⟨vs, htrail, hvs⟩ := carriesOver_kept behind trail hus
      obtain ⟨ws, hprepends, hws⟩ := ih vs hvs
      refine ⟨ws, fun _ _ _ _ hrest => ?_, hws⟩
      obtain ⟨ss', hrest⟩ := hprepends _ _ _ _ hrest
      exact ⟨_, .line hparts hfirst htrail hrest⟩
    · exact ih zs (trail.drop (first.uses.drop hxs))
  | statement _ _ ihfirst ihrest =>
    intro zs hxs
    rcases hxs.written rfl with hxs | hxs
    · obtain ⟨us, rfl, hus⟩ := (carries_kept behind).written hxs rfl
      obtain ⟨vs, hplain, hvs⟩ := (ihfirst us).2 hus
      obtain ⟨ws, hprepends, hws⟩ := ihrest vs hvs
      refine ⟨ws, fun _ _ _ _ hrest => ?_, hws⟩
      obtain ⟨ss', hrest⟩ := hprepends _ _ _ _ hrest
      rw [List.append_assoc]
      exact ⟨_, .statement (.plain hplain) hrest⟩
    · exact ((ihfirst zs).1 (hxs.tail rfl).1).trans ihrest
  | declaration _ _ ihfirst ihrest =>
    intro zs hxs
    rcases hxs.written rfl with hxs | hxs
    · obtain ⟨us, rfl, hus⟩ := (carries_kept behind).written hxs rfl
      obtain ⟨vs, hplain, hvs⟩ := (ihfirst us).2 hus
      obtain ⟨ws, hprepends, hws⟩ := ihrest vs hvs
      refine ⟨ws, fun _ _ _ _ hrest => ?_, hws⟩
      obtain ⟨ss', hrest⟩ := hprepends _ _ _ _ hrest
      rw [List.append_assoc]
      exact ⟨_, .declaration (.plain hplain) hrest⟩
    · exact ((ihfirst zs).1 (hxs.tail rfl).1).trans ihrest
  | ending _ ih =>
    intro zs hxs
    rcases hxs.written rfl with hxs | hxs
    · obtain ⟨us, rfl, hus⟩ := (carries_kept behind).written hxs rfl
      obtain ⟨vs, hplain, -⟩ := (ih us).2 hus
      cases hplain
    · exact (ih zs).1 (hxs.tail rfl).1
  | leaf _ label hguard trail _ =>
    intro zs hxs
    rcases hxs.written rfl with hxs | hxs
    · exact (hxs.not_branching rfl).elim
    · exact .of_some (trail.drop (hguard.uses.drop (label.uses.drop (hxs.tail rfl).1)))
  | nested _ label hguard trail _ ih =>
    -- The option itself is dropped, and its block goes on as if it were not one.
    intro zs hxs
    rcases hxs.written rfl with hxs | hxs
    · exact (hxs.not_branching rfl).elim
    · have htrail := trail.drop (hguard.uses.drop (label.uses.drop (hxs.tail rfl).1))
      exact .behind_indentation htrail (.inl rfl) ih
  | plain h =>
    intro zs
    constructor
    · intro hxs
      obtain ⟨rfl, hys⟩ := h.drop hxs
      exact .of_some hys
    · exact h.carry (carries_kept behind) (carriesOver_kept behind)
  | branch test close _ ih =>
    exact fun zs => ⟨fun hxs => ih zs (close.drop (test.uses.drop (hxs.tail rfl).1)),
      fun hxs => (hxs.not_branching rfl).elim⟩
  | elseif test close =>
    exact fun zs => ⟨fun hxs => .of_some (close.drop (test.uses.drop (hxs.tail rfl).1)),
      fun hxs => (hxs.not_branching rfl).elim⟩
  | otherwise close =>
    exact fun zs => ⟨fun hxs => .of_some (close.drop (hxs.tail rfl).1),
      fun hxs => (hxs.not_branching rfl).elim⟩
  | endif close =>
    exact fun zs => ⟨fun hxs => .of_some (close.drop (hxs.tail rfl).1),
      fun hxs => (hxs.not_branching rfl).elim⟩
  | lastArm _ ih => exact ih
  | nextArm _ _ ihbody ihrest => exact fun zs hxs => (ihbody zs hxs).trans ihrest
  | elseArm _ _ ihbody ihrest => exact fun zs hxs => (ihbody zs hxs).trans ihrest

theorem ExcerptSome.of_inputEnd (h : ExcerptSome behind [inputEnd] zs) : Prepends [] zs behind := by
  have hstart : ∀ {zs}, Excerpt behind .start [inputEnd] zs → zs = behind := by
    intro zs h
    cases h with
    | done => rfl
    | indentation hx => rcases hx with hx | hx <;> cases hx
    | keep hx => cases hx
    | drop hx => cases hx
  obtain ⟨place, h⟩ := h
  cases place with
  | start =>
    rw [hstart h]
    exact prepends_refl behind
  | kept =>
    cases h with
    | kept hx => cases hx
    | keptEnd _ rest =>
      rw [hstart rest]
      exact (prepends_refl behind).idle rfl
  | dropped =>
    cases h with
    | dropped hx => cases hx
    | droppedEnd _ rest =>
      rw [hstart rest]
      exact prepends_refl behind

theorem prepends_of_derives {ss : List Statement} {ds : List Declaration} (h : Derives xs ss ds)
    (hxs : Excerpt behind .start (xs ++ [inputEnd]) zs) : Prepends ds zs behind := by
  obtain ⟨ws, hprepends, hws⟩ := Passage.Reads.excerpted h zs ⟨_, hxs⟩
  simpa using hprepends.trans hws.of_inputEnd

end Excerpt

end Parley.Body
