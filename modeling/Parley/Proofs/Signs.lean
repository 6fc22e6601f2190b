import Parley.Proofs.Items
import Parley.Proofs.Modes
import Parley.Proofs.Transfer
set_option autoImplicit false

/-!
What is left of a body without its texts, and items cut at the end of a line.

The signs of lexemes tell where blocks open and close and where something is written that becomes part of
a statement. The statements determine them, except for how declarations and comments stand among them.
-/

namespace Parley.Body

inductive Sign where
  | opens
  | closes
  | part
  deriving DecidableEq

def TokenKind.sign? : TokenKind → Option Sign
  | .indent => some .opens
  | .dedent => some .closes
  | .text | .escape | .leftBrace | .arrow | .ifWord | .elseifWord | .elseWord | .endifWord | .setWord
  | .jumpWord | .stopWord => some .part
  | _ => none

def signs (xs : List Lexeme) : List Sign :=
  xs.filterMap fun x => x.1.sign?

@[simp] theorem signs_nil : signs [] = [] :=
  rfl

@[simp] theorem signs_cons (x : Lexeme) (xs : List Lexeme) :
    signs (x :: xs) = x.1.sign?.toList ++ signs xs := by
  cases h : x.1.sign? <;> simp [signs, h]

@[simp] theorem signs_append (xs ys : List Lexeme) : signs (xs ++ ys) = signs xs ++ signs ys :=
  List.filterMap_append

@[simp] theorem signs_replicate_dedent (n : Nat) :
    signs (List.replicate n (.dedent, [])) = List.replicate n .closes := by
  induction n with
  | zero => rfl
  | succ n ih => simp [List.replicate_succ, ih, TokenKind.sign?]

/-! Signs of what stands on a line. -/

variable {xs ys : List Lexeme} {hashtags : List Text}

theorem eq_part_of_isWritten {kind : TokenKind} {sign : Sign} (hkind : kind.isWritten = true)
    (h : kind.sign? = some sign) : sign = .part := by
  cases kind <;> simp_all [TokenKind.isWritten, TokenKind.sign?]

theorem sign?_of_isOperand {kind : TokenKind} (h : kind.isOperand = true) : kind.sign? = none := by
  have hall : ∀ r ∈ operatorRules, r.kind.sign? = none := by decide
  obtain ⟨r, hr, hkind⟩ := List.any_eq_true.1 h
  obtain rfl : r.kind = kind := by simpa using hkind
  exact hall r hr

theorem Phrase.Reads.signs_eq {p : Phrase} (h : p.Reads xs ys) : signs xs = signs ys := by
  induction h with
  | binding _ _ ihfirst ihrest => exact ihfirst.trans ihrest
  | stop => rfl
  | operator hop _ _ _ ihright ihrest =>
    simp [sign?_of_isOperand (isOperand_of_operator? hop), ihright, ihrest]
  | literal h => simp [sign?_of_isOperand (isOperand_of_literal? h)]
  | var => rfl
  | parens _ ih => simpa [TokenKind.sign?] using ih
  | emptyCall => rfl
  | call _ _ ih => simpa [TokenKind.sign?] using ih
  | not _ ih => simpa [TokenKind.sign?] using ih
  | negate hx _ ih => simp [sign?_of_isOperand (isOperand_of_negates hx), ih]
  | lastArgument _ ih => simpa [TokenKind.sign?] using ih
  | argument _ _ ihfirst ihrest => simp [ihfirst, ihrest, TokenKind.sign?]

theorem Trails.signs_eq (h : Trails hashtags xs ys) : signs xs = signs ys := by
  induction h with
  | hashtag _ ih => simpa [TokenKind.sign?] using ih
  | comment _ ih => simpa [TokenKind.sign?] using ih
  | lineEnd => rfl
  | stop => rfl

theorem ReadsParts.signs_eq {parts : List Part} (h : ReadsParts parts xs ys) :
    signs xs = List.replicate parts.length .part ++ signs ys := by
  induction h with
  | text _ ih => simp [ih, List.replicate_succ, TokenKind.sign?]
  | escape _ ih => simp [ih, List.replicate_succ, TokenKind.sign?]
  | inline inner _ ih => simp [inner.signs_eq, ih, List.replicate_succ, TokenKind.sign?]
  | stop => rfl

theorem ReadsCommandParts.signs_eq {parts : List Part} (h : ReadsCommandParts parts xs ys) :
    signs xs = List.replicate parts.length .part ++ signs ys := by
  induction h with
  | text _ ih => simp [ih, List.replicate_succ, TokenKind.sign?]
  | inline inner _ ih => simp [inner.signs_eq, ih, List.replicate_succ, TokenKind.sign?]
  | stop => rfl

theorem Closes.signs_eq (h : Closes hashtags xs ys) : signs xs = signs ys := by
  cases h with
  | intro trail => simp [trail.signs_eq, TokenKind.sign?]

theorem ReadsGuard.signs_eq {guard : Option Expr} (h : ReadsGuard guard xs ys) :
    signs xs = List.replicate guard.toList.length .part ++ signs ys := by
  cases h with
  | none => rfl
  | some condition => simp [condition.signs_eq, TokenKind.sign?]

theorem ReadsType.signs_eq {type : Option TypeName} (h : ReadsType type xs ys) :
    signs xs = signs ys := by
  cases h <;> rfl

def JumpTarget.signs : JumpTarget → List Sign
  | .title _ => []
  | .expr _ => [.part]

theorem ReadsTarget.signs_eq {target : JumpTarget} (h : ReadsTarget target xs ys) :
    signs xs = target.signs ++ signs ys := by
  cases h with
  | title => rfl
  | expr inner => simp [inner.signs_eq, JumpTarget.signs, TokenKind.sign?]

/-! Signs of items. -/

def Item.signs : Item → List Sign
  | .statement (.line parts _ _) => List.replicate parts.length .part
  | .statement (.command parts _ _) => List.replicate parts.length .part
  | .statement (.jump target _) => .part :: target.signs
  | .statement _ => [.part]
  | .option label guard _ _ =>
    .part :: List.replicate (label.length + guard.toList.length) .part
  | .opens => [.opens]
  | .branch .. => [.part]
  | .ending .dedent => [.closes]
  | .ending _ => [.part]

theorem ReadsPlain.signs_eq {s : Statement} {ds : List Declaration}
    (h : ReadsPlain (.statement s) ds xs ys) : signs xs = (Item.statement s).signs ++ signs ys := by
  cases h with
  | assign right close => simp [right.signs_eq, close.signs_eq, Item.signs, TokenKind.sign?]
  | jump aim close => simp [aim.signs_eq, close.signs_eq, Item.signs, TokenKind.sign?]
  | stop close => simp [close.signs_eq, Item.signs, TokenKind.sign?]
  | generic _ words close => simp [words.signs_eq, close.signs_eq, Item.signs]

theorem signs_declaration {ds : List Declaration} (h : ReadsPlain .declaration ds xs ys) :
    signs xs = signs ys := by
  cases h with
  | declare right typed close =>
    simp [right.signs_eq, typed.signs_eq, close.signs_eq, TokenKind.sign?]

theorem Item.Reads.signs_eq {i : Item} (h : i.Reads xs ys) : Body.signs xs = i.signs ++ Body.signs ys := by
  cases h with
  | line _ first trail => simp [first.signs_eq, trail.signs_eq, signs]
  | plain h => simp [h.signs_eq, TokenKind.sign?]
  | option _ first hguard trail =>
    simp [first.signs_eq, hguard.signs_eq, trail.signs_eq, signs, TokenKind.sign?, ← List.append_assoc]
  | opens => rfl
  | branch test close => simp [test.signs_eq, close.signs_eq, signs, TokenKind.sign?]
  | dedent => rfl
  | elseif test close => simp [test.signs_eq, close.signs_eq, signs, TokenKind.sign?]
  | otherwise close => simp [close.signs_eq, signs, TokenKind.sign?]
  | endif close => simp [close.signs_eq, signs, TokenKind.sign?]

theorem Item.Reads.signs_ne_nil {i : Item} (h : i.Reads xs ys) : i.signs ≠ [] := by
  cases h with
  | line hparts => simpa [signs] using hparts
  | plain h =>
    cases h with
    | generic hparts => simpa [signs] using hparts
    | _ => simp [signs]
  | _ => simp [signs]

theorem Lists.signs_eq {fresh : Bool} {items : List Item} {ds : List Declaration}
    (h : Lists fresh items ds xs) : signs xs = items.flatMap Item.signs := by
  induction h with
  | done => rfl
  | @idle _ _ _ x xs hx _ ih =>
    have hsign : x.1.sign? = none := by
      obtain ⟨kind, t⟩ := x
      cases kind <;> first | rfl | cases hx
    simp [hsign, ih]
  | declaration first _ ih => simp [signs_declaration first, ih, TokenKind.sign?]
  | item _ first _ ih => simp [first.signs_eq, ih]

/-! The same lexemes up to the end of a line. -/

def SameFront (tail tail' xs zs : List Lexeme) : Prop :=
  ∃ front, xs = front ++ (.endOfLine, []) :: tail ∧ zs = front ++ (.endOfLine, []) :: tail'

def SameUpTo (tail tail' xs zs : List Lexeme) : Prop :=
  SameFront tail tail' xs zs ∨ xs = tail ∧ zs = tail'

section Cut

variable {tail tail' zs : List Lexeme} {x : Lexeme}

theorem SameFront.uncons (h : SameFront tail tail' (x :: xs) zs) :
    ∃ ws, zs = x :: ws ∧ SameUpTo tail tail' xs ws ∧
      (x.1 ≠ .endOfLine → SameFront tail tail' xs ws) := by
  obtain ⟨front, hxs, rfl⟩ := h
  cases front with
  | nil =>
    obtain ⟨rfl, rfl⟩ := List.cons.inj hxs
    exact ⟨tail', rfl, .inr ⟨rfl, rfl⟩, fun hx => absurd rfl hx⟩
  | cons y front =>
    obtain ⟨rfl, rfl⟩ := List.cons.inj hxs
    exact ⟨_, rfl, .inl ⟨front, rfl, rfl⟩, fun _ => ⟨front, rfl, rfl⟩⟩

theorem carries_front (tail tail' : List Lexeme) : Carries (SameFront tail tail') where
  written := by
    intro x xs zs h hx
    obtain ⟨ws, rfl, -, hfront⟩ := h.uncons
    refine ⟨ws, rfl, hfront fun hbreak => ?_⟩
    rw [hbreak] at hx
    cases hx
  unwritten := by
    intro x xs zs h hx
    obtain ⟨ws, rfl, -⟩ := h.uncons
    exact ⟨x, ws, rfl, hx⟩

theorem carriesOver_front (tail tail' : List Lexeme) :
    CarriesOver (SameFront tail tail') (SameUpTo tail tail') := by
  intro hashtags xs ys zs h hxs
  induction h generalizing zs with
  | hashtag _ ih =>
    obtain ⟨us, rfl, hus⟩ := (carries_front tail tail').written hxs rfl
    obtain ⟨ws, htrail, hws⟩ := ih hus
    exact ⟨ws, .hashtag htrail, hws⟩
  | comment _ ih =>
    obtain ⟨us, rfl, hus⟩ := (carries_front tail tail').written hxs rfl
    obtain ⟨ws, htrail, hws⟩ := ih hus
    exact ⟨ws, .comment htrail, hws⟩
  | lineEnd =>
    obtain ⟨ws, rfl, hws, -⟩ := hxs.uncons
    exact ⟨ws, .lineEnd, hws⟩
  | stop hhashtag hcomment hbreak =>
    obtain ⟨ws, rfl, -, -⟩ := id hxs.uncons
    exact ⟨_, .stop hhashtag hcomment hbreak, .inl hxs⟩

theorem Item.Reads.carry {i : Item} (h : i.Reads xs ys) (hxs : SameFront tail tail' xs zs) :
    ∃ ws, i.Reads zs ws ∧ SameUpTo tail tail' ys ws := by
  have hT := carries_front tail tail'
  have hT' : CarriesOver (SameFront tail tail') (SameUpTo tail tail') := carriesOver_front tail tail'
  cases h with
  | line hparts first trail =>
    obtain ⟨us, hfirst, hus⟩ := first.carry hT hxs
    obtain ⟨ws, htrail, hws⟩ := hT' trail hus
    exact ⟨ws, .line hparts hfirst htrail, hws⟩
  | plain h =>
    obtain ⟨us, rfl, hus⟩ := hT.written hxs rfl
    obtain ⟨ws, hplain, hws⟩ := h.carry hT hT' hus
    exact ⟨ws, .plain hplain, hws⟩
  | option hparts first hguard trail =>
    obtain ⟨us, rfl, hus⟩ := hT.written hxs rfl
    obtain ⟨vs, hfirst, hvs⟩ := first.carry hT hus
    obtain ⟨ws, hguard, hws⟩ := hguard.carry hT hvs
    obtain ⟨rest, htrail, hrest⟩ := hT' trail hws
    exact ⟨rest, .option hparts hfirst hguard htrail, hrest⟩
  | opens =>
    obtain ⟨ws, rfl, hws, -⟩ := hxs.uncons
    exact ⟨ws, .opens, hws⟩
  | branch test close =>
    obtain ⟨us, rfl, hus⟩ := hT.written hxs rfl
    obtain ⟨vs, rfl, hvs⟩ := hT.written hus rfl
    obtain ⟨ws, htest, hws⟩ := test.carry hT hvs
    obtain ⟨rest, hclose, hrest⟩ := close.carry hT hT' hws
    exact ⟨rest, .branch htest hclose, hrest⟩
  | dedent =>
    obtain ⟨ws, rfl, hws, -⟩ := hxs.uncons
    exact ⟨ws, .dedent, hws⟩
  | elseif test close =>
    obtain ⟨us, rfl, hus⟩ := hT.written hxs rfl
    obtain ⟨vs, rfl, hvs⟩ := hT.written hus rfl
    obtain ⟨ws, htest, hws⟩ := test.carry hT hvs
    obtain ⟨rest, hclose, hrest⟩ := close.carry hT hT' hws
    exact ⟨rest, .elseif htest hclose, hrest⟩
  | otherwise close =>
    obtain ⟨us, rfl, hus⟩ := hT.written hxs rfl
    obtain ⟨vs, rfl, hvs⟩ := hT.written hus rfl
    obtain ⟨rest, hclose, hrest⟩ := close.carry hT hT' hvs
    exact ⟨rest, .otherwise hclose, hrest⟩
  | endif close =>
    obtain ⟨us, rfl, hus⟩ := hT.written hxs rfl
    obtain ⟨vs, rfl, hvs⟩ := hT.written hus rfl
    obtain ⟨rest, hclose, hrest⟩ := close.carry hT hT' hvs
    exact ⟨rest, .endif hclose, hrest⟩

/-- Items are cut where a line ends, and those in front of the end do not depend on what comes behind. -/
theorem Lists.cut {fresh : Bool} {items : List Item} {ds : List Declaration}
    (h : Lists fresh items ds xs) (hxs : SameUpTo tail tail' xs zs) :
    ∃ above below ds₁ ds₂ again, items = above ++ below ∧ ds = ds₁ ++ ds₂ ∧
      Lists again below ds₂ tail ∧ ∀ {items' ds'}, Lists again items' ds' tail' →
        Lists fresh (above ++ items') (ds₁ ++ ds') zs := by
  induction h generalizing zs with
  | @done fresh =>
    rcases hxs with ⟨front, hfront, -⟩ | ⟨rfl, rfl⟩
    · cases front with
      | nil => cases hfront
      | cons y front => simp [inputEnd] at hfront
    · exact ⟨[], [], [], [], fresh, rfl, rfl, .done, fun h => h⟩
  | @idle fresh items ds x xs hx rest ih =>
    rcases hxs with hxs | ⟨rfl, rfl⟩
    · obtain ⟨ws, rfl, hws, -⟩ := hxs.uncons
      obtain ⟨above, below, ds₁, ds₂, again, hitems, hds, hbelow, hcut⟩ := ih hws
      exact ⟨above, below, ds₁, ds₂, again, hitems, hds, hbelow, fun h => .idle hx (hcut h)⟩
    · exact ⟨[], items, [], ds, fresh, rfl, rfl, .idle hx rest, fun h => h⟩
  | @declaration fresh t items ds ds' xs ys first rest ih =>
    rcases hxs with hxs | ⟨rfl, rfl⟩
    · obtain ⟨us, rfl, hus⟩ := (carries_front tail tail').written hxs rfl
      obtain ⟨ws, hfirst, hws⟩ :=
        first.carry (carries_front tail tail') (carriesOver_front tail tail') hus
      obtain ⟨above, below, ds₁, ds₂, again, hitems, rfl, hbelow, hcut⟩ := ih hws
      refine ⟨above, below, ds ++ ds₁, ds₂, again, hitems, (List.append_assoc ..).symm, hbelow,
        fun h => ?_⟩
      rw [List.append_assoc]
      exact .declaration hfirst (hcut h)
    · exact ⟨[], items, [], ds ++ ds', fresh, rfl, rfl, .declaration first rest, fun h => h⟩
  | @item fresh i items ds xs ys hfresh first rest ih =>
    rcases hxs with hxs | ⟨rfl, rfl⟩
    · obtain ⟨ws, hfirst, hws⟩ := first.carry hxs
      obtain ⟨above, below, ds₁, ds₂, again, rfl, rfl, hbelow, hcut⟩ := ih hws
      exact ⟨i :: above, below, ds₁, ds₂, again, rfl, rfl, hbelow,
        fun h => .item hfresh hfirst (hcut h)⟩
    · exact ⟨[], i :: items, [], ds, fresh, rfl, rfl, .item hfresh first rest, fun h => h⟩

end Cut

end Parley.Body
