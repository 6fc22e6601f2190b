import Parley.Proofs.Derivation
set_option autoImplicit false

/-!
Derivations carried over to other lexemes that are the same wherever something is written.
-/

namespace Parley.Body

/-- What is written is kept. In place of what is not written something else may come, but nothing that
is written. -/
structure Carries (T : List Lexeme → List Lexeme → Prop) : Prop where
  written : ∀ {x : Lexeme} {xs zs : List Lexeme}, T (x :: xs) zs → x.1.isWritten = true →
    ∃ ys, zs = x :: ys ∧ T xs ys
  unwritten : ∀ {x : Lexeme} {xs zs : List Lexeme}, T (x :: xs) zs → x.1.isWritten = false →
    ∃ y ys, zs = y :: ys ∧ y.1.isWritten = false

section Carries

variable {T : List Lexeme → List Lexeme → Prop} (hT : Carries T) {xs ys zs : List Lexeme}

include hT

theorem Carries.look {x : Lexeme} (h : T (x :: xs) zs) :
    ∃ y ys, zs = y :: ys ∧ (y = x ∨ y.1.isWritten = false) := by
  cases hx : x.1.isWritten with
  | true =>
    obtain ⟨ys, rfl, -⟩ := hT.written h hx
    exact ⟨x, ys, rfl, .inl rfl⟩
  | false =>
    obtain ⟨y, ys, rfl, hy⟩ := hT.unwritten h hx
    exact ⟨y, ys, rfl, .inr hy⟩

theorem Phrase.Reads.carry {p : Phrase} (h : p.Reads xs ys) (hxs : T xs zs) :
    ∃ ws, p.Reads zs ws ∧ T ys ws := by
  induction h generalizing zs with
  | binding _ _ ihfirst ihrest =>
    obtain ⟨us, hfirst, hus⟩ := ihfirst hxs
    obtain ⟨vs, hrest, hvs⟩ := ihrest hus
    exact ⟨vs, .binding hfirst hrest, hvs⟩
  | stop hx =>
    obtain ⟨y, us, rfl, hy⟩ := hT.look hxs
    refine ⟨_, .stop ?_, hxs⟩
    rcases hy with rfl | hy
    · exact hx
    · refine stops_of_none ?_
      cases hop : operator? y.1 with
      | none => rfl
      | some i =>
        rw [isWritten_of_operator? hop] at hy
        cases hy
  | operator hop hpower _ _ ihright ihrest =>
    obtain ⟨us, rfl, hus⟩ := hT.written hxs (isWritten_of_operator? hop)
    obtain ⟨vs, hright, hvs⟩ := ihright hus
    obtain ⟨ws, hrest, hws⟩ := ihrest hvs
    exact ⟨ws, .operator hop hpower hright hrest, hws⟩
  | literal h =>
    obtain ⟨us, rfl, hus⟩ := hT.written hxs (isWritten_of_literal? h)
    exact ⟨us, .literal h, hus⟩
  | var =>
    obtain ⟨us, rfl, hus⟩ := hT.written hxs rfl
    exact ⟨us, .var, hus⟩
  | parens _ ih =>
    obtain ⟨us, rfl, hus⟩ := hT.written hxs rfl
    obtain ⟨vs, hinner, hvs⟩ := ih hus
    obtain ⟨ws, rfl, hws⟩ := hT.written hvs rfl
    exact ⟨ws, .parens hinner, hws⟩
  | emptyCall =>
    obtain ⟨us, rfl, hus⟩ := hT.written hxs rfl
    obtain ⟨vs, rfl, hvs⟩ := hT.written hus rfl
    obtain ⟨ws, rfl, hws⟩ := hT.written hvs rfl
    exact ⟨ws, .emptyCall, hws⟩
  | call hx _ ih =>
    obtain ⟨us, rfl, hus⟩ := hT.written hxs rfl
    obtain ⟨vs, rfl, hvs⟩ := hT.written hus rfl
    obtain ⟨ws, hargs, hws⟩ := ih hvs
    obtain ⟨y, rest, rfl, hy⟩ := hT.look hvs
    refine ⟨ws, .call ?_ hargs, hws⟩
    rcases hy with rfl | hy
    · exact hx
    · intro hright
      rw [hright] at hy
      cases hy
  | not _ ih =>
    obtain ⟨us, rfl, hus⟩ := hT.written hxs rfl
    obtain ⟨vs, hinner, hvs⟩ := ih hus
    exact ⟨vs, .not hinner, hvs⟩
  | negate hx _ ih =>
    obtain ⟨us, rfl, hus⟩ := hT.written hxs (isWritten_of_negates hx)
    obtain ⟨vs, hinner, hvs⟩ := ih hus
    exact ⟨vs, .negate hx hinner, hvs⟩
  | lastArgument _ ih =>
    obtain ⟨us, honly, hus⟩ := ih hxs
    obtain ⟨vs, rfl, hvs⟩ := hT.written hus rfl
    exact ⟨vs, .lastArgument honly, hvs⟩
  | argument _ _ ihfirst ihrest =>
    obtain ⟨us, hfirst, hus⟩ := ihfirst hxs
    obtain ⟨vs, rfl, hvs⟩ := hT.written hus rfl
    obtain ⟨ws, hrest, hws⟩ := ihrest hvs
    exact ⟨ws, .argument hfirst hrest, hws⟩

theorem ReadsParts.carry {parts : List Part} (h : ReadsParts parts xs ys) (hxs : T xs zs) :
    ∃ ws, ReadsParts parts zs ws ∧ T ys ws := by
  induction h generalizing zs with
  | text _ ih =>
    obtain ⟨us, rfl, hus⟩ := hT.written hxs rfl
    obtain ⟨vs, hrest, hvs⟩ := ih hus
    exact ⟨vs, .text hrest, hvs⟩
  | escape _ ih =>
    obtain ⟨us, rfl, hus⟩ := hT.written hxs rfl
    obtain ⟨vs, hrest, hvs⟩ := ih hus
    exact ⟨vs, .escape hrest, hvs⟩
  | inline inner _ ih =>
    obtain ⟨us, rfl, hus⟩ := hT.written hxs rfl
    obtain ⟨vs, hinner, hvs⟩ := inner.carry hT hus
    obtain ⟨ws, rfl, hws⟩ := hT.written hvs rfl
    obtain ⟨rest, hrest, hrest'⟩ := ih hws
    exact ⟨rest, .inline hinner hrest, hrest'⟩
  | stop hx =>
    obtain ⟨y, us, rfl, hy⟩ := hT.look hxs
    refine ⟨_, .stop ?_, hxs⟩
    rcases hy with rfl | hy
    · exact hx
    · obtain ⟨kind, t⟩ := y
      cases kind <;> first | rfl | cases hy

theorem ReadsCommandParts.carry {parts : List Part} (h : ReadsCommandParts parts xs ys)
    (hxs : T xs zs) : ∃ ws, ReadsCommandParts parts zs ws ∧ T ys ws := by
  induction h generalizing zs with
  | text _ ih =>
    obtain ⟨us, rfl, hus⟩ := hT.written hxs rfl
    obtain ⟨vs, hrest, hvs⟩ := ih hus
    exact ⟨vs, .text hrest, hvs⟩
  | inline inner _ ih =>
    obtain ⟨us, rfl, hus⟩ := hT.written hxs rfl
    obtain ⟨vs, hinner, hvs⟩ := inner.carry hT hus
    obtain ⟨ws, rfl, hws⟩ := hT.written hvs rfl
    obtain ⟨rest, hrest, hrest'⟩ := ih hws
    exact ⟨rest, .inline hinner hrest, hrest'⟩
  | stop =>
    obtain ⟨us, rfl, -⟩ := hT.written hxs rfl
    exact ⟨_, .stop, hxs⟩

theorem ReadsGuard.carry {guard : Option Expr} (h : ReadsGuard guard xs ys) (hxs : T xs zs) :
    ∃ ws, ReadsGuard guard zs ws ∧ T ys ws := by
  cases h with
  | none hx =>
    obtain ⟨y, us, rfl, hy⟩ := hT.look hxs
    refine ⟨_, .none ?_, hxs⟩
    rcases hy with rfl | hy
    · exact hx
    · intro hbegin
      rw [hbegin] at hy
      cases hy
  | some condition =>
    obtain ⟨us, rfl, hus⟩ := hT.written hxs rfl
    obtain ⟨vs, rfl, hvs⟩ := hT.written hus rfl
    obtain ⟨ws, hcondition, hws⟩ := condition.carry hT hvs
    obtain ⟨rest, rfl, hrest⟩ := hT.written hws rfl
    exact ⟨rest, .some hcondition, hrest⟩

theorem ReadsType.carry {type : Option TypeName} (h : ReadsType type xs ys) (hxs : T xs zs) :
    ∃ ws, ReadsType type zs ws ∧ T ys ws := by
  cases h with
  | none hx =>
    obtain ⟨y, us, rfl, hy⟩ := hT.look hxs
    refine ⟨_, .none ?_, hxs⟩
    rcases hy with rfl | hy
    · exact hx
    · intro has
      rw [has] at hy
      cases hy
  | some htype =>
    obtain ⟨us, rfl, hus⟩ := hT.written hxs rfl
    obtain ⟨vs, rfl, hvs⟩ := hT.written hus rfl
    exact ⟨vs, .some htype, hvs⟩

theorem ReadsTarget.carry {target : JumpTarget} (h : ReadsTarget target xs ys) (hxs : T xs zs) :
    ∃ ws, ReadsTarget target zs ws ∧ T ys ws := by
  cases h with
  | title =>
    obtain ⟨us, rfl, hus⟩ := hT.written hxs rfl
    exact ⟨us, .title, hus⟩
  | expr inner =>
    obtain ⟨us, rfl, hus⟩ := hT.written hxs rfl
    obtain ⟨vs, hinner, hvs⟩ := inner.carry hT hus
    obtain ⟨ws, rfl, hws⟩ := hT.written hvs rfl
    exact ⟨ws, .expr hinner, hws⟩

/-- What trails a line leads over its end, where another relation may hold. -/
def CarriesOver (T T' : List Lexeme → List Lexeme → Prop) : Prop :=
  ∀ {hashtags : List Text} {xs ys zs : List Lexeme}, Trails hashtags xs ys → T xs zs →
    ∃ ws, Trails hashtags zs ws ∧ T' ys ws

variable {T' : List Lexeme → List Lexeme → Prop}

theorem Closes.carry {hashtags : List Text} (h : Closes hashtags xs ys) (hT' : CarriesOver T T')
    (hxs : T xs zs) : ∃ ws, Closes hashtags zs ws ∧ T' ys ws := by
  cases h with
  | intro trail =>
    obtain ⟨us, rfl, hus⟩ := hT.written hxs rfl
    obtain ⟨vs, htrail, hvs⟩ := hT' trail hus
    exact ⟨vs, .intro htrail, hvs⟩

theorem ReadsPlain.carry {c : Command} {ds : List Declaration} (h : ReadsPlain c ds xs ys)
    (hT' : CarriesOver T T') (hxs : T xs zs) : ∃ ws, ReadsPlain c ds zs ws ∧ T' ys ws := by
  cases h with
  | assign right close =>
    obtain ⟨us, rfl, hus⟩ := hT.written hxs rfl
    obtain ⟨vs, rfl, hvs⟩ := hT.written hus rfl
    obtain ⟨ws, rfl, hws⟩ := hT.written hvs rfl
    obtain ⟨rest, hright, hrest⟩ := right.carry hT hws
    obtain ⟨rest', hclose, hrest'⟩ := close.carry hT hT' hrest
    exact ⟨rest', .assign hright hclose, hrest'⟩
  | declare right typed close =>
    obtain ⟨us, rfl, hus⟩ := hT.written hxs rfl
    obtain ⟨vs, rfl, hvs⟩ := hT.written hus rfl
    obtain ⟨ws, rfl, hws⟩ := hT.written hvs rfl
    obtain ⟨rest, hright, hrest⟩ := right.carry hT hws
    obtain ⟨rest', htyped, hrest'⟩ := typed.carry hT hrest
    obtain ⟨rest'', hclose, hrest''⟩ := close.carry hT hT' hrest'
    exact ⟨rest'', .declare hright htyped hclose, hrest''⟩
  | jump aim close =>
    obtain ⟨us, rfl, hus⟩ := hT.written hxs rfl
    obtain ⟨vs, haim, hvs⟩ := aim.carry hT hus
    obtain ⟨ws, hclose, hws⟩ := close.carry hT hT' hvs
    exact ⟨ws, .jump haim hclose, hws⟩
  | stop close =>
    obtain ⟨us, rfl, hus⟩ := hT.written hxs rfl
    obtain ⟨vs, hclose, hvs⟩ := close.carry hT hT' hus
    exact ⟨vs, .stop hclose, hvs⟩
  | generic hparts words close =>
    obtain ⟨us, hwords, hus⟩ := words.carry hT hxs
    obtain ⟨vs, hclose, hvs⟩ := close.carry hT hT' hus
    exact ⟨vs, .generic hparts hwords hclose, hvs⟩

end Carries

end Parley.Body
