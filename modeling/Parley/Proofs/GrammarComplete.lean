import Parley.Proofs.GrammarSound
import Parley.Proofs.Steps
set_option autoImplicit false

/-!
What the grammar derives is accepted by the rules of the parser.

The bound on the recursion that suffices is counted by the lexemes that a derivation uses: two for each
in an expression and four for each in a block.
-/

namespace Parley.Body

/-! What a derivation uses. -/

def Uses (p : TokenKind → Bool) (n : Nat) (xs ys : List Lexeme) : Prop :=
  ∃ zs, xs = zs ++ ys ∧ n ≤ zs.length ∧ ∀ z ∈ zs, p z.1 = true

@[simp] theorem uses_refl (p : TokenKind → Bool) (xs : List Lexeme) : Uses p 0 xs xs :=
  ⟨[], rfl, Nat.le_refl 0, by simp⟩

theorem Uses.cons {p : TokenKind → Bool} {n : Nat} {x : Lexeme} {xs ys : List Lexeme}
    (h : Uses p n xs ys) (hx : p x.1 = true) : Uses p (n + 1) (x :: xs) ys := by
  obtain ⟨zs, rfl, hn, hzs⟩ := h
  refine ⟨x :: zs, rfl, by simpa using hn, ?_⟩
  intro z hz
  rcases List.mem_cons.1 hz with rfl | hz
  · exact hx
  · exact hzs z hz

theorem Uses.trans {p : TokenKind → Bool} {n m : Nat} {xs ys zs : List Lexeme} (h : Uses p n xs ys)
    (h' : Uses p m ys zs) : Uses p (n + m) xs zs := by
  obtain ⟨us, rfl, hn, hus⟩ := h
  obtain ⟨vs, rfl, hm, hvs⟩ := h'
  refine ⟨us ++ vs, by simp, by simp; omega, ?_⟩
  intro z hz
  rcases List.mem_append.1 hz with hz | hz
  · exact hus z hz
  · exact hvs z hz

theorem Uses.mono {p : TokenKind → Bool} {n m : Nat} {xs ys : List Lexeme} (h : Uses p n xs ys)
    (hm : m ≤ n) : Uses p m xs ys := by
  obtain ⟨zs, hxs, hn, hzs⟩ := h
  exact ⟨zs, hxs, Nat.le_trans hm hn, hzs⟩

theorem Uses.skip {p : TokenKind → Bool} {n : Nat} {xs ys : List Lexeme} {y : Lexeme}
    (h : Uses p n xs (y :: ys)) (hy : p y.1 = true) : Uses p (n + 1) xs ys :=
  h.trans ((uses_refl p ys).cons hy)

theorem Uses.length_le {p : TokenKind → Bool} {n : Nat} {xs ys : List Lexeme}
    (h : Uses p n xs ys) : n + ys.length ≤ xs.length := by
  obtain ⟨zs, rfl, hn, -⟩ := h
  simp only [List.length_append]
  omega

def TokenKind.isInner (kind : TokenKind) : Bool :=
  kind ≠ .endOfInput

@[simp] theorem TokenKind.isInner_iff {kind : TokenKind} :
    kind.isInner = true ↔ kind ≠ .endOfInput := by
  simp [isInner]

theorem TokenKind.isInner_of_isWritten {kind : TokenKind} (h : kind.isWritten = true) :
    kind.isInner = true := by
  cases kind <;> first | rfl | cases h

theorem Uses.inner {n : Nat} {xs ys : List Lexeme} (h : Uses TokenKind.isWritten n xs ys) :
    Uses TokenKind.isInner n xs ys := by
  obtain ⟨zs, hxs, hn, hzs⟩ := h
  exact ⟨zs, hxs, hn, fun z hz => TokenKind.isInner_of_isWritten (hzs z hz)⟩

def Phrase.least : Phrase → Nat
  | .tail .. => 0
  | _ => 1

theorem isWritten_of_operator? {kind : TokenKind} {i : Operator} (h : operator? kind = some i) :
    kind.isWritten = true := by
  cases kind <;> first | rfl | cases h

theorem isWritten_of_literal? {x : Lexeme} {v : Value} (h : literal? x = some v) :
    x.1.isWritten = true := by
  obtain ⟨kind, t⟩ := x
  cases kind <;> first | rfl | cases h

theorem isWritten_of_negates {kind : TokenKind} (h : negates kind = true) :
    kind.isWritten = true := by
  cases kind <;> first | rfl | cases h

theorem Phrase.Reads.uses {p : Phrase} {xs ys : List Lexeme} (h : p.Reads xs ys) :
    Uses TokenKind.isWritten p.least xs ys := by
  induction h with
  | binding _ _ ihfirst ihrest => exact ihfirst.trans ihrest
  | stop => exact uses_refl _ _
  | operator hop _ _ _ ihright ihrest =>
    exact ((ihright.trans ihrest).cons (isWritten_of_operator? hop)).mono (Nat.zero_le _)
  | literal h => exact (uses_refl _ _).cons (isWritten_of_literal? h)
  | var => exact (uses_refl _ _).cons rfl
  | parens _ ih => exact ((ih.skip rfl).cons rfl).mono (by simp [least])
  | emptyCall => exact ((((uses_refl _ _).cons rfl).cons rfl).cons rfl).mono (by simp [least])
  | call _ _ ih => exact ((ih.cons rfl).cons rfl).mono (by simp [least])
  | not _ ih => exact (ih.cons rfl).mono (by simp [least])
  | negate hx _ ih => exact (ih.cons (isWritten_of_negates hx)).mono (by simp [least])
  | lastArgument _ ih => exact (ih.skip rfl).mono (by simp [least])
  | argument _ _ ihfirst ihrest => exact ((ihfirst.skip rfl).trans ihrest).mono (by simp [least])

theorem Trails.uses {hashtags : List Text} {xs ys : List Lexeme} (h : Trails hashtags xs ys) :
    Uses TokenKind.isInner 0 xs ys := by
  induction h with
  | hashtag _ ih => exact (ih.cons rfl).mono (Nat.zero_le _)
  | comment _ ih => exact (ih.cons rfl).mono (Nat.zero_le _)
  | lineEnd => exact ((uses_refl _ _).cons rfl).mono (Nat.zero_le _)
  | stop => exact uses_refl _ _

theorem ReadsParts.uses {parts : List Part} {xs ys : List Lexeme} (h : ReadsParts parts xs ys) :
    Uses TokenKind.isWritten parts.length xs ys := by
  induction h with
  | text _ ih => exact ih.cons rfl
  | escape _ ih => exact ih.cons rfl
  | inline inner _ ih =>
    exact (((inner.uses.skip rfl).trans ih).cons rfl).mono (by simp [Phrase.least])
  | stop => exact uses_refl _ _

theorem ReadsCommandParts.uses {parts : List Part} {xs ys : List Lexeme}
    (h : ReadsCommandParts parts xs ys) : Uses TokenKind.isWritten parts.length xs ys := by
  induction h with
  | text _ ih => exact ih.cons rfl
  | inline inner _ ih =>
    exact (((inner.uses.skip rfl).trans ih).cons rfl).mono (by simp [Phrase.least])
  | stop => exact uses_refl _ _

theorem Closes.uses {hashtags : List Text} {xs ys : List Lexeme} (h : Closes hashtags xs ys) :
    Uses TokenKind.isInner 1 xs ys := by
  cases h with
  | intro trail => exact trail.uses.cons rfl

theorem ReadsGuard.uses {guard : Option Expr} {xs ys : List Lexeme} (h : ReadsGuard guard xs ys) :
    Uses TokenKind.isWritten 0 xs ys := by
  cases h with
  | none => exact uses_refl _ _
  | some condition => exact (((condition.uses.skip rfl).cons rfl).cons rfl).mono (Nat.zero_le _)

theorem ReadsType.uses {type : Option TypeName} {xs ys : List Lexeme} (h : ReadsType type xs ys) :
    Uses TokenKind.isWritten 0 xs ys := by
  cases h with
  | none => exact uses_refl _ _
  | some => exact (((uses_refl _ _).cons rfl).cons rfl).mono (Nat.zero_le _)

theorem ReadsTarget.uses {target : JumpTarget} {xs ys : List Lexeme}
    (h : ReadsTarget target xs ys) : Uses TokenKind.isWritten 1 xs ys := by
  cases h with
  | title => exact (uses_refl _ _).cons rfl
  | expr inner => exact ((inner.uses.skip rfl).cons rfl).mono (by simp [Phrase.least])

theorem ReadsPlain.uses {c : Command} {ds : List Declaration} {xs ys : List Lexeme}
    (h : ReadsPlain c ds xs ys) : Uses TokenKind.isInner 1 xs ys := by
  cases h with
  | assign right close =>
    exact ((((right.uses.inner.trans close.uses).cons rfl).cons rfl).cons rfl).mono
      (by simp [Phrase.least])
  | declare right typed close =>
    exact (((((right.uses.inner.trans typed.uses.inner).trans close.uses).cons rfl).cons rfl).cons
      rfl).mono (by simp [Phrase.least])
  | jump aim close => exact ((aim.uses.inner.trans close.uses).cons rfl).mono (by simp)
  | stop close => exact (close.uses.cons rfl).mono (by simp)
  | generic _ words close => exact (words.uses.inner.trans close.uses).mono (by simp)

def BlockEnd.least : BlockEnd → Nat
  | .endOfInput => 0
  | _ => 1

theorem BlockEnd.least_le (e : BlockEnd) : e.least ≤ 1 := by
  cases e <;> simp [least]

def Passage.least : Passage → Nat
  | .block _ e => e.least
  | _ => 1

theorem isInner_of_isIdle {kind : TokenKind} (h : isIdle kind = true) : kind.isInner = true := by
  cases kind <;> first | rfl | cases h

theorem Passage.Reads.uses {p : Passage} {ds : List Declaration} {xs ys : List Lexeme}
    (h : p.Reads ds xs ys) : Uses TokenKind.isInner p.least xs ys := by
  induction h with
  | idle hx _ ih => exact (ih.cons (isInner_of_isIdle hx)).mono (Nat.le_add_right _ _)
  | inputEnd => exact uses_refl _ _
  | dedent => exact (uses_refl _ _).cons rfl
  | option _ _ ihfirst ihrest => exact (ihfirst.trans ihrest).mono (Nat.le_add_left _ _)
  | line _ first trail _ ih =>
    exact ((first.uses.inner.trans trail.uses).trans ih).mono (Nat.le_add_left _ _)
  | statement _ _ ihfirst ihrest =>
    exact ((ihfirst.trans ihrest).cons rfl).mono (by simp only [least]; omega)
  | declaration _ _ ihfirst ihrest =>
    exact ((ihfirst.trans ihrest).cons rfl).mono (by simp only [least]; omega)
  | ending _ ih =>
    exact (ih.cons rfl).mono (Nat.le_trans (BlockEnd.least_le _) (Nat.le_add_left _ _))
  | leaf _ label hguard trail _ =>
    exact (((label.uses.inner.trans hguard.uses.inner).trans trail.uses).cons rfl).mono
      (by simp [least])
  | nested _ label hguard trail _ ih =>
    exact (((((label.uses.inner.trans hguard.uses.inner).trans trail.uses).skip rfl).trans ih).cons
      rfl).mono (by simp [least])
  | plain h => exact h.uses
  | branch test close _ ih =>
    exact (((test.uses.inner.trans close.uses).trans ih).cons rfl).mono (by simp [least])
  | elseif test close =>
    exact ((test.uses.inner.trans close.uses).cons rfl).mono (by simp [least])
  | otherwise close => exact (close.uses.cons rfl).mono (by simp [least])
  | endif close => exact (close.uses.cons rfl).mono (by simp [least])
  | lastArm _ ih => exact ih
  | nextArm _ _ ihbody ihrest => exact (ihbody.trans ihrest).mono (Nat.le_add_left _ _)
  | elseArm _ _ ihbody ihrest => exact (ihbody.trans ihrest).mono (Nat.le_add_right _ _)

theorem Passage.Reads.inputEnd_of_block {ss : List Statement} {ds : List Declaration}
    {xs ys : List Lexeme} (h : (Passage.block ss .endOfInput).Reads ds xs ys) :
    ∃ t zs, ys = (.endOfInput, t) :: zs := by
  generalize hp : Passage.block ss .endOfInput = p at h
  induction h generalizing ss with
  | inputEnd => exact ⟨_, _, rfl⟩
  | idle _ _ ih => cases hp; exact ih rfl
  | option _ _ _ ih => cases hp; exact ih rfl
  | line _ _ _ _ ih => cases hp; exact ih rfl
  | statement _ _ _ ih => cases hp; exact ih rfl
  | declaration _ _ _ ih => cases hp; exact ih rfl
  | ending only ih =>
    cases hp
    cases only with
    | plain h => cases h
  | _ => cases hp

section Rules

variable {σ : Type} [TokenSource σ]

/-- From the first lexemes to the second, the rule succeeds with a result of the given kind and records
the given declarations. -/
def Parse.Reaches {α : Type} (f : Parse σ α) (ds : List Declaration) (xs ys : List Lexeme)
    (P : α → Prop) : Prop :=
  ∀ (c : Cursor σ) (s : σ), c.Ahead xs s → c.declared.Admits ds →
    ∃ a d, Finds f c a d ∧ P a ∧ d.Ahead ys s ∧ c.declared.Grows ds d.declared

namespace Parse

variable {α β : Type} {ds ds' : List Declaration} {x : Lexeme} {xs ys zs : List Lexeme}
  {P : α → Prop} {Q : β → Prop}

theorem Reaches.append {f : Parse σ α} {g : α → Parse σ β} (hf : Reaches f ds xs ys P)
    (hg : ∀ a, P a → Reaches (g a) ds' ys zs Q) : Reaches (f >>= g) (ds ++ ds') xs zs Q := by
  intro c s hc hadmits
  have hfirst := Declarations.admits_of_append hadmits
  obtain ⟨a, d, hfc, ha, hd, hgrows⟩ := hf c s hc hfirst
  obtain ⟨b, e, hgd, hb, he, hgrows'⟩ := hg a ha d s hd ((hgrows.admits_iff hfirst).1 hadmits)
  refine ⟨b, e, ?_, hb, he, hgrows.append hgrows'⟩
  show EStateM.bind f g c = .ok b e
  simp only [EStateM.bind, show f c = .ok a d from hfc]
  exact hgd

theorem Reaches.bind {f : Parse σ α} {g : α → Parse σ β} (hf : Reaches f [] xs ys P)
    (hg : ∀ a, P a → Reaches (g a) ds ys zs Q) : Reaches (f >>= g) ds xs zs Q :=
  hf.append hg

theorem reaches_pure {a : α} (h : P a) : Reaches (pure a : Parse σ α) [] xs xs P :=
  fun c _ hc _ => ⟨a, c, rfl, h, hc, c.declared.grows_nil⟩

theorem Reaches.map {f : Parse σ α} {g : α → β} (hf : Reaches f ds xs ys P)
    (hg : ∀ a, P a → Q (g a)) : Reaches (do return g (← f)) ds xs ys Q := by
  rw [← List.append_nil ds]
  exact hf.append fun a ha => reaches_pure (hg a ha)

theorem reaches_peek (x : Lexeme) :
    Reaches (peek : Parse σ Token) [] (x :: xs) (x :: xs) fun token => token.lexeme = x := by
  intro c s hc _
  unfold Cursor.Ahead at hc
  cases hp : c.peeked with
  | some token =>
    simp only [hp] at hc
    obtain ⟨ys, hys, hsource⟩ := hc
    obtain ⟨rfl, rfl⟩ := List.cons.inj hys
    refine ⟨token, c, by simp [Finds, peek, hp], rfl, ?_, c.declared.grows_nil⟩
    simp only [Cursor.Ahead, hp]
    exact ⟨xs, rfl, hsource⟩
  | none =>
    simp only [hp] at hc
    obtain ⟨token, rest, hpull, rfl, hrest⟩ := hc
    refine ⟨token, { c with source := rest, peeked := some token }, ?_, rfl, ⟨xs, rfl, hrest⟩,
      c.declared.grows_nil⟩
    simp [Finds, peek, hp, hpull]

theorem reaches_take (x : Lexeme) :
    Reaches (take : Parse σ Token) [] (x :: xs) xs fun token => token.lexeme = x := by
  intro c s hc _
  unfold Cursor.Ahead at hc
  cases hp : c.peeked with
  | some token =>
    simp only [hp] at hc
    obtain ⟨ys, hys, hsource⟩ := hc
    obtain ⟨rfl, rfl⟩ := List.cons.inj hys
    exact ⟨token, { c with peeked := none }, by simp [Finds, take, hp], rfl, hsource,
      c.declared.grows_nil⟩
  | none =>
    simp only [hp] at hc
    obtain ⟨token, rest, hpull, rfl, hrest⟩ := hc
    refine ⟨token, { c with source := rest }, by simp [Finds, take, hp, hpull], rfl, ?_,
      c.declared.grows_nil⟩
    simpa [Cursor.Ahead, hp] using hrest

theorem reaches_peek_kind {g : Token → Parse σ β} (kind : TokenKind) (t : Text)
    (hg : ∀ token : Token, token.kind = kind → Reaches (g token) ds ((kind, t) :: xs) ys Q) :
    Reaches (peek >>= g) ds ((kind, t) :: xs) ys Q :=
  (reaches_peek (kind, t)).bind fun token h => hg token (congrArg Prod.fst h)

theorem reaches_take_kind {g : Token → Parse σ β} (kind : TokenKind) (t : Text)
    (hg : ∀ token : Token, token.kind = kind → token.text = t → Reaches (g token) ds xs ys Q) :
    Reaches (take >>= g) ds ((kind, t) :: xs) ys Q :=
  (reaches_take (kind, t)).bind fun token h =>
    hg token (congrArg Prod.fst h) (congrArg Prod.snd h)

theorem reaches_expect {g : Token → Parse σ β} (kind : TokenKind) (t : Text)
    (hg : ∀ token : Token, token.text = t → Reaches (g token) ds xs ys Q) :
    Reaches (expect kind >>= g) ds ((kind, t) :: xs) ys Q := by
  have h : Reaches (expect kind : Parse σ Token) [] ((kind, t) :: xs) xs fun token =>
      token.text = t := by
    unfold expect
    refine reaches_take_kind kind t fun token hkind htext => ?_
    simp only [hkind, if_true]
    exact reaches_pure htext
  exact h.bind hg

/-! Expressions. -/

/-- What a derivation of a phrase says about the rule for it, with a bound on the recursion. -/
def AcceptsPhrase (σ : Type) [TokenSource σ] (xs ys : List Lexeme) : Phrase → Prop
  | .binding power e => ∀ n, 2 * xs.length + 1 ≤ n + 2 * ys.length →
      Reaches (binding n power : Parse σ Expr) [] xs ys (· = e)
  | .tail power lhs e => ∀ n, 2 * xs.length + 1 ≤ n + 2 * ys.length →
      Reaches (operatorTail n power lhs : Parse σ Expr) [] xs ys (· = e)
  | .operand e => ∀ n, 2 * xs.length ≤ n + 2 * ys.length →
      Reaches (operand n : Parse σ Expr) [] xs ys (· = e)
  | .arguments es => ∀ n, 2 * xs.length ≤ n + 2 * ys.length →
      Reaches (arguments n : Parse σ (List Expr)) [] xs ys (· = es)

theorem reaches_literal {v : Value} (h : literal? x = some v) (n : Nat) :
    Reaches (operand (n + 1) : Parse σ Expr) [] (x :: xs) xs (· = .literal v) := by
  unfold literal? at h
  unfold operand
  split at h
  case h_1 t =>
    obtain ⟨value, hvalue, rfl⟩ := Option.map_eq_some_iff.1 h
    refine reaches_take_kind .number t fun token hkind htext => ?_
    simp only [hkind, htext, hvalue]
    exact reaches_pure rfl
  case h_6 => cases h
  all_goals
    cases h
    refine reaches_take_kind _ _ fun token hkind htext => ?_
    simp only [hkind, htext]
    exact reaches_pure rfl

theorem reaches_negate {e : Expr} (hx : negates x.1 = true) {n : Nat}
    (h : Reaches (binding n negatePower : Parse σ Expr) [] xs ys (· = e)) :
    Reaches (operand (n + 1) : Parse σ Expr) [] (x :: xs) ys (· = .unary .negate e) := by
  obtain ⟨kind, t⟩ := x
  unfold operand
  refine reaches_take_kind kind t fun token hkind _ => ?_
  have hcases : kind = .minus ∨ kind = .gluedMinus := by simpa [negates] using hx
  rcases hcases with rfl | rfl
  all_goals
    simp only [hkind]
    exact h.map fun a ha => by rw [ha]

theorem reaches_stop {power : Nat} {lhs : Expr} (h : Stops power x) (n : Nat) :
    Reaches (operatorTail (n + 1) power lhs : Parse σ Expr) [] (x :: xs) (x :: xs) (· = lhs) := by
  unfold operatorTail
  refine (reaches_peek x).bind fun token htoken => ?_
  have hkind : token.kind = x.1 := congrArg Prod.fst htoken
  rw [hkind]
  cases hop : operator? x.1 with
  | none => exact reaches_pure rfl
  | some i =>
    simp only [h i hop, if_true]
    exact reaches_pure rfl

section Phrases

variable {power : Nat} {lhs rhs e : Expr} {es : List Expr} {f t u : Text}

theorem accepts_binding (first : (Phrase.operand lhs).Reads xs ys)
    (rest : (Phrase.tail power lhs e).Reads ys zs) (ihfirst : AcceptsPhrase σ xs ys (.operand lhs))
    (ihrest : AcceptsPhrase σ ys zs (.tail power lhs e)) :
    AcceptsPhrase σ xs zs (.binding power e) := by
  -- The operand uses a lexeme at least, which pays for the calls of both rules.
  intro n hn
  have hfirst := first.uses.length_le
  have hrest := rest.uses.length_le
  simp only [Phrase.least] at hfirst hrest
  obtain ⟨n, rfl⟩ : ∃ m, n = m + 1 := ⟨n - 1, by omega⟩
  unfold binding
  refine (ihfirst n (by omega)).bind ?_
  rintro _ rfl
  exact ihrest n (by omega)

theorem accepts_stop (h : Stops power x) : AcceptsPhrase σ (x :: xs) (x :: xs) (.tail power lhs lhs) := by
  intro n hn
  obtain ⟨n, rfl⟩ : ∃ m, n = m + 1 := ⟨n - 1, by omega⟩
  exact reaches_stop h n

theorem accepts_operator {i : Operator} (hop : operator? x.1 = some i) (hpower : power ≤ i.left)
    (right : (Phrase.binding i.right rhs).Reads xs ys)
    (rest : (Phrase.tail power (.binary i.op lhs rhs) e).Reads ys zs)
    (ihright : AcceptsPhrase σ xs ys (.binding i.right rhs))
    (ihrest : AcceptsPhrase σ ys zs (.tail power (.binary i.op lhs rhs) e)) :
    AcceptsPhrase σ (x :: xs) zs (.tail power lhs e) := by
  intro n hn
  have hright := right.uses.length_le
  have hrest := rest.uses.length_le
  simp only [List.length_cons, Phrase.least] at hn hright hrest
  obtain ⟨n, rfl⟩ : ∃ m, n = m + 1 := ⟨n - 1, by omega⟩
  unfold operatorTail
  refine (reaches_peek x).bind fun token htoken => ?_
  have hkind : token.kind = x.1 := congrArg Prod.fst htoken
  simp only [hkind, hop, Nat.not_lt_of_le hpower, if_false]
  refine (reaches_take x).bind fun _ _ => ?_
  refine (ihright n (by omega)).bind ?_
  rintro _ rfl
  exact ihrest n (by omega)

theorem accepts_literal {v : Value} (h : literal? x = some v) :
    AcceptsPhrase σ (x :: xs) xs (.operand (.literal v)) := by
  intro n hn
  simp only [List.length_cons] at hn
  obtain ⟨n, rfl⟩ : ∃ m, n = m + 1 := ⟨n - 1, by omega⟩
  exact reaches_literal h n

theorem accepts_var (t : Text) :
    AcceptsPhrase σ ((.variableName, t) :: xs) xs (.operand (.var (variableIn t))) := by
  intro n hn
  simp only [List.length_cons] at hn
  obtain ⟨n, rfl⟩ : ∃ m, n = m + 1 := ⟨n - 1, by omega⟩
  unfold operand
  refine reaches_take_kind .variableName t fun token hkind htext => ?_
  simp only [hkind]
  exact reaches_pure (by rw [variableOf, htext]; rfl)

theorem accepts_parens (inner : (Phrase.binding 0 e).Reads xs ((.rightParen, u) :: ys))
    (ih : AcceptsPhrase σ xs ((.rightParen, u) :: ys) (.binding 0 e)) :
    AcceptsPhrase σ ((.leftParen, t) :: xs) ys (.operand e) := by
  intro n hn
  have hinner := inner.uses.length_le
  simp only [List.length_cons] at hn hinner
  obtain ⟨n, rfl⟩ : ∃ m, n = m + 1 := ⟨n - 1, by omega⟩
  unfold operand
  refine reaches_take_kind .leftParen t fun token hkind _ => ?_
  simp only [hkind]
  refine (ih n (by simp only [List.length_cons]; omega)).bind fun a ha => ?_
  exact reaches_expect .rightParen u fun _ _ => reaches_pure ha

theorem accepts_emptyCall (f t u : Text) :
    AcceptsPhrase σ ((.identifier, f) :: (.leftParen, t) :: (.rightParen, u) :: xs) xs
      (.operand (.call f [])) := by
  intro n hn
  simp only [List.length_cons] at hn
  obtain ⟨n, rfl⟩ : ∃ m, n = m + 1 := ⟨n - 1, by omega⟩
  unfold operand
  refine reaches_take_kind .identifier f fun token hkind htext => ?_
  simp only [hkind, htext]
  refine reaches_expect .leftParen t fun _ _ => ?_
  refine reaches_peek_kind .rightParen u fun next hnext => ?_
  simp only [hnext, if_true]
  exact reaches_take_kind .rightParen u fun _ _ _ => reaches_pure rfl

theorem accepts_call (hx : x.1 ≠ .rightParen) (args : (Phrase.arguments es).Reads (x :: xs) ys)
    (ih : AcceptsPhrase σ (x :: xs) ys (.arguments es)) :
    AcceptsPhrase σ ((.identifier, f) :: (.leftParen, t) :: x :: xs) ys (.operand (.call f es)) := by
  intro n hn
  have hargs := args.uses.length_le
  simp only [List.length_cons] at hn hargs
  obtain ⟨n, rfl⟩ : ∃ m, n = m + 1 := ⟨n - 1, by omega⟩
  unfold operand
  refine reaches_take_kind .identifier f fun token hkind htext => ?_
  simp only [hkind, htext]
  refine reaches_expect .leftParen t fun _ _ => ?_
  refine (reaches_peek x).bind fun next hnext => ?_
  have hne : next.kind ≠ .rightParen := by
    rw [show next.kind = x.1 from congrArg Prod.fst hnext]
    exact hx
  simp only [hne, if_false]
  exact (ih n (by simp only [List.length_cons]; omega)).map fun a ha => by rw [ha]

theorem accepts_not (inner : (Phrase.binding notPower e).Reads xs ys)
    (ih : AcceptsPhrase σ xs ys (.binding notPower e)) :
    AcceptsPhrase σ ((.not, t) :: xs) ys (.operand (.unary .not e)) := by
  intro n hn
  have hinner := inner.uses.length_le
  simp only [List.length_cons] at hn hinner
  obtain ⟨n, rfl⟩ : ∃ m, n = m + 1 := ⟨n - 1, by omega⟩
  unfold operand
  refine reaches_take_kind .not t fun token hkind _ => ?_
  simp only [hkind]
  exact (ih n (by omega)).map fun a ha => by rw [ha]

theorem accepts_negate (hx : negates x.1 = true) (inner : (Phrase.binding negatePower e).Reads xs ys)
    (ih : AcceptsPhrase σ xs ys (.binding negatePower e)) :
    AcceptsPhrase σ (x :: xs) ys (.operand (.unary .negate e)) := by
  intro n hn
  have hinner := inner.uses.length_le
  simp only [List.length_cons] at hn hinner
  obtain ⟨n, rfl⟩ : ∃ m, n = m + 1 := ⟨n - 1, by omega⟩
  exact reaches_negate hx (ih n (by omega))

theorem accepts_lastArgument (only : (Phrase.binding 0 e).Reads xs ((.rightParen, t) :: ys))
    (ih : AcceptsPhrase σ xs ((.rightParen, t) :: ys) (.binding 0 e)) :
    AcceptsPhrase σ xs ys (.arguments [e]) := by
  intro n hn
  have honly := only.uses.length_le
  simp only [List.length_cons] at honly
  obtain ⟨n, rfl⟩ : ∃ m, n = m + 1 := ⟨n - 1, by omega⟩
  unfold arguments
  refine (ih n (by simp only [List.length_cons]; omega)).bind ?_
  rintro _ rfl
  refine reaches_take_kind .rightParen t fun token hkind _ => ?_
  simp only [hkind]
  exact reaches_pure rfl

theorem accepts_argument (first : (Phrase.binding 0 e).Reads xs ((.comma, t) :: ys))
    (rest : (Phrase.arguments es).Reads ys zs)
    (ihfirst : AcceptsPhrase σ xs ((.comma, t) :: ys) (.binding 0 e))
    (ihrest : AcceptsPhrase σ ys zs (.arguments es)) : AcceptsPhrase σ xs zs (.arguments (e :: es)) := by
  intro n hn
  have hfirst := first.uses.length_le
  have hrest := rest.uses.length_le
  simp only [List.length_cons] at hfirst
  obtain ⟨n, rfl⟩ : ∃ m, n = m + 1 := ⟨n - 1, by omega⟩
  unfold arguments
  refine (ihfirst n (by simp only [List.length_cons]; omega)).bind ?_
  rintro _ rfl
  refine reaches_take_kind .comma t fun token hkind _ => ?_
  simp only [hkind]
  exact (ihrest n (by omega)).map fun a ha => by rw [ha]

theorem acceptsPhrase {p : Phrase} (h : p.Reads xs ys) : AcceptsPhrase σ xs ys p := by
  induction h with
  | binding first rest ihfirst ihrest => exact accepts_binding first rest ihfirst ihrest
  | stop h => exact accepts_stop h
  | operator hop hpower right rest ihright ihrest =>
    exact accepts_operator hop hpower right rest ihright ihrest
  | literal h => exact accepts_literal h
  | var => exact accepts_var _
  | parens inner ih => exact accepts_parens inner ih
  | emptyCall => exact accepts_emptyCall _ _ _
  | call hx args ih => exact accepts_call hx args ih
  | not inner ih => exact accepts_not inner ih
  | negate hx inner ih => exact accepts_negate hx inner ih
  | lastArgument only ih => exact accepts_lastArgument only ih
  | argument first rest ihfirst ihrest => exact accepts_argument first rest ihfirst ihrest

end Phrases

theorem reaches_expression {e : Expr} (h : ReadsExpr e xs ys) {n : Nat}
    (hn : 2 * xs.length + 1 ≤ n + 2 * ys.length) :
    Reaches (expression n : Parse σ Expr) [] xs ys (· = e) :=
  acceptsPhrase h n hn

/-! What stands on a line. -/

variable {n : Nat}

theorem reaches_trailer {hashtags : List Text} (h : Trails hashtags xs ys)
    (hn : xs.length + 1 ≤ n + ys.length) :
    Reaches (trailer n : Parse σ (List Text)) [] xs ys (· = hashtags) := by
  induction h generalizing n with
  | @hashtag t hashtags xs ys rest ih =>
    have hrest := rest.uses.length_le
    simp only [List.length_cons] at hn
    obtain ⟨n, rfl⟩ : ∃ m, n = m + 1 := ⟨n - 1, by omega⟩
    unfold trailer
    refine reaches_peek_kind .hashtag t fun token hkind => ?_
    simp only [hkind]
    refine reaches_take_kind .hashtag t fun token _ htext => ?_
    exact (ih (by omega)).map fun a ha => by rw [ha, htext]
  | @comment t hashtags xs ys rest ih =>
    have hrest := rest.uses.length_le
    simp only [List.length_cons] at hn
    obtain ⟨n, rfl⟩ : ∃ m, n = m + 1 := ⟨n - 1, by omega⟩
    unfold trailer
    refine reaches_peek_kind .comment t fun token hkind => ?_
    simp only [hkind]
    exact reaches_take_kind .comment t fun _ _ _ => ih (by omega)
  | @lineEnd t xs =>
    simp only [List.length_cons] at hn
    obtain ⟨n, rfl⟩ : ∃ m, n = m + 1 := ⟨n - 1, by omega⟩
    unfold trailer
    refine reaches_peek_kind .endOfLine t fun token hkind => ?_
    simp only [hkind]
    exact reaches_take_kind .endOfLine t fun _ _ _ => reaches_pure rfl
  | @stop x xs hhashtag hcomment hbreak =>
    obtain ⟨n, rfl⟩ : ∃ m, n = m + 1 := ⟨n - 1, by omega⟩
    unfold trailer
    refine (reaches_peek x).bind fun token htoken => ?_
    have hkind : token.kind = x.1 := congrArg Prod.fst htoken
    simp only [hkind]
    exact reaches_pure rfl

theorem reaches_inlineExpression {e : Expr} {t u : Text}
    (h : ReadsExpr e xs ((.rightBrace, u) :: ys)) (hn : 2 * xs.length ≤ n + 2 * ys.length + 1) :
    Reaches (inlineExpression n : Parse σ Expr) [] ((.leftBrace, t) :: xs) ys (· = e) := by
  unfold inlineExpression
  refine reaches_expect .leftBrace t fun _ _ => ?_
  refine (reaches_expression h (by simp only [List.length_cons]; omega)).bind fun a ha => ?_
  exact reaches_expect .rightBrace u fun _ _ => reaches_pure ha

theorem reaches_textParts {parts : List Part} (h : ReadsParts parts xs ys)
    (hn : 2 * xs.length + 1 ≤ n + 2 * ys.length) :
    Reaches (textParts n : Parse σ (List Part)) [] xs ys (· = parts) := by
  induction h generalizing n with
  | @text t parts xs ys rest ih =>
    have hrest := rest.uses.length_le
    simp only [List.length_cons] at hn
    obtain ⟨n, rfl⟩ : ∃ m, n = m + 1 := ⟨n - 1, by omega⟩
    unfold textParts
    refine reaches_peek_kind .text t fun token hkind => ?_
    simp only [hkind]
    refine reaches_take_kind .text t fun token _ htext => ?_
    exact (ih (by omega)).map fun a ha => by rw [ha, htext]
  | @escape t parts xs ys rest ih =>
    have hrest := rest.uses.length_le
    simp only [List.length_cons] at hn
    obtain ⟨n, rfl⟩ : ∃ m, n = m + 1 := ⟨n - 1, by omega⟩
    unfold textParts
    refine reaches_peek_kind .escape t fun token hkind => ?_
    simp only [hkind]
    refine reaches_take_kind .escape t fun token _ htext => ?_
    exact (ih (by omega)).map fun a ha => by rw [ha, htext]
  | @inline t u e parts xs ys zs inner rest ih =>
    have hinner := inner.uses.length_le
    have hrest := rest.uses.length_le
    simp only [List.length_cons] at hn hinner
    obtain ⟨n, rfl⟩ : ∃ m, n = m + 1 := ⟨n - 1, by omega⟩
    unfold textParts
    refine reaches_peek_kind .leftBrace t fun token hkind => ?_
    simp only [hkind]
    refine (reaches_inlineExpression inner (by omega)).bind ?_
    rintro _ rfl
    exact (ih (by omega)).map fun a ha => by rw [ha]
  | @stop x xs hx =>
    obtain ⟨htext, hescape, hbrace⟩ := isPart_eq_false_iff.1 hx
    obtain ⟨n, rfl⟩ : ∃ m, n = m + 1 := ⟨n - 1, by omega⟩
    unfold textParts
    refine (reaches_peek x).bind fun token htoken => ?_
    have hkind : token.kind = x.1 := congrArg Prod.fst htoken
    simp only [hkind]
    exact reaches_pure rfl

theorem reaches_commandParts {parts : List Part} (h : ReadsCommandParts parts xs ys)
    {started : Bool} (hstarted : started = false → parts ≠ [])
    (hn : 2 * xs.length + 1 ≤ n + 2 * ys.length) :
    Reaches (commandParts n started : Parse σ (List Part)) [] xs ys (· = parts) := by
  induction h generalizing n started with
  | @text t parts xs ys rest ih =>
    have hrest := rest.uses.length_le
    simp only [List.length_cons] at hn
    obtain ⟨n, rfl⟩ : ∃ m, n = m + 1 := ⟨n - 1, by omega⟩
    unfold commandParts
    refine reaches_peek_kind .text t fun token hkind => ?_
    simp only [hkind]
    refine reaches_take_kind .text t fun token _ htext => ?_
    exact (ih (by simp) (by omega)).map fun a ha => by rw [ha, htext]
  | @inline t u e parts xs ys zs inner rest ih =>
    have hinner := inner.uses.length_le
    have hrest := rest.uses.length_le
    simp only [List.length_cons] at hn hinner
    obtain ⟨n, rfl⟩ : ∃ m, n = m + 1 := ⟨n - 1, by omega⟩
    unfold commandParts
    refine reaches_peek_kind .leftBrace t fun token hkind => ?_
    simp only [hkind]
    refine (reaches_inlineExpression inner (by omega)).bind ?_
    rintro _ rfl
    exact (ih (by simp) (by omega)).map fun a ha => by rw [ha]
  | @stop t xs =>
    have hyes : started = true := by simpa using hstarted
    obtain ⟨n, rfl⟩ : ∃ m, n = m + 1 := ⟨n - 1, by omega⟩
    unfold commandParts
    refine reaches_peek_kind .endCommand t fun token hkind => ?_
    simp only [hkind, hyes, if_true]
    exact reaches_pure rfl

theorem reaches_closeCommand {hashtags : List Text} (h : Closes hashtags xs ys)
    (hn : xs.length ≤ n + ys.length) :
    Reaches (closeCommand n : Parse σ (List Text)) [] xs ys (· = hashtags) := by
  cases h with
  | @intro t _ xs _ trail =>
    unfold closeCommand
    refine reaches_expect .endCommand t fun _ _ => ?_
    exact reaches_trailer trail (by simpa using hn)

theorem reaches_guardClause {guard : Option Expr} (h : ReadsGuard guard xs ys)
    (hn : 2 * xs.length ≤ n + 2 * ys.length) :
    Reaches (guardClause n : Parse σ (Option Expr)) [] xs ys (· = guard) := by
  unfold guardClause
  cases h with
  | @none x xs hx =>
    refine (reaches_peek x).bind fun token htoken => ?_
    have hne : token.kind ≠ .beginCommand := by
      rw [show token.kind = x.1 from congrArg Prod.fst htoken]
      exact hx
    simp only [hne, if_false]
    exact reaches_pure rfl
  | @some t u w e xs ys condition =>
    simp only [List.length_cons] at hn
    refine reaches_peek_kind .beginCommand t fun token hkind => ?_
    simp only [hkind, if_true]
    refine reaches_take_kind .beginCommand t fun _ _ _ => ?_
    refine reaches_expect .ifWord u fun _ _ => ?_
    refine (reaches_expression condition (by simp only [List.length_cons]; omega)).bind ?_
    rintro _ rfl
    exact reaches_expect .endCommand w fun _ _ => reaches_pure rfl

theorem reaches_typeClause {type : Option TypeName} (h : ReadsType type xs ys) :
    Reaches (typeClause : Parse σ (Option TypeName)) [] xs ys (· = type) := by
  unfold typeClause
  cases h with
  | @none x xs hx =>
    refine (reaches_peek x).bind fun token htoken => ?_
    have hne : token.kind ≠ .asWord := by
      rw [show token.kind = x.1 from congrArg Prod.fst htoken]
      exact hx
    simp only [hne, if_false]
    exact reaches_pure rfl
  | @some t u type xs htype =>
    refine reaches_peek_kind .asWord t fun token hkind => ?_
    simp only [hkind, if_true]
    refine reaches_take_kind .asWord t fun _ _ _ => ?_
    refine reaches_expect .typeName u fun token htext => ?_
    simp only [htext, htype]
    exact reaches_pure rfl

theorem reaches_jumpTarget {target : JumpTarget} (h : ReadsTarget target xs ys)
    (hn : 2 * xs.length ≤ n + 2 * ys.length) :
    Reaches (jumpTarget n : Parse σ JumpTarget) [] xs ys (· = target) := by
  unfold jumpTarget
  cases h with
  | @title t xs =>
    refine reaches_peek_kind .identifier t fun token hkind => ?_
    simp only [hkind]
    exact reaches_take_kind .identifier t fun _ _ htext => reaches_pure (by rw [htext])
  | @expr t u e xs ys inner =>
    simp only [List.length_cons] at hn
    refine reaches_peek_kind .leftBrace t fun token hkind => ?_
    simp only [hkind]
    exact (reaches_inlineExpression inner (by omega)).map fun a ha => by rw [ha]

theorem reaches_declare {new : Declaration} {span : Span} :
    Reaches (declare new span : Parse σ Unit) [new.unnumbered] xs xs fun _ => True := by
  intro c s hc hadmits
  obtain ⟨declared, hdeclared⟩ : ∃ d, c.declared.register new span = .ok d :=
    ⟨_, Declarations.register_eq_ok_iff.2 ⟨hadmits, rfl⟩⟩
  refine ⟨(), { c with declared := declared }, ?_, trivial, hc, [new], rfl, ?_⟩
  · simp [Finds, declare, hdeclared]
  · exact (Declarations.register_eq_ok_iff.1 hdeclared).2

theorem reaches_plain {found : Command} (h : ReadsPlain found ds xs ys)
    (hn : 2 * xs.length + 1 ≤ n + 2 * ys.length) (opening : Token) :
    Reaches (command (n + 1) opening : Parse σ Command) ds xs ys (·.unnumbered = found) := by
  unfold command
  cases h with
  | @assign t u w value hashtags xs ys zs right close =>
    have hright := right.uses.length_le
    have hclose := close.uses.length_le
    simp only [List.length_cons] at hn
    refine reaches_peek_kind .setWord t fun token hkind => ?_
    simp only [hkind]
    refine reaches_take_kind .setWord t fun _ _ _ => ?_
    refine Reaches.map (P := fun s => s.unnumbered = .assign (variableIn u) value 0 hashtags) ?_ ?_
    · unfold assignment
      refine reaches_expect .variableName u fun name hname => ?_
      refine reaches_expect .assign w fun _ _ => ?_
      refine (reaches_expression right (by omega)).bind ?_
      rintro _ rfl
      exact (reaches_closeCommand close (by omega)).map fun a ha => by
        rw [ha, variableOf, hname]
        rfl
    · intro s hs
      rw [Command.unnumbered, hs]
  | @declare t u w value type hashtags xs ys zs ws right typed close =>
    have hright := right.uses.length_le
    have htyped := typed.uses.length_le
    have hclose := close.uses.length_le
    simp only [List.length_cons] at hn
    refine reaches_peek_kind .declareWord t fun token hkind => ?_
    simp only [hkind]
    refine reaches_take_kind .declareWord t fun _ _ _ => ?_
    refine Reaches.map (f := declaration n opening) (P := fun _ => True) ?_ fun _ _ => rfl
    unfold declaration
    refine reaches_expect .variableName u fun name hname => ?_
    refine reaches_expect .assign w fun _ _ => ?_
    refine (reaches_expression right (by omega)).bind ?_
    rintro value rfl
    refine (reaches_typeClause typed).bind ?_
    rintro type rfl
    refine (reaches_closeCommand close (by omega)).bind fun _ _ => ?_
    have hnew : (⟨variableIn u, value, type, 0⟩ : Declaration) =
        (⟨variableOf name, value, type, opening.span.line⟩ : Declaration).unnumbered := by
      rw [Declaration.unnumbered, variableOf, hname]
      rfl
    rw [hnew]
    exact reaches_declare
  | @jump t target hashtags xs ys zs aim close =>
    have haim := aim.uses.length_le
    have hclose := close.uses.length_le
    simp only [List.length_cons] at hn
    refine reaches_peek_kind .jumpWord t fun token hkind => ?_
    simp only [hkind]
    refine reaches_take_kind .jumpWord t fun _ _ _ => ?_
    refine (reaches_jumpTarget aim (by omega)).bind ?_
    rintro _ rfl
    exact (reaches_closeCommand close (by omega)).map fun a ha => by rw [ha]; rfl
  | @stop t hashtags xs ys close =>
    have hclose := close.uses.length_le
    simp only [List.length_cons] at hn
    refine reaches_peek_kind .stopWord t fun token hkind => ?_
    simp only [hkind]
    refine reaches_take_kind .stopWord t fun _ _ _ => ?_
    exact (reaches_closeCommand close (by omega)).map fun a ha => by rw [ha]; rfl
  | @generic parts hashtags _ _ _ hparts words close =>
    have hwords := words.uses.length_le
    have hclose := close.uses.length_le
    have hgeneric : Reaches (do return Command.statement (← genericCommand n opening) : Parse σ Command)
        [] xs ys (·.unnumbered = .statement (.command parts 0 hashtags)) := by
      refine Reaches.map (P := fun s => s.unnumbered = .command parts 0 hashtags) ?_ ?_
      · unfold genericCommand
        refine (reaches_commandParts words (fun _ => hparts) (by omega)).bind ?_
        rintro _ rfl
        exact (reaches_closeCommand close (by omega)).map fun a ha => by rw [ha]; rfl
      · intro s hs
        rw [Command.unnumbered, hs]
    cases words with
    | @text t =>
      refine reaches_peek_kind .text t fun token hkind => ?_
      simp only [hkind]
      exact hgeneric
    | @inline t =>
      refine reaches_peek_kind .leftBrace t fun token hkind => ?_
      simp only [hkind]
      exact hgeneric
    | stop => exact absurd rfl hparts

/-! Blocks. -/

def AcceptsPassage (σ : Type) [TokenSource σ] (ds : List Declaration) (xs ys : List Lexeme) :
    Passage → Prop
  | .block ss e => ∀ n, 4 * xs.length + 2 ≤ n + 4 * ys.length →
      Reaches (block n : Parse σ Block) ds xs ys fun b =>
        unnumberedAll b.statements = ss ∧ b.ending = e
  | .option o => ∀ n, 4 * xs.length ≤ n + 4 * ys.length →
      Reaches (option n : Parse σ Choice) ds xs ys (·.unnumbered = o)
  | .command found => ∀ n opening, 4 * xs.length ≤ n + 4 * ys.length →
      Reaches (command n opening : Parse σ Command) ds xs ys (·.unnumbered = found)
  | .arms body otherwise => ∀ n, 4 * xs.length + 3 ≤ n + 4 * ys.length →
      Reaches (arms n : Parse σ (List Statement × Otherwise)) ds xs ys fun found =>
        unnumberedAll found.1 = body ∧ found.2.unnumbered = otherwise

theorem Reaches.cons {s : Statement} {ss : List Statement} {e : BlockEnd}
    (h : Reaches (block n : Parse σ Block) ds xs ys fun b =>
      unnumberedAll b.statements = ss ∧ b.ending = e) :
    Reaches (do return (← block n).cons s : Parse σ Block) ds xs ys fun b =>
      unnumberedAll b.statements = s.unnumbered :: ss ∧ b.ending = e := by
  refine h.map ?_
  rintro b ⟨rfl, rfl⟩
  exact ⟨rfl, rfl⟩

theorem reaches_textLine {parts : List Part} {hashtags : List Text} (hparts : parts ≠ [])
    (first : ReadsParts parts xs ys) (trail : Trails hashtags ys zs)
    (hn : 2 * xs.length + 1 ≤ n + 2 * zs.length) :
    Reaches (textLine n : Parse σ Statement) [] xs zs (·.unnumbered = .line parts 0 hashtags) := by
  have hfirst := first.uses.length_le
  have htrail := trail.uses.length_le
  have hne : xs ≠ [] := by
    rintro rfl
    have hpos := List.length_pos_iff.2 hparts
    simp only [List.length_nil] at hfirst
    omega
  obtain ⟨x, rest, rfl⟩ := List.exists_cons_of_ne_nil hne
  unfold textLine
  refine (reaches_peek x).bind fun token _ => ?_
  refine (reaches_textParts first (by omega)).bind ?_
  rintro _ rfl
  exact (reaches_trailer trail (by omega)).map fun a ha => by rw [ha]; rfl

theorem reaches_optionLabel {parts : List Part} (hparts : parts ≠ []) (h : ReadsParts parts xs ys)
    (hn : 2 * xs.length + 1 ≤ n + 2 * ys.length) :
    Reaches (optionLabel n : Parse σ (List Part)) [] xs ys (· = parts) := by
  unfold optionLabel
  refine (reaches_textParts h hn).bind ?_
  rintro parts rfl
  split
  · exact absurd rfl hparts
  · exact reaches_pure rfl

theorem reaches_block_command {t : Text} {found : Command} {P : Block → Prop}
    (first : ∀ opening, Reaches (command n opening : Parse σ Command) ds xs ys (·.unnumbered = found))
    (rest : ∀ (span : Span) (a : Command), a.unnumbered = found → Reaches (match a with
      | .statement s => do return (← block n).cons s
      | .ending e => return ⟨[], e, span⟩
      | .declaration => block n : Parse σ Block) ds' ys zs P) :
    Reaches (block (n + 1) : Parse σ Block) (ds ++ ds') ((.beginCommand, t) :: xs) zs P := by
  unfold block
  refine reaches_peek_kind .beginCommand t fun token hkind => ?_
  simp only [hkind]
  refine reaches_take_kind .beginCommand t fun opening _ _ => ?_
  exact (first opening).append fun a ha => rest token.span a ha

theorem reaches_option_head {t : Text} {parts : List Part} {guard : Option Expr}
    {hashtags : List Text} {ws : List Lexeme} {P : Choice → Prop} (hparts : parts ≠ [])
    (label : ReadsParts parts xs ys) (hguard : ReadsGuard guard ys zs) (trail : Trails hashtags zs ws)
    (hn : 2 * xs.length + 1 ≤ n + 2 * ws.length) {vs : List Lexeme}
    (rest : ∀ number : Nat, Reaches (do
      if (← peek).kind = .indent then
        let _ ← take
        let body ← block n
        match body.ending with
        | .dedent => return ⟨parts, guard, some body.statements, number, hashtags⟩
        | _ => misplaced body [.dedent]
      else return ⟨parts, guard, none, number, hashtags⟩ : Parse σ Choice) ds ws vs P) :
    Reaches (option (n + 1) : Parse σ Choice) ds ((.arrow, t) :: xs) vs P := by
  have hlabel := label.uses.length_le
  have hguarded := hguard.uses.length_le
  have htrail := trail.uses.length_le
  unfold option
  refine reaches_expect .arrow t fun arrow _ => ?_
  refine (reaches_optionLabel hparts label (by omega)).bind ?_
  rintro parts rfl
  refine (reaches_guardClause hguard (by omega)).bind ?_
  rintro guard rfl
  refine (reaches_trailer trail (by omega)).bind ?_
  rintro hashtags rfl
  exact rest arrow.span.line

section Passages

variable {ss inner : List Statement} {e : BlockEnd} {parts : List Part} {guard : Option Expr}
  {condition : Expr} {otherwise : Otherwise} {hashtags : List Text} {t u : Text} {ws vs : List Lexeme}

theorem accepts_idle (hx : isIdle x.1 = true) (rest : (Passage.block ss e).Reads ds xs ys)
    (ih : AcceptsPassage σ ds xs ys (.block ss e)) : AcceptsPassage σ ds (x :: xs) ys (.block ss e) := by
  intro n hn
  have hrest := rest.uses.length_le
  simp only [List.length_cons] at hn
  obtain ⟨n, rfl⟩ : ∃ m, n = m + 1 := ⟨n - 1, by omega⟩
  obtain ⟨kind, t⟩ := x
  unfold block
  refine reaches_peek_kind kind t fun token hkind => ?_
  have hcases : kind = .endOfLine ∨ kind = .comment := by simpa [isIdle] using hx
  rcases hcases with rfl | rfl
  all_goals
    simp only [hkind]
    exact reaches_take_kind _ t fun _ _ _ => ih n (by omega)

theorem accepts_inputEnd (t : Text) :
    AcceptsPassage σ [] ((.endOfInput, t) :: xs) ((.endOfInput, t) :: xs) (.block [] .endOfInput) := by
  intro n hn
  obtain ⟨n, rfl⟩ : ∃ m, n = m + 1 := ⟨n - 1, by omega⟩
  unfold block
  refine reaches_peek_kind .endOfInput t fun token hkind => ?_
  simp only [hkind]
  exact reaches_pure ⟨rfl, rfl⟩

theorem accepts_dedent (t : Text) : AcceptsPassage σ [] ((.dedent, t) :: xs) xs (.block [] .dedent) := by
  intro n hn
  simp only [List.length_cons] at hn
  obtain ⟨n, rfl⟩ : ∃ m, n = m + 1 := ⟨n - 1, by omega⟩
  unfold block
  refine reaches_peek_kind .dedent t fun token hkind => ?_
  simp only [hkind]
  exact reaches_take_kind .dedent t fun _ _ _ => reaches_pure ⟨rfl, rfl⟩

theorem accepts_option {o : Choice} (first : (Passage.option o).Reads ds xs ys)
    (rest : (Passage.block ss e).Reads ds' ys zs) (ihfirst : AcceptsPassage σ ds xs ys (.option o))
    (ihrest : AcceptsPassage σ ds' ys zs (.block ss e)) :
    AcceptsPassage σ (ds ++ ds') xs zs (.block (.option o :: ss) e) := by
  intro n hn
  have hfirst := first.uses.length_le
  have hrest := rest.uses.length_le
  simp only [Passage.least] at hfirst
  obtain ⟨n, rfl⟩ : ∃ m, n = m + 1 := ⟨n - 1, by omega⟩
  obtain ⟨t, front, rfl⟩ : ∃ t front, xs = (.arrow, t) :: front := by
    cases first <;> exact ⟨_, _, rfl⟩
  unfold block
  refine reaches_peek_kind .arrow t fun token hkind => ?_
  simp only [hkind]
  refine (ihfirst n (by omega)).append ?_
  rintro o rfl
  exact (ihrest n (by omega)).cons

theorem accepts_line (hparts : parts ≠ []) (first : ReadsParts parts xs ys) (trail : Trails hashtags ys zs)
    (rest : (Passage.block ss e).Reads ds zs ws) (ih : AcceptsPassage σ ds zs ws (.block ss e)) :
    AcceptsPassage σ ds xs ws (.block (.line parts 0 hashtags :: ss) e) := by
  intro n hn
  have hfirst := first.uses.length_le
  have htrail := trail.uses.length_le
  have hrest := rest.uses.length_le
  have hpos := List.length_pos_iff.2 hparts
  obtain ⟨n, rfl⟩ : ∃ m, n = m + 1 := ⟨n - 1, by omega⟩
  have hline : Reaches (do
      let s ← textLine n
      return (← block n).cons s : Parse σ Block) ds xs ws fun b =>
        unnumberedAll b.statements = .line parts 0 hashtags :: ss ∧ b.ending = e := by
    refine (reaches_textLine hparts first trail (by omega)).bind fun s hs => ?_
    rw [← hs]
    exact (ih n (by omega)).cons
  unfold block
  cases first with
  | @text t | @escape t | @inline t =>
    refine reaches_peek_kind _ t fun token hkind => ?_
    simp only [hkind]
    exact hline
  | stop => exact absurd rfl hparts

theorem accepts_statement {s : Statement} (first : (Passage.command (.statement s)).Reads ds xs ys)
    (rest : (Passage.block ss e).Reads ds' ys zs)
    (ihfirst : AcceptsPassage σ ds xs ys (.command (.statement s)))
    (ihrest : AcceptsPassage σ ds' ys zs (.block ss e)) :
    AcceptsPassage σ (ds ++ ds') ((.beginCommand, t) :: xs) zs (.block (s :: ss) e) := by
  intro n hn
  have hfirst := first.uses.length_le
  have hrest := rest.uses.length_le
  simp only [List.length_cons] at hn
  obtain ⟨n, rfl⟩ : ∃ m, n = m + 1 := ⟨n - 1, by omega⟩
  refine reaches_block_command (fun opening => ihfirst n opening (by omega)) fun span a ha => ?_
  cases a with
  | statement s' =>
    cases ha
    exact (ihrest n (by omega)).cons
  | ending e => cases ha
  | declaration => cases ha

theorem accepts_declaration (first : (Passage.command .declaration).Reads ds xs ys)
    (rest : (Passage.block ss e).Reads ds' ys zs)
    (ihfirst : AcceptsPassage σ ds xs ys (.command .declaration))
    (ihrest : AcceptsPassage σ ds' ys zs (.block ss e)) :
    AcceptsPassage σ (ds ++ ds') ((.beginCommand, t) :: xs) zs (.block ss e) := by
  intro n hn
  have hfirst := first.uses.length_le
  have hrest := rest.uses.length_le
  simp only [List.length_cons] at hn
  obtain ⟨n, rfl⟩ : ∃ m, n = m + 1 := ⟨n - 1, by omega⟩
  refine reaches_block_command (fun opening => ihfirst n opening (by omega)) fun span a ha => ?_
  cases a with
  | statement s' => cases ha
  | ending e => cases ha
  | declaration => exact ihrest n (by omega)

theorem accepts_ending (only : (Passage.command (.ending e)).Reads ds xs ys)
    (ih : AcceptsPassage σ ds xs ys (.command (.ending e))) :
    AcceptsPassage σ ds ((.beginCommand, t) :: xs) ys (.block [] e) := by
  intro n hn
  have honly := only.uses.length_le
  simp only [List.length_cons] at hn
  obtain ⟨n, rfl⟩ : ∃ m, n = m + 1 := ⟨n - 1, by omega⟩
  rw [← List.append_nil ds]
  refine reaches_block_command (fun opening => ih n opening (by omega)) fun span a ha => ?_
  cases a with
  | statement s' => cases ha
  | ending e =>
    cases ha
    exact reaches_pure ⟨rfl, rfl⟩
  | declaration => cases ha

theorem accepts_leaf (hparts : parts ≠ []) (label : ReadsParts parts xs ys)
    (hguard : ReadsGuard guard ys zs) (trail : Trails hashtags zs (x :: ws)) (hx : x.1 ≠ .indent) :
    AcceptsPassage σ [] ((.arrow, t) :: xs) (x :: ws) (.option ⟨parts, guard, none, 0, hashtags⟩) := by
  intro n hn
  have hlabel := label.uses.length_le
  have hguarded := hguard.uses.length_le
  have htrail := trail.uses.length_le
  simp only [List.length_cons] at hn hlabel hguarded htrail
  obtain ⟨n, rfl⟩ : ∃ m, n = m + 1 := ⟨n - 1, by omega⟩
  refine reaches_option_head hparts label hguard trail (by simp only [List.length_cons]; omega)
    fun number => ?_
  refine (reaches_peek x).bind fun token htoken => ?_
  have hne : token.kind ≠ .indent := by
    rw [show token.kind = x.1 from congrArg Prod.fst htoken]
    exact hx
  simp only [hne, if_false]
  exact reaches_pure rfl

theorem accepts_nested (hparts : parts ≠ []) (label : ReadsParts parts xs ys)
    (hguard : ReadsGuard guard ys zs) (trail : Trails hashtags zs ((.indent, u) :: ws))
    (body : (Passage.block ss .dedent).Reads ds ws vs)
    (ih : AcceptsPassage σ ds ws vs (.block ss .dedent)) :
    AcceptsPassage σ ds ((.arrow, t) :: xs) vs (.option ⟨parts, guard, some ss, 0, hashtags⟩) := by
  intro n hn
  have hlabel := label.uses.length_le
  have hguarded := hguard.uses.length_le
  have htrail := trail.uses.length_le
  have hbody := body.uses.length_le
  simp only [List.length_cons] at hn htrail
  obtain ⟨n, rfl⟩ : ∃ m, n = m + 1 := ⟨n - 1, by omega⟩
  refine reaches_option_head hparts label hguard trail (by simp only [List.length_cons]; omega)
    fun number => ?_
  refine reaches_peek_kind .indent u fun token hkind => ?_
  simp only [hkind, if_true]
  refine reaches_take_kind .indent u fun _ _ _ => ?_
  rw [← List.append_nil ds]
  refine (ih n (by omega)).append ?_
  rintro b ⟨rfl, hending⟩
  simp only [hending]
  exact reaches_pure rfl

theorem accepts_plain {found : Command} (h : ReadsPlain found ds xs ys) :
    AcceptsPassage σ ds xs ys (.command found) := by
  intro n opening hn
  have huses := h.uses.length_le
  obtain ⟨n, rfl⟩ : ∃ m, n = m + 1 := ⟨n - 1, by omega⟩
  exact reaches_plain h (by omega) opening

theorem accepts_branch (test : ReadsExpr condition xs ys) (close : Closes hashtags ys zs)
    (rest : (Passage.arms ss otherwise).Reads ds zs ws)
    (ih : AcceptsPassage σ ds zs ws (.arms ss otherwise)) :
    AcceptsPassage σ ds ((.ifWord, t) :: xs) ws
      (.command (.statement (.branch condition ss otherwise hashtags))) := by
  intro n opening hn
  have htest := test.uses.length_le
  have hclose := close.uses.length_le
  have hrest := rest.uses.length_le
  simp only [List.length_cons, Phrase.least, Passage.least] at hn htest hrest
  obtain ⟨n, rfl⟩ : ∃ m, n = m + 1 := ⟨n - 1, by omega⟩
  unfold command
  refine reaches_peek_kind .ifWord t fun token hkind => ?_
  simp only [hkind]
  refine reaches_take_kind .ifWord t fun _ _ _ => ?_
  refine (reaches_expression test (by omega)).bind ?_
  rintro condition rfl
  refine (reaches_closeCommand close (by omega)).bind ?_
  rintro hashtags rfl
  rw [← List.append_nil ds]
  refine (ih n (by omega)).append ?_
  rintro ⟨body, otherwise⟩ ⟨rfl, rfl⟩
  exact reaches_pure rfl

theorem accepts_elseif (test : ReadsExpr condition xs ys) (close : Closes hashtags ys zs) :
    AcceptsPassage σ [] ((.elseifWord, t) :: xs) zs (.command (.ending (.elseif condition hashtags))) := by
  intro n opening hn
  have htest := test.uses.length_le
  have hclose := close.uses.length_le
  simp only [List.length_cons] at hn
  obtain ⟨n, rfl⟩ : ∃ m, n = m + 1 := ⟨n - 1, by omega⟩
  unfold command
  refine reaches_peek_kind .elseifWord t fun token hkind => ?_
  simp only [hkind]
  refine reaches_take_kind .elseifWord t fun _ _ _ => ?_
  refine (reaches_expression test (by omega)).bind ?_
  rintro condition rfl
  exact (reaches_closeCommand close (by omega)).map fun a ha => by rw [ha]; rfl

theorem accepts_otherwise (close : Closes hashtags xs ys) :
    AcceptsPassage σ [] ((.elseWord, t) :: xs) ys (.command (.ending .otherwise)) := by
  intro n opening hn
  have hclose := close.uses.length_le
  simp only [List.length_cons] at hn
  obtain ⟨n, rfl⟩ : ∃ m, n = m + 1 := ⟨n - 1, by omega⟩
  unfold command
  refine reaches_peek_kind .elseWord t fun token hkind => ?_
  simp only [hkind]
  refine reaches_take_kind .elseWord t fun _ _ _ => ?_
  exact (reaches_closeCommand close (by omega)).map fun _ _ => rfl

theorem accepts_endif (close : Closes hashtags xs ys) :
    AcceptsPassage σ [] ((.endifWord, t) :: xs) ys (.command (.ending .endif)) := by
  intro n opening hn
  have hclose := close.uses.length_le
  simp only [List.length_cons] at hn
  obtain ⟨n, rfl⟩ : ∃ m, n = m + 1 := ⟨n - 1, by omega⟩
  unfold command
  refine reaches_peek_kind .endifWord t fun token hkind => ?_
  simp only [hkind]
  refine reaches_take_kind .endifWord t fun _ _ _ => ?_
  exact (reaches_closeCommand close (by omega)).map fun _ _ => rfl

theorem accepts_lastArm (body : (Passage.block ss .endif).Reads ds xs ys)
    (ih : AcceptsPassage σ ds xs ys (.block ss .endif)) :
    AcceptsPassage σ ds xs ys (.arms ss .nothing) := by
  intro n hn
  have hbody := body.uses.length_le
  obtain ⟨n, rfl⟩ : ∃ m, n = m + 1 := ⟨n - 1, by omega⟩
  unfold arms
  rw [← List.append_nil ds]
  refine (ih n (by omega)).append ?_
  rintro b ⟨rfl, hending⟩
  simp only [hending]
  exact reaches_pure ⟨rfl, rfl⟩

theorem accepts_nextArm (body : (Passage.block ss (.elseif condition hashtags)).Reads ds xs ys)
    (rest : (Passage.arms inner otherwise).Reads ds' ys zs)
    (ihbody : AcceptsPassage σ ds xs ys (.block ss (.elseif condition hashtags)))
    (ihrest : AcceptsPassage σ ds' ys zs (.arms inner otherwise)) :
    AcceptsPassage σ (ds ++ ds') xs zs (.arms ss (.branch condition inner otherwise hashtags)) := by
  intro n hn
  have hbody := body.uses.length_le
  have hrest := rest.uses.length_le
  simp only [Passage.least, BlockEnd.least] at hbody
  obtain ⟨n, rfl⟩ : ∃ m, n = m + 1 := ⟨n - 1, by omega⟩
  unfold arms
  refine (ihbody n (by omega)).append ?_
  rintro b ⟨rfl, hending⟩
  simp only [hending]
  refine (ihrest n (by omega)).map ?_
  rintro ⟨inner, otherwise⟩ ⟨rfl, rfl⟩
  exact ⟨rfl, rfl⟩

theorem accepts_elseArm (body : (Passage.block ss .otherwise).Reads ds xs ys)
    (rest : (Passage.block inner .endif).Reads ds' ys zs)
    (ihbody : AcceptsPassage σ ds xs ys (.block ss .otherwise))
    (ihrest : AcceptsPassage σ ds' ys zs (.block inner .endif)) :
    AcceptsPassage σ (ds ++ ds') xs zs (.arms ss (.statements inner)) := by
  intro n hn
  have hbody := body.uses.length_le
  have hrest := rest.uses.length_le
  simp only [Passage.least, BlockEnd.least] at hbody
  obtain ⟨n, rfl⟩ : ∃ m, n = m + 1 := ⟨n - 1, by omega⟩
  unfold arms
  refine (ihbody n (by omega)).append ?_
  rintro b ⟨rfl, hending⟩
  simp only [hending]
  rw [← List.append_nil ds']
  refine (ihrest n (by omega)).append ?_
  rintro rest ⟨rfl, hlast⟩
  simp only [hlast]
  exact reaches_pure ⟨rfl, rfl⟩

theorem acceptsPassage {p : Passage} (h : p.Reads ds xs ys) : AcceptsPassage σ ds xs ys p := by
  induction h with
  | idle hx rest ih => exact accepts_idle hx rest ih
  | inputEnd => exact accepts_inputEnd _
  | dedent => exact accepts_dedent _
  | option first rest ihfirst ihrest => exact accepts_option first rest ihfirst ihrest
  | line hparts first trail rest ih => exact accepts_line hparts first trail rest ih
  | statement first rest ihfirst ihrest => exact accepts_statement first rest ihfirst ihrest
  | declaration first rest ihfirst ihrest => exact accepts_declaration first rest ihfirst ihrest
  | ending only ih => exact accepts_ending only ih
  | leaf hparts label hguard trail hx => exact accepts_leaf hparts label hguard trail hx
  | nested hparts label hguard trail body ih =>
    exact accepts_nested hparts label hguard trail body ih
  | plain h => exact accepts_plain h
  | branch test close rest ih => exact accepts_branch test close rest ih
  | elseif test close => exact accepts_elseif test close
  | otherwise close => exact accepts_otherwise close
  | endif close => exact accepts_endif close
  | lastArm body ih => exact accepts_lastArm body ih
  | nextArm body rest ihbody ihrest => exact accepts_nextArm body rest ihbody ihrest
  | elseArm body rest ihbody ihrest => exact accepts_elseArm body rest ihbody ihrest

end Passages

theorem reaches_body {ss : List Statement} (h : (Passage.block ss .endOfInput).Reads ds xs ys)
    (hn : 4 * xs.length + 2 ≤ n + 4 * ys.length) :
    Reaches (body n : Parse σ (List Statement)) ds xs ys (unnumberedAll · = ss) := by
  unfold body
  rw [← List.append_nil ds]
  refine (acceptsPassage h n hn).append ?_
  rintro b ⟨rfl, hending⟩
  simp only [hending]
  exact reaches_pure rfl

end Parse

end Rules

end Parley.Body
