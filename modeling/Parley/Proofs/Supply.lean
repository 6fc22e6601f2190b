import Parley.Body.Parse
set_option autoImplicit false

/-!
Rules of the grammar on supplies that are known in advance.

A rule is described by the lexemes it starts and stops at and by its result; how the tokens come about
and which of them is peeked at makes no difference.
-/

namespace Parley.Body

abbrev Lexeme := TokenKind × Text

def Token.lexeme (t : Token) : Lexeme :=
  (t.kind, t.text)

section Supply

variable {σ : Type} [TokenSource σ]

def Gives : σ → List Lexeme → Prop
  | _, [] => True
  | s, x :: xs => ∃ token rest, TokenSource.pull s = .ok (token, rest) ∧ token.lexeme = x ∧
      Gives rest xs

def Leads : σ → List Lexeme → σ → Prop
  | s, [], s' => s = s'
  | s, x :: xs, s' => ∃ token rest, TokenSource.pull s = .ok (token, rest) ∧ token.lexeme = x ∧
      Leads rest xs s'

theorem Leads.append {xs ys : List Lexeme} {s s' s'' : σ} (h : Leads s xs s')
    (h' : Leads s' ys s'') : Leads s (xs ++ ys) s'' := by
  induction xs generalizing s with
  | nil =>
    cases h
    exact h'
  | cons x xs ih =>
    obtain ⟨token, rest, hpull, hx, hrest⟩ := h
    exact ⟨token, rest, hpull, hx, ih hrest⟩

theorem Leads.gives {xs ys : List Lexeme} {s s' : σ} (h : Leads s xs s') (h' : Gives s' ys) :
    Gives s (xs ++ ys) := by
  induction xs generalizing s with
  | nil =>
    cases h
    exact h'
  | cons x xs ih =>
    obtain ⟨token, rest, hpull, hx, hrest⟩ := h
    exact ⟨token, rest, hpull, hx, ih hrest⟩

def Cursor.Gives (c : Cursor σ) (xs : List Lexeme) : Prop :=
  match c.peeked, xs with
  | none, xs => Body.Gives c.source xs
  | some _, [] => True
  | some token, x :: xs => token.lexeme = x ∧ Body.Gives c.source xs

/-- From the first lexemes to the second, the rule succeeds with a result of the given kind. -/
def Parse.Yields {α : Type} (f : Parse σ α) (xs ys : List Lexeme) (P : α → Prop) : Prop :=
  ∀ c : Cursor σ, c.Gives xs → ∃ a d, f c = .ok a d ∧ P a ∧ d.Gives ys

namespace Parse

variable {α β : Type} {xs ys zs : List Lexeme}

theorem Yields.bind {f : Parse σ α} {g : α → Parse σ β} {P : α → Prop} {Q : β → Prop}
    (hf : Yields f xs ys P) (hg : ∀ a, P a → Yields (g a) ys zs Q) : Yields (f >>= g) xs zs Q := by
  intro c hc
  obtain ⟨a, d, hfc, ha, hd⟩ := hf c hc
  obtain ⟨b, e, hgd, hb, he⟩ := hg a ha d hd
  refine ⟨b, e, ?_, hb, he⟩
  show EStateM.bind f g c = .ok b e
  simp only [EStateM.bind, hfc, hgd]

theorem yields_pure {a : α} {P : α → Prop} (h : P a) : Yields (pure a : Parse σ α) xs xs P :=
  fun c hc => ⟨a, c, rfl, h, hc⟩

theorem yields_peek (x : Lexeme) :
    Yields (peek : Parse σ Token) (x :: xs) (x :: xs) fun token => token.lexeme = x := by
  intro c hc
  unfold Cursor.Gives at hc
  cases hp : c.peeked with
  | some token =>
    simp only [hp] at hc
    exact ⟨token, c, by simp [peek, hp], hc.1, by simpa [Cursor.Gives, hp] using hc⟩
  | none =>
    simp only [hp] at hc
    obtain ⟨token, rest, hpull, hx, hrest⟩ := hc
    refine ⟨token, { c with source := rest, peeked := some token }, ?_, hx, hx, hrest⟩
    simp [peek, hp, hpull]

theorem yields_take (x : Lexeme) :
    Yields (take : Parse σ Token) (x :: xs) xs fun token => token.lexeme = x := by
  intro c hc
  unfold Cursor.Gives at hc
  cases hp : c.peeked with
  | some token =>
    simp only [hp] at hc
    exact ⟨token, { c with peeked := none }, by simp [take, hp], hc.1, hc.2⟩
  | none =>
    simp only [hp] at hc
    obtain ⟨token, rest, hpull, hx, hrest⟩ := hc
    refine ⟨token, { c with source := rest }, by simp [take, hp, hpull], hx, ?_⟩
    simpa [Cursor.Gives, hp] using hrest

theorem yields_expect (kind : TokenKind) (t : Text) :
    Yields (expect kind : Parse σ Token) ((kind, t) :: xs) xs fun token =>
      token.lexeme = (kind, t) := by
  unfold expect
  refine (yields_take (kind, t)).bind fun token h => ?_
  have hk : token.kind = kind := congrArg Prod.fst h
  simp only [hk, if_true]
  exact yields_pure h

theorem yields_trailer_break (n : Nat) (t : Text) :
    Yields (trailer (n + 1) : Parse σ (List Text)) ((.endOfLine, t) :: xs) xs (· = []) := by
  unfold trailer
  refine (yields_peek _).bind fun token h => ?_
  have hk : token.kind = .endOfLine := congrArg Prod.fst h
  simp only [hk]
  exact (yields_take _).bind fun _ _ => yields_pure rfl

theorem yields_trailer_stop (n : Nat) (x : Lexeme)
    (hx : x.1 ≠ .hashtag ∧ x.1 ≠ .comment ∧ x.1 ≠ .endOfLine) :
    Yields (trailer (n + 1) : Parse σ (List Text)) (x :: xs) (x :: xs) (· = []) := by
  unfold trailer
  refine (yields_peek _).bind fun token h => ?_
  have hk : token.kind = x.1 := congrArg Prod.fst h
  simp only [hk]
  split
  · rename_i hx'
    exact absurd hx' hx.1
  · rename_i hx'
    exact absurd hx' hx.2.1
  · rename_i hx'
    exact absurd hx' hx.2.2
  · exact yields_pure rfl

theorem yields_textParts_stop (n : Nat) (x : Lexeme)
    (hx : x.1 ≠ .text ∧ x.1 ≠ .escape ∧ x.1 ≠ .leftBrace) :
    Yields (textParts (n + 1) : Parse σ (List Part)) (x :: xs) (x :: xs) (· = []) := by
  unfold textParts
  refine (yields_peek _).bind fun token h => ?_
  have hk : token.kind = x.1 := congrArg Prod.fst h
  simp only [hk]
  split
  · rename_i hx'
    exact absurd hx' hx.1
  · rename_i hx'
    exact absurd hx' hx.2.1
  · rename_i hx'
    exact absurd hx' hx.2.2
  · exact yields_pure rfl

theorem yields_textParts (n : Nat) (t : Text) (x : Lexeme)
    (hx : x.1 ≠ .text ∧ x.1 ≠ .escape ∧ x.1 ≠ .leftBrace) :
    Yields (textParts (n + 2) : Parse σ (List Part)) ((.text, t) :: x :: xs) (x :: xs)
      (· = [.text t]) := by
  rw [textParts]
  refine (yields_peek _).bind fun token h => ?_
  have hk : token.kind = .text := congrArg Prod.fst h
  simp only [hk]
  refine (yields_take _).bind fun token h => ?_
  have ht : token.text = t := congrArg Prod.snd h
  refine (yields_textParts_stop n x hx).bind fun parts hparts => ?_
  exact yields_pure (by rw [ht, hparts])

theorem yields_operand_variable (n : Nat) (name : Text)
    (hname : ('$' :: name).dropWhile (· == '$') = name) :
    Yields (operand (n + 1) : Parse σ Expr) ((.variableName, '$' :: name) :: xs) xs
      (· = .var name) := by
  unfold operand
  refine (yields_take _).bind fun token h => ?_
  have hk : token.kind = .variableName := congrArg Prod.fst h
  have ht : token.text = '$' :: name := congrArg Prod.snd h
  simp only [hk]
  exact yields_pure (by rw [variableOf, ht, hname])

theorem yields_expression_variable (n : Nat) (name : Text) (x : Lexeme)
    (hname : ('$' :: name).dropWhile (· == '$') = name) (hx : operator? x.1 = none) :
    Yields (expression (n + 2) : Parse σ Expr) ((.variableName, '$' :: name) :: x :: xs) (x :: xs)
      (· = .var name) := by
  unfold expression binding
  refine (yields_operand_variable n name hname).bind fun lhs hlhs => ?_
  unfold operatorTail
  refine (yields_peek _).bind fun token h => ?_
  have hk : token.kind = x.1 := congrArg Prod.fst h
  simp only [hk, hx]
  exact yields_pure hlhs

end Parse

end Supply

end Parley.Body
