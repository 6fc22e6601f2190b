import Parley.Proofs.Grammar
set_option autoImplicit false

/-!
What the rules of the parser accept is derived by the grammar.

A rule that succeeds leads from one cursor to another. Whatever stands ahead of the second cursor, the
grammar tells what stood ahead of the first, so a derivation is put together from its end.
-/

namespace Parley.Body

theorem Token.lexeme_eq {token : Token} {kind : TokenKind} (h : token.kind = kind) :
    token.lexeme = (kind, token.text) := by
  rw [← h]
  rfl

theorem isPart_eq_false_iff {kind : TokenKind} :
    isPart kind = false ↔ kind ≠ .text ∧ kind ≠ .escape ∧ kind ≠ .leftBrace := by
  simp only [isPart, Bool.or_eq_false_iff, decide_eq_false_iff_not, and_assoc, ne_eq]

theorem stops_of_none {power : Nat} {x : Lexeme} (h : operator? x.1 = none) : Stops power x := by
  intro i hi
  rw [h] at hi
  cases hi

theorem stops_of_lt {power : Nat} {x : Lexeme} {i : Operator} (h : operator? x.1 = some i)
    (hlt : i.left < power) : Stops power x := by
  intro j hj
  rw [h] at hj
  cases hj
  exact hlt

def Command.unnumbered : Command → Command
  | .statement s => .statement s.unnumbered
  | .ending e => .ending e
  | .declaration => .declaration

section Cursor

variable {σ : Type} [TokenSource σ]

/-- The lexemes that a cursor passes on its way to a supply. -/
def Cursor.Ahead (c : Cursor σ) (xs : List Lexeme) (s : σ) : Prop :=
  match c.peeked with
  | none => Leads c.source xs s
  | some token => ∃ ys, xs = token.lexeme :: ys ∧ Leads c.source ys s

/-- From a cursor to a later one, over lexemes that are related and declarations that are recorded. -/
def Cursor.Passes (c d : Cursor σ) (ds : List Declaration)
    (R : List Lexeme → List Lexeme → Prop) : Prop :=
  c.declared.Admits ds ∧ c.declared.Grows ds d.declared ∧
    ∀ ys s, d.Ahead ys s → ∃ xs, c.Ahead xs s ∧ R xs ys

variable {c d e : Cursor σ} {ds ds' : List Declaration} {R Q : List Lexeme → List Lexeme → Prop}

theorem Cursor.Passes.trans (h : c.Passes d ds R) (h' : d.Passes e ds' Q) :
    c.Passes e (ds ++ ds') (fun xs zs => ∃ ys, R xs ys ∧ Q ys zs) := by
  obtain ⟨hadmits, hgrows, hahead⟩ := h
  obtain ⟨hadmits', hgrows', hahead'⟩ := h'
  refine ⟨(hgrows.admits_iff hadmits).2 hadmits', hgrows.append hgrows', ?_⟩
  intro zs s hzs
  obtain ⟨ys, hys, hQ⟩ := hahead' zs s hzs
  obtain ⟨xs, hxs, hR⟩ := hahead ys s hys
  exact ⟨xs, hxs, ys, hR, hQ⟩

theorem Cursor.Passes.mono (h : c.Passes d ds R) (hRQ : ∀ xs ys, R xs ys → Q xs ys) :
    c.Passes d ds Q := by
  refine ⟨h.1, h.2.1, ?_⟩
  intro ys s hys
  obtain ⟨xs, hxs, hR⟩ := h.2.2 ys s hys
  exact ⟨xs, hxs, hRQ xs ys hR⟩

namespace Parse

variable {α β : Type}

def Finds (f : Parse σ α) (c : Cursor σ) (a : α) (d : Cursor σ) : Prop :=
  f c = .ok a d

omit [TokenSource σ] in
theorem exists_of_bind {f : Parse σ α} {g : α → Parse σ β} {b : β} (h : Finds (f >>= g) c b e) :
    ∃ a d, Finds f c a d ∧ Finds (g a) d b e := by
  replace h : EStateM.bind f g c = .ok b e := h
  unfold EStateM.bind at h
  split at h
  · rename_i a d hf
    exact ⟨a, d, hf, h⟩
  · simp at h

omit [TokenSource σ] in
theorem eq_of_pure {a b : α} (h : Finds (pure a : Parse σ α) c b d) : a = b ∧ c = d := by
  replace h : EStateM.Result.ok a c = .ok b d := h
  simpa using h

theorem peek_passes {token : Token} (h : Finds peek c token d) :
    c.Passes d [] fun xs ys => xs = ys ∧ ∃ zs, ys = token.lexeme :: zs := by
  unfold Finds peek at h
  split at h
  · rename_i first hfirst
    cases h
    refine ⟨c.declared.admits_nil, c.declared.grows_nil, ?_⟩
    intro ys s hys
    refine ⟨ys, hys, rfl, ?_⟩
    simp only [Cursor.Ahead, hfirst] at hys
    obtain ⟨zs, hzs, -⟩ := hys
    exact ⟨zs, hzs⟩
  · rename_i hnone
    split at h
    · rename_i first rest hpull
      cases h
      refine ⟨c.declared.admits_nil, c.declared.grows_nil, ?_⟩
      rintro ys s ⟨zs, rfl, hzs⟩
      refine ⟨_, ?_, rfl, zs, rfl⟩
      simp only [Cursor.Ahead, hnone]
      exact ⟨token, rest, hpull, rfl, hzs⟩
    · simp at h

theorem take_passes {token : Token} (h : Finds take c token d) :
    c.Passes d [] fun xs ys => xs = token.lexeme :: ys := by
  unfold Finds take at h
  split at h
  · rename_i first hfirst
    cases h
    refine ⟨c.declared.admits_nil, c.declared.grows_nil, ?_⟩
    intro ys s hys
    refine ⟨_, ?_, rfl⟩
    simp only [Cursor.Ahead, hfirst]
    exact ⟨ys, rfl, hys⟩
  · rename_i hnone
    split at h
    · rename_i first rest hpull
      cases h
      refine ⟨c.declared.admits_nil, c.declared.grows_nil, ?_⟩
      intro ys s hys
      refine ⟨_, ?_, rfl⟩
      simp only [Cursor.Ahead, hnone] at hys ⊢
      exact ⟨token, rest, hpull, rfl, hys⟩
    · simp at h

theorem take_of_peek {token taken : Token} (h : Finds peek c token d)
    (h' : Finds take d taken e) : taken = token := by
  have hpeeked : d.peeked = some token := by
    unfold Finds peek at h
    split at h
    · rename_i first hfirst
      cases h
      exact hfirst
    · split at h
      · cases h
        rfl
      · simp at h
  simp only [Finds, take, hpeeked] at h'
  cases h'
  rfl

theorem peek_take_passes {token taken : Token} (h : Finds peek c token d)
    (h' : Finds take d taken e) : c.Passes e [] fun xs ys => xs = token.lexeme :: ys := by
  rw [← take_of_peek h h']
  refine ((peek_passes h).trans (take_passes h')).mono ?_
  rintro xs zs ⟨ys, ⟨rfl, -⟩, hys⟩
  exact hys

theorem peek_passes_same {token : Token} (h : Finds peek c token d) (h' : d.Passes e ds R) :
    c.Passes e ds fun xs ys => R xs ys ∧ ∃ zs, xs = token.lexeme :: zs := by
  refine ((peek_passes h).trans h').mono ?_
  rintro xs zs ⟨ys, ⟨rfl, hfirst⟩, hys⟩
  exact ⟨hys, hfirst⟩

omit [TokenSource σ] in
theorem unexpected_fails {token : Token} {expected : List TokenKind} {a : α} :
    ¬ Finds (unexpected token expected : Parse σ α) c a d := by
  intro h
  cases h

theorem refuse_fails {expected : List TokenKind} {a : α} :
    ¬ Finds (refuse expected : Parse σ α) c a d := by
  intro h
  obtain ⟨token, c', -, h⟩ := exists_of_bind h
  exact unexpected_fails h

omit [TokenSource σ] in
theorem misplaced_fails {b : Block} {expected : List TokenKind} {a : α} :
    ¬ Finds (misplaced b expected : Parse σ α) c a d := by
  intro h
  cases h

theorem expect_passes {kind : TokenKind} {token : Token} (h : Finds (expect kind) c token d) :
    c.Passes d [] fun xs ys => xs = (kind, token.text) :: ys := by
  obtain ⟨first, c', htake, h⟩ := exists_of_bind h
  split at h
  · rename_i hkind
    obtain ⟨rfl, rfl⟩ := eq_of_pure h
    refine (take_passes htake).mono ?_
    rintro xs ys rfl
    rw [← hkind]
    rfl
  · exact absurd h unexpected_fails

/-! Expressions. -/

/-- With a bound on the recursion, the rules for expressions find what the grammar derives. -/
structure SoundAt (σ : Type) [TokenSource σ] (n : Nat) : Prop where
  binding {power : Nat} {c d : Cursor σ} {e : Expr} (h : Finds (Parse.binding n power) c e d) :
    c.Passes d [] (Phrase.binding power e).Reads
  tail {power : Nat} {lhs : Expr} {c d : Cursor σ} {e : Expr}
    (h : Finds (Parse.operatorTail n power lhs) c e d) : c.Passes d [] (Phrase.tail power lhs e).Reads
  operand {c d : Cursor σ} {e : Expr} (h : Finds (Parse.operand n) c e d) :
    c.Passes d [] (Phrase.operand e).Reads
  arguments {c d : Cursor σ} {es : List Expr} (h : Finds (Parse.arguments n) c es d) :
    c.Passes d [] (Phrase.arguments es).Reads

variable {n power : Nat}

theorem SoundAt.binding_succ (ih : SoundAt σ n) {found : Expr}
    (h : Finds (Parse.binding (n + 1) power) c found d) :
    c.Passes d [] (Phrase.binding power found).Reads := by
  unfold Parse.binding at h
  obtain ⟨lhs, c₁, hfirst, hrest⟩ := exists_of_bind h
  refine ((ih.operand hfirst).trans (ih.tail hrest)).mono ?_
  rintro xs zs ⟨ys, hxs, hys⟩
  exact .binding hxs hys

theorem SoundAt.tail_succ (ih : SoundAt σ n) {lhs found : Expr}
    (h : Finds (Parse.operatorTail (n + 1) power lhs) c found d) :
    c.Passes d [] (Phrase.tail power lhs found).Reads := by
  unfold Parse.operatorTail at h
  obtain ⟨token, c₁, hpeek, h⟩ := exists_of_bind h
  cases hop : operator? token.kind with
  | none =>
    simp only [hop] at h
    obtain ⟨rfl, rfl⟩ := eq_of_pure h
    refine (peek_passes hpeek).mono ?_
    rintro xs ys ⟨rfl, zs, rfl⟩
    exact .stop (stops_of_none hop)
  | some i =>
    simp only [hop] at h
    split at h
    · rename_i hloose
      obtain ⟨rfl, rfl⟩ := eq_of_pure h
      refine (peek_passes hpeek).mono ?_
      rintro xs ys ⟨rfl, zs, rfl⟩
      exact .stop (stops_of_lt hop hloose)
    · rename_i htight
      obtain ⟨taken, c₂, htake, h⟩ := exists_of_bind h
      obtain ⟨rhs, c₃, hright, h⟩ := exists_of_bind h
      refine ((peek_take_passes hpeek htake).trans ((ih.binding hright).trans (ih.tail h))).mono ?_
      rintro xs zs ⟨_, rfl, ys, hbinding, htail⟩
      exact .operator hop (Nat.le_of_not_lt htight) hbinding htail

theorem SoundAt.operand_succ (ih : SoundAt σ n) {found : Expr}
    (h : Finds (Parse.operand (n + 1)) c found d) : c.Passes d [] (Phrase.operand found).Reads := by
  unfold Parse.operand at h
  obtain ⟨token, c₁, htake, h⟩ := exists_of_bind h
  have hfirst := take_passes htake
  split at h
  case h_1 hkind =>
    split at h
    · rename_i x hx
      obtain ⟨rfl, rfl⟩ := eq_of_pure h
      refine hfirst.mono ?_
      rintro xs ys rfl
      exact .literal (by rw [token.lexeme_eq hkind, literal?, hx]; rfl)
    · cases h
  case h_2 hkind | h_3 hkind | h_4 hkind | h_5 hkind =>
    obtain ⟨rfl, rfl⟩ := eq_of_pure h
    refine hfirst.mono ?_
    rintro xs ys rfl
    rw [Token.lexeme_eq hkind]
    exact .literal rfl
  case h_6 hkind =>
    obtain ⟨rfl, rfl⟩ := eq_of_pure h
    refine hfirst.mono ?_
    rintro xs ys rfl
    rw [Token.lexeme_eq hkind]
    exact .var
  case h_7 hkind =>
    obtain ⟨inner, c₂, hinner, h⟩ := exists_of_bind h
    obtain ⟨close, c₃, hclose, h⟩ := exists_of_bind h
    obtain ⟨rfl, rfl⟩ := eq_of_pure h
    refine (hfirst.trans ((ih.binding hinner).trans (expect_passes hclose))).mono ?_
    rintro xs zs ⟨_, rfl, ys, hinner, rfl⟩
    rw [Token.lexeme_eq hkind]
    exact .parens hinner
  case h_8 hkind =>
    obtain ⟨opening, c₂, hopening, h⟩ := exists_of_bind h
    obtain ⟨next, c₃, hpeek, h⟩ := exists_of_bind h
    split at h
    · rename_i hnext
      obtain ⟨close, c₄, hclose, h⟩ := exists_of_bind h
      obtain ⟨rfl, rfl⟩ := eq_of_pure h
      refine (hfirst.trans ((expect_passes hopening).trans (peek_take_passes hpeek hclose))).mono ?_
      rintro xs zs ⟨_, rfl, _, rfl, rfl⟩
      rw [Token.lexeme_eq hkind, Token.lexeme_eq hnext]
      exact .emptyCall
    · rename_i hnext
      obtain ⟨es, c₄, hargs, h⟩ := exists_of_bind h
      obtain ⟨rfl, rfl⟩ := eq_of_pure h
      refine (hfirst.trans ((expect_passes hopening).trans
        (peek_passes_same hpeek (ih.arguments hargs)))).mono ?_
      rintro xs zs ⟨_, rfl, _, rfl, hargs, ys, rfl⟩
      rw [Token.lexeme_eq hkind]
      exact .call hnext hargs
  case h_9 hkind =>
    obtain ⟨inner, c₂, hinner, h⟩ := exists_of_bind h
    obtain ⟨rfl, rfl⟩ := eq_of_pure h
    refine (hfirst.trans (ih.binding hinner)).mono ?_
    rintro xs zs ⟨ys, rfl, hinner⟩
    rw [Token.lexeme_eq hkind]
    exact .not hinner
  case h_10 hkind | h_11 hkind =>
    obtain ⟨inner, c₂, hinner, h⟩ := exists_of_bind h
    obtain ⟨rfl, rfl⟩ := eq_of_pure h
    refine (hfirst.trans (ih.binding hinner)).mono ?_
    rintro xs zs ⟨ys, rfl, hinner⟩
    rw [Token.lexeme_eq hkind]
    exact .negate rfl hinner
  case h_12 => exact absurd h unexpected_fails

theorem SoundAt.arguments_succ (ih : SoundAt σ n) {found : List Expr}
    (h : Finds (Parse.arguments (n + 1)) c found d) : c.Passes d [] (Phrase.arguments found).Reads := by
  unfold Parse.arguments at h
  obtain ⟨first, c₁, hfirst, h⟩ := exists_of_bind h
  obtain ⟨token, c₂, htake, h⟩ := exists_of_bind h
  have hpasses := (ih.binding hfirst).trans (take_passes htake)
  split at h
  · rename_i hkind
    obtain ⟨es, c₃, hrest, h⟩ := exists_of_bind h
    obtain ⟨rfl, rfl⟩ := eq_of_pure h
    refine (hpasses.trans (ih.arguments hrest)).mono ?_
    rintro xs zs ⟨ys, ⟨_, hfirst, rfl⟩, hrest⟩
    rw [Token.lexeme_eq hkind] at hfirst
    exact .argument hfirst hrest
  · rename_i hkind
    obtain ⟨rfl, rfl⟩ := eq_of_pure h
    refine hpasses.mono ?_
    rintro xs ys ⟨_, hfirst, rfl⟩
    rw [Token.lexeme_eq hkind] at hfirst
    exact .lastArgument hfirst
  · exact absurd h unexpected_fails

theorem soundAt (n : Nat) : SoundAt σ n := by
  induction n with
  | zero =>
    refine ⟨fun h => ?_, fun h => ?_, fun h => ?_, fun h => ?_⟩ <;> exact absurd h refuse_fails
  | succ n ih => exact ⟨ih.binding_succ, ih.tail_succ, ih.operand_succ, ih.arguments_succ⟩

theorem expression_passes {found : Expr} (h : Finds (expression n) c found d) :
    c.Passes d [] (ReadsExpr found) :=
  (soundAt n).binding h

/-! What stands on a line. -/

theorem trailer_passes {hashtags : List Text} (h : Finds (trailer n) c hashtags d) :
    c.Passes d [] (Trails hashtags) := by
  induction n generalizing c hashtags with
  | zero => exact absurd h refuse_fails
  | succ n ih =>
    unfold trailer at h
    obtain ⟨token, c₁, hpeek, h⟩ := exists_of_bind h
    split at h
    · rename_i hkind
      obtain ⟨taken, c₂, htake, h⟩ := exists_of_bind h
      obtain ⟨rest, c₃, hrest, h⟩ := exists_of_bind h
      obtain ⟨rfl, rfl⟩ := eq_of_pure h
      refine ((peek_take_passes hpeek htake).trans (ih hrest)).mono ?_
      rintro xs zs ⟨ys, rfl, hrest⟩
      rw [Token.lexeme_eq hkind, take_of_peek hpeek htake]
      exact .hashtag hrest
    · rename_i hkind
      obtain ⟨taken, c₂, htake, h⟩ := exists_of_bind h
      refine ((peek_take_passes hpeek htake).trans (ih h)).mono ?_
      rintro xs zs ⟨ys, rfl, hrest⟩
      rw [Token.lexeme_eq hkind]
      exact .comment hrest
    · rename_i hkind
      obtain ⟨taken, c₂, htake, h⟩ := exists_of_bind h
      obtain ⟨rfl, rfl⟩ := eq_of_pure h
      refine (peek_take_passes hpeek htake).mono ?_
      rintro xs ys rfl
      rw [Token.lexeme_eq hkind]
      exact .lineEnd
    · rename_i hhashtag hcomment hbreak
      obtain ⟨rfl, rfl⟩ := eq_of_pure h
      refine (peek_passes hpeek).mono ?_
      rintro xs ys ⟨rfl, zs, rfl⟩
      exact .stop hhashtag hcomment hbreak

theorem inlineExpression_passes {found : Expr} (h : Finds (inlineExpression n) c found d) :
    c.Passes d [] fun xs zs => ∃ t u ys, xs = (.leftBrace, t) :: ys ∧
      ReadsExpr found ys ((.rightBrace, u) :: zs) := by
  obtain ⟨opening, c₁, hopening, h⟩ := exists_of_bind h
  obtain ⟨inner, c₂, hinner, h⟩ := exists_of_bind h
  obtain ⟨close, c₃, hclose, h⟩ := exists_of_bind h
  obtain ⟨rfl, rfl⟩ := eq_of_pure h
  refine ((expect_passes hopening).trans
    ((expression_passes hinner).trans (expect_passes hclose))).mono ?_
  rintro xs zs ⟨ys, hxs, _, hinner, rfl⟩
  exact ⟨_, _, ys, hxs, hinner⟩

theorem textParts_passes {parts : List Part} (h : Finds (textParts n) c parts d) :
    c.Passes d [] (ReadsParts parts) := by
  induction n generalizing c parts with
  | zero => exact absurd h refuse_fails
  | succ n ih =>
    unfold textParts at h
    obtain ⟨token, c₁, hpeek, h⟩ := exists_of_bind h
    split at h
    · rename_i hkind
      obtain ⟨taken, c₂, htake, h⟩ := exists_of_bind h
      obtain ⟨rest, c₃, hrest, h⟩ := exists_of_bind h
      obtain ⟨rfl, rfl⟩ := eq_of_pure h
      refine ((peek_take_passes hpeek htake).trans (ih hrest)).mono ?_
      rintro xs zs ⟨ys, rfl, hrest⟩
      rw [Token.lexeme_eq hkind, take_of_peek hpeek htake]
      exact .text hrest
    · rename_i hkind
      obtain ⟨taken, c₂, htake, h⟩ := exists_of_bind h
      obtain ⟨rest, c₃, hrest, h⟩ := exists_of_bind h
      obtain ⟨rfl, rfl⟩ := eq_of_pure h
      refine ((peek_take_passes hpeek htake).trans (ih hrest)).mono ?_
      rintro xs zs ⟨ys, rfl, hrest⟩
      rw [Token.lexeme_eq hkind, take_of_peek hpeek htake]
      exact .escape hrest
    · obtain ⟨inner, c₂, hinner, h⟩ := exists_of_bind h
      obtain ⟨rest, c₃, hrest, h⟩ := exists_of_bind h
      obtain ⟨rfl, rfl⟩ := eq_of_pure h
      refine ((peek_passes_same hpeek (inlineExpression_passes hinner)).trans (ih hrest)).mono ?_
      rintro xs zs ⟨ys, ⟨⟨t, u, ws, rfl, hinner⟩, -⟩, hrest⟩
      exact .inline hinner hrest
    · rename_i htext hescape hbrace
      obtain ⟨rfl, rfl⟩ := eq_of_pure h
      refine (peek_passes hpeek).mono ?_
      rintro xs ys ⟨rfl, zs, rfl⟩
      exact .stop (isPart_eq_false_iff.2 ⟨htext, hescape, hbrace⟩)

theorem commandParts_passes {started : Bool} {parts : List Part}
    (h : Finds (commandParts n started) c parts d) :
    c.Passes d [] fun xs ys => ReadsCommandParts parts xs ys ∧ (started = false → parts ≠ []) := by
  induction n generalizing c started parts with
  | zero => exact absurd h refuse_fails
  | succ n ih =>
    unfold commandParts at h
    obtain ⟨token, c₁, hpeek, h⟩ := exists_of_bind h
    split at h
    · rename_i hkind
      obtain ⟨taken, c₂, htake, h⟩ := exists_of_bind h
      obtain ⟨rest, c₃, hrest, h⟩ := exists_of_bind h
      obtain ⟨rfl, rfl⟩ := eq_of_pure h
      refine ((peek_take_passes hpeek htake).trans (ih hrest)).mono ?_
      rintro xs zs ⟨ys, rfl, hrest, -⟩
      rw [Token.lexeme_eq hkind, take_of_peek hpeek htake]
      exact ⟨.text hrest, by simp⟩
    · obtain ⟨inner, c₂, hinner, h⟩ := exists_of_bind h
      obtain ⟨rest, c₃, hrest, h⟩ := exists_of_bind h
      obtain ⟨rfl, rfl⟩ := eq_of_pure h
      refine ((peek_passes_same hpeek (inlineExpression_passes hinner)).trans (ih hrest)).mono ?_
      rintro xs zs ⟨ys, ⟨⟨t, u, ws, rfl, hinner⟩, -⟩, hrest, -⟩
      exact ⟨.inline hinner hrest, by simp⟩
    · rename_i hkind
      split at h
      · rename_i hstarted
        obtain ⟨rfl, rfl⟩ := eq_of_pure h
        refine (peek_passes hpeek).mono ?_
        rintro xs ys ⟨rfl, zs, rfl⟩
        rw [Token.lexeme_eq hkind]
        exact ⟨.stop, by simp [hstarted]⟩
      · exact absurd h refuse_fails
    · exact absurd h refuse_fails

theorem closeCommand_passes {hashtags : List Text} (h : Finds (closeCommand n) c hashtags d) :
    c.Passes d [] (Closes hashtags) := by
  obtain ⟨close, c₁, hclose, h⟩ := exists_of_bind h
  refine ((expect_passes hclose).trans (trailer_passes h)).mono ?_
  rintro xs zs ⟨ys, rfl, htrail⟩
  exact .intro htrail

theorem guardClause_passes {guard : Option Expr} (h : Finds (guardClause n) c guard d) :
    c.Passes d [] (ReadsGuard guard) := by
  obtain ⟨token, c₁, hpeek, h⟩ := exists_of_bind h
  split at h
  · rename_i hkind
    obtain ⟨taken, c₂, htake, h⟩ := exists_of_bind h
    obtain ⟨word, c₃, hword, h⟩ := exists_of_bind h
    obtain ⟨condition, c₄, hcondition, h⟩ := exists_of_bind h
    obtain ⟨close, c₅, hclose, h⟩ := exists_of_bind h
    obtain ⟨rfl, rfl⟩ := eq_of_pure h
    refine ((peek_take_passes hpeek htake).trans ((expect_passes hword).trans
      ((expression_passes hcondition).trans (expect_passes hclose)))).mono ?_
    rintro xs zs ⟨_, rfl, _, rfl, _, hcondition, rfl⟩
    rw [Token.lexeme_eq hkind]
    exact .some hcondition
  · rename_i hkind
    obtain ⟨rfl, rfl⟩ := eq_of_pure h
    refine (peek_passes hpeek).mono ?_
    rintro xs ys ⟨rfl, zs, rfl⟩
    exact .none hkind

theorem typeClause_passes {type : Option TypeName} (h : Finds typeClause c type d) :
    c.Passes d [] (ReadsType type) := by
  obtain ⟨token, c₁, hpeek, h⟩ := exists_of_bind h
  split at h
  · rename_i hkind
    obtain ⟨taken, c₂, htake, h⟩ := exists_of_bind h
    obtain ⟨name, c₃, hname, h⟩ := exists_of_bind h
    split at h
    · rename_i type htype
      obtain ⟨rfl, rfl⟩ := eq_of_pure h
      refine ((peek_take_passes hpeek htake).trans (expect_passes hname)).mono ?_
      rintro xs zs ⟨_, rfl, rfl⟩
      rw [Token.lexeme_eq hkind]
      exact .some htype
    · exact absurd h unexpected_fails
  · rename_i hkind
    obtain ⟨rfl, rfl⟩ := eq_of_pure h
    refine (peek_passes hpeek).mono ?_
    rintro xs ys ⟨rfl, zs, rfl⟩
    exact .none hkind

theorem jumpTarget_passes {target : JumpTarget} (h : Finds (jumpTarget n) c target d) :
    c.Passes d [] (ReadsTarget target) := by
  obtain ⟨token, c₁, hpeek, h⟩ := exists_of_bind h
  split at h
  · rename_i hkind
    obtain ⟨taken, c₂, htake, h⟩ := exists_of_bind h
    obtain ⟨rfl, rfl⟩ := eq_of_pure h
    refine (peek_take_passes hpeek htake).mono ?_
    rintro xs ys rfl
    rw [Token.lexeme_eq hkind, take_of_peek hpeek htake]
    exact .title
  · obtain ⟨inner, c₂, hinner, h⟩ := exists_of_bind h
    obtain ⟨rfl, rfl⟩ := eq_of_pure h
    refine (peek_passes_same hpeek (inlineExpression_passes hinner)).mono ?_
    rintro xs zs ⟨⟨t, u, ws, rfl, hinner⟩, -⟩
    exact .expr hinner
  · exact absurd h refuse_fails

theorem declare_passes {new : Declaration} {span : Span} {u : Unit}
    (h : Finds (declare new span) c u d) : c.Passes d [new.unnumbered] (· = ·) := by
  unfold Finds declare at h
  split at h
  · rename_i declared hregister
    cases h
    obtain ⟨hadmits, rfl⟩ := Declarations.register_eq_ok_iff.1 hregister
    exact ⟨hadmits, ⟨[new], rfl, rfl⟩, fun ys s hys => ⟨ys, hys, rfl⟩⟩
  · cases h

/-! Blocks. -/

structure SoundBlocksAt (σ : Type) [TokenSource σ] (n : Nat) : Prop where
  block {c d : Cursor σ} {b : Block} (h : Finds (Parse.block n) c b d) :
    ∃ ds, c.Passes d ds ((Passage.block (unnumberedAll b.statements) b.ending).Reads ds)
  option {c d : Cursor σ} {o : Choice} (h : Finds (Parse.option n) c o d) :
    ∃ ds, c.Passes d ds ((Passage.option o.unnumbered).Reads ds)
  command {opening : Token} {c d : Cursor σ} {found : Command}
    (h : Finds (Parse.command n opening) c found d) :
    ∃ ds, c.Passes d ds ((Passage.command found.unnumbered).Reads ds)
  arms {c d : Cursor σ} {found : List Statement × Otherwise} (h : Finds (Parse.arms n) c found d) :
    ∃ ds, c.Passes d ds ((Passage.arms (unnumberedAll found.1) found.2.unnumbered).Reads ds)

theorem optionLabel_passes {parts : List Part} (h : Finds (optionLabel n) c parts d) :
    parts ≠ [] ∧ c.Passes d [] (ReadsParts parts) := by
  obtain ⟨found, c₁, hparts, h⟩ := exists_of_bind h
  split at h
  · exact absurd h refuse_fails
  · rename_i hne
    obtain ⟨rfl, rfl⟩ := eq_of_pure h
    exact ⟨hne, textParts_passes hparts⟩

theorem textLine_passes {s : Statement} (h : Finds (textLine n) c s d) :
    ∃ parts hashtags, s.unnumbered = .line parts 0 hashtags ∧ c.Passes d [] fun xs zs =>
      ∃ ys, ReadsParts parts xs ys ∧ Trails hashtags ys zs := by
  obtain ⟨token, c₁, hpeek, h⟩ := exists_of_bind h
  obtain ⟨parts, c₂, hparts, h⟩ := exists_of_bind h
  obtain ⟨hashtags, c₃, htrail, h⟩ := exists_of_bind h
  obtain ⟨rfl, rfl⟩ := eq_of_pure h
  refine ⟨parts, hashtags, rfl, ?_⟩
  refine (peek_passes_same hpeek ((textParts_passes hparts).trans (trailer_passes htrail))).mono ?_
  rintro xs zs ⟨hxs, -⟩
  exact hxs

theorem assignment_passes {opening : Token} {s : Statement}
    (h : Finds (assignment n opening) c s d) (t : Text) :
    c.Passes d [] fun xs ys => ReadsPlain (.statement s.unnumbered) [] ((.setWord, t) :: xs) ys := by
  obtain ⟨name, c₁, hname, h⟩ := exists_of_bind h
  obtain ⟨sign, c₂, hsign, h⟩ := exists_of_bind h
  obtain ⟨value, c₃, hvalue, h⟩ := exists_of_bind h
  obtain ⟨hashtags, c₄, hclose, h⟩ := exists_of_bind h
  obtain ⟨rfl, rfl⟩ := eq_of_pure h
  refine ((expect_passes hname).trans ((expect_passes hsign).trans
    ((expression_passes hvalue).trans (closeCommand_passes hclose)))).mono ?_
  rintro xs ws ⟨_, rfl, _, rfl, zs, hvalue, hclose⟩
  exact .assign hvalue hclose

theorem declaration_passes {opening : Token} {u : Unit}
    (h : Finds (declaration n opening) c u d) (t : Text) :
    ∃ ds, c.Passes d ds fun xs ys => ReadsPlain .declaration ds ((.declareWord, t) :: xs) ys := by
  obtain ⟨name, c₁, hname, h⟩ := exists_of_bind h
  obtain ⟨sign, c₂, hsign, h⟩ := exists_of_bind h
  obtain ⟨value, c₃, hvalue, h⟩ := exists_of_bind h
  obtain ⟨type, c₄, htype, h⟩ := exists_of_bind h
  obtain ⟨hashtags, c₅, hclose, h⟩ := exists_of_bind h
  refine ⟨_, ((expect_passes hname).trans ((expect_passes hsign).trans
    ((expression_passes hvalue).trans ((typeClause_passes htype).trans
      ((closeCommand_passes hclose).trans (declare_passes h)))))).mono ?_⟩
  rintro xs ws ⟨_, rfl, _, rfl, ys, hvalue, zs, htype, _, hclose, rfl⟩
  exact .declare hvalue htype hclose

theorem genericCommand_passes {opening : Token} {s : Statement}
    (h : Finds (genericCommand n opening) c s d) :
    c.Passes d [] (ReadsPlain (.statement s.unnumbered) []) := by
  obtain ⟨parts, c₁, hparts, h⟩ := exists_of_bind h
  obtain ⟨hashtags, c₂, hclose, h⟩ := exists_of_bind h
  obtain ⟨rfl, rfl⟩ := eq_of_pure h
  refine ((commandParts_passes hparts).trans (closeCommand_passes hclose)).mono ?_
  rintro xs zs ⟨ys, ⟨hparts, hne⟩, hclose⟩
  exact .generic (hne rfl) hparts hclose

theorem SoundBlocksAt.block_succ (ih : SoundBlocksAt σ n) {b : Block}
    (h : Finds (Parse.block (n + 1)) c b d) :
    ∃ ds, c.Passes d ds ((Passage.block (unnumberedAll b.statements) b.ending).Reads ds) := by
  unfold Parse.block at h
  obtain ⟨token, c₁, hpeek, h⟩ := exists_of_bind h
  split at h
  case h_1 hkind | h_2 hkind =>
    obtain ⟨taken, c₂, htake, h⟩ := exists_of_bind h
    obtain ⟨ds, hrest⟩ := ih.block h
    refine ⟨ds, ((peek_take_passes hpeek htake).trans hrest).mono ?_⟩
    rintro xs zs ⟨ys, rfl, hrest⟩
    rw [Token.lexeme_eq hkind]
    exact .idle rfl hrest
  case h_3 hkind =>
    obtain ⟨rfl, rfl⟩ := eq_of_pure h
    refine ⟨[], (peek_passes hpeek).mono ?_⟩
    rintro xs ys ⟨rfl, zs, rfl⟩
    rw [Token.lexeme_eq hkind]
    exact .inputEnd
  case h_4 hkind =>
    obtain ⟨taken, c₂, htake, h⟩ := exists_of_bind h
    obtain ⟨rfl, rfl⟩ := eq_of_pure h
    refine ⟨[], (peek_take_passes hpeek htake).mono ?_⟩
    rintro xs ys rfl
    rw [Token.lexeme_eq hkind]
    exact .dedent
  case h_5 hkind =>
    obtain ⟨o, c₂, hoption, h⟩ := exists_of_bind h
    obtain ⟨rest, c₃, hrest, h⟩ := exists_of_bind h
    obtain ⟨rfl, rfl⟩ := eq_of_pure h
    obtain ⟨ds, hoption⟩ := ih.option hoption
    obtain ⟨ds', hrest⟩ := ih.block hrest
    refine ⟨ds ++ ds', ((peek_passes_same hpeek hoption).trans hrest).mono ?_⟩
    rintro xs zs ⟨ys, ⟨hoption, -⟩, hrest⟩
    exact .option hoption hrest
  case h_6 hkind | h_7 hkind | h_8 hkind =>
    obtain ⟨s, c₂, hline, h⟩ := exists_of_bind h
    obtain ⟨rest, c₃, hrest, h⟩ := exists_of_bind h
    obtain ⟨rfl, rfl⟩ := eq_of_pure h
    obtain ⟨parts, hashtags, hs, hline⟩ := textLine_passes hline
    obtain ⟨ds, hrest⟩ := ih.block hrest
    refine ⟨ds, ((peek_passes_same hpeek hline).trans hrest).mono ?_⟩
    rintro xs zs ⟨ys, ⟨⟨ws, hparts, htrail⟩, vs, rfl⟩, hrest⟩
    have hne : parts ≠ [] := by
      rintro rfl
      cases hparts with
      | stop hx => simp [isPart, Token.lexeme, hkind] at hx
    simp only [Block.cons, unnumberedAll, hs]
    exact .line hne hparts htrail hrest
  case h_9 hkind =>
    obtain ⟨opening, c₂, htake, h⟩ := exists_of_bind h
    obtain ⟨found, c₃, hcommand, h⟩ := exists_of_bind h
    obtain ⟨ds, hcommand⟩ := ih.command hcommand
    have hfirst := (peek_take_passes hpeek htake).trans hcommand
    rw [Token.lexeme_eq hkind] at hfirst
    split at h
    · obtain ⟨rest, c₄, hrest, h⟩ := exists_of_bind h
      obtain ⟨rfl, rfl⟩ := eq_of_pure h
      obtain ⟨ds', hrest⟩ := ih.block hrest
      refine ⟨ds ++ ds', (hfirst.trans hrest).mono ?_⟩
      rintro xs zs ⟨ys, ⟨_, rfl, hcommand⟩, hrest⟩
      exact .statement hcommand hrest
    · obtain ⟨rfl, rfl⟩ := eq_of_pure h
      refine ⟨ds, hfirst.mono ?_⟩
      rintro xs ys ⟨_, rfl, hcommand⟩
      exact .ending hcommand
    · obtain ⟨ds', hrest⟩ := ih.block h
      refine ⟨ds ++ ds', (hfirst.trans hrest).mono ?_⟩
      rintro xs zs ⟨ys, ⟨_, rfl, hcommand⟩, hrest⟩
      exact .declaration hcommand hrest
  case h_10 => exact absurd h refuse_fails

theorem SoundBlocksAt.option_succ (ih : SoundBlocksAt σ n) {o : Choice}
    (h : Finds (Parse.option (n + 1)) c o d) :
    ∃ ds, c.Passes d ds ((Passage.option o.unnumbered).Reads ds) := by
  unfold Parse.option at h
  obtain ⟨arrow, c₁, harrow, h⟩ := exists_of_bind h
  obtain ⟨label, c₂, hlabel, h⟩ := exists_of_bind h
  obtain ⟨guard, c₃, hguard, h⟩ := exists_of_bind h
  obtain ⟨hashtags, c₄, htrail, h⟩ := exists_of_bind h
  obtain ⟨token, c₅, hpeek, h⟩ := exists_of_bind h
  obtain ⟨hne, hlabel⟩ := optionLabel_passes hlabel
  have hhead := (expect_passes harrow).trans (hlabel.trans
    ((guardClause_passes hguard).trans (trailer_passes htrail)))
  split at h
  · rename_i hkind
    obtain ⟨taken, c₆, htake, h⟩ := exists_of_bind h
    obtain ⟨body, c₇, hbody, h⟩ := exists_of_bind h
    obtain ⟨ds, hbody⟩ := ih.block hbody
    split at h
    · rename_i hending
      obtain ⟨rfl, rfl⟩ := eq_of_pure h
      refine ⟨ds, (hhead.trans ((peek_take_passes hpeek htake).trans hbody)).mono ?_⟩
      rintro xs zs ⟨ys, ⟨_, rfl, _, hlabel, _, hguard, htrail⟩, _, rfl, hbody⟩
      rw [Token.lexeme_eq hkind] at htrail
      rw [hending] at hbody
      exact .nested hne hlabel hguard htrail hbody
    · exact absurd h misplaced_fails
  · rename_i hkind
    obtain ⟨rfl, rfl⟩ := eq_of_pure h
    refine ⟨[], (hhead.trans (peek_passes hpeek)).mono ?_⟩
    rintro xs zs ⟨_, ⟨_, rfl, _, hlabel, _, hguard, htrail⟩, rfl, ys, rfl⟩
    exact .leaf hne hlabel hguard htrail hkind

theorem SoundBlocksAt.command_succ (ih : SoundBlocksAt σ n) {opening : Token} {found : Command}
    (h : Finds (Parse.command (n + 1) opening) c found d) :
    ∃ ds, c.Passes d ds ((Passage.command found.unnumbered).Reads ds) := by
  unfold Parse.command at h
  obtain ⟨token, c₁, hpeek, h⟩ := exists_of_bind h
  split at h
  case h_1 hkind =>
    obtain ⟨taken, c₂, htake, h⟩ := exists_of_bind h
    obtain ⟨condition, c₃, hcondition, h⟩ := exists_of_bind h
    obtain ⟨hashtags, c₄, hclose, h⟩ := exists_of_bind h
    obtain ⟨⟨body, otherwise⟩, c₅, harms, h⟩ := exists_of_bind h
    obtain ⟨rfl, rfl⟩ := eq_of_pure h
    obtain ⟨ds, harms⟩ := ih.arms harms
    refine ⟨ds, ((peek_take_passes hpeek htake).trans ((expression_passes hcondition).trans
      ((closeCommand_passes hclose).trans harms))).mono ?_⟩
    rintro xs zs ⟨_, rfl, _, hcondition, _, hclose, harms⟩
    rw [Token.lexeme_eq hkind]
    exact .branch hcondition hclose harms
  case h_2 hkind =>
    obtain ⟨taken, c₂, htake, h⟩ := exists_of_bind h
    obtain ⟨condition, c₃, hcondition, h⟩ := exists_of_bind h
    obtain ⟨hashtags, c₄, hclose, h⟩ := exists_of_bind h
    obtain ⟨rfl, rfl⟩ := eq_of_pure h
    refine ⟨[], ((peek_take_passes hpeek htake).trans ((expression_passes hcondition).trans
      (closeCommand_passes hclose))).mono ?_⟩
    rintro xs zs ⟨_, rfl, _, hcondition, hclose⟩
    rw [Token.lexeme_eq hkind]
    exact .elseif hcondition hclose
  case h_3 hkind =>
    obtain ⟨taken, c₂, htake, h⟩ := exists_of_bind h
    obtain ⟨hashtags, c₃, hclose, h⟩ := exists_of_bind h
    obtain ⟨rfl, rfl⟩ := eq_of_pure h
    refine ⟨[], ((peek_take_passes hpeek htake).trans (closeCommand_passes hclose)).mono ?_⟩
    rintro xs zs ⟨_, rfl, hclose⟩
    rw [Token.lexeme_eq hkind]
    exact .otherwise hclose
  case h_4 hkind =>
    obtain ⟨taken, c₂, htake, h⟩ := exists_of_bind h
    obtain ⟨hashtags, c₃, hclose, h⟩ := exists_of_bind h
    obtain ⟨rfl, rfl⟩ := eq_of_pure h
    refine ⟨[], ((peek_take_passes hpeek htake).trans (closeCommand_passes hclose)).mono ?_⟩
    rintro xs zs ⟨_, rfl, hclose⟩
    rw [Token.lexeme_eq hkind]
    exact .endif hclose
  case h_5 hkind =>
    obtain ⟨taken, c₂, htake, h⟩ := exists_of_bind h
    obtain ⟨s, c₃, hassign, h⟩ := exists_of_bind h
    obtain ⟨rfl, rfl⟩ := eq_of_pure h
    refine ⟨[], ((peek_take_passes hpeek htake).trans (assignment_passes hassign token.text)).mono ?_⟩
    rintro xs zs ⟨_, rfl, hassign⟩
    rw [Token.lexeme_eq hkind]
    exact .plain hassign
  case h_6 hkind =>
    obtain ⟨taken, c₂, htake, h⟩ := exists_of_bind h
    obtain ⟨u, c₃, hdeclare, h⟩ := exists_of_bind h
    obtain ⟨rfl, rfl⟩ := eq_of_pure h
    obtain ⟨ds, hdeclare⟩ := declaration_passes hdeclare token.text
    refine ⟨ds, ((peek_take_passes hpeek htake).trans hdeclare).mono ?_⟩
    rintro xs zs ⟨_, rfl, hdeclare⟩
    rw [Token.lexeme_eq hkind]
    exact .plain hdeclare
  case h_7 hkind =>
    obtain ⟨taken, c₂, htake, h⟩ := exists_of_bind h
    obtain ⟨target, c₃, htarget, h⟩ := exists_of_bind h
    obtain ⟨hashtags, c₄, hclose, h⟩ := exists_of_bind h
    obtain ⟨rfl, rfl⟩ := eq_of_pure h
    refine ⟨[], ((peek_take_passes hpeek htake).trans ((jumpTarget_passes htarget).trans
      (closeCommand_passes hclose))).mono ?_⟩
    rintro xs zs ⟨_, rfl, _, htarget, hclose⟩
    rw [Token.lexeme_eq hkind]
    exact .plain (.jump htarget hclose)
  case h_8 hkind =>
    obtain ⟨taken, c₂, htake, h⟩ := exists_of_bind h
    obtain ⟨hashtags, c₃, hclose, h⟩ := exists_of_bind h
    obtain ⟨rfl, rfl⟩ := eq_of_pure h
    refine ⟨[], ((peek_take_passes hpeek htake).trans (closeCommand_passes hclose)).mono ?_⟩
    rintro xs zs ⟨_, rfl, hclose⟩
    rw [Token.lexeme_eq hkind]
    exact .plain (.stop hclose)
  case h_9 | h_10 =>
    obtain ⟨s, c₂, hgeneric, h⟩ := exists_of_bind h
    obtain ⟨rfl, rfl⟩ := eq_of_pure h
    refine ⟨[], (peek_passes_same hpeek (genericCommand_passes hgeneric)).mono ?_⟩
    rintro xs zs ⟨hgeneric, -⟩
    exact .plain hgeneric
  case h_11 => exact absurd h refuse_fails

theorem SoundBlocksAt.arms_succ (ih : SoundBlocksAt σ n) {found : List Statement × Otherwise}
    (h : Finds (Parse.arms (n + 1)) c found d) :
    ∃ ds, c.Passes d ds ((Passage.arms (unnumberedAll found.1) found.2.unnumbered).Reads ds) := by
  unfold Parse.arms at h
  obtain ⟨body, c₁, hbody, h⟩ := exists_of_bind h
  obtain ⟨ds, hbody⟩ := ih.block hbody
  split at h
  · rename_i hending
    obtain ⟨rfl, rfl⟩ := eq_of_pure h
    rw [hending] at hbody
    exact ⟨ds, hbody.mono fun _ _ => .lastArm⟩
  · rename_i condition hashtags hending
    obtain ⟨⟨inner, otherwise⟩, c₂, hrest, h⟩ := exists_of_bind h
    obtain ⟨rfl, rfl⟩ := eq_of_pure h
    obtain ⟨ds', hrest⟩ := ih.arms hrest
    rw [hending] at hbody
    refine ⟨ds ++ ds', (hbody.trans hrest).mono ?_⟩
    rintro xs zs ⟨ys, hbody, hrest⟩
    exact .nextArm hbody hrest
  · rename_i hending
    obtain ⟨rest, c₂, hrest, h⟩ := exists_of_bind h
    obtain ⟨ds', hrest⟩ := ih.block hrest
    rw [hending] at hbody
    split at h
    · rename_i hlast
      obtain ⟨rfl, rfl⟩ := eq_of_pure h
      rw [hlast] at hrest
      refine ⟨ds ++ ds', (hbody.trans hrest).mono ?_⟩
      rintro xs zs ⟨ys, hbody, hrest⟩
      exact .elseArm hbody hrest
    · exact absurd h misplaced_fails
  · exact absurd h misplaced_fails

theorem soundBlocksAt (n : Nat) : SoundBlocksAt σ n := by
  induction n with
  | zero =>
    refine ⟨fun h => ?_, fun h => ?_, fun h => ?_, fun h => ?_⟩ <;> exact absurd h refuse_fails
  | succ n ih => exact ⟨ih.block_succ, ih.option_succ, ih.command_succ, ih.arms_succ⟩

theorem body_passes {ss : List Statement} (h : Finds (body n) c ss d) :
    ∃ ds, c.Passes d ds ((Passage.block (unnumberedAll ss) .endOfInput).Reads ds) := by
  obtain ⟨b, c₁, hblock, h⟩ := exists_of_bind h
  obtain ⟨ds, hblock⟩ := (soundBlocksAt n).block hblock
  split at h
  · rename_i hending
    obtain ⟨rfl, rfl⟩ := eq_of_pure h
    rw [hending] at hblock
    exact ⟨ds, hblock⟩
  · exact absurd h misplaced_fails

end Parse

end Cursor

end Parley.Body
