import Parley.Proofs.Grammar
import Parley.Proofs.TokenLists
set_option autoImplicit false

/-!
The grammar asks for nothing but the tokens up to the end of the input.

Each rule is in step with itself on another supply and under another bound, as long as both bounds are
above about twice the number of the tokens ahead. A rule that leads back to itself has passed a token by
then, so that the bounds are never reached. It follows that a lexer may be replaced by the list of its
tokens, and the bound by any higher one.
-/

namespace Parley.Body

/-- What is left behind a block: the end of the input where it ended the block, and otherwise less than
before. -/
structure Block.Leaves (tokens : List Token) (b : Block) (rest : List Token) : Prop where
  le : rest.length ≤ tokens.length
  inputEnd : b.ending = .endOfInput → ∃ last ∈ rest.head?, last.kind = .endOfInput
  less : b.ending ≠ .endOfInput → rest.length < tokens.length

theorem Block.Leaves.of_shorter {tokens others rest : List Token} {b : Block} (h : b.Leaves others rest)
    (hshorter : others.length ≤ tokens.length) : b.Leaves tokens rest where
  le := Nat.le_trans h.le hshorter
  inputEnd := h.inputEnd
  less hending := Nat.lt_of_lt_of_le (h.less hending) hshorter

namespace Parse

variable {σ τ : Type} [TokenSource σ] [TokenSource τ] {fault : LexError}

/-! Expressions. -/

structure ExpressionsInStep (σ τ : Type) [TokenSource σ] [TokenSource τ] (fault : LexError) (n m : Nat) :
    Prop where
  binding : ∀ (tokens : List Token) (power : Nat), 2 * tokens.length + 2 ≤ min n m →
    InStep fault tokens (fun _ rest => rest.length < tokens.length)
      (binding n power : Parse σ Expr) (binding m power : Parse τ Expr)
  operatorTail : ∀ (tokens : List Token) (power : Nat) (lhs : Expr), 2 * tokens.length + 1 ≤ min n m →
    InStep fault tokens (fun _ rest => rest.length ≤ tokens.length)
      (operatorTail n power lhs : Parse σ Expr) (operatorTail m power lhs : Parse τ Expr)
  operand : ∀ tokens : List Token, 2 * tokens.length + 1 ≤ min n m →
    InStep fault tokens (fun _ rest => rest.length < tokens.length)
      (operand n : Parse σ Expr) (operand m : Parse τ Expr)
  arguments : ∀ tokens : List Token, 2 * tokens.length + 3 ≤ min n m →
    InStep fault tokens (fun _ rest => rest.length < tokens.length)
      (arguments n : Parse σ (List Expr)) (arguments m : Parse τ (List Expr))

variable {n m : Nat} {tokens : List Token}

theorem inStep_binding (ih : ExpressionsInStep σ τ fault n m) (power : Nat)
    (hbound : 2 * tokens.length + 2 ≤ min (n + 1) (m + 1)) :
    InStep fault tokens (fun _ rest => rest.length < tokens.length)
      (binding (n + 1) power : Parse σ Expr) (binding (m + 1) power : Parse τ Expr) := by
  unfold binding
  refine (ih.operand tokens (by omega)).bind fun lhs rest hrest => ?_
  exact (ih.operatorTail rest power lhs (by omega)).mono fun _ last hlast => by omega

theorem inStep_operatorTail (ih : ExpressionsInStep σ τ fault n m) (power : Nat) (lhs : Expr)
    (hbound : 2 * tokens.length + 1 ≤ min (n + 1) (m + 1)) :
    InStep fault tokens (fun _ rest => rest.length ≤ tokens.length)
      (operatorTail (n + 1) power lhs : Parse σ Expr)
      (operatorTail (m + 1) power lhs : Parse τ Expr) := by
  unfold operatorTail
  refine .peek_bind ?_
  rintro token rest rfl
  cases hop : operator? token.kind with
  | none => exact inStep_pure lhs (Nat.le_refl _)
  | some i =>
    have hkind : token.kind ≠ .endOfInput := by
      intro hkind
      rw [hkind] at hop
      cases hop
    dsimp only
    split
    · exact inStep_pure lhs (Nat.le_refl _)
    · rw [List.length_cons] at *
      refine .take_cons_bind rfl hkind ?_
      refine (ih.binding rest _ (by omega)).bind fun rhs others hothers => ?_
      exact (ih.operatorTail others _ _ (by omega)).mono fun _ last hlast => by omega

theorem inStep_operand (ih : ExpressionsInStep σ τ fault n m)
    (hbound : 2 * tokens.length + 1 ≤ min (n + 1) (m + 1)) :
    InStep fault tokens (fun _ rest => rest.length < tokens.length)
      (operand (n + 1) : Parse σ Expr) (operand (m + 1) : Parse τ Expr) := by
  unfold operand
  refine .take_bind ?_ ?_
  · intro token hkind
    simp only [hkind]
    exact ⟨_, rfl, rfl, List.cons_ne_nil _ _⟩
  rintro token rest rfl -
  rw [List.length_cons] at *
  generalize token.kind = kind
  split
  case h_1 =>
    split
    · exact inStep_pure _ (Nat.lt_succ_self _)
    · exact inStep_throw trivial
  -- An expression in parentheses.
  case h_7 =>
    refine (ih.binding rest 0 (by omega)).bind fun inner others hothers => ?_
    refine .expect_bind (by decide) ?_
    rintro closing last rfl
    rw [List.length_cons] at hothers
    exact inStep_pure _ (by omega)
  -- A call, without arguments or with some.
  case h_8 =>
    refine .expect_bind (by decide) ?_
    rintro opening others rfl
    rw [List.length_cons] at hbound
    refine .peek_bind ?_
    rintro next last rfl
    split
    · rename_i hnext
      refine .take_cons_bind hnext (by decide) (inStep_pure _ ?_)
      simp only [List.length_cons]
      omega
    · refine (ih.arguments _ (by omega)).map fun _ final hfinal => ?_
      simp only [List.length_cons] at *
      omega
  case h_9 => exact (ih.binding rest notPower (by omega)).map fun _ last hlast => by omega
  case h_10 => exact (ih.binding rest negatePower (by omega)).map fun _ last hlast => by omega
  case h_11 => exact (ih.binding rest negatePower (by omega)).map fun _ last hlast => by omega
  case h_12 => exact inStep_throw (List.cons_ne_nil _ _)
  all_goals exact inStep_pure _ (Nat.lt_succ_self _)

theorem inStep_arguments (ih : ExpressionsInStep σ τ fault n m)
    (hbound : 2 * tokens.length + 3 ≤ min (n + 1) (m + 1)) :
    InStep fault tokens (fun _ rest => rest.length < tokens.length)
      (arguments (n + 1) : Parse σ (List Expr)) (arguments (m + 1) : Parse τ (List Expr)) := by
  unfold arguments
  refine (ih.binding tokens 0 (by omega)).bind fun first rest hrest => ?_
  refine .take_bind ?_ ?_
  · intro token hkind
    simp only [hkind]
    exact ⟨_, rfl, rfl, List.cons_ne_nil _ _⟩
  rintro token others rfl -
  rw [List.length_cons] at hrest
  generalize token.kind = kind
  split
  · exact (ih.arguments others (by omega)).map fun _ last hlast => by omega
  · exact inStep_pure _ (by omega)
  · exact inStep_throw (List.cons_ne_nil _ _)

/-- No bound is reached, as each token leads at most two levels down. -/
theorem expressionsInStep (n m : Nat) : ExpressionsInStep σ τ fault n m := by
  induction n generalizing m with
  | zero => constructor <;> (intros; omega)
  | succ n ih =>
    cases m with
    | zero => constructor <;> (intros; omega)
    | succ m =>
      exact ⟨fun _ power => inStep_binding (ih m) power, fun _ power => inStep_operatorTail (ih m) power,
        fun _ => inStep_operand (ih m), fun _ => inStep_arguments (ih m)⟩

theorem inStep_expression (hbound : 2 * tokens.length + 2 ≤ min n m) :
    InStep fault tokens (fun _ rest => rest.length < tokens.length)
      (expression n : Parse σ Expr) (expression m : Parse τ Expr) :=
  (expressionsInStep n m).binding tokens 0 hbound

/-! The parts of a statement. -/

theorem inStep_trailer (hbound : tokens.length < min n m) :
    InStep fault tokens (fun _ rest => rest.length ≤ tokens.length)
      (trailer n : Parse σ (List Text)) (trailer m : Parse τ (List Text)) := by
  induction n generalizing m tokens with
  | zero => omega
  | succ n ih =>
    obtain ⟨m, rfl⟩ : ∃ k, m = k + 1 := ⟨m - 1, by omega⟩
    unfold trailer
    refine .peek_bind ?_
    rintro token rest rfl
    rw [List.length_cons] at *
    generalize hkind : token.kind = kind
    split
    · refine .take_cons_bind hkind (by decide) ?_
      exact (ih (by omega)).map fun _ last hlast => by omega
    · refine .take_cons_bind hkind (by decide) ?_
      exact (ih (by omega)).mono fun _ last hlast => by omega
    · exact .take_cons_bind hkind (by decide) (inStep_pure _ (Nat.le_succ _))
    · exact inStep_pure _ (Nat.le_refl _)

theorem inStep_inlineExpression (hbound : 2 * tokens.length ≤ min n m) :
    InStep fault tokens (fun _ rest => rest.length < tokens.length)
      (inlineExpression n : Parse σ Expr) (inlineExpression m : Parse τ Expr) := by
  unfold inlineExpression
  refine .expect_bind (by decide) ?_
  rintro opening rest rfl
  rw [List.length_cons] at *
  refine (inStep_expression (by omega)).bind fun e others hothers => ?_
  refine .expect_bind (by decide) ?_
  rintro closing last rfl
  rw [List.length_cons] at hothers
  exact inStep_pure _ (by omega)

theorem inStep_textParts (hbound : 2 * tokens.length < min n m) :
    InStep fault tokens (fun parts rest => rest.length + parts.length ≤ tokens.length ∧
        (parts = [] → ∀ token ∈ tokens.head?, isPart token.kind = false))
      (textParts n : Parse σ (List Part)) (textParts m : Parse τ (List Part)) := by
  induction n generalizing m tokens with
  | zero => omega
  | succ n ih =>
    obtain ⟨m, rfl⟩ : ∃ k, m = k + 1 := ⟨m - 1, by omega⟩
    unfold textParts
    refine .peek_bind ?_
    rintro token rest rfl
    have hone {others : List Token} (h : others.length ≤ rest.length) (part : Part) :
        InStep fault others (fun parts last => last.length + parts.length ≤ rest.length + 1 ∧
            (parts = [] → ∀ t ∈ (token :: rest).head?, isPart t.kind = false))
          (do return part :: (← textParts n) : Parse σ (List Part))
          (do return part :: (← textParts m) : Parse τ (List Part)) := by
      rw [List.length_cons] at hbound
      refine (ih (by omega)).map fun parts last hlast => ⟨?_, by simp⟩
      rw [List.length_cons]
      omega
    generalize hkind : token.kind = kind
    split
    · exact .take_cons_bind hkind (by decide) (hone (Nat.le_refl _) _)
    · exact .take_cons_bind hkind (by decide) (hone (Nat.le_refl _) _)
    · refine (inStep_inlineExpression (by omega)).bind fun e others hothers => ?_
      exact hone (Nat.le_of_lt_succ hothers) _
    · rename_i htext hescape hbrace
      refine inStep_pure _ ⟨Nat.le_refl _, fun _ t ht => ?_⟩
      cases ht
      simpa [isPart, hkind] using ⟨⟨htext, hescape⟩, hbrace⟩

theorem inStep_commandParts (started : Bool) (hbound : 2 * tokens.length < min n m) :
    InStep fault tokens (fun _ rest => rest.length ≤ tokens.length)
      (commandParts n started : Parse σ (List Part)) (commandParts m started : Parse τ (List Part)) := by
  induction n generalizing m tokens started with
  | zero => omega
  | succ n ih =>
    obtain ⟨m, rfl⟩ : ∃ k, m = k + 1 := ⟨m - 1, by omega⟩
    unfold commandParts
    refine .peek_bind ?_
    rintro token rest rfl
    rw [List.length_cons] at *
    generalize hkind : token.kind = kind
    split
    · refine .take_cons_bind hkind (by decide) ?_
      exact (ih true (by omega)).map fun _ last hlast => by omega
    · refine (inStep_inlineExpression (by rw [List.length_cons]; omega)).bind fun e others hothers => ?_
      rw [List.length_cons] at hothers
      exact (ih true (by omega)).map fun _ last hlast => by omega
    · split
      · exact inStep_pure _ (Nat.le_refl _)
      · exact inStep_refuse (List.cons_ne_nil _ _)
    · exact inStep_refuse (List.cons_ne_nil _ _)

theorem inStep_closeCommand (hbound : tokens.length ≤ min n m) :
    InStep fault tokens (fun _ rest => rest.length < tokens.length)
      (closeCommand n : Parse σ (List Text)) (closeCommand m : Parse τ (List Text)) := by
  unfold closeCommand
  refine .expect_bind (by decide) ?_
  rintro closing rest rfl
  rw [List.length_cons] at *
  exact (inStep_trailer (by omega)).mono fun _ last hlast => by omega

theorem inStep_textLine (hbound : 2 * tokens.length < min n m)
    (hpart : ∀ token ∈ tokens.head?, isPart token.kind = true) :
    InStep fault tokens (fun _ rest => rest.length < tokens.length)
      (textLine n : Parse σ Statement) (textLine m : Parse τ Statement) := by
  unfold textLine
  refine .peek_bind ?_
  rintro token rest rfl
  refine (inStep_textParts hbound).bind fun parts others hothers => ?_
  refine (inStep_trailer (by omega)).map fun hashtags last hlast => ?_
  -- The first token begins a part, so that there is one.
  cases parts with
  | nil =>
    have hnone := hothers.2 rfl token rfl
    rw [hpart token rfl] at hnone
    cases hnone
  | cons part parts =>
    simp only [List.length_cons] at *
    omega

theorem inStep_assignment (opening : Token) (hbound : 2 * tokens.length ≤ min n m) :
    InStep fault tokens (fun _ rest => rest.length ≤ tokens.length)
      (assignment n opening : Parse σ Statement) (assignment m opening : Parse τ Statement) := by
  unfold assignment
  refine .expect_bind (by decide) ?_
  rintro name rest rfl
  refine .expect_bind (by decide) ?_
  rintro sign others rfl
  simp only [List.length_cons] at *
  refine (inStep_expression (by omega)).bind fun value last hlast => ?_
  exact (inStep_closeCommand (by omega)).map fun _ final hfinal => by omega

theorem inStep_typeClause :
    InStep fault tokens (fun _ rest => rest.length ≤ tokens.length)
      (typeClause : Parse σ (Option TypeName)) (typeClause : Parse τ (Option TypeName)) := by
  unfold typeClause
  refine .peek_bind ?_
  rintro token rest rfl
  split
  · rename_i hkind
    refine .take_cons_bind hkind (by decide) ?_
    refine .expect_bind (by decide) ?_
    rintro name others rfl
    split
    · refine inStep_pure _ ?_
      simp only [List.length_cons]
      omega
    · exact inStep_throw (List.cons_ne_nil _ _)
  · exact inStep_pure _ (Nat.le_refl _)

theorem inStep_declaration (opening : Token) (hbound : 2 * tokens.length ≤ min n m) :
    InStep fault tokens (fun _ rest => rest.length ≤ tokens.length)
      (declaration n opening : Parse σ Unit) (declaration m opening : Parse τ Unit) := by
  unfold declaration
  refine .expect_bind (by decide) ?_
  rintro name rest rfl
  refine .expect_bind (by decide) ?_
  rintro sign others rfl
  simp only [List.length_cons] at *
  refine (inStep_expression (by omega)).bind fun value next hnext => ?_
  refine inStep_typeClause.bind fun type last hlast => ?_
  refine (inStep_closeCommand (by omega)).bind fun _ final hfinal => ?_
  exact inStep_declare _ _ (by omega)

theorem inStep_jumpTarget (hbound : 2 * tokens.length ≤ min n m) :
    InStep fault tokens (fun _ rest => rest.length ≤ tokens.length)
      (jumpTarget n : Parse σ JumpTarget) (jumpTarget m : Parse τ JumpTarget) := by
  unfold jumpTarget
  refine .peek_bind ?_
  rintro token rest rfl
  generalize hkind : token.kind = kind
  split
  · exact .take_cons_bind hkind (by decide) (inStep_pure _ (Nat.le_succ _))
  · exact (inStep_inlineExpression hbound).map fun _ _ hlast => Nat.le_of_lt hlast
  · exact inStep_refuse (List.cons_ne_nil _ _)

theorem inStep_genericCommand (opening : Token) (hbound : 2 * tokens.length < min n m) :
    InStep fault tokens (fun _ rest => rest.length ≤ tokens.length)
      (genericCommand n opening : Parse σ Statement) (genericCommand m opening : Parse τ Statement) := by
  unfold genericCommand
  refine (inStep_commandParts false hbound).bind fun parts rest hrest => ?_
  exact (inStep_closeCommand (by omega)).map fun _ last hlast => by omega

theorem inStep_guardClause (hbound : 2 * tokens.length ≤ min n m) :
    InStep fault tokens (fun _ rest => rest.length ≤ tokens.length)
      (guardClause n : Parse σ (Option Expr)) (guardClause m : Parse τ (Option Expr)) := by
  unfold guardClause
  refine .peek_bind ?_
  rintro token rest rfl
  split
  · rename_i hkind
    refine .take_cons_bind hkind (by decide) ?_
    refine .expect_bind (by decide) ?_
    rintro word others rfl
    simp only [List.length_cons] at *
    refine (inStep_expression (by omega)).bind fun condition last hlast => ?_
    refine .expect_bind (by decide) ?_
    rintro closing final rfl
    rw [List.length_cons] at hlast
    exact inStep_pure _ (by omega)
  · exact inStep_pure _ (Nat.le_refl _)

theorem inStep_optionLabel (hbound : 2 * tokens.length < min n m) :
    InStep fault tokens (fun _ rest => rest.length ≤ tokens.length)
      (optionLabel n : Parse σ (List Part)) (optionLabel m : Parse τ (List Part)) := by
  unfold optionLabel
  refine (inStep_textParts hbound).bind fun parts rest hrest => ?_
  split
  · exact inStep_refuse (List.cons_ne_nil _ _)
  · exact inStep_pure _ (by omega)

/-! Blocks. -/

structure StatementsInStep (σ τ : Type) [TokenSource σ] [TokenSource τ] (fault : LexError) (n m : Nat) :
    Prop where
  block : ∀ tokens : List Token, 2 * tokens.length + 2 ≤ min n m →
    InStep fault tokens (fun b rest => b.Leaves tokens rest)
      (block n : Parse σ Block) (block m : Parse τ Block)
  option : ∀ tokens : List Token, 2 * tokens.length + 1 ≤ min n m →
    InStep fault tokens (fun _ rest => rest.length < tokens.length)
      (option n : Parse σ Choice) (option m : Parse τ Choice)
  command : ∀ (tokens : List Token) (opening : Token), 2 * tokens.length + 2 ≤ min n m →
    InStep fault tokens (fun c rest => rest.length ≤ tokens.length ∧ c ≠ .ending .endOfInput)
      (command n opening : Parse σ Command) (command m opening : Parse τ Command)
  arms : ∀ tokens : List Token, 2 * tokens.length + 3 ≤ min n m →
    InStep fault tokens (fun _ rest => rest.length ≤ tokens.length)
      (arms n : Parse σ (List Statement × Otherwise)) (arms m : Parse τ (List Statement × Otherwise))

theorem inStep_option (ih : StatementsInStep σ τ fault n m)
    (hbound : 2 * tokens.length + 1 ≤ min (n + 1) (m + 1)) :
    InStep fault tokens (fun _ rest => rest.length < tokens.length)
      (option (n + 1) : Parse σ Choice) (option (m + 1) : Parse τ Choice) := by
  unfold option
  refine .expect_bind (by decide) ?_
  rintro arrow rest rfl
  rw [List.length_cons] at *
  refine (inStep_optionLabel (by omega)).bind fun label afterLabel hlabel => ?_
  refine (inStep_guardClause (by omega)).bind fun guard afterGuard hguard => ?_
  refine (inStep_trailer (by omega)).bind fun hashtags others hothers => ?_
  refine .peek_bind ?_
  rintro token last rfl
  rw [List.length_cons] at hothers
  split
  · rename_i hkind
    refine .take_cons_bind hkind (by decide) ?_
    refine (ih.block last (by omega)).bind fun body final hfinal => ?_
    have hless := hfinal.le
    split
    · exact inStep_pure _ (by omega)
    · exact inStep_misplaced _ (List.cons_ne_nil _ _)
  · exact inStep_pure _ (by rw [List.length_cons]; omega)

theorem inStep_command (ih : StatementsInStep σ τ fault n m) (opening : Token)
    (hbound : 2 * tokens.length + 2 ≤ min (n + 1) (m + 1)) :
    InStep fault tokens (fun c rest => rest.length ≤ tokens.length ∧ c ≠ .ending .endOfInput)
      (command (n + 1) opening : Parse σ Command) (command (m + 1) opening : Parse τ Command) := by
  unfold command
  refine .peek_bind ?_
  rintro token rest rfl
  have hgeneric : InStep fault (token :: rest) (fun c last => last.length ≤ (token :: rest).length ∧
        c ≠ .ending .endOfInput)
      (do return .statement (← genericCommand n opening) : Parse σ Command)
      (do return .statement (← genericCommand m opening) : Parse τ Command) :=
    (inStep_genericCommand opening (by omega)).map fun _ last hlast => ⟨hlast, by simp⟩
  rw [List.length_cons] at *
  generalize hkind : token.kind = kind
  split
  -- A conditional, whose arms start behind at least three tokens.
  case h_1 =>
    refine .take_cons_bind hkind (by decide) ?_
    refine (inStep_expression (by omega)).bind fun condition others hothers => ?_
    refine (inStep_closeCommand (by omega)).bind fun hashtags last hlast => ?_
    exact (ih.arms last (by omega)).map fun _ final hfinal => ⟨by omega, by simp⟩
  case h_2 =>
    refine .take_cons_bind hkind (by decide) ?_
    refine (inStep_expression (by omega)).bind fun condition others hothers => ?_
    exact (inStep_closeCommand (by omega)).map fun _ last hlast => ⟨by omega, by simp⟩
  case h_3 =>
    refine .take_cons_bind hkind (by decide) ?_
    exact (inStep_closeCommand (by omega)).map fun _ last hlast => ⟨by omega, by simp⟩
  case h_4 =>
    refine .take_cons_bind hkind (by decide) ?_
    exact (inStep_closeCommand (by omega)).map fun _ last hlast => ⟨by omega, by simp⟩
  case h_5 =>
    refine .take_cons_bind hkind (by decide) ?_
    exact (inStep_assignment opening (by omega)).map fun _ last hlast => ⟨by omega, by simp⟩
  case h_6 =>
    refine .take_cons_bind hkind (by decide) ?_
    exact (inStep_declaration opening (by omega)).map fun _ last hlast => ⟨by omega, by simp⟩
  case h_7 =>
    refine .take_cons_bind hkind (by decide) ?_
    refine (inStep_jumpTarget (by omega)).bind fun target others hothers => ?_
    exact (inStep_closeCommand (by omega)).map fun _ last hlast => ⟨by omega, by simp⟩
  case h_8 =>
    refine .take_cons_bind hkind (by decide) ?_
    exact (inStep_closeCommand (by omega)).map fun _ last hlast => ⟨by omega, by simp⟩
  case h_9 => exact hgeneric
  case h_10 => exact hgeneric
  case h_11 => exact inStep_refuse (List.cons_ne_nil _ _)

theorem inStep_arms (ih : StatementsInStep σ τ fault n m)
    (hbound : 2 * tokens.length + 3 ≤ min (n + 1) (m + 1)) :
    InStep fault tokens (fun _ rest => rest.length ≤ tokens.length)
      (arms (n + 1) : Parse σ (List Statement × Otherwise))
      (arms (m + 1) : Parse τ (List Statement × Otherwise)) := by
  unfold arms
  refine (ih.block tokens (by omega)).bind fun body rest hrest => ?_
  have hle := hrest.le
  split
  · exact inStep_pure _ hle
  · rename_i condition hashtags hbody
    have hless := hrest.less (by simp [hbody])
    exact (ih.arms rest (by omega)).map fun _ last hlast => by omega
  · rename_i hbody
    have hless := hrest.less (by simp [hbody])
    refine (ih.block rest (by omega)).bind fun last final hfinal => ?_
    split
    · exact inStep_pure _ (by have := hfinal.le; omega)
    · exact inStep_misplaced _ (List.cons_ne_nil _ _)
  · exact inStep_misplaced _ (List.cons_ne_nil _ _)

theorem inStep_block (ih : StatementsInStep σ τ fault n m)
    (hbound : 2 * tokens.length + 2 ≤ min (n + 1) (m + 1)) :
    InStep fault tokens (fun b rest => b.Leaves tokens rest)
      (block (n + 1) : Parse σ Block) (block (m + 1) : Parse τ Block) := by
  unfold block
  refine .peek_bind ?_
  rintro token rest rfl
  -- Behind a first statement the block goes on with fewer tokens.
  have hnext {others : List Token} (h : others.length ≤ rest.length) :
      InStep fault others (fun b last => b.Leaves (token :: rest) last) (block n : Parse σ Block)
        (block m : Parse τ Block) := by
    rw [List.length_cons] at hbound
    refine (ih.block others (by omega)).mono fun b last hlast => hlast.of_shorter ?_
    rw [List.length_cons]
    omega
  have hcons {others : List Token} (h : others.length ≤ rest.length) (s : Statement) :
      InStep fault others (fun b last => b.Leaves (token :: rest) last)
        (do return (← block n).cons s : Parse σ Block) (do return (← block m).cons s : Parse τ Block) :=
    (hnext h).map fun _ _ hlast => ⟨hlast.le, hlast.inputEnd, hlast.less⟩
  have hline (hpart : isPart token.kind = true) :
      InStep fault (token :: rest) (fun b last => b.Leaves (token :: rest) last)
        (do let s ← textLine n
            return (← block n).cons s : Parse σ Block)
        (do let s ← textLine m
            return (← block m).cons s : Parse τ Block) := by
    refine (inStep_textLine (by omega) ?_).bind fun s others hothers => ?_
    · rintro _ ⟨⟩
      exact hpart
    · exact hcons (Nat.le_of_lt_succ hothers) s
  generalize hkind : token.kind = kind at hline ⊢
  split
  case h_1 => exact .take_cons_bind hkind (by decide) (hnext (Nat.le_refl _))
  case h_2 => exact .take_cons_bind hkind (by decide) (hnext (Nat.le_refl _))
  -- The end of the input is only looked at.
  case h_3 => exact inStep_pure _ ⟨Nat.le_refl _, fun _ => ⟨token, rfl, hkind⟩, fun h => absurd rfl h⟩
  case h_4 =>
    refine .take_cons_bind hkind (by decide) (inStep_pure _ ?_)
    exact ⟨Nat.le_succ _, by simp, fun _ => Nat.lt_succ_self _⟩
  case h_5 =>
    refine (ih.option _ (by omega)).bind fun o others hothers => ?_
    exact hcons (Nat.le_of_lt_succ hothers) _
  case h_6 => exact hline rfl
  case h_7 => exact hline rfl
  case h_8 => exact hline rfl
  case h_9 =>
    rw [List.length_cons] at hbound
    refine .take_cons_bind hkind (by decide) ?_
    refine (ih.command rest token (by omega)).bind fun c others hothers => ?_
    obtain ⟨hle, hinner⟩ := hothers
    split
    · exact hcons hle _
    · exact inStep_pure _ ⟨Nat.le_succ_of_le hle, fun h => absurd (congrArg Command.ending h) hinner,
        fun _ => Nat.lt_succ_of_le hle⟩
    · exact hnext hle
  case h_10 => exact inStep_refuse (List.cons_ne_nil _ _)

theorem statementsInStep (n m : Nat) : StatementsInStep σ τ fault n m := by
  induction n generalizing m with
  | zero => constructor <;> (intros; omega)
  | succ n ih =>
    cases m with
    | zero => constructor <;> (intros; omega)
    | succ m =>
      exact ⟨fun _ => inStep_block (ih m), fun _ => inStep_option (ih m),
        fun _ opening => inStep_command (ih m) opening, fun _ => inStep_arms (ih m)⟩

theorem inStep_body (hbound : 2 * tokens.length + 2 ≤ min n m) :
    InStep fault tokens (fun _ rest => ∃ last ∈ rest.head?, last.kind = .endOfInput)
      (body n : Parse σ (List Statement)) (body m : Parse τ (List Statement)) := by
  unfold body
  refine ((statementsInStep n m).block tokens hbound).bind fun b rest hrest => ?_
  split
  · rename_i hending
    exact inStep_pure _ (hrest.inputEnd hending)
  · exact inStep_misplaced _ (List.cons_ne_nil _ _)

end Parse

/-! Whole bodies. -/

def parseWithin {σ : Type} [TokenSource σ] (n : Nat) (source : σ) (declared : Declarations) :
    Except ParseError (List Statement) × Declarations :=
  match Parse.body n ⟨source, none, declared⟩ with
  | .ok statements c => (.ok statements, c.declared)
  | .error e c => (.error e, c.declared)

theorem parseWithin_weight {σ : Type} [TokenSource σ] (source : σ) (declared : Declarations) :
    parseWithin (4 * TokenSource.weight source + 8) source declared = parseSource source declared :=
  rfl

section Supplies

variable {σ τ : Type} [TokenSource σ] [TokenSource τ] {fault : LexError} {tokens : List Token} {s : σ}
  {s' : τ} {n m : Nat} {declared declared' : Declarations}

theorem parseWithin_of_ok {ss : List Statement} {q : Spot σ}
    (h : Parse.body n ⟨s, none, declared⟩ = .ok ss (q.cursor declared')) :
    parseWithin n s declared = (.ok ss, declared') := by
  rw [parseWithin, h]
  rfl

theorem parseWithin_of_error {e : ParseError} {q : Spot σ}
    (h : Parse.body n ⟨s, none, declared⟩ = .error e (q.cursor declared')) :
    parseWithin n s declared = (.error e, declared') := by
  rw [parseWithin, h]
  rfl

/-- Two supplies with the same tokens, each under a bound that suffices for them. -/
theorem matches_of_offers (hs : Offers fault s tokens) (hs' : Offers fault s' tokens)
    (hbound : 2 * tokens.length + 2 ≤ min n m) (declared : Declarations) :
    Parse.Matches fault ⟨s, none⟩ tokens (fun _ rest => ∃ last ∈ rest.head?, last.kind = .endOfInput)
      (Parse.body n ⟨s, none, declared⟩) (Parse.body m ⟨s', none, declared⟩) :=
  Parse.inStep_body hbound ⟨s, none⟩ ⟨s', none⟩ declared (.fresh hs) (.fresh hs')

theorem parseWithin_eq_of_offers (hs : Offers fault s tokens) (hs' : Offers fault s' tokens)
    (hbound : 2 * tokens.length + 2 ≤ min n m) (declared : Declarations) :
    parseWithin n s declared = parseWithin m s' declared := by
  cases matches_of_offers hs hs' hbound declared with
  | ok hr hr' => rw [parseWithin_of_ok hr, parseWithin_of_ok hr']
  | error hr hr' => rw [parseWithin_of_error hr, parseWithin_of_error hr']

theorem reported_of_parseWithin {e : ParseError} (hs : Offers fault s tokens)
    (hbound : 2 * tokens.length + 2 ≤ n) (h : (parseWithin n s declared).1 = .error e) :
    e.Reported fault := by
  cases matches_of_offers hs hs (Nat.le_min.2 ⟨hbound, hbound⟩) declared with
  | ok hr =>
    rw [parseWithin_of_ok hr] at h
    cases h
  | error hr _ he =>
    rw [parseWithin_of_error hr] at h
    cases h
    exact he

theorem Offers.front {front back : List Token} {last : Token} (h : Offers fault s (front ++ last :: back))
    (hlast : last.kind = .endOfInput) : back = [] ∧ ∀ t ∈ front, t.kind ≠ .endOfInput := by
  induction front generalizing s with
  | nil =>
    cases h with
    | last => exact ⟨rfl, by simp⟩
    | cons _ hkind => exact absurd hlast hkind
  | cons token front ih =>
    generalize htokens : token :: front ++ last :: back = tokens at h
    cases h with
    | fails => cases htokens
    | last => simp at htokens
    | cons _ hkind rest =>
      cases htokens
      obtain ⟨hback, hfront⟩ := ih rest
      exact ⟨hback, by simpa [hkind] using hfront⟩

/-- What was parsed to its end has passed all the tokens in front of the end of the input. -/
theorem passes_of_parseWithin {ss : List Statement} (hs : Offers fault s tokens)
    (hbound : 2 * tokens.length + 2 ≤ n) (h : (parseWithin n s declared).1 = .ok ss) :
    ∃ front last q declared', tokens = front ++ [last] ∧ last.kind = .endOfInput ∧
      (∀ t ∈ front, t.kind ≠ .endOfInput) ∧
      Parse.body n ⟨s, none, declared⟩ = .ok ss (Spot.cursor q declared') ∧
      Spot.Passes ⟨s, none⟩ front q := by
  cases matches_of_offers hs hs (Nat.le_min.2 ⟨hbound, hbound⟩) declared with
  | error hr =>
    rw [parseWithin_of_error hr] at h
    cases h
  | @ok _ _ _ _ front rest hr _ hsplit passes _ _ hrest =>
    rw [parseWithin_of_ok hr] at h
    cases h
    obtain ⟨last, hhead, hlast⟩ := hrest
    obtain ⟨back, rfl⟩ := List.head?_eq_some_iff.1 hhead
    obtain ⟨rfl, hfront⟩ := Offers.front (hsplit ▸ hs) hlast
    exact ⟨front, last, _, _, hsplit, hlast, hfront, hr, passes⟩

end Supplies

theorem Lexer.listed_le_bound (l : Lexer) (behind : LexError) :
    2 * (l.listed behind).tokens.length + 2 ≤ 4 * l.weight + 8 := by
  have hlength := l.listing_length_le
  simp only [listed]
  omega

theorem Lexer.tokens_of_listed {l : Lexer} {behind : LexError} {front : List Token} {last : Token}
    (h : (l.listed behind).tokens = front ++ [last]) (hlast : last.kind = .endOfInput) :
    l.tokens = .ok (front ++ [last]) := by
  rw [l.tokens_eq_listing]
  cases hfault : l.listing.2 with
  | none => exact congrArg Except.ok h
  | some e =>
    have hmem : last ∈ l.listing.1 := by
      rw [show l.listing.1 = front ++ [last] from h]
      simp
    exact absurd hlast (listing_inner hfault last hmem)

/-- An error that is the same whatever stands behind the end of the input is the lexer's own. -/
theorem Lexer.tokens_of_fault {l : Lexer} {e : LexError}
    (h : ∀ behind, e.toParseError = (l.listed behind).fault.toParseError) : l.tokens = .error e := by
  have hown : ∀ behind, e = (l.listed behind).fault := by
    intro behind
    have hb := h behind
    simp only [LexError.toParseError, ParseError.mk.injEq, ParseCause.lexical.injEq] at hb
    rw [LexError.mk.injEq]
    exact hb
  rw [l.tokens_eq_listing]
  cases hfault : l.listing.2 with
  | some e' => rw [hown e, listed, hfault, Option.getD_some]
  | none =>
    -- Then it would also be an error with another line.
    have hline : e.span.line = e.span.line + 1 := by
      have hother := hown ⟨e.cause, { e.span with line := e.span.line + 1 }⟩
      rw [listed, hfault, Option.getD_none] at hother
      exact congrArg (·.span.line) hother
    omega

/-- Whether the tokens of a body come from its lexer or from their list makes no difference, also not if
there is an error behind the end of the input. No higher bound changes anything either, and the bound is
never what parsing ends with. Where it succeeds, each token in front of the end of the input has been
passed, and where the lexer is to blame, its tokens end with that error. -/
theorem parse_from_list (body : Text) (declared : Declarations) :
    (∀ behind, parseSource ((Lexer.ofBody body).listed behind) declared = parse body declared) ∧
    (∀ n, 4 * (Lexer.ofBody body).weight + 8 ≤ n →
      parseWithin n (Lexer.ofBody body) declared = parse body declared) ∧
    (∀ found lexeme span, (parse body declared).1 ≠ .error ⟨.unexpected found lexeme [], span⟩) ∧
    (∀ ss, (parse body declared).1 = .ok ss → ∃ front last q declared',
      tokenize body = .ok (front ++ [last]) ∧ last.kind = .endOfInput ∧
      (∀ t ∈ front, t.kind ≠ .endOfInput) ∧
      Parse.body (4 * (Lexer.ofBody body).weight + 8) ⟨Lexer.ofBody body, none, declared⟩ =
        .ok ss (Spot.cursor q declared') ∧
      Spot.Passes ⟨Lexer.ofBody body, none⟩ front q) ∧
    ∀ cause span, (parse body declared).1 = .error ⟨.lexical cause, span⟩ →
      tokenize body = .error ⟨cause, span⟩ := by
  have hoffers := (Lexer.ofBody body).offers_listing
  have hbound := (Lexer.ofBody body).listed_le_bound
  -- Any error will do where nothing is said about the end of the input.
  obtain ⟨behind⟩ : Nonempty LexError := ⟨⟨.invalidSyntax .base body, ⟨1, 1, 1⟩⟩⟩
  refine ⟨fun behind => ?_, fun n hn => ?_, fun found lexeme span h => ?_, fun ss h => ?_,
    fun cause span h => ?_⟩
  · have hlist : 2 * ((Lexer.ofBody body).listed behind).tokens.length + 2 ≤
        4 * ((Lexer.ofBody body).listed behind).tokens.length + 8 := by omega
    rw [parse, ← parseWithin_weight, ← parseWithin_weight]
    exact parseWithin_eq_of_offers (hoffers behind).list (hoffers behind)
      (Nat.le_min.2 ⟨hlist, hbound behind⟩) declared
  · rw [parse, ← parseWithin_weight]
    exact parseWithin_eq_of_offers (hoffers behind) (hoffers behind)
      (Nat.le_min.2 ⟨Nat.le_trans (hbound behind) hn, hbound behind⟩) declared
  · exact reported_of_parseWithin (hoffers behind) (hbound behind) h rfl
  · obtain ⟨front, last, q, declared', hsplit, hlast, hfront, hbody, hpasses⟩ :=
      passes_of_parseWithin (hoffers behind) (hbound behind) h
    exact ⟨front, last, q, declared', Lexer.tokens_of_listed hsplit hlast, hlast, hfront, hbody, hpasses⟩
  · exact Lexer.tokens_of_fault fun behind => reported_of_parseWithin (hoffers behind) (hbound behind) h

def failsWith {ε α : Type} [DecidableEq ε] (e : ε) : Except ε α → Bool
  | .error e' => e' = e
  | .ok _ => false

theorem eq_error_of_failsWith {ε α : Type} [DecidableEq ε] {e : ε} {r : Except ε α}
    (h : failsWith e r = true) : r = .error e := by
  cases r with
  | error e' => exact congrArg Except.error (of_decide_eq_true h)
  | ok a => cases h

/-- The lexer is to blame for the second line, but the first one is refused before it is asked. -/
def refusedEarly : Text :=
  "<<endif>>\n{@}".toList

theorem parse_from_list_early :
    (∃ front last, tokenize "-> Ask {$why}\n  Why?".toList = .ok (front ++ [last]) ∧
      ∃ q, Spot.Passes ⟨Lexer.ofBody "-> Ask {$why}\n  Why?".toList, none⟩ front q) ∧
    tokenize "Hi {@}".toList = .error ⟨.invalidSyntax .inline "Hi {@}".toList, ⟨1, 5, 7⟩⟩ ∧
    tokenize refusedEarly = .error ⟨.invalidSyntax .inline "{@}".toList, ⟨2, 2, 4⟩⟩ ∧
    ∀ behind, (parseSource ((Lexer.ofBody refusedEarly).listed behind) .empty).1 =
      .error ⟨.unexpected .endifWord [] statementStart, ⟨1, 1, 3⟩⟩ := by
  obtain ⟨-, -, -, hok, -⟩ := parse_from_list "-> Ask {$why}\n  Why?".toList .empty
  obtain ⟨-, -, -, -, hlexical⟩ := parse_from_list "Hi {@}".toList .empty
  obtain ⟨hlist, -⟩ := parse_from_list refusedEarly .empty
  have hparses : ((parse "-> Ask {$why}\n  Why?".toList .empty).1).isOk = true := by decide +kernel
  refine ⟨?_, hlexical _ _ (eq_error_of_failsWith ?_), eq_error_of_failsWith ?_, fun behind => ?_⟩
  · cases h : (parse "-> Ask {$why}\n  Why?".toList .empty).1 with
    | error e =>
      rw [h] at hparses
      cases hparses
    | ok ss =>
      obtain ⟨front, last, q, _, htokens, _, _, _, hpasses⟩ := hok ss h
      exact ⟨front, last, htokens, q, hpasses⟩
  · decide +kernel
  · decide +kernel
  · rw [hlist]
    apply eq_error_of_failsWith
    decide +kernel

end Parley.Body
