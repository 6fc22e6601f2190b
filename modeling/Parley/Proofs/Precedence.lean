import Parley.Proofs.Blocks
import Parley.Proofs.Derivation
set_option autoImplicit false

/-!
How expressions are written with no more parentheses than they need, and that they are read back.

Operators are ranked by how tight they bind. A position asks for a rank, and an expression that stands
there is put in parentheses exactly when its own rank is lower.
-/

namespace Parley.Body

namespace BinaryOp

def rank : BinaryOp → Nat
  | .or | .xor => 0
  | .and => 1
  | .equal | .notEqual => 3
  | .greater | .greaterEqual | .less | .lessEqual => 4
  | .add | .subtract => 5
  | .multiply | .divide | .modulo => 6
  | .power => 7

/-- The ranks that an operator asks for on its left and on its right: the operand on the side to which
it groups may have the same rank. -/
def sides (op : BinaryOp) : Nat × Nat :=
  if op = .power then (op.rank + 1, op.rank) else (op.rank, op.rank + 1)

def kinds : BinaryOp → List TokenKind
  | .add => [.plus]
  | .subtract => [.minus, .gluedMinus]
  | .multiply => [.times]
  | .divide => [.divide]
  | .modulo => [.modulo]
  | .power => [.power]
  | .and => [.and]
  | .or => [.or]
  | .xor => [.xor]
  | .equal => [.equal, .assign]
  | .notEqual => [.notEqual]
  | .greater => [.greater]
  | .greaterEqual => [.greaterEqual]
  | .less => [.less]
  | .lessEqual => [.lessEqual]

end BinaryOp

namespace UnaryOp

def rank : UnaryOp → Nat
  | .not => 2
  | .negate => 8

def kinds : UnaryOp → List TokenKind
  | .not => [.not]
  | .negate => [.minus, .gluedMinus]

end UnaryOp

/-- What is no operation is an atom, and tighter than any operator. -/
def Expr.rank : Expr → Nat
  | .binary op .. => op.rank
  | .unary op _ => op.rank
  | .literal _ | .var _ | .call .. => 9

inductive Writing where
  | within (rank : Nat) (e : Expr)
  | bare (e : Expr)
  | arguments (es : List Expr)

inductive Writing.Gives : Writing → List Lexeme → Prop where
  | plain {rank : Nat} {e : Expr} {xs : List Lexeme} (h : rank ≤ e.rank)
      (inner : Gives (.bare e) xs) : Gives (.within rank e) xs
  | parens {rank : Nat} {e : Expr} {t u : Text} {xs : List Lexeme} (h : e.rank < rank)
      (inner : Gives (.bare e) xs) :
      Gives (.within rank e) ((.leftParen, t) :: (xs ++ [(.rightParen, u)]))
  | literal {x : Lexeme} {v : Value} (h : literal? x = some v) : Gives (.bare (.literal v)) [x]
  | var {t : Text} : Gives (.bare (.var (variableIn t))) [(.variableName, t)]
  | unary {op : UnaryOp} {e : Expr} {x : Lexeme} {xs : List Lexeme} (hx : x.1 ∈ op.kinds)
      (inner : Gives (.within op.rank e) xs) : Gives (.bare (.unary op e)) (x :: xs)
  | binary {op : BinaryOp} {lhs rhs : Expr} {x : Lexeme} {xs ys : List Lexeme}
      (hx : x.1 ∈ op.kinds) (left : Gives (.within op.sides.1 lhs) xs)
      (right : Gives (.within op.sides.2 rhs) ys) :
      Gives (.bare (.binary op lhs rhs)) (xs ++ x :: ys)
  | emptyCall {f t u : Text} :
      Gives (.bare (.call f [])) [(.identifier, f), (.leftParen, t), (.rightParen, u)]
  | call {f t u : Text} {es : List Expr} {xs : List Lexeme} (args : Gives (.arguments es) xs) :
      Gives (.bare (.call f es)) ((.identifier, f) :: (.leftParen, t) :: (xs ++ [(.rightParen, u)]))
  | lastArgument {e : Expr} {xs : List Lexeme} (only : Gives (.within 0 e) xs) :
      Gives (.arguments [e]) xs
  | argument {e : Expr} {es : List Expr} {t : Text} {xs ys : List Lexeme}
      (first : Gives (.within 0 e) xs) (rest : Gives (.arguments es) ys) :
      Gives (.arguments (e :: es)) (xs ++ (.comma, t) :: ys)

abbrev Expr.WrittenAs (e : Expr) (xs : List Lexeme) : Prop :=
  (Writing.within 0 e).Gives xs

/-- Expressions that can be written at all: every number has a text, and no name starts with the sign
that marks variables. -/
inductive Expr.Writable : Expr → Prop where
  | literal {x : Lexeme} {v : Value} (h : literal? x = some v) : Writable (.literal v)
  | var {t : Text} : Writable (.var (variableIn t))
  | unary {op : UnaryOp} {e : Expr} (inner : Writable e) : Writable (.unary op e)
  | binary {op : BinaryOp} {lhs rhs : Expr} (left : Writable lhs) (right : Writable rhs) :
      Writable (.binary op lhs rhs)
  | call {f : Text} {es : List Expr} (args : ∀ e ∈ es, Writable e) : Writable (.call f es)

theorem Writing.exists_within {e : Expr} {xs : List Lexeme} (h : (Writing.bare e).Gives xs)
    (rank : Nat) : ∃ ys, (Writing.within rank e).Gives ys := by
  by_cases hrank : rank ≤ e.rank
  · exact ⟨xs, .plain hrank h⟩
  · exact ⟨_, .parens (t := []) (u := []) (Nat.lt_of_not_le hrank) h⟩

theorem Writing.exists_arguments {e : Expr} {es : List Expr}
    (h : ∀ e' ∈ e :: es, ∃ xs, (Writing.bare e').Gives xs) :
    ∃ xs, (Writing.arguments (e :: es)).Gives xs := by
  induction es generalizing e with
  | nil =>
    obtain ⟨xs, hxs⟩ := h e (List.mem_cons_self ..)
    obtain ⟨ys, hys⟩ := exists_within hxs 0
    exact ⟨ys, .lastArgument hys⟩
  | cons e' es ih =>
    obtain ⟨xs, hxs⟩ := h e (List.mem_cons_self ..)
    obtain ⟨ys, hys⟩ := exists_within hxs 0
    obtain ⟨zs, hzs⟩ := ih fun e'' he'' => h e'' (List.mem_cons_of_mem _ he'')
    exact ⟨_, .argument (t := []) hys hzs⟩

theorem Expr.Writable.exists_bare {e : Expr} (h : e.Writable) :
    ∃ xs, (Writing.bare e).Gives xs := by
  induction h with
  | literal h => exact ⟨_, .literal h⟩
  | var => exact ⟨_, .var⟩
  | @unary op e inner ih =>
    obtain ⟨xs, hxs⟩ := ih
    obtain ⟨ys, hys⟩ := Writing.exists_within hxs op.rank
    obtain ⟨kind, hkind⟩ : ∃ kind, kind ∈ op.kinds := by
      cases op <;> exact ⟨_, List.mem_cons_self ..⟩
    exact ⟨(kind, []) :: ys, .unary hkind hys⟩
  | @binary op lhs rhs left right ihleft ihright =>
    obtain ⟨xs, hxs⟩ := ihleft
    obtain ⟨ys, hys⟩ := ihright
    obtain ⟨us, hus⟩ := Writing.exists_within hxs op.sides.1
    obtain ⟨vs, hvs⟩ := Writing.exists_within hys op.sides.2
    obtain ⟨kind, hkind⟩ : ∃ kind, kind ∈ op.kinds := by
      cases op <;> exact ⟨_, List.mem_cons_self ..⟩
    exact ⟨us ++ (kind, []) :: vs, .binary hkind hus hvs⟩
  | @call f es args ih =>
    cases es with
    | nil => exact ⟨_, .emptyCall (t := []) (u := [])⟩
    | cons e es =>
      obtain ⟨xs, hxs⟩ := Writing.exists_arguments ih
      exact ⟨_, .call (t := []) (u := []) hxs⟩

/-! Ranks against binding powers. -/

namespace BinaryOp

def powers (op : BinaryOp) : Operator :=
  if op = .power then ⟨op, 16, 15⟩ else ⟨op, 2 * op.rank + 1, 2 * op.rank + 2⟩

@[simp] theorem powers_op (op : BinaryOp) : op.powers.op = op := by
  cases op <;> rfl

theorem operator?_eq {op : BinaryOp} {kind : TokenKind} (h : kind ∈ op.kinds) :
    operator? kind = some op.powers := by
  cases op <;> simp only [kinds, List.mem_cons, List.not_mem_nil, or_false] at h
  case subtract | equal => rcases h with rfl | rfl <;> rfl
  all_goals
    subst h
    rfl

/-- Operators that group to the left all have their rank for their powers, and none has that of `not`. -/
theorem powers_cases (op : BinaryOp) :
    op.rank = 7 ∧ op.powers.left = 16 ∧ op.powers.right = 15 ∧ op.sides = (8, 7) ∨
      op.rank ≤ 6 ∧ op.rank ≠ 2 ∧ op.powers.left = 2 * op.rank + 1 ∧
        op.powers.right = 2 * op.rank + 2 ∧ op.sides = (op.rank, op.rank + 1) := by
  cases op <;> simp [rank, powers, sides]

theorem eq_powers_of_operator? {kind : TokenKind} {i : Operator} (h : operator? kind = some i) :
    i = i.op.powers := by
  cases kind <;> cases h <;> rfl

end BinaryOp

/-- The binding power with which the last operand of an expression is read. -/
def Expr.lastPower : Expr → Nat
  | .binary op .. => op.powers.right
  | .unary .not _ => notPower
  | .unary .negate _ => negatePower
  | .literal _ | .var _ | .call .. => 18

/-- An operator that is not tighter than a rank does not reach into an expression of that rank. -/
theorem lt_lastPower {e : Expr} {rank : Nat} {kind : TokenKind} {i : Operator}
    (h : operator? kind = some i) (hrank : rank ≤ e.rank) (hi : i.left < 2 * rank + 2) :
    i.left < e.lastPower := by
  rw [BinaryOp.eq_powers_of_operator? h] at hi ⊢
  have hop := i.op.powers_cases
  cases e with
  | binary op lhs rhs =>
    have hlast := op.powers_cases
    simp only [Expr.rank, Expr.lastPower] at hrank ⊢
    omega
  | unary op e =>
    cases op <;> simp only [Expr.rank, UnaryOp.rank, Expr.lastPower, notPower, negatePower] at hrank ⊢ <;>
      omega
  | literal | var | call =>
    simp only [Expr.lastPower]
    omega

/-! Reading back. -/

/-- What is written is read back at any power up to what its rank allows. Behind an expression the
reading goes on with the operators there, which must not be for its last operand. -/
def Writing.ReadBack (xs : List Lexeme) : Writing → Prop
  | .within rank e => ∀ (power : Nat) (y : Lexeme) (ys zs : List Lexeme) (whole : Expr),
      power ≤ 2 * rank + 1 → (∀ i, operator? y.1 = some i → i.left < 2 * rank + 2) →
      (Phrase.tail power e whole).Reads (y :: ys) zs →
      (Phrase.binding power whole).Reads (xs ++ y :: ys) zs
  | .bare e => ∀ (power : Nat) (y : Lexeme) (ys zs : List Lexeme) (whole : Expr),
      power ≤ 2 * e.rank + 1 → Stops e.lastPower y →
      (Phrase.tail power e whole).Reads (y :: ys) zs →
      (Phrase.binding power whole).Reads (xs ++ y :: ys) zs
  | .arguments es => ∀ (t : Text) (ys : List Lexeme),
      (Phrase.arguments es).Reads (xs ++ (.rightParen, t) :: ys) ys

theorem Phrase.Reads.ne_rightParen {p : Phrase} {xs ys : List Lexeme} (h : p.Reads xs ys)
    (hp : p.least = 1) : ∃ x rest, xs = x :: rest ∧ x.1 ≠ .rightParen := by
  induction h with
  | binding _ _ ih => exact ih rfl
  | stop => cases hp
  | operator => cases hp
  | @literal x v xs h =>
    obtain ⟨kind, t⟩ := x
    refine ⟨_, _, rfl, ?_⟩
    rintro rfl
    cases h
  | negate hx =>
    refine ⟨_, _, rfl, ?_⟩
    intro hright
    rw [hright] at hx
    cases hx
  | lastArgument _ ih => exact ih rfl
  | argument _ _ ih => exact ih rfl
  | _ => exact ⟨_, _, rfl, by simp⟩

theorem Writing.Gives.readBack {w : Writing} {xs : List Lexeme} (h : w.Gives xs) :
    w.ReadBack xs := by
  induction h with
  | plain hrank inner ih =>
    intro power y ys zs whole hpower hy htail
    refine ih power y ys zs whole (by omega) ?_ htail
    exact fun i hi => lt_lastPower hi hrank (hy i hi)
  | @parens rank e t u xs hrank inner ih =>
    intro power y ys zs whole hpower hy htail
    have hstop : ∀ power, Stops power (.rightParen, u) := fun power => stops_of_none rfl
    have hinner := ih 0 (.rightParen, u) (y :: ys) _ e (Nat.zero_le _) (hstop _) (.stop (hstop 0))
    refine .binding (.parens (u := u) ?_) htail
    simpa using hinner
  | literal h =>
    intro power y ys zs whole _ _ htail
    exact .binding (.literal h) htail
  | var =>
    intro power y ys zs whole _ _ htail
    exact .binding .var htail
  | @unary op e x xs hx inner ih =>
    intro power y ys zs whole hpower hy htail
    refine .binding ?_ htail
    have hinner : ∀ power, power ≤ 2 * op.rank + 1 → Stops power y →
        (Phrase.binding power e).Reads (xs ++ y :: ys) (y :: ys) := by
      intro power hpower hstop
      refine ih power y ys _ e hpower (fun i hi => ?_) (.stop hstop)
      have := hstop i hi
      omega
    cases op with
    | not =>
      obtain ⟨kind, t⟩ := x
      obtain rfl : kind = .not := by simpa [UnaryOp.kinds] using hx
      exact .not (hinner notPower (by simp [notPower, UnaryOp.rank]) hy)
    | negate =>
      refine .negate (by simpa [UnaryOp.kinds, negates] using hx) ?_
      exact hinner negatePower (by simp [negatePower, UnaryOp.rank]) hy
  | @binary op lhs rhs x xs ys hx left right ihleft ihright =>
    intro power y zs ws whole hpower hy htail
    have hop := BinaryOp.operator?_eq hx
    have hsides := op.powers_cases
    simp only [Expr.rank, Expr.lastPower] at hpower hy
    have hright : (Phrase.binding op.powers.right rhs).Reads (ys ++ y :: zs) (y :: zs) := by
      refine ihright _ y zs _ rhs ?_ (fun i hi => ?_) (.stop hy)
      · rcases hsides with ⟨_, _, _, hsides⟩ | ⟨_, _, _, _, hsides⟩ <;> rw [hsides] <;> omega
      · have := hy i hi
        rcases hsides with ⟨_, _, _, hsides⟩ | ⟨_, _, _, _, hsides⟩ <;> rw [hsides] <;> omega
    have hrest : (Phrase.tail power lhs whole).Reads (x :: (ys ++ y :: zs)) ws := by
      refine .operator hop (by omega) hright ?_
      rw [op.powers_op]
      exact htail
    rw [List.append_assoc, List.cons_append]
    refine ihleft power x _ ws whole ?_ (fun i hi => ?_) hrest
    · rcases hsides with ⟨_, _, _, hsides⟩ | ⟨_, _, _, _, hsides⟩ <;> rw [hsides] <;> omega
    · rw [hop] at hi
      cases hi
      rcases hsides with ⟨_, _, _, hsides⟩ | ⟨_, _, _, _, hsides⟩ <;> rw [hsides] <;> omega
  | emptyCall =>
    intro power y ys zs whole _ _ htail
    exact .binding .emptyCall htail
  | @call f t u es xs args ih =>
    intro power y ys zs whole _ _ htail
    have hargs := ih u (y :: ys)
    obtain ⟨x, rest, hx, hne⟩ := hargs.ne_rightParen rfl
    refine .binding ?_ htail
    simp only [List.cons_append, List.append_assoc, List.nil_append]
    rw [hx] at hargs ⊢
    exact .call hne hargs
  | @lastArgument e xs only ih =>
    intro t ys
    have hstop : ∀ power, Stops power (.rightParen, t) := fun power => stops_of_none rfl
    exact .lastArgument (ih 0 _ ys _ e (by omega) (fun i hi => by cases hi) (.stop (hstop 0)))
  | @argument e es u xs ys first rest ihfirst ihrest =>
    intro t zs
    have hstop : ∀ power, Stops power (.comma, u) := fun power => stops_of_none rfl
    rw [List.append_assoc, List.cons_append]
    exact .argument (ihfirst 0 _ _ _ e (by omega) (fun i hi => by cases hi) (.stop (hstop 0)))
      (ihrest t zs)

theorem reads_of_writtenAs {e : Expr} {xs ys : List Lexeme} {y : Lexeme} (h : e.WrittenAs xs)
    (hy : operator? y.1 = none) : ReadsExpr e (xs ++ y :: ys) (y :: ys) := by
  refine h.readBack 0 y ys _ e (Nat.zero_le _) (fun i hi => ?_) (.stop (stops_of_none hy))
  rw [hy] at hi
  cases hi

/-- Every expression can be written with the parentheses it needs and no others. However this is done,
and whatever stands behind it that is no operator, the expression is read back as it was and nothing
else is read. -/
theorem expression_reads_back {σ : Type} [TokenSource σ] {e : Expr} (he : e.Writable) :
    (∃ xs, e.WrittenAs xs) ∧
      ∀ (xs ys : List Lexeme) (y : Lexeme) (n : Nat) (c : Cursor σ) (s : σ), e.WrittenAs xs →
        operator? y.1 = none → 2 * xs.length + 1 ≤ n → c.Ahead (xs ++ y :: ys) s →
        ∃ d : Cursor σ, Parse.expression n c = .ok e d ∧ d.Ahead (y :: ys) s ∧
          d.declared = c.declared := by
  obtain ⟨bare, hbare⟩ := he.exists_bare
  refine ⟨Writing.exists_within hbare 0, ?_⟩
  intro xs ys y n c s hxs hy hn hc
  have hbound : 2 * (xs ++ y :: ys).length + 1 ≤ n + 2 * (y :: ys).length := by
    simp only [List.length_append]
    omega
  obtain ⟨_, d, hfinds, rfl, hd, hgrows⟩ := Parse.reaches_expression (reads_of_writtenAs hxs hy)
    hbound c s hc c.declared.admits_nil
  exact ⟨d, hfinds, hd, hgrows.eq_of_nil⟩

def Lexer.ofCondition (t : Text) : Lexer :=
  ⟨1, t, [], 0, .expression, [⟨0, false⟩], false, 0⟩

/-- A minus in front binds tighter than a power, powers group to the right, and a difference on the
right of a difference needs its parentheses. -/
theorem expression_reads_back_difference :
    ∃ two, Number.read? "2".toList = some two ∧ ∃ d : Cursor Lexer,
      Parse.expression 25
          ⟨Lexer.ofCondition "-$a ** 2 ** $b - ($c - $d)>>".toList, none, .empty⟩ =
        .ok (.binary .subtract
          (.binary .power (.unary .negate (.var "a".toList))
            (.binary .power (.literal (.number two)) (.var "b".toList)))
          (.binary .subtract (.var "c".toList) (.var "d".toList))) d := by
  obtain ⟨two, htwo⟩ : ∃ two, Number.read? "2".toList = some two := ⟨_, rfl⟩
  have hliteral : literal? (.number, "2".toList) = some (.number two) := by
    simp only [literal?, htwo, Option.map_some]
  have hlexemes : (Lexer.ofCondition "-$a ** 2 ** $b - ($c - $d)>>".toList).tokens.map
      (·.map Token.lexeme) = .ok ([(.gluedMinus, "-".toList), (.variableName, "$a".toList),
        (.power, "**".toList), (.number, "2".toList), (.power, "**".toList),
        (.variableName, "$b".toList), (.minus, "-".toList), (.leftParen, "(".toList),
        (.variableName, "$c".toList), (.minus, "-".toList), (.variableName, "$d".toList),
        (.rightParen, ")".toList)] ++ (.endCommand, ">>".toList) :: [inputEnd]) := by
    decide +kernel
  obtain ⟨l', hleads⟩ := Lexer.leads_of_tokens hlexemes
  have hat : ∀ {e : Expr} {xs : List Lexeme} (rank : Nat), (Writing.bare e).Gives xs →
      rank ≤ e.rank → (Writing.within rank e).Gives xs := fun _ hbare hrank => .plain hrank hbare
  have htwice := Writing.Gives.binary (x := (.power, "**".toList)) (by decide)
    (hat BinaryOp.power.sides.1 (.literal hliteral) (Nat.le_succ 8))
    (hat BinaryOp.power.sides.2 (.var (t := "$b".toList)) (by decide))
  have hnegate := Writing.Gives.unary (x := (.gluedMinus, "-".toList)) (by decide)
    (hat UnaryOp.negate.rank (.var (t := "$a".toList)) (by decide))
  have hleft := Writing.Gives.binary (x := (.power, "**".toList)) (by decide)
    (hat BinaryOp.power.sides.1 hnegate (by decide))
    (hat BinaryOp.power.sides.2 htwice (Nat.le_refl 7))
  have hright := Writing.Gives.binary (x := (.minus, "-".toList)) (by decide)
    (hat BinaryOp.subtract.sides.1 (.var (t := "$c".toList)) (by decide))
    (hat BinaryOp.subtract.sides.2 (.var (t := "$d".toList)) (by decide))
  have hparens : (Writing.within BinaryOp.subtract.sides.2 _).Gives _ :=
    .parens (t := "(".toList) (u := ")".toList) (by decide) hright
  have hwhole := Writing.Gives.binary (x := (.minus, "-".toList)) (by decide)
    (hat BinaryOp.subtract.sides.1 hleft (Nat.le_add_right 5 2)) hparens
  have hwritable : Expr.Writable (.binary .subtract
      (.binary .power (.unary .negate (.var (variableIn "$a".toList)))
        (.binary .power (.literal (.number two)) (.var (variableIn "$b".toList))))
      (.binary .subtract (.var (variableIn "$c".toList)) (.var (variableIn "$d".toList)))) :=
    .binary (.binary (.unary .var) (.binary (.literal hliteral) .var)) (.binary .var .var)
  obtain ⟨d, hd, -⟩ := (expression_reads_back hwritable).2 _ [inputEnd] (.endCommand, ">>".toList) 25
    ⟨_, none, .empty⟩ l' (.plain (Nat.zero_le _) hwhole) rfl (by decide) hleads
  exact ⟨two, htwo, d, hd⟩

end Parley.Body
