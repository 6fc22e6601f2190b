import Parley.Proofs.Walking
set_option autoImplicit false

/-!
The kinds of the values of expressions.

Every operator decides by the kinds of its operands alone which kind its value has and which error it
gives. Evaluating can therefore be followed on kinds, and only conjunctions and disjunctions, which may
skip their right side, hide some of the errors from that.
-/

namespace Parley.Body

inductive Expr.Within (f : Expr) : Expr → Prop where
  | self : Within f f
  | operand {op : UnaryOp} {e : Expr} (h : Within f e) : Within f (.unary op e)
  | left {op : BinaryOp} {lhs rhs : Expr} (h : Within f lhs) : Within f (.binary op lhs rhs)
  | right {op : BinaryOp} {lhs rhs : Expr} (h : Within f rhs) : Within f (.binary op lhs rhs)
  | argument {name : Text} {args : List Expr} {e : Expr} (he : e ∈ args) (h : Within f e) :
      Within f (.call name args)

theorem Expr.Within.trans {f g e : Expr} (h : f.Within g) (h' : g.Within e) : f.Within e := by
  induction h' with
  | self => exact h
  | operand _ ih => exact .operand ih
  | left _ ih => exact .left ih
  | right _ ih => exact .right ih
  | argument he _ ih => exact .argument he ih

def BinaryOp.isLazy : BinaryOp → Bool
  | .and | .or => true
  | _ => false

/-- A conjunction or disjunction occurs in an expression. -/
def Expr.HasLazy (e : Expr) : Prop :=
  ∃ op f g, (Expr.binary op f g).Within e ∧ op.isLazy = true

theorem Expr.HasLazy.of_within {f e : Expr} (h : f.HasLazy) (hf : f.Within e) : e.HasLazy := by
  obtain ⟨op, g, g', hwithin, hop⟩ := h
  exact ⟨op, g, g', hwithin.trans hf, hop⟩

end Parley.Body

namespace Parley.Play

open Body

def unaryKind (op : UnaryOp) (k : Kind) : Except EvalError Kind :=
  match op with
  | .not => .ok .bool
  | .negate => if k = .number then .ok .number else .error (.invalidOperand .negate k)

def binaryKind (op : BinaryOp) (k k' : Kind) : Except EvalError Kind :=
  let mismatch : Except EvalError Kind := .error (.typeMismatch op k k')
  match op with
  | .equal | .notEqual | .xor => .ok .bool
  | .greater | .greaterEqual | .less | .lessEqual =>
    if k = k' ∧ (k = .number ∨ k = .string) then .ok .bool else mismatch
  | .add =>
    if k = .string ∨ k' = .string then .ok .string
    else if k = .number ∧ k' = .number then .ok .number else mismatch
  | .subtract | .multiply | .divide | .modulo | .power =>
    if k = .number ∧ k' = .number then .ok .number else mismatch
  | .and | .or => mismatch

theorem applyUnary_kind (op : UnaryOp) (v : Value) :
    (applyUnary op v).map Value.kind = unaryKind op v.kind := by
  cases op <;> cases v <;> rfl

theorem applyBinary_kind (op : BinaryOp) (a b : Value) :
    (applyBinary op a b).map Value.kind = binaryKind op a.kind b.kind := by
  cases op <;> cases a <;> cases b <;> rfl

/-- The kind of the value of an expression or the error in its place, from the kinds of its variables. The
right side of a conjunction or disjunction is left alone, and a call has no kind of its own: what a
function gives is up to the host. -/
def kindOf (kinds : Text → Option Kind) : Expr → Except EvalError Kind
  | .literal v => .ok v.kind
  | .var name =>
    match kinds name with
    | some k => .ok k
    | none => .error (.undefinedVariable name)
  | .unary op e => do unaryKind op (← kindOf kinds e)
  | .binary op e f => do
    let k ← kindOf kinds e
    if op.isLazy then return .bool else binaryKind op k (← kindOf kinds f)
  | .call name _ => .error (.unknownFunction name)

def Env.kinds (env : Env) (name : Text) : Option Kind :=
  (env.lookup name).map Value.kind

theorem kindOf_congr {kinds kinds' : Text → Option Kind} {e : Expr}
    (h : ∀ name, (Expr.var name).Within e → kinds name = kinds' name) :
    kindOf kinds e = kindOf kinds' e := by
  fun_induction kindOf kinds e with
  | case1 => rfl
  | case2 name k hk => rw [kindOf, ← h name .self, hk]
  | case3 name hk => rw [kindOf, ← h name .self, hk]
  | case4 op e ih =>
    rw [kindOf, ih fun name hname => h name (.operand hname)]
  | case5 op e f ihleft ihright =>
    rw [kindOf, ihleft fun name hname => h name (.left hname)]
    rw [ihright fun name hname => h name (.right hname)]
  | case6 => rfl

section Evaluate

variable {env : Env} {e f : Expr} {op : BinaryOp} {v : Value}

/-- Both sides of most operators are evaluated, the left one first. -/
theorem evaluate_binary (hop : op.isLazy = false) :
    evaluate env (.binary op e f) =
      (do let a ← evaluate env e
          let b ← evaluate env f
          applyBinary op a b) := by
  rw [evaluate]
  cases op <;> first | rfl | cases hop

/-- A conjunction or disjunction that has a value is true or false, and its left side has a value. -/
theorem evaluate_lazy (hop : op.isLazy = true) (h : evaluate env (.binary op e f) = .ok v) :
    (∃ a, evaluate env e = .ok a) ∧ v.kind = .bool := by
  rw [evaluate] at h
  obtain ⟨a, ha, h⟩ := exists_of_bind_eq_ok h
  refine ⟨⟨a, ha⟩, ?_⟩
  cases op with
  | and =>
    simp only at h
    split at h
    · obtain ⟨b, -, h⟩ := exists_of_bind_eq_ok h
      cases h
      rfl
    · cases h
      rfl
  | or =>
    simp only at h
    split at h
    · cases h
      rfl
    · obtain ⟨b, -, h⟩ := exists_of_bind_eq_ok h
      cases h
      rfl
  | _ => cases hop

/-- Evaluating agrees with what follows from the kinds of the variables, unless it fails and the
expression has a conjunction or disjunction in it. -/
theorem evaluate_kind (hcalls : ∀ name args, ¬ (Expr.call name args).Within e) :
    (evaluate env e).map Value.kind = kindOf env.kinds e ∨
      e.HasLazy ∧ ∃ error, evaluate env e = .error error := by
  fun_induction kindOf env.kinds e with
  | case1 => exact .inl rfl
  | case2 name k hk =>
    obtain ⟨v, hv, rfl⟩ := Option.map_eq_some_iff.1 hk
    left
    rw [evaluate, hv]
    rfl
  | case3 name hk =>
    left
    rw [evaluate, Option.map_eq_none_iff.1 hk]
    rfl
  | case4 op e ih =>
    rw [evaluate]
    rcases ih fun name args hcall => hcalls name args (.operand hcall) with ih | ⟨hlazy, error, herror⟩
    · left
      rw [← ih]
      cases evaluate env e with
      | error => rfl
      | ok a => exact applyUnary_kind op a
    · exact .inr ⟨hlazy.of_within (.operand .self), error, by rw [herror]; rfl⟩
  | case5 op e f ihleft ihright =>
    have hleft := ihleft fun name args hcall => hcalls name args (.left hcall)
    have hright := ihright fun name args hcall => hcalls name args (.right hcall)
    cases hop : op.isLazy with
    | true =>
      cases hvalue : evaluate env (.binary op e f) with
      | error error => exact .inr ⟨⟨op, e, f, .self, hop⟩, error, rfl⟩
      | ok v =>
        obtain ⟨⟨a, ha⟩, hv⟩ := evaluate_lazy hop hvalue
        rw [ha] at hleft
        left
        rw [← hleft.resolve_right (by simp), Except.map, hv]
        rfl
    | false =>
      rw [evaluate_binary hop]
      rcases hleft with hleft | ⟨hlazy, error, herror⟩
      · cases ha : evaluate env e with
        | error error =>
          left
          rw [← hleft, ha]
          rfl
        | ok a =>
          rcases hright with hright | ⟨hlazy, error, herror⟩
          · left
            rw [← hleft, ← hright, ha]
            cases evaluate env f with
            | error => rfl
            | ok b => exact applyBinary_kind op a b
          · exact .inr ⟨hlazy.of_within (.right .self), error, by rw [herror]; rfl⟩
      · exact .inr ⟨hlazy.of_within (.left .self), error, by rw [herror]; rfl⟩
  | case6 name args => exact absurd .self (hcalls name args)

theorem kindOf_of_evaluate (hcalls : ∀ name args, ¬ (Expr.call name args).Within e)
    (h : evaluate env e = .ok v) : kindOf env.kinds e = .ok v.kind := by
  have hkind := @evaluate_kind env e hcalls
  rw [h] at hkind
  exact (hkind.resolve_right (by simp)).symm

theorem kindOf_eq_error_iff (hcalls : ∀ name args, ¬ (Expr.call name args).Within e)
    (hlazy : ¬ e.HasLazy) (error : EvalError) :
    kindOf env.kinds e = .error error ↔ evaluate env e = .error error := by
  rw [← (evaluate_kind hcalls).resolve_right fun h => hlazy h.1]
  cases evaluate env e <;> simp [Except.map]

end Evaluate

/-- Two settings agree on the kinds of the variables that occur in an expression, or both have no value
for them. Where both give a value to the expression, the values are of one kind. Without conjunctions and
disjunctions the one fails exactly if the other does, and with the same error. -/
theorem kinds_decide_kind {env env' : Env} {e : Expr}
    (hcalls : ∀ name args, ¬ (Expr.call name args).Within e)
    (hkinds : ∀ name, (Expr.var name).Within e →
      (env.lookup name).map Value.kind = (env'.lookup name).map Value.kind) :
    (∀ v v', evaluate env e = .ok v → evaluate env' e = .ok v' → v.kind = v'.kind) ∧
    ((∀ f g, ¬ (Expr.binary .and f g).Within e ∧ ¬ (Expr.binary .or f g).Within e) →
      ∀ error, evaluate env e = .error error ↔ evaluate env' e = .error error) := by
  have hcongr : kindOf env.kinds e = kindOf env'.kinds e := kindOf_congr hkinds
  constructor
  · intro v v' hv hv'
    have hkind := kindOf_of_evaluate hcalls hv
    rw [hcongr, kindOf_of_evaluate hcalls hv'] at hkind
    exact (Except.ok.inj hkind).symm
  · intro hstrict error
    have hlazy : ¬ e.HasLazy := by
      rintro ⟨op, f, g, hwithin, hop⟩
      cases op with
      | and => exact (hstrict f g).1 hwithin
      | or => exact (hstrict f g).2 hwithin
      | _ => cases hop
    rw [← kindOf_eq_error_iff hcalls hlazy, hcongr, kindOf_eq_error_iff hcalls hlazy]

def named (name : Text) : Env :=
  ⟨Table.get? [("who".toList, .string name)], .builtin, []⟩

def earlier : Expr :=
  .binary .less (.var "who".toList) (.literal (.string "Bo".toList))

def negated : Expr :=
  .unary .negate (.var "who".toList)

theorem kinds_decide_kind_names :
    (∃ v v', evaluate (named "Al".toList) earlier = .ok v ∧
      evaluate (named "Cy".toList) earlier = .ok v' ∧ v ≠ v' ∧ v.kind = v'.kind) ∧
    evaluate (named "Cy".toList) negated = .error (.invalidOperand .negate .string) := by
  have hless : evaluate (named "Al".toList) earlier = .ok (.bool true) := by rfl
  have hmore : evaluate (named "Cy".toList) earlier = .ok (.bool false) := by rfl
  have hearlier := @kinds_decide_kind (named "Al".toList) (named "Cy".toList) earlier
    (by rintro name args (_ | _ | ⟨⟨⟩⟩ | ⟨⟨⟩⟩))
    (by rintro name (_ | _ | ⟨⟨⟩⟩ | ⟨⟨⟩⟩); rfl)
  have hnegated := @kinds_decide_kind (named "Al".toList) (named "Cy".toList) negated
    (by rintro name args (_ | ⟨⟨⟩⟩))
    (by rintro name (_ | ⟨⟨⟩⟩); rfl)
  refine ⟨⟨_, _, hless, hmore, by simp, hearlier.1 _ _ hless hmore⟩, ?_⟩
  refine (hnegated.2 (fun f g => ⟨?_, ?_⟩) _).1 rfl
  · rintro (_ | ⟨⟨⟩⟩)
  · rintro (_ | ⟨⟨⟩⟩)

end Parley.Play
