import Parley.Proofs.Lockstep
import Parley.Proofs.Records
set_option autoImplicit false

/-!
The tokens that parsing asks for in a record that takes no declarations.

They are the tokens of the lexer up to the one that parsing ends with, and all of them when it succeeds.
What parsing registers in any record are the declarations among them.
-/

namespace Parley.Body

structure Recorded (σ : Type) where
  source : σ
  given : List Token

instance {σ : Type} [TokenSource σ] : TokenSource (Recorded σ) where
  pull s := match TokenSource.pull s.source with
    | .error e => .error e
    | .ok (token, rest) => .ok (token, ⟨rest, s.given ++ [token]⟩)
  weight s := TokenSource.weight s.source

def Recorded.ofBody (body : Text) : Recorded Lexer :=
  ⟨Lexer.ofBody body, []⟩

/-- The tokens that parsing asks for in a record that takes no declarations. -/
def reached (body : Text) : List Token :=
  match Parse.body (4 * TokenSource.weight (Recorded.ofBody body) + 8)
    ⟨Recorded.ofBody body, none, .sealed⟩ with
  | .ok _ c => c.source.given
  | .error _ c => c.source.given

section Supplies

variable {σ : Type} [TokenSource σ]

theorem pull_recorded {s : σ} {given : List Token} {token : Token} {rest : σ}
    (h : TokenSource.pull s = .ok (token, rest)) :
    TokenSource.pull (Recorded.mk s given) = .ok (token, ⟨rest, given ++ [token]⟩) := by
  simp only [TokenSource.pull] at h ⊢
  rw [h]

theorem Pulls.recorded {s s' : Recorded σ} {tokens : List Token} (h : Pulls s tokens s') :
    Pulls s.source tokens s'.source ∧ s'.given = s.given ++ tokens := by
  induction h with
  | nil => exact ⟨.nil, (List.append_nil _).symm⟩
  | @cons s s' s'' token tokens head _ ih =>
    simp only [TokenSource.pull] at head
    split at head
    · cases head
    · rename_i token' rest hpull
      cases head
      refine ⟨.cons hpull ih.1, ?_⟩
      rw [ih.2, List.append_assoc, List.singleton_append]

theorem Offers.recorded {fault : LexError} {s : σ} {tokens : List Token} (h : Offers fault s tokens)
    (given : List Token) : Offers fault (Recorded.mk s given) tokens := by
  induction h generalizing given with
  | fails h =>
    refine .fails ?_
    simp only [TokenSource.pull] at h ⊢
    rw [h]
  | last h hkind => exact .last (pull_recorded h) hkind
  | cons h hkind _ ih => exact .cons (pull_recorded h) hkind (ih _)

end Supplies

/-! The end of the input. -/

namespace Parse

variable {σ α β : Type}

/-- What holds of the result of a rule from a place on, and of the token that is looked at behind it. -/
def Ensures (f : Parse σ α) (c : Cursor σ) (P : α → Option Token → Prop) : Prop :=
  ∀ a c', f c = .ok a c' → P a c'.peeked

variable {f : Parse σ α} {g : α → Parse σ β} {c : Cursor σ} {P : α → Option Token → Prop}
  {Q : β → Option Token → Prop}

theorem Ensures.bind (hf : Ensures f c P) (hg : ∀ a c', P a c'.peeked → Ensures (g a) c' Q) :
    Ensures (f >>= g) c Q := by
  intro b c' h
  rw [bind_eq] at h
  split at h
  · rename_i a middle hfirst
    exact hg a middle (hf a middle hfirst) b c' h
  · cases h

theorem Ensures.behind (hg : ∀ a c', Ensures (g a) c' Q) : Ensures (f >>= g) c Q :=
  .bind (P := fun _ _ => True) (fun _ _ _ => trivial) fun a c' _ => hg a c'

theorem ensures_pure {a : α} (h : P a c.peeked) : Ensures (pure a) c P := by
  intro b c' hb
  cases hb
  exact h

theorem ensures_throw (e : ParseError) : Ensures (throw e) c P := by
  intro b c' hb
  cases hb

variable [TokenSource σ]

theorem ensures_refuse (expected : List TokenKind) : Ensures (refuse expected : Parse σ α) c P :=
  .behind fun _ _ => ensures_throw _

theorem ensures_peek : Ensures (peek : Parse σ Token) c fun token peeked => peeked = some token := by
  intro token c' h
  unfold peek at h
  split at h
  · cases h
    assumption
  · split at h <;> cases h
    rfl

theorem ensures_command (n : Nat) (opening : Token) (c : Cursor σ) :
    Ensures (command n opening) c fun found _ => found ≠ .ending .endOfInput := by
  cases n with
  | zero => exact ensures_refuse _
  | succ n =>
    refine .behind fun token _ => ?_
    split
    · exact .behind fun _ _ => .behind fun _ _ => .behind fun _ _ => .behind fun _ _ =>
        ensures_pure (by simp)
    · exact .behind fun _ _ => .behind fun _ _ => .behind fun _ _ => ensures_pure (by simp)
    · exact .behind fun _ _ => .behind fun _ _ => ensures_pure (by simp)
    · exact .behind fun _ _ => .behind fun _ _ => ensures_pure (by simp)
    · exact .behind fun _ _ => .behind fun _ _ => ensures_pure (by simp)
    · exact .behind fun _ _ => .behind fun _ _ => ensures_pure (by simp)
    · exact .behind fun _ _ => .behind fun _ _ => .behind fun _ _ => ensures_pure (by simp)
    · exact .behind fun _ _ => .behind fun _ _ => ensures_pure (by simp)
    · exact .behind fun _ _ => ensures_pure (by simp)
    · exact .behind fun _ _ => ensures_pure (by simp)
    · exact ensures_refuse _

theorem ensures_block (n : Nat) (c : Cursor σ) : Ensures (block n) c fun b peeked =>
    b.ending = .endOfInput → peeked.isSome = true := by
  induction n generalizing c with
  | zero => exact ensures_refuse _
  | succ n ih =>
    have hcons (s : Statement) (c : Cursor σ) : Ensures (do return (← block n).cons s) c
        fun b peeked => b.ending = .endOfInput → peeked.isSome = true :=
      (ih c).bind fun b c' hb => ensures_pure hb
    refine ensures_peek.bind fun token c' hpeeked => ?_
    split
    · exact .behind fun _ => ih
    · exact .behind fun _ => ih
    · refine ensures_pure fun _ => ?_
      rw [hpeeked]
      rfl
    · exact .behind fun _ _ => ensures_pure (by simp)
    · exact .behind fun _ => hcons _
    · exact .behind fun _ => hcons _
    · exact .behind fun _ => hcons _
    · exact .behind fun _ => hcons _
    · refine .behind fun opening middle => (ensures_command n opening middle).bind fun found last hfound => ?_
      split
      · exact hcons _ _
      · exact ensures_pure fun hending => absurd (congrArg Command.ending hending) hfound
      · exact ih _
    · exact ensures_refuse _

theorem ensures_body (n : Nat) (c : Cursor σ) :
    Ensures (body n) c fun _ peeked => peeked.isSome = true := by
  refine (ensures_block n c).bind fun b c' hb => ?_
  split
  · rename_i hending
    exact ensures_pure (hb hending)
  · exact ensures_throw _

end Parse

/-! Whole bodies. -/

namespace Declarations

theorem registerAll_locked {d : Declarations} (h : d.locked = true) (log : List Registration) :
    d.registerAll log = (none, d) := by
  induction log with
  | nil => rfl
  | cons r log ih => simp [registerAll, register, h, ih]

end Declarations

@[simp] theorem registerAll_sealed (log : List Registration) :
    Declarations.sealed.registerAll log = (none, .sealed) :=
  Declarations.registerAll_locked rfl log

section Bodies

variable (body : Text)

/-- What stands behind the end of the input makes no difference. -/
def listedTokens : List Token :=
  ((Lexer.ofBody body).listed ⟨.invalidSyntax .base body, ⟨1, 1, 1⟩⟩).tokens

theorem offers_recorded : Offers ((Lexer.ofBody body).listed ⟨.invalidSyntax .base body, ⟨1, 1, 1⟩⟩).fault
    (Recorded.ofBody body) (listedTokens body) :=
  ((Lexer.ofBody body).offers_listing _).recorded []

theorem recorded_le_bound :
    2 * (listedTokens body).length + 2 ≤ 4 * TokenSource.weight (Recorded.ofBody body) + 8 :=
  (Lexer.ofBody body).listed_le_bound _

@[simp] theorem parseSource_recorded (declared : Declarations) :
    parseSource (Recorded.ofBody body) declared = parse body declared :=
  parseWithin_eq_of_offers (offers_recorded body) ((Lexer.ofBody body).offers_listing _)
    (Nat.le_min.2 ⟨recorded_le_bound body, recorded_le_bound body⟩) declared

variable {body}

theorem not_exhausted {declared : Declarations} {e : ParseError}
    (h : (parseSource (Recorded.ofBody body) declared).1 = .error e) : ¬ e.Exhausted := by
  have hreported := reported_of_parseWithin (offers_recorded body) (recorded_le_bound body) h
  rintro ⟨found, lexeme, hcause⟩
  rw [ParseError.Reported, hcause] at hreported
  exact hreported rfl

/-- What a rule has passed and looked at is what has been asked for. -/
theorem reached_of_follows {log : List Registration} {tokens : List Token}
    {out : Except ParseError (List Statement)} {q : Spot (Recorded Lexer)}
    (h : Parse.Follows (Parse.body (4 * TokenSource.weight (Recorded.ofBody body) + 8))
      ⟨Recorded.ofBody body, none⟩ log tokens out q) :
    reached body = tokens ++ q.peeked.toList ∧ ∃ l, Pulls (Lexer.ofBody body) (reached body) l := by
  obtain ⟨pulled, hpulls, htokens⟩ := h.passes
  obtain ⟨hlexer, hgiven⟩ := hpulls.recorded
  have hbody := h.admitted (registerAll_sealed log)
  simp only [Spot.cursor] at hbody
  have hreached : reached body = pulled := by
    rw [reached, hbody]
    cases out <;> exact hgiven
  rw [hreached]
  exact ⟨htokens, _, hlexer⟩

theorem tokens_eq_reached (h : (parse body .sealed).1.isOk = true) :
    tokenize body = .ok (reached body) := by
  rw [← parseSource_recorded, ← parseWithin_weight] at h
  cases matches_of_offers (offers_recorded body) (offers_recorded body)
    (Nat.le_min.2 ⟨recorded_le_bound body, recorded_le_bound body⟩) .sealed with
  | error hr =>
    rw [parseWithin_of_error hr] at h
    cases h
  | @ok _ d q _ front rest hr _ hsplit passes shows _ hrest =>
    obtain ⟨last, hhead, hlast⟩ := hrest
    obtain ⟨back, rfl⟩ := List.head?_eq_some_iff.1 hhead
    obtain ⟨rfl, -⟩ := Offers.front (hsplit ▸ offers_recorded body) hlast
    -- The end of the input has been looked at.
    have hpeeked : q.peeked = some last := by
      have hsome := Parse.ensures_body _ _ _ _ hr
      cases shows with
      | fresh => cases hsome
      | last => rfl
      | cons => rfl
    obtain ⟨pulled, hpulls, htokens⟩ := passes
    have hgiven : q.source.given = front ++ [last] := by
      rw [hpeeked] at htokens
      exact hpulls.recorded.2.trans htokens
    have hreached : reached body = front ++ [last] := by
      rw [reached, hr]
      exact hgiven
    rw [hreached]
    exact Lexer.tokens_of_listed hsplit hlast

variable (body)

/-- In every record parsing registers the declarations among the tokens it asks for where none are
taken, and it ends in the same way, unless one of them is refused. -/
theorem exists_registered : ∃ log outcome,
    List.Forall₂ Registration.Names log (declaredNames (reached body)) ∧
    ∀ declared, parse body declared = declared.conclude log outcome := by
  simp only [← parseSource_recorded]
  cases Parse.keeps_body (4 * TokenSource.weight (Recorded.ofBody body) + 8)
    ⟨Recorded.ofBody body, none⟩ with
  | @done log tokens ss q follows h =>
    refine ⟨log, .ok ss, ?_, follows.parse_eq⟩
    have hahead := h [] q.peeked.toList (List.prefix_refl _) ?_
    · rwa [List.append_nil, ← (reached_of_follows follows).1] at hahead
    · rw [declaredNames_of_not_closes (closes_peeked q.peeked)]
      exact .nil
  | @broken log tokens e q follows h =>
    refine ⟨log, .error e, ?_, follows.parse_eq⟩
    rwa [(reached_of_follows follows).1]
  | @exhausted log tokens e q follows h =>
    -- The bound suffices, so that no rule comes to it.
    have herror : (parseSource (Recorded.ofBody body) .sealed).1 = .error e := by
      rw [follows.parse_eq, Declarations.conclude, registerAll_sealed]
    exact absurd h (not_exhausted herror)

/-- What parsing asks for comes from the lexer. -/
theorem exists_pulls_reached : ∃ l, Pulls (Lexer.ofBody body) (reached body) l := by
  cases Parse.keeps_body (4 * TokenSource.weight (Recorded.ofBody body) + 8)
    ⟨Recorded.ofBody body, none⟩ with
  | done follows | broken follows | exhausted follows => exact (reached_of_follows follows).2

end Bodies

end Parley.Body
