import Parley.Body.Parse
set_option autoImplicit false

/-!
Rules of the grammar in every record of declarations at once.

Only `declare` looks at the record. Whatever the record, a rule therefore takes the same tokens,
registers the same declarations in the same order and ends in the same way, unless one of them is
refused, which ends it at once. `Follows` says so of one rule at one place, and a promise is a property
of the tokens and the declarations that adds up when rules follow each other.
-/

namespace Parley.Body

/-! Registering one declaration after another. -/

structure Registration where
  new : Declaration
  span : Span

namespace Declarations

def registerAll (d : Declarations) : List Registration → Option ParseError × Declarations
  | [] => (none, d)
  | r :: log =>
    match d.register r.new r.span with
    | .ok d' => d'.registerAll log
    | .error e => (some e, d)

theorem registerAll_append_of_admitted {d d' : Declarations} {log : List Registration}
    (h : d.registerAll log = (none, d')) (log' : List Registration) :
    d.registerAll (log ++ log') = d'.registerAll log' := by
  induction log generalizing d with
  | nil =>
    cases h
    rfl
  | cons r log ih =>
    simp only [registerAll, List.cons_append] at h ⊢
    cases hr : d.register r.new r.span with
    | ok d₁ =>
      rw [hr] at h
      exact ih h
    | error e => simp [hr] at h

theorem registerAll_append_of_refused {d d' : Declarations} {log : List Registration} {e : ParseError}
    (h : d.registerAll log = (some e, d')) (log' : List Registration) :
    d.registerAll (log ++ log') = (some e, d') := by
  induction log generalizing d with
  | nil => cases h
  | cons r log ih =>
    simp only [registerAll, List.cons_append] at h ⊢
    cases hr : d.register r.new r.span with
    | ok d₁ =>
      rw [hr] at h
      exact ih h
    | error e₁ =>
      rw [hr] at h
      exact h

end Declarations

/-- The error at the bound of the recursion, where nothing is expected. -/
def ParseError.Exhausted (e : ParseError) : Prop :=
  ∃ found lexeme, e.cause = .unexpected found lexeme []

/-! Places, and the tokens between them. -/

inductive Pulls {σ : Type} [TokenSource σ] : σ → List Token → σ → Prop where
  | nil {s : σ} : Pulls s [] s
  | cons {s s' s'' : σ} {token : Token} {tokens : List Token}
      (head : TokenSource.pull s = .ok (token, s')) (tail : Pulls s' tokens s'') :
      Pulls s (token :: tokens) s''

theorem Pulls.append {σ : Type} [TokenSource σ] {s s' s'' : σ} {front back : List Token}
    (h : Pulls s front s') (h' : Pulls s' back s'') : Pulls s (front ++ back) s'' := by
  induction h with
  | nil => exact h'
  | cons head _ ih => exact .cons head (ih h')

/-- A cursor without its record. -/
structure Spot (σ : Type) where
  source : σ
  peeked : Option Token

namespace Spot

variable {σ : Type}

def cursor (p : Spot σ) (d : Declarations) : Cursor σ :=
  ⟨p.source, p.peeked, d⟩

variable [TokenSource σ]

def Passes (p : Spot σ) (tokens : List Token) (q : Spot σ) : Prop :=
  ∃ pulled, Pulls p.source pulled q.source ∧ p.peeked.toList ++ pulled = tokens ++ q.peeked.toList

@[simp] theorem passes_nil (p : Spot σ) : p.Passes [] p :=
  ⟨[], .nil, by simp⟩

theorem Passes.append {p q r : Spot σ} {front back : List Token} (h : p.Passes front q)
    (h' : q.Passes back r) : p.Passes (front ++ back) r := by
  obtain ⟨pulled, hpulled, heq⟩ := h
  obtain ⟨more, hmore, heq'⟩ := h'
  refine ⟨pulled ++ more, hpulled.append hmore, ?_⟩
  rw [← List.append_assoc, heq, List.append_assoc, heq', List.append_assoc]

/-- A token that was looked at is passed first, or is looked at still. -/
theorem Passes.peeked_prefix {p q : Spot σ} {tokens : List Token} (h : p.Passes tokens q) :
    p.peeked.toList <+: tokens ++ q.peeked.toList := by
  obtain ⟨pulled, -, heq⟩ := h
  exact ⟨pulled, heq⟩

end Spot

namespace Parse

variable {σ α β : Type}

def resultAt (c : Cursor σ) : Except ParseError α → EStateM.Result ParseError (Cursor σ) α
  | .ok a => .ok a c
  | .error e => .error e c

variable [TokenSource σ]

/-- A rule takes some tokens and registers some declarations on its way from one place to another,
whatever the record. -/
structure Follows (f : Parse σ α) (p : Spot σ) (log : List Registration) (tokens : List Token)
    (out : Except ParseError α) (q : Spot σ) : Prop where
  admitted : ∀ {d d'}, d.registerAll log = (none, d') → f (p.cursor d) = resultAt (q.cursor d') out
  refused : ∀ {d d' e}, d.registerAll log = (some e, d') →
    ∃ stopped : Spot σ, f (p.cursor d) = .error e (stopped.cursor d')
  passes : p.Passes tokens q

variable {f : Parse σ α} {g : α → Parse σ β} {p q r : Spot σ} {log log' : List Registration}
  {tokens tokens' : List Token}

omit [TokenSource σ] in
theorem bind_eq (f : Parse σ α) (g : α → Parse σ β) (c : Cursor σ) :
    (f >>= g) c = match f c with
      | .ok a c' => g a c'
      | .error e c' => .error e c' := by
  show EStateM.bind f g c = _
  unfold EStateM.bind
  cases f c <;> rfl

theorem Follows.bind_ok {a : α} {out : Except ParseError β} (hf : Follows f p log tokens (.ok a) q)
    (hg : Follows (g a) q log' tokens' out r) :
    Follows (f >>= g) p (log ++ log') (tokens ++ tokens') out r := by
  refine ⟨?_, ?_, hf.passes.append hg.passes⟩
  · intro d d' h
    -- All registrations are admitted, hence those of the first rule.
    rcases hd : d.registerAll log with ⟨_ | e, d₁⟩
    · rw [Declarations.registerAll_append_of_admitted hd] at h
      rw [bind_eq, hf.admitted hd]
      exact hg.admitted h
    · rw [Declarations.registerAll_append_of_refused hd] at h
      cases h
  · intro d d' e h
    -- The one that is refused is of the second rule or already of the first.
    rcases hd : d.registerAll log with ⟨_ | e₁, d₁⟩
    · rw [Declarations.registerAll_append_of_admitted hd] at h
      rw [bind_eq, hf.admitted hd]
      exact hg.refused h
    · rw [Declarations.registerAll_append_of_refused hd] at h
      cases h
      obtain ⟨stopped, hstopped⟩ := hf.refused hd
      refine ⟨stopped, ?_⟩
      rw [bind_eq, hstopped]

theorem Follows.bind_error {e : ParseError} (hf : Follows f p log tokens (.error e) q) :
    Follows (f >>= g) p log tokens (.error e) q := by
  refine ⟨?_, ?_, hf.passes⟩
  · intro d d' h
    rw [bind_eq, hf.admitted h]
    rfl
  · intro d d' e' h
    obtain ⟨stopped, hstopped⟩ := hf.refused h
    refine ⟨stopped, ?_⟩
    rw [bind_eq, hstopped]

theorem follows_of_quiet {out : Except ParseError α}
    (h : ∀ d, f (p.cursor d) = resultAt (q.cursor d) out) (hpasses : p.Passes tokens q) :
    Follows f p [] tokens out q := by
  refine ⟨?_, ?_, hpasses⟩
  · intro d d' hd
    cases hd
    exact h d
  · intro d d' e hd
    cases hd

theorem follows_declare (p : Spot σ) (new : Declaration) (span : Span) :
    Follows (declare new span) p [⟨new, span⟩] [] (.ok ()) p := by
  refine ⟨?_, ?_, p.passes_nil⟩
  · intro d d' h
    simp only [Declarations.registerAll] at h
    cases hr : d.register new span with
    | error e => simp [hr] at h
    | ok d₁ =>
      rw [hr] at h
      cases h
      simp only [declare, Spot.cursor, hr, resultAt]
  · intro d d' e h
    simp only [Declarations.registerAll] at h
    cases hr : d.register new span with
    | ok d₁ => simp [hr] at h
    | error e₁ =>
      rw [hr] at h
      cases h
      exact ⟨p, by simp only [declare, Spot.cursor, hr]⟩

/-- There is a next token, or the supply has an error in its place. -/
theorem next_cases (p : Spot σ) :
    (∃ token source, Follows peek p [] [] (.ok token) ⟨source, some token⟩ ∧
      Follows take p [] [token] (.ok token) ⟨source, none⟩) ∨
    p.peeked = none ∧ ∃ e, Follows (peek : Parse σ Token) p [] [] (.error e) p ∧
      Follows (take : Parse σ Token) p [] [] (.error e) p := by
  obtain ⟨source, _ | token⟩ := p
  · cases hpull : TokenSource.pull source with
    | error e =>
      refine .inr ⟨rfl, e.toParseError, ?_, ?_⟩
      · exact follows_of_quiet (fun d => by simp [peek, Spot.cursor, hpull, resultAt]) (Spot.passes_nil _)
      · exact follows_of_quiet (fun d => by simp [take, Spot.cursor, hpull, resultAt]) (Spot.passes_nil _)
    | ok next =>
      obtain ⟨token, rest⟩ := next
      refine .inl ⟨token, rest, ?_, ?_⟩
      · exact follows_of_quiet (fun d => by simp [peek, Spot.cursor, hpull, resultAt])
          ⟨[token], .cons hpull .nil, rfl⟩
      · exact follows_of_quiet (fun d => by simp [take, Spot.cursor, hpull, resultAt])
          ⟨[token], .cons hpull .nil, rfl⟩
  · refine .inl ⟨token, source, ?_, ?_⟩
    · exact follows_of_quiet (fun d => rfl) (Spot.passes_nil _)
    · exact follows_of_quiet (fun d => rfl) ⟨[], .nil, rfl⟩

abbrev Account := List Registration → List Token → Option Token → Prop

/-- What a rule does from a place on. The first property is that of success, the second that of failure. A
rule may also come to the bound of its recursion. -/
inductive Does (f : Parse σ α) (p : Spot σ) (D B : Account) : Prop where
  | done {log : List Registration} {tokens : List Token} {a : α} {q : Spot σ}
      (follows : Follows f p log tokens (.ok a) q) (h : D log tokens q.peeked)
  | broken {log : List Registration} {tokens : List Token} {e : ParseError} {q : Spot σ}
      (follows : Follows f p log tokens (.error e) q) (h : B log tokens q.peeked)
  | exhausted {log : List Registration} {tokens : List Token} {e : ParseError} {q : Spot σ}
      (follows : Follows f p log tokens (.error e) q) (h : e.Exhausted)

variable {D B D' B' : Account}

theorem Does.mono (h : Does f p D B)
    (hD : ∀ log tokens ahead, p.peeked.toList <+: tokens ++ ahead.toList → D log tokens ahead →
      D' log tokens ahead)
    (hB : ∀ log tokens ahead, p.peeked.toList <+: tokens ++ ahead.toList → B log tokens ahead →
      B' log tokens ahead) : Does f p D' B' := by
  cases h with
  | done follows h => exact .done follows (hD _ _ _ follows.passes.peeked_prefix h)
  | broken follows h => exact .broken follows (hB _ _ _ follows.passes.peeked_prefix h)
  | exhausted follows h => exact .exhausted follows h

theorem Does.bind (hf : Does f p D B) (hB : ∀ log tokens ahead, B log tokens ahead → B' log tokens ahead)
    (hg : ∀ log tokens a q, D log tokens q.peeked → Does (g a) q
      (fun log' tokens' => D' (log ++ log') (tokens ++ tokens'))
      fun log' tokens' => B' (log ++ log') (tokens ++ tokens')) : Does (f >>= g) p D' B' := by
  cases hf with
  | broken follows h => exact .broken follows.bind_error (hB _ _ _ h)
  | exhausted follows h => exact .exhausted follows.bind_error h
  | done follows h =>
    cases hg _ _ _ _ h with
    | done follows' h' => exact .done (follows.bind_ok follows') h'
    | broken follows' h' => exact .broken (follows.bind_ok follows') h'
    | exhausted follows' h' => exact .exhausted (follows.bind_ok follows') h'

theorem does_pure (a : α) (h : D [] [] p.peeked) : Does (pure a : Parse σ α) p D B :=
  .done (follows_of_quiet (fun _ => rfl) p.passes_nil) h

theorem does_throw (e : ParseError) (h : B [] [] p.peeked) : Does (throw e : Parse σ α) p D B :=
  .broken (follows_of_quiet (fun _ => rfl) p.passes_nil) h

theorem Does.map (hf : Does f p D B) (k : α → β) : Does (f >>= fun a => pure (k a)) p D B := by
  refine hf.bind (fun _ _ _ h => h) fun log tokens a q h => does_pure _ ?_
  rwa [List.append_nil, List.append_nil]

theorem Does.behind {token : Token} {source : σ} {g : Token → Parse σ α}
    (htake : Follows take p [] [token] (.ok token) ⟨source, none⟩)
    (hg : Does (g token) ⟨source, none⟩ (fun log tokens => D log (token :: tokens))
      fun log tokens => B log (token :: tokens)) : Does (take >>= g) p D B := by
  cases hg with
  | done follows h => exact .done (htake.bind_ok follows) h
  | broken follows h => exact .broken (htake.bind_ok follows) h
  | exhausted follows h => exact .exhausted (htake.bind_ok follows) h

theorem Does.peek_bind {g : Token → Parse σ α} (hB : B [] [] none)
    (hg : ∀ token source, Does (g token) ⟨source, some token⟩ D B) : Does (peek >>= g) p D B := by
  rcases next_cases p with ⟨token, source, hpeek, -⟩ | ⟨hnone, e, hpeek, -⟩
  · cases hg token source with
    | done follows h => exact .done (hpeek.bind_ok follows) h
    | broken follows h => exact .broken (hpeek.bind_ok follows) h
    | exhausted follows h => exact .exhausted (hpeek.bind_ok follows) h
  · exact .broken hpeek.bind_error (by rwa [hnone])

theorem Does.take_bind {g : Token → Parse σ α} (hB : B [] [] none)
    (hg : ∀ token source, Does (g token) ⟨source, none⟩ (fun log tokens => D log (token :: tokens))
      fun log tokens => B log (token :: tokens)) : Does (take >>= g) p D B := by
  rcases next_cases p with ⟨token, source, -, htake⟩ | ⟨hnone, e, -, htake⟩
  · exact .behind htake (hg token source)
  · exact .broken htake.bind_error (by rwa [hnone])

theorem Does.take_peeked_bind {g : Token → Parse σ α} {token : Token} {source : σ}
    (hg : Does (g token) ⟨source, none⟩ (fun log tokens => D log (token :: tokens))
      fun log tokens => B log (token :: tokens)) : Does (take >>= g) ⟨source, some token⟩ D B := by
  have htake : Follows (take : Parse σ Token) ⟨source, some token⟩ [] [token] (.ok token)
      ⟨source, none⟩ := follows_of_quiet (fun _ => rfl) ⟨[], .nil, rfl⟩
  exact .behind htake hg

theorem Does.expect_bind {g : Token → Parse σ α} {kind : TokenKind} (hB : B [] [] none)
    (hany : ∀ token, B [] [token] none)
    (hg : ∀ token q, token.kind = kind → Does (g token) q (fun log tokens => D log (token :: tokens))
      fun log tokens => B log (token :: tokens)) : Does (expect kind >>= g) p D B := by
  unfold expect
  rw [bind_assoc]
  refine .take_bind hB fun token source => ?_
  split
  · rename_i hkind
    rw [pure_bind]
    exact hg token _ hkind
  · exact does_throw _ (hany token)

theorem does_refuse_nil (hB : B [] [] none) : Does (refuse [] : Parse σ α) p D B := by
  rcases next_cases p with ⟨token, source, -, htake⟩ | ⟨hnone, e, -, htake⟩
  · have hthrow : Follows (unexpected token [] : Parse σ α) ⟨source, none⟩ [] []
        (.error ⟨.unexpected token.kind token.text [], token.span⟩) ⟨source, none⟩ :=
      follows_of_quiet (fun _ => rfl) (Spot.passes_nil _)
    exact .exhausted (htake.bind_ok hthrow) ⟨_, _, rfl⟩
  · exact .broken htake.bind_error (by rwa [hnone])

/-! Properties that add up. -/

/-- What is promised of the registrations and the tokens of a rule. Promises are kept by rules one
after another, and any token may be the last one before a failure. -/
structure Promise where
  done : Account
  broken : Account
  nil : ∀ ahead, done [] [] ahead
  append : ∀ {log log' tokens tokens' ahead ahead'}, done log tokens ahead → done log' tokens' ahead' →
    ahead.toList <+: tokens' ++ ahead'.toList → done (log ++ log') (tokens ++ tokens') ahead'
  breaks : ∀ {log log' tokens tokens' ahead ahead'}, done log tokens ahead → broken log' tokens' ahead' →
    ahead.toList <+: tokens' ++ ahead'.toList → broken (log ++ log') (tokens ++ tokens') ahead'
  start : ∀ ahead, broken [] [] ahead
  last : ∀ token, broken [] [token] none

def Keeps (P : Promise) (f : Parse σ α) : Prop :=
  ∀ p : Spot σ, Does f p P.done P.broken

def Promise.Allows (P : Promise) (kind : TokenKind) : Prop :=
  ∀ token : Token, token.kind = kind → P.done [] [token] none

variable {P : Promise}

theorem keeps_pure (a : α) : Keeps P (pure a : Parse σ α) :=
  fun _ => does_pure a (P.nil _)

theorem keeps_throw (e : ParseError) : Keeps P (throw e : Parse σ α) :=
  fun _ => does_throw e (P.start _)

theorem keeps_misplaced (b : Block) (expected : List TokenKind) :
    Keeps P (misplaced b expected : Parse σ α) :=
  keeps_throw _

theorem Keeps.behind (hf : Keeps P f) {log : List Registration} {tokens : List Token}
    (h : P.done log tokens p.peeked) :
    Does f p (fun log' tokens' => P.done (log ++ log') (tokens ++ tokens'))
      fun log' tokens' => P.broken (log ++ log') (tokens ++ tokens') :=
  (hf p).mono (fun _ _ _ hahead h' => P.append h h' hahead) fun _ _ _ hahead h' => P.breaks h h' hahead

theorem Keeps.bind (hf : Keeps P f) (hg : ∀ a, Keeps P (g a)) : Keeps P (f >>= g) :=
  fun p => (hf p).bind (fun _ _ _ h => h) fun _ _ a _ h => (hg a).behind h

theorem Keeps.behind_token (hf : Keeps P f) {token : Token} (h : P.done [] [token] none) (p : Spot σ) :
    Does f p (fun log tokens => P.done log (token :: tokens)) fun log tokens =>
      P.broken log (token :: tokens) :=
  (hf p).mono (fun _ _ _ _ h' => P.append h h' (List.nil_prefix)) fun _ _ _ _ h' =>
    P.breaks h h' (List.nil_prefix)

theorem keeps_refuse (expected : List TokenKind) : Keeps P (refuse expected : Parse σ α) :=
  fun _ => .take_bind (P.start _) fun token _ => does_throw _ (P.last token)

theorem Keeps.peek_bind {g : Token → Parse σ α}
    (hg : ∀ token source, Does (g token) ⟨source, some token⟩ P.done P.broken) : Keeps P (peek >>= g) :=
  fun _ => .peek_bind (P.start _) hg

theorem Keeps.take_bind {g : Token → Parse σ α}
    (hg : ∀ token, P.done [] [token] none ∧ Keeps P (g token) ∨ ∃ e, g token = throw e) :
    Keeps P (take >>= g) := by
  intro p
  refine .take_bind (P.start _) fun token source => ?_
  rcases hg token with ⟨hallowed, hkeeps⟩ | ⟨e, he⟩
  · exact hkeeps.behind_token hallowed _
  · rw [he]
    exact does_throw e (P.last token)

theorem Keeps.expect_bind {kind : TokenKind} {g : Token → Parse σ α} (hkind : P.Allows kind)
    (hg : ∀ token, Keeps P (g token)) : Keeps P (expect kind >>= g) :=
  fun _ => .expect_bind (P.start _) P.last fun token q htoken =>
    (hg token).behind_token (hkind token htoken) q

theorem keeps_expect {kind : TokenKind} (hkind : P.Allows kind) :
    Keeps P (expect kind : Parse σ Token) := by
  have hbind : Keeps P (expect kind >>= pure : Parse σ Token) := .expect_bind hkind keeps_pure
  rwa [bind_pure] at hbind

theorem Does.take_peeked {g : Token → Parse σ α} {token : Token} {source : σ}
    (htoken : P.done [] [token] none) (hg : Keeps P (g token)) :
    Does (take >>= g) ⟨source, some token⟩ P.done P.broken :=
  .take_peeked_bind (hg.behind_token htoken _)

end Parse

end Parley.Body
