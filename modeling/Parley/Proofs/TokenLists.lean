import Parley.Body.Tokens
import Parley.Proofs.Promises
set_option autoImplicit false

/-!
Lists of tokens in place of a lexer.

A list is a supply that fails behind its last token. `Offers` tells which tokens a supply gives, up to the
end of the input or up to its own error, so that a lexer and the list of its tokens offer the same.
`InStep` then compares two rules, each on a supply of its own: where the same tokens are ahead of both,
they come to the same result, and neither asks for anything behind the end of the input.
-/

namespace Parley.Body

structure TokenList where
  tokens : List Token
  fault : LexError

instance : TokenSource TokenList where
  pull s := match s.tokens with
    | [] => .error s.fault
    | token :: tokens => .ok (token, ⟨tokens, s.fault⟩)
  weight s := s.tokens.length

namespace Lexer

def listing (l : Lexer) : List Token × Option LexError :=
  match _h : l.next with
  | .error e => ([], some e)
  | .ok (token, rest) =>
    if _hk : token.kind = .endOfInput then ([token], none)
    else (token :: rest.listing.1, rest.listing.2)
termination_by l.weight
decreasing_by all_goals exact weight_next _h _hk

/-- The tokens of a lexer as a list. Behind the end of the input stands an error of choice. -/
def listed (l : Lexer) (behind : LexError) : TokenList :=
  ⟨l.listing.1, l.listing.2.getD behind⟩

variable {l rest : Lexer} {token : Token}

theorem listing_of_error {e : LexError} (h : l.next = .error e) : l.listing = ([], some e) := by
  rw [listing]
  split
  · rename_i e' he
    rw [h] at he
    cases he
    rfl
  · rename_i token rest he
    rw [h] at he
    cases he

theorem listing_of_next (h : l.next = .ok (token, rest)) :
    l.listing = if token.kind = .endOfInput then ([token], none)
      else (token :: rest.listing.1, rest.listing.2) := by
  rw [listing]
  split
  · rename_i e he
    rw [h] at he
    cases he
  · rename_i token' rest' he
    rw [h] at he
    cases he
    rfl

theorem tokens_eq_listing (l : Lexer) : l.tokens = match l.listing.2 with
    | none => .ok l.listing.1
    | some e => .error e := by
  fun_induction Lexer.tokens l with
  | case1 l e hnext => rw [listing_of_error hnext]
  | case2 l token rest hnext hkind => rw [listing_of_next hnext, if_pos hkind]
  | case3 l token rest hnext hkind ih =>
    rw [listing_of_next hnext, if_neg hkind, ih]
    cases rest.listing.2 <;> rfl

/-- Where the tokens end with an error, the end of the input is not among them. -/
theorem listing_inner {e : LexError} (h : l.listing.2 = some e) :
    ∀ t ∈ l.listing.1, t.kind ≠ .endOfInput := by
  fun_induction Lexer.listing l with
  | case1 => simp
  | case2 => cases h
  | case3 l token rest hnext hkind ih => simpa [hkind] using ih h

theorem listing_length_le (l : Lexer) : l.listing.1.length ≤ l.weight + 1 := by
  fun_induction Lexer.listing l with
  | case1 l e hnext => exact Nat.zero_le _
  | case2 l token rest hnext hkind => exact Nat.le_add_left 1 _
  | case3 l token rest hnext hkind ih =>
    have hless := weight_next hnext hkind
    simp only [List.length_cons]
    omega

end Lexer

section Supplies

variable {σ τ : Type} [TokenSource σ] [TokenSource τ]

/-- The tokens that a supply gives up to the end of the input, or up to its error. -/
inductive Offers (fault : LexError) : σ → List Token → Prop where
  | fails {s : σ} (h : TokenSource.pull s = .error fault) : Offers fault s []
  | last {s s' : σ} {token : Token} (h : TokenSource.pull s = .ok (token, s'))
      (hkind : token.kind = .endOfInput) : Offers fault s [token]
  | cons {s s' : σ} {token : Token} {tokens : List Token} (h : TokenSource.pull s = .ok (token, s'))
      (hkind : token.kind ≠ .endOfInput) (rest : Offers fault s' tokens) :
      Offers fault s (token :: tokens)

theorem Lexer.offers_listing (l : Lexer) (behind : LexError) :
    Offers (l.listed behind).fault l (l.listed behind).tokens := by
  unfold listed
  fun_induction Lexer.tokens l with
  | case1 l e hnext =>
    rw [listing_of_error hnext]
    exact .fails hnext
  | case2 l token rest hnext hkind =>
    rw [listing_of_next hnext, if_pos hkind]
    exact .last hnext hkind
  | case3 l token rest hnext hkind ih =>
    rw [listing_of_next hnext, if_neg hkind]
    exact .cons hnext hkind ih

theorem Offers.list {fault : LexError} {s : σ} {tokens : List Token} (h : Offers fault s tokens) :
    Offers fault (TokenList.mk tokens fault) tokens := by
  induction h with
  | fails => exact .fails rfl
  | last _ hkind => exact .last rfl hkind
  | cons _ hkind _ ih => exact .cons rfl hkind ih

inductive Spot.Shows (fault : LexError) : Spot σ → List Token → Prop where
  | fresh {s : σ} {tokens : List Token} (h : Offers fault s tokens) : Shows fault ⟨s, none⟩ tokens
  | last {s : σ} {token : Token} (hkind : token.kind = .endOfInput) : Shows fault ⟨s, some token⟩ [token]
  | cons {s : σ} {token : Token} {tokens : List Token} (hkind : token.kind ≠ .endOfInput)
      (h : Offers fault s tokens) : Shows fault ⟨s, some token⟩ (token :: tokens)

/-- The errors of the grammar where the supply fails with the given error: its own, or what was expected
in place of a token. At the bound of its recursion the grammar would expect nothing. -/
def ParseError.Reported (fault : LexError) (e : ParseError) : Prop :=
  match e.cause with
  | .lexical _ => e = fault.toParseError
  | .unexpected _ _ expected => expected ≠ []
  | _ => True

theorem LexError.reported (fault : LexError) : fault.toParseError.Reported fault :=
  rfl

namespace Parse

variable {α β : Type} {fault : LexError} {tokens : List Token}

inductive Matches (fault : LexError) (p : Spot σ) (tokens : List Token) (P : α → List Token → Prop)
    (r : EStateM.Result ParseError (Cursor σ) α) (r' : EStateM.Result ParseError (Cursor τ) α) :
    Prop where
  | ok {a : α} {d : Declarations} {q : Spot σ} {q' : Spot τ} {passed rest : List Token}
      (hr : r = .ok a (q.cursor d)) (hr' : r' = .ok a (q'.cursor d)) (hsplit : tokens = passed ++ rest)
      (passes : p.Passes passed q) (shows : q.Shows fault rest) (shows' : q'.Shows fault rest)
      (h : P a rest)
  | error {e : ParseError} {d : Declarations} {q : Spot σ} {q' : Spot τ}
      (hr : r = .error e (q.cursor d)) (hr' : r' = .error e (q'.cursor d)) (h : e.Reported fault)

/-- Wherever the given tokens are ahead of both, two rules come to the same result, and the tokens that
are left have the property. -/
def InStep (fault : LexError) (tokens : List Token) (P : α → List Token → Prop) (f : Parse σ α)
    (f' : Parse τ α) : Prop :=
  ∀ (p : Spot σ) (p' : Spot τ) (d : Declarations), p.Shows fault tokens → p'.Shows fault tokens →
    Matches fault p tokens P (f (p.cursor d)) (f' (p'.cursor d))

variable {f : Parse σ α} {f' : Parse τ α} {g : α → Parse σ β} {g' : α → Parse τ β}
  {P : α → List Token → Prop} {Q : β → List Token → Prop}

theorem InStep.mono {P' : α → List Token → Prop} (hf : InStep fault tokens P f f')
    (h : ∀ a rest, P a rest → P' a rest) : InStep fault tokens P' f f' := by
  intro p p' d hp hp'
  cases hf p p' d hp hp' with
  | ok hr hr' hsplit passes shows shows' ha => exact .ok hr hr' hsplit passes shows shows' (h _ _ ha)
  | error hr hr' he => exact .error hr hr' he

theorem Matches.behind {p q : Spot σ} {passed : List Token}
    {r : EStateM.Result ParseError (Cursor σ) α} {r' : EStateM.Result ParseError (Cursor τ) α}
    (h : Matches fault q tokens P r r') (passes : p.Passes passed q) :
    Matches fault p (passed ++ tokens) P r r' := by
  cases h with
  | error hr hr' he => exact .error hr hr' he
  | ok hr hr' hsplit more shows shows' ha =>
    refine .ok hr hr' ?_ (passes.append more) shows shows' ha
    rw [hsplit, List.append_assoc]

theorem InStep.bind (hf : InStep fault tokens P f f')
    (hg : ∀ a rest, P a rest → InStep fault rest Q (g a) (g' a)) :
    InStep fault tokens Q (f >>= g) (f' >>= g') := by
  intro p p' d hp hp'
  rw [bind_eq, bind_eq]
  cases hf p p' d hp hp' with
  | error hr hr' he =>
    rw [hr, hr']
    exact .error rfl rfl he
  | @ok a d q q' passed rest hr hr' hsplit passes shows shows' ha =>
    rw [hr, hr', hsplit]
    exact (hg a rest ha q q' d shows shows').behind passes

theorem inStep_pure (a : α) (h : P a tokens) :
    InStep fault tokens P (pure a : Parse σ α) (pure a : Parse τ α) :=
  fun p _ _ hp hp' => .ok rfl rfl rfl p.passes_nil hp hp' h

theorem inStep_throw {e : ParseError} (h : e.Reported fault) :
    InStep fault tokens P (throw e : Parse σ α) (throw e : Parse τ α) :=
  fun _ _ _ _ _ => .error rfl rfl h

theorem inStep_misplaced (b : Block) {expected : List TokenKind} (h : expected ≠ []) :
    InStep fault tokens P (misplaced b expected : Parse σ α) (misplaced b expected : Parse τ α) :=
  inStep_throw h

theorem InStep.map {k : α → β} (hf : InStep fault tokens P f f')
    (h : ∀ a rest, P a rest → Q (k a) rest) :
    InStep fault tokens Q (do return k (← f)) (do return k (← f')) :=
  hf.bind fun a rest ha => inStep_pure (k a) (h a rest ha)

theorem Declarations.reported_of_register {d : Declarations} {new : Declaration} {span : Span}
    {e : ParseError} (h : d.register new span = .error e) : e.Reported fault := by
  unfold Declarations.register at h
  split at h
  · cases h
  · split at h
    · cases h
      exact trivial
    · cases h

omit [TokenSource σ] in
theorem declare_eq (p : Spot σ) (d : Declarations) (new : Declaration) (span : Span) :
    declare new span (p.cursor d) = match d.register new span with
      | .ok d' => .ok () (p.cursor d')
      | .error e => .error e (p.cursor d) :=
  rfl

theorem inStep_declare (new : Declaration) (span : Span) {P : Unit → List Token → Prop}
    (h : P () tokens) :
    InStep fault tokens P (declare new span : Parse σ Unit) (declare new span : Parse τ Unit) := by
  intro p p' d hp hp'
  rw [declare_eq, declare_eq]
  cases hr : d.register new span with
  | ok d' => exact .ok rfl rfl rfl p.passes_nil hp hp' h
  | error e => exact .error rfl rfl (Declarations.reported_of_register hr)

/-! The next token. -/

structure Meets (fault : LexError) (p : Spot σ) (token : Token) (rest : List Token) (s : σ) : Prop where
  peek : Follows peek p [] [] (.ok token) ⟨s, some token⟩
  take : Follows take p [] [token] (.ok token) ⟨s, none⟩
  shows : Spot.Shows fault ⟨s, some token⟩ (token :: rest)
  behind : token.kind ≠ .endOfInput → Spot.Shows fault ⟨s, none⟩ rest

theorem meets_of_pull {s s' : σ} {token : Token} {rest : List Token}
    (h : TokenSource.pull s = .ok (token, s')) (shows : Spot.Shows fault ⟨s', some token⟩ (token :: rest))
    (behind : token.kind ≠ .endOfInput → Spot.Shows fault ⟨s', none⟩ rest) :
    Meets fault ⟨s, none⟩ token rest s' where
  peek := follows_of_quiet (fun d => by simp [Parse.peek, Spot.cursor, h, resultAt])
    ⟨[token], .cons h .nil, rfl⟩
  take := follows_of_quiet (fun d => by simp [Parse.take, Spot.cursor, h, resultAt])
    ⟨[token], .cons h .nil, rfl⟩
  shows := shows
  behind := behind

theorem meets_of_peeked {s : σ} {token : Token} {rest : List Token}
    (shows : Spot.Shows fault ⟨s, some token⟩ (token :: rest))
    (behind : token.kind ≠ .endOfInput → Spot.Shows fault ⟨s, none⟩ rest) :
    Meets fault ⟨s, some token⟩ token rest s where
  peek := follows_of_quiet (fun _ => rfl) (Spot.passes_nil _)
  take := follows_of_quiet (fun _ => rfl) ⟨[], .nil, rfl⟩
  shows := shows
  behind := behind

theorem exists_meets {p : Spot σ} {token : Token} {rest : List Token}
    (h : p.Shows fault (token :: rest)) : ∃ s, Meets fault p token rest s := by
  cases h with
  | fresh h =>
    cases h with
    | last h hkind => exact ⟨_, meets_of_pull h (.last hkind) fun hk => absurd hkind hk⟩
    | cons h hkind rest => exact ⟨_, meets_of_pull h (.cons hkind rest) fun _ => .fresh rest⟩
  | last hkind => exact ⟨_, meets_of_peeked (.last hkind) fun hk => absurd hkind hk⟩
  | cons hkind h => exact ⟨_, meets_of_peeked (.cons hkind h) fun _ => .fresh h⟩

theorem fails_of_shows_nil {p : Spot σ} (h : p.Shows fault []) (d : Declarations) :
    peek (p.cursor d) = .error fault.toParseError (p.cursor d) ∧
      take (p.cursor d) = .error fault.toParseError (p.cursor d) := by
  cases h with
  | fresh h =>
    cases h with
    | fails h => exact ⟨by simp [peek, Spot.cursor, h], by simp [take, Spot.cursor, h]⟩

variable {h : Token → Parse σ α} {h' : Token → Parse τ α}

/-- What the next token decides. Where the supply fails, there is none. -/
theorem InStep.peek_bind
    (hh : ∀ token rest, tokens = token :: rest → InStep fault tokens P (h token) (h' token)) :
    InStep fault tokens P (peek >>= h) (peek >>= h') := by
  intro p p' d hp hp'
  rw [bind_eq, bind_eq]
  cases tokens with
  | nil =>
    rw [(fails_of_shows_nil hp d).1, (fails_of_shows_nil hp' d).1]
    exact .error rfl rfl fault.reported
  | cons token rest =>
    obtain ⟨s, hs⟩ := exists_meets hp
    obtain ⟨s', hs'⟩ := exists_meets hp'
    rw [hs.peek.admitted rfl, hs'.peek.admitted rfl]
    exact (hh token rest rfl _ _ d hs.shows hs'.shows).behind hs.peek.passes

/-- The next token is taken. Behind the end of the input a rule must not go on. -/
theorem InStep.take_bind
    (hend : ∀ token, token.kind = .endOfInput → ∃ e : ParseError, h token = throw e ∧
      h' token = throw e ∧ e.Reported fault)
    (hh : ∀ token rest, tokens = token :: rest → token.kind ≠ .endOfInput →
      InStep fault rest P (h token) (h' token)) :
    InStep fault tokens P (take >>= h) (take >>= h') := by
  intro p p' d hp hp'
  rw [bind_eq, bind_eq]
  cases tokens with
  | nil =>
    rw [(fails_of_shows_nil hp d).2, (fails_of_shows_nil hp' d).2]
    exact .error rfl rfl fault.reported
  | cons token rest =>
    obtain ⟨s, hs⟩ := exists_meets hp
    obtain ⟨s', hs'⟩ := exists_meets hp'
    rw [hs.take.admitted rfl, hs'.take.admitted rfl]
    by_cases hkind : token.kind = .endOfInput
    · obtain ⟨e, hthrow, hthrow', he⟩ := hend token hkind
      simp only [resultAt, hthrow, hthrow']
      exact .error rfl rfl he
    · exact (hh token rest rfl hkind _ _ d (hs.behind hkind) (hs'.behind hkind)).behind hs.take.passes

theorem InStep.take_cons_bind {token : Token} {kind : TokenKind} (hkind : token.kind = kind)
    (hend : kind ≠ .endOfInput) (hh : InStep fault tokens P (h token) (h' token)) :
    InStep fault (token :: tokens) P (take >>= h) (take >>= h') := by
  intro p p' d hp hp'
  obtain ⟨s, hs⟩ := exists_meets hp
  obtain ⟨s', hs'⟩ := exists_meets hp'
  rw [bind_eq, bind_eq, hs.take.admitted rfl, hs'.take.admitted rfl]
  rw [← hkind] at hend
  exact (hh _ _ d (hs.behind hend) (hs'.behind hend)).behind hs.take.passes

theorem inStep_refuse {expected : List TokenKind} (he : expected ≠ []) :
    InStep fault tokens P (refuse expected : Parse σ α) (refuse expected : Parse τ α) :=
  .take_bind (fun _ _ => ⟨_, rfl, rfl, he⟩) fun _ _ _ _ => inStep_throw he

theorem InStep.expect_bind {kind : TokenKind} (hkind : kind ≠ .endOfInput)
    (hh : ∀ token rest, tokens = token :: rest → InStep fault rest P (h token) (h' token)) :
    InStep fault tokens P (expect kind >>= h) (expect kind >>= h') := by
  unfold expect
  rw [bind_assoc, bind_assoc]
  refine .take_bind (fun token hend => ?_) fun token rest htokens _ => ?_
  · have hne : token.kind ≠ kind := fun heq => hkind (heq.symm.trans hend)
    simp only [if_neg hne]
    exact ⟨_, rfl, rfl, List.cons_ne_nil kind []⟩
  · split
    · rw [pure_bind, pure_bind]
      exact hh token rest htokens
    · exact inStep_throw (List.cons_ne_nil kind [])

end Parse

end Supplies

end Parley.Body
