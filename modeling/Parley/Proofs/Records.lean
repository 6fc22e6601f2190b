import Mathlib.Data.List.Forall2
import Parley.Proofs.Promises
set_option autoImplicit false

/-!
What parsing has to do with the record of declarations.

The tokens that parsing asks for tell which declarations it registers: one for each `declare` whose
command comes to an end, with more behind it than what trails it on its line. That is so also when
parsing fails, and what follows for the record holds then, too. A sealed record in particular stays as
it is.
-/

namespace Parley.Body

/-! The declarations that tokens tell of. -/

def Registration.Names (r : Registration) (name : Token) : Prop :=
  name.kind = .variableName ∧ r.new.name = variableOf name ∧ r.span = name.span

def TokenKind.trails (kind : TokenKind) : Bool :=
  kind == .hashtag || kind == .comment

def leadsOn (tokens : List Token) : Bool :=
  tokens.any fun t => !t.kind.trails

/-- Whether a command comes to an end, with more behind it than what trails it on its line. -/
def closes : List Token → Bool
  | [] => false
  | token :: tokens => if token.kind = .endCommand then leadsOn tokens else closes tokens

/-- The variables behind each `declare` whose command comes to an end. -/
def declaredNames : List Token → List Token
  | [] => []
  | word :: tokens =>
    if word.kind = .declareWord ∧ closes tokens = true then tokens.head?.toList ++ declaredNames tokens
    else declaredNames tokens

section Names

variable {token word name : Token} {tokens front more ahead : List Token}

theorem closes_append (h : closes tokens = true) (more : List Token) :
    closes (tokens ++ more) = true := by
  induction tokens with
  | nil => cases h
  | cons token tokens ih =>
    simp only [List.cons_append, closes] at h ⊢
    split at h
    · rename_i hkind
      rw [if_pos hkind, leadsOn, List.any_append, ← leadsOn, h, Bool.true_or]
    · rename_i hkind
      rw [if_neg hkind]
      exact ih h

theorem closes_of_prefix (h : closes (tokens ++ ahead) = true) (hahead : ahead <+: more) :
    closes (tokens ++ more) = true := by
  obtain ⟨behind, rfl⟩ := hahead
  rw [← List.append_assoc]
  exact closes_append h behind

theorem closes_cons_of_ne (h : token.kind ≠ .endCommand) : closes (token :: tokens) = closes tokens :=
  if_neg h

theorem closes_append_of_ne (h : ∀ t ∈ front, t.kind ≠ .endCommand) (tokens : List Token) :
    closes (front ++ tokens) = closes tokens := by
  induction front with
  | nil => rfl
  | cons token front ih =>
    rw [List.cons_append, closes_cons_of_ne (h token (List.mem_cons_self ..))]
    exact ih fun t ht => h t (List.mem_cons_of_mem _ ht)

theorem ne_of_trails {kind other : TokenKind} (h : kind.trails = true) (hother : other.trails = false) :
    kind ≠ other := by
  rintro rfl
  rw [h] at hother
  cases hother

theorem closes_of_not_leadsOn (h : leadsOn tokens = false) : closes tokens = false := by
  have htrails : ∀ t ∈ tokens, t.kind.trails = true := by simpa [leadsOn] using h
  rw [← List.append_nil tokens, closes_append_of_ne fun t ht => ne_of_trails (htrails t ht) rfl]
  rfl

theorem closes_tail (h : closes (token :: tokens) = false) : closes tokens = false := by
  rw [closes] at h
  split at h
  · exact closes_of_not_leadsOn h
  · exact h

@[simp] theorem closes_peeked (peeked : Option Token) : closes peeked.toList = false := by
  cases peeked <;> simp [closes, leadsOn]

theorem declaredNames_cons_of_ne (h : token.kind ≠ .declareWord) :
    declaredNames (token :: tokens) = declaredNames tokens :=
  if_neg fun hdeclares => h hdeclares.1

theorem declaredNames_append_of_ne (h : ∀ t ∈ front, t.kind ≠ .declareWord) (tokens : List Token) :
    declaredNames (front ++ tokens) = declaredNames tokens := by
  induction front with
  | nil => rfl
  | cons token front ih =>
    rw [List.cons_append, declaredNames_cons_of_ne (h token (List.mem_cons_self ..))]
    exact ih fun t ht => h t (List.mem_cons_of_mem _ ht)

theorem declaredNames_of_closes (hword : word.kind = .declareWord) (h : closes (name :: tokens) = true) :
    declaredNames (word :: name :: tokens) = name :: declaredNames (name :: tokens) :=
  if_pos ⟨hword, h⟩

/-- No declaration comes to an end where no command does. -/
theorem declaredNames_of_not_closes (h : closes tokens = false) : declaredNames tokens = [] := by
  induction tokens with
  | nil => rfl
  | cons token tokens ih =>
    have htail := closes_tail h
    rw [declaredNames, if_neg (by simp [htail]), ih htail]

end Names

def staysInCommand (kind : TokenKind) : Bool :=
  kind != .declareWord && kind != .endCommand

theorem ne_of_stays {kind other : TokenKind} (h : staysInCommand kind = true)
    (hother : staysInCommand other = false) : kind ≠ other := by
  rintro rfl
  rw [h] at hother
  cases hother

namespace Parse

def within : Promise where
  done log tokens _ := log = [] ∧ ∀ t ∈ tokens, staysInCommand t.kind = true
  broken log tokens ahead := log = [] ∧ closes (tokens ++ ahead.toList) = false
  nil := by simp
  append := by
    rintro _ _ tokens tokens' _ _ ⟨rfl, h⟩ ⟨rfl, h'⟩ -
    exact ⟨rfl, fun t ht => (List.mem_append.1 ht).elim (h t) (h' t)⟩
  breaks := by
    rintro _ _ tokens tokens' _ ahead ⟨rfl, h⟩ ⟨rfl, h'⟩ -
    refine ⟨rfl, ?_⟩
    rwa [List.append_assoc, closes_append_of_ne fun t ht => ne_of_stays (h t ht) rfl]
  start ahead := ⟨rfl, closes_peeked ahead⟩
  last token := ⟨rfl, closes_peeked (some token)⟩

/-- What is registered are the declarations that come to an end. A rule that succeeds leaves none
that could come to an end behind it. -/
def accounted : Promise where
  done log tokens peeked := ∀ more ahead, peeked.toList <+: ahead →
    List.Forall₂ Registration.Names more (declaredNames ahead) →
      List.Forall₂ Registration.Names (log ++ more) (declaredNames (tokens ++ ahead))
  broken log tokens peeked :=
    List.Forall₂ Registration.Names log (declaredNames (tokens ++ peeked.toList))
  nil := fun _ _ _ _ h => h
  append := by
    intro log log' tokens tokens' peeked peeked' h h' hpeeked more ahead hahead hmore
    rw [List.append_assoc, List.append_assoc]
    obtain ⟨behind, rfl⟩ := hahead
    refine h _ _ ?_ (h' _ _ (List.prefix_append ..) hmore)
    rw [← List.append_assoc]
    exact hpeeked.trans (List.prefix_append ..)
  breaks := by
    intro log log' tokens tokens' peeked peeked' h h' hpeeked
    rw [List.append_assoc]
    exact h _ _ hpeeked h'
  start ahead := by
    rw [List.nil_append, declaredNames_of_not_closes (closes_peeked ahead)]
    exact .nil
  last token := by
    rw [show [token] ++ (none : Option Token).toList = (some token).toList from rfl,
      declaredNames_of_not_closes (closes_peeked (some token))]
    exact .nil

theorem within_allows {kind : TokenKind} (h : staysInCommand kind = true) : within.Allows kind := by
  intro token htoken
  refine ⟨rfl, ?_⟩
  simp [htoken, h]

theorem accounted_of_ne {tokens : List Token} (h : ∀ t ∈ tokens, t.kind ≠ .declareWord)
    (peeked : Option Token) : accounted.done [] tokens peeked := by
  intro more ahead _ hmore
  rwa [List.nil_append, declaredNames_append_of_ne h]

theorem accounted_allows {kind : TokenKind} (h : kind ≠ .declareWord) : accounted.Allows kind :=
  fun _ htoken => accounted_of_ne (by simpa [htoken] using h) none

theorem accounted_of_within {log : List Registration} {tokens : List Token} {peeked : Option Token}
    (h : within.broken log tokens peeked) : accounted.broken log tokens peeked := by
  obtain ⟨rfl, hcloses⟩ := h
  show List.Forall₂ _ [] _
  rw [declaredNames_of_not_closes hcloses]
  exact .nil

section Grammar

variable {σ α : Type} [TokenSource σ] {n : Nat}

theorem Keeps.account {f : Parse σ α} (h : Keeps within f) : Keeps accounted f := by
  intro p
  refine (h p).mono ?_ fun _ _ _ _ => accounted_of_within
  rintro _ tokens peeked - ⟨rfl, htokens⟩
  exact accounted_of_ne (fun t ht => ne_of_stays (htokens t ht) rfl) peeked

/-! Expressions. -/

structure KeepsExpr (σ : Type) [TokenSource σ] (n : Nat) : Prop where
  binding : ∀ power, Keeps within (binding n power : Parse σ Expr)
  tail : ∀ power lhs, Keeps within (operatorTail n power lhs : Parse σ Expr)
  operand : Keeps within (operand n : Parse σ Expr)
  arguments : Keeps within (arguments n : Parse σ (List Expr))

theorem staysInCommand_of_operator? {kind : TokenKind} {i : Operator} (h : operator? kind = some i) :
    staysInCommand kind = true := by
  cases kind <;> first | rfl | cases h

theorem keeps_operatorTail_succ (ih : KeepsExpr σ n) (power : Nat) (lhs : Expr) :
    Keeps within (operatorTail (n + 1) power lhs : Parse σ Expr) := by
  refine .peek_bind fun token source => ?_
  split
  · exact keeps_pure lhs _
  · rename_i i hoperator
    split
    · exact keeps_pure lhs _
    · have htoken := within_allows (staysInCommand_of_operator? hoperator) token rfl
      exact .take_peeked htoken ((ih.binding _).bind fun _ => ih.tail _ _)

theorem keeps_operand_succ (ih : KeepsExpr σ n) : Keeps within (operand (n + 1) : Parse σ Expr) := by
  refine .take_bind fun token => ?_
  split
  · rename_i hkind
    refine .inl ⟨within_allows rfl token hkind, ?_⟩
    split
    · exact keeps_pure _
    · exact keeps_throw _
  · rename_i hkind
    exact .inl ⟨within_allows rfl token hkind, keeps_pure _⟩
  · rename_i hkind
    exact .inl ⟨within_allows rfl token hkind, keeps_pure _⟩
  · rename_i hkind
    exact .inl ⟨within_allows rfl token hkind, keeps_pure _⟩
  · rename_i hkind
    exact .inl ⟨within_allows rfl token hkind, keeps_pure _⟩
  · rename_i hkind
    exact .inl ⟨within_allows rfl token hkind, keeps_pure _⟩
  · rename_i hkind
    exact .inl ⟨within_allows rfl token hkind, (ih.binding 0).bind fun _ =>
      .expect_bind (within_allows rfl) fun _ => keeps_pure _⟩
  · rename_i hkind
    refine .inl ⟨within_allows rfl token hkind, .expect_bind (within_allows rfl) fun _ =>
      .peek_bind fun next _ => ?_⟩
    split
    · rename_i hnext
      exact .take_peeked (within_allows rfl next hnext) (keeps_pure _)
    · exact (ih.arguments.bind fun _ => keeps_pure _) _
  · rename_i hkind
    exact .inl ⟨within_allows rfl token hkind, (ih.binding _).bind fun _ => keeps_pure _⟩
  · rename_i hkind
    exact .inl ⟨within_allows rfl token hkind, (ih.binding _).bind fun _ => keeps_pure _⟩
  · rename_i hkind
    exact .inl ⟨within_allows rfl token hkind, (ih.binding _).bind fun _ => keeps_pure _⟩
  · exact .inr ⟨_, rfl⟩

theorem keeps_arguments_succ (ih : KeepsExpr σ n) :
    Keeps within (arguments (n + 1) : Parse σ (List Expr)) := by
  refine (ih.binding 0).bind fun _ => .take_bind fun token => ?_
  split
  · rename_i hkind
    exact .inl ⟨within_allows rfl token hkind, ih.arguments.bind fun _ => keeps_pure _⟩
  · rename_i hkind
    exact .inl ⟨within_allows rfl token hkind, keeps_pure _⟩
  · exact .inr ⟨_, rfl⟩

theorem keepsExpr (n : Nat) : KeepsExpr σ n := by
  induction n with
  | zero => exact ⟨fun _ => keeps_refuse _, fun _ _ => keeps_refuse _, keeps_refuse _, keeps_refuse _⟩
  | succ n ih =>
    exact ⟨fun _ => ih.operand.bind fun _ => ih.tail _ _, keeps_operatorTail_succ ih,
      keeps_operand_succ ih, keeps_arguments_succ ih⟩

theorem keeps_expression (n : Nat) : Keeps within (expression n : Parse σ Expr) :=
  (keepsExpr n).binding 0

/-! Rules within a line. -/

theorem keeps_inlineExpression (n : Nat) : Keeps within (inlineExpression n : Parse σ Expr) :=
  .expect_bind (within_allows rfl) fun _ => (keeps_expression n).bind fun _ =>
    .expect_bind (within_allows rfl) fun _ => keeps_pure _

theorem keeps_textParts (n : Nat) : Keeps within (textParts n : Parse σ (List Part)) := by
  induction n with
  | zero => exact keeps_refuse _
  | succ n ih =>
    refine .peek_bind fun token source => ?_
    split
    · rename_i hkind
      exact .take_peeked (within_allows rfl token hkind) (ih.bind fun _ => keeps_pure _)
    · rename_i hkind
      exact .take_peeked (within_allows rfl token hkind) (ih.bind fun _ => keeps_pure _)
    · exact ((keeps_inlineExpression n).bind fun _ => ih.bind fun _ => keeps_pure _) _
    · exact keeps_pure _ _

theorem keeps_commandParts (n : Nat) (started : Bool) :
    Keeps within (commandParts n started : Parse σ (List Part)) := by
  induction n generalizing started with
  | zero => exact keeps_refuse _
  | succ n ih =>
    refine .peek_bind fun token source => ?_
    split
    · rename_i hkind
      exact .take_peeked (within_allows rfl token hkind) ((ih true).bind fun _ => keeps_pure _)
    · exact ((keeps_inlineExpression n).bind fun _ => (ih true).bind fun _ => keeps_pure _) _
    · split
      · exact keeps_pure _ _
      · exact keeps_refuse _ _
    · exact keeps_refuse _ _

theorem keeps_typeClause : Keeps within (typeClause : Parse σ (Option TypeName)) := by
  refine .peek_bind fun token source => ?_
  split
  · rename_i hkind
    refine .take_peeked (within_allows rfl token hkind) (.expect_bind (within_allows rfl) fun type => ?_)
    split
    · exact keeps_pure _
    · exact keeps_throw _
  · exact keeps_pure _ _

theorem keeps_jumpTarget (n : Nat) : Keeps within (jumpTarget n : Parse σ JumpTarget) := by
  refine .peek_bind fun token source => ?_
  split
  · rename_i hkind
    exact .take_peeked (within_allows rfl token hkind) (keeps_pure _)
  · exact ((keeps_inlineExpression n).bind fun _ => keeps_pure _) _
  · exact keeps_refuse _ _

theorem keeps_optionLabel (n : Nat) : Keeps within (optionLabel n : Parse σ (List Part)) := by
  refine (keeps_textParts n).bind fun parts => ?_
  split
  · exact keeps_refuse _
  · exact keeps_pure _

/-! The end of a line. -/

/-- The end of a line is passed only by rules that then succeed. A rule that fails has not found it. -/
theorem does_trailer (n : Nat) (p : Spot σ) : Does (trailer n) p
    (fun log tokens peeked => log = [] ∧ (∀ t ∈ tokens, t.kind ≠ .declareWord) ∧
      leadsOn (tokens ++ peeked.toList) = true)
    fun log tokens peeked => log = [] ∧ leadsOn (tokens ++ peeked.toList) = false := by
  induction n generalizing p with
  | zero => exact does_refuse_nil ⟨rfl, rfl⟩
  | succ n ih =>
    refine .peek_bind ⟨rfl, rfl⟩ fun token source => ?_
    have hmore (htrails : token.kind.trails = true) : Does (trailer n) (⟨source, none⟩ : Spot σ)
        (fun log tokens peeked => log = [] ∧ (∀ t ∈ token :: tokens, t.kind ≠ .declareWord) ∧
          leadsOn (token :: tokens ++ peeked.toList) = true)
        fun log tokens peeked => log = [] ∧ leadsOn (token :: tokens ++ peeked.toList) = false := by
      have hskip (tokens : List Token) : leadsOn (token :: tokens) = leadsOn tokens := by
        simp [leadsOn, htrails]
      refine (ih _).mono ?_ ?_
      · rintro _ tokens peeked - ⟨rfl, hwords, hleads⟩
        exact ⟨rfl, List.forall_mem_cons.2 ⟨ne_of_trails htrails rfl, hwords⟩, (hskip _).trans hleads⟩
      · rintro _ tokens peeked - ⟨rfl, hleads⟩
        exact ⟨rfl, (hskip _).trans hleads⟩
    split
    · rename_i hkind
      exact .take_peeked_bind ((hmore (by rw [hkind]; rfl)).map _)
    · rename_i hkind
      exact .take_peeked_bind (hmore (by rw [hkind]; rfl))
    · rename_i hkind
      refine .take_peeked_bind (does_pure _ ?_)
      simp [leadsOn, TokenKind.trails, hkind]
    · rename_i hhashtag hcomment _
      refine does_pure _ ?_
      have htrails : token.kind.trails = false := by
        simpa [TokenKind.trails] using ⟨hhashtag, hcomment⟩
      simp [leadsOn, htrails]

def Closed (log : List Registration) (tokens : List Token) (peeked : Option Token) : Prop :=
  log = [] ∧ (∀ t ∈ tokens, t.kind ≠ .declareWord) ∧ closes (tokens ++ peeked.toList) = true

theorem does_closeCommand (n : Nat) (p : Spot σ) : Does (closeCommand n) p Closed within.broken := by
  refine .expect_bind (within.start _) within.last fun token q hkind => (does_trailer n q).mono ?_ ?_
  · rintro _ tokens peeked - ⟨rfl, hwords, hleads⟩
    refine ⟨rfl, List.forall_mem_cons.2 ⟨by simp [hkind], hwords⟩, ?_⟩
    rwa [List.cons_append, closes, if_pos hkind]
  · rintro _ tokens peeked - ⟨rfl, hleads⟩
    refine ⟨rfl, ?_⟩
    rwa [List.cons_append, closes, if_pos hkind]

theorem keeps_trailer (n : Nat) : Keeps accounted (trailer n : Parse σ (List Text)) := by
  intro p
  refine (does_trailer n p).mono ?_ ?_
  · rintro _ tokens peeked - ⟨rfl, hwords, -⟩
    exact accounted_of_ne hwords peeked
  · rintro _ tokens peeked - ⟨rfl, hleads⟩
    exact accounted_of_within ⟨rfl, closes_of_not_leadsOn hleads⟩

theorem keeps_closeCommand (n : Nat) : Keeps accounted (closeCommand n : Parse σ (List Text)) := by
  intro p
  refine (does_closeCommand n p).mono ?_ fun _ _ _ _ => accounted_of_within
  rintro _ tokens peeked - ⟨rfl, hwords, -⟩
  exact accounted_of_ne hwords peeked

/-! Statements on one line. -/

theorem keeps_textLine (n : Nat) : Keeps accounted (textLine n : Parse σ Statement) :=
  .peek_bind fun _ _ => ((keeps_textParts n).account.bind fun _ =>
    (keeps_trailer n).bind fun _ => keeps_pure _) _

theorem keeps_assignment (n : Nat) (opening : Token) :
    Keeps accounted (assignment n opening : Parse σ Statement) :=
  .expect_bind (accounted_allows (by decide)) fun _ => .expect_bind (accounted_allows (by decide)) fun _ =>
    (keeps_expression n).account.bind fun _ => (keeps_closeCommand n).bind fun _ => keeps_pure _

theorem keeps_genericCommand (n : Nat) (opening : Token) :
    Keeps accounted (genericCommand n opening : Parse σ Statement) :=
  (keeps_commandParts n false).account.bind fun _ => (keeps_closeCommand n).bind fun _ => keeps_pure _

theorem keeps_guardClause (n : Nat) : Keeps accounted (guardClause n : Parse σ (Option Expr)) := by
  refine .peek_bind fun token source => ?_
  split
  · rename_i hkind
    exact .take_peeked (accounted_allows (by decide) token hkind)
      (.expect_bind (accounted_allows (by decide)) fun _ => (keeps_expression n).account.bind fun _ =>
        .expect_bind (accounted_allows (by decide)) fun _ => keeps_pure _)
  · exact keeps_pure _ _

/-- What a declaration registers is a declaration of the variable that its first token names. -/
def Registers (name : Token) (log : List Registration) (tokens : List Token) (peeked : Option Token) :
    Prop :=
  Closed [] tokens peeked ∧ ∃ r : Registration, log = [r] ∧ r.Names name

theorem Closed.behind {tokens tokens' : List Token} {peeked : Option Token}
    (h : ∀ t ∈ tokens, staysInCommand t.kind = true) (h' : Closed [] tokens' peeked) :
    Closed [] (tokens ++ tokens') peeked := by
  obtain ⟨-, hwords, hcloses⟩ := h'
  refine ⟨rfl, ?_, ?_⟩
  · intro t ht
    exact (List.mem_append.1 ht).elim (fun ht => ne_of_stays (h t ht) rfl) (hwords t)
  · rwa [List.append_assoc, closes_append_of_ne fun t ht => ne_of_stays (h t ht) rfl]

theorem Does.registers_bind {β : Type} {f : Parse σ α} {g : α → Parse σ β} {name : Token} {p : Spot σ}
    (hf : Keeps within f) (hg : ∀ a q, Does (g a) q (Registers name) within.broken) :
    Does (f >>= g) p (Registers name) within.broken := by
  refine (hf p).bind (fun _ _ _ h => h) fun log tokens a q h => (hg a q).mono ?_ ?_
  · rintro log' tokens' peeked - ⟨hclosed, hnames⟩
    obtain ⟨rfl, hstays⟩ := h
    exact ⟨hclosed.behind hstays, hnames⟩
  · exact fun _ _ _ hpeeked h' => within.breaks h h' hpeeked

theorem does_declaration (n : Nat) (opening : Token) (p : Spot σ) : Does (declaration n opening) p
    (fun log tokens peeked => ∃ name rest, tokens = name :: rest ∧ Registers name log rest peeked)
    within.broken := by
  refine .expect_bind (within.start _) within.last fun name q hname => ?_
  have hrest : Does (do
      let _ ← expect .assign
      let value ← expression n
      let type ← typeClause
      let _ ← closeCommand n
      declare ⟨variableOf name, value, type, opening.span.line⟩ name.span : Parse σ Unit) q
      (Registers name) within.broken := by
    refine .registers_bind (keeps_expect (within_allows rfl)) fun _ _ =>
      .registers_bind (keeps_expression n) fun value _ => .registers_bind keeps_typeClause fun type _ =>
        (does_closeCommand n _).bind (fun _ _ _ h => h) fun log tokens _ q h => ?_
    -- All tokens of the command are behind, and the declaration is registered.
    refine .done (follows_declare q _ _) ?_
    obtain ⟨rfl, hwords, hcloses⟩ := h
    rw [List.append_nil]
    exact ⟨⟨rfl, hwords, hcloses⟩, _, rfl, hname, rfl, rfl⟩
  refine hrest.mono (fun _ tokens _ _ h => ⟨name, tokens, rfl, h⟩) ?_
  rintro _ tokens peeked - ⟨rfl, hcloses⟩
  refine ⟨rfl, ?_⟩
  rwa [List.cons_append, closes_cons_of_ne (by rw [hname]; decide)]

/-! Blocks. -/

structure KeepsBlock (σ : Type) [TokenSource σ] (n : Nat) : Prop where
  block : Keeps accounted (block n : Parse σ Block)
  option : Keeps accounted (option n : Parse σ Choice)
  command : ∀ opening, Keeps accounted (command n opening : Parse σ Command)
  arms : Keeps accounted (arms n : Parse σ (List Statement × Otherwise))

theorem keeps_block_succ (ih : KeepsBlock σ n) : Keeps accounted (block (n + 1) : Parse σ Block) := by
  refine .peek_bind fun token source => ?_
  split
  · rename_i hkind
    exact .take_peeked (accounted_allows (by decide) token hkind) ih.block
  · rename_i hkind
    exact .take_peeked (accounted_allows (by decide) token hkind) ih.block
  · exact keeps_pure _ _
  · rename_i hkind
    exact .take_peeked (accounted_allows (by decide) token hkind) (keeps_pure _)
  · exact (ih.option.bind fun _ => ih.block.bind fun _ => keeps_pure _) _
  · exact ((keeps_textLine n).bind fun _ => ih.block.bind fun _ => keeps_pure _) _
  · exact ((keeps_textLine n).bind fun _ => ih.block.bind fun _ => keeps_pure _) _
  · exact ((keeps_textLine n).bind fun _ => ih.block.bind fun _ => keeps_pure _) _
  · rename_i hkind
    refine .take_peeked (accounted_allows (by decide) token hkind) ((ih.command token).bind fun found => ?_)
    split
    · exact ih.block.bind fun _ => keeps_pure _
    · exact keeps_pure _
    · exact ih.block
  · exact keeps_refuse _ _

theorem keeps_option_succ (ih : KeepsBlock σ n) : Keeps accounted (option (n + 1) : Parse σ Choice) := by
  refine .expect_bind (accounted_allows (by decide)) fun _ => (keeps_optionLabel n).account.bind fun _ =>
    (keeps_guardClause n).bind fun _ => (keeps_trailer n).bind fun _ => .peek_bind fun token source => ?_
  split
  · rename_i hkind
    refine .take_peeked (accounted_allows (by decide) token hkind) (ih.block.bind fun body => ?_)
    split
    · exact keeps_pure _
    · exact keeps_misplaced _ _
  · exact keeps_pure _ _

/-- The word in front of a declaration and the name behind it tell of what is registered. -/
theorem does_declaration_command (n : Nat) (opening : Token) {word : Token} {source : σ}
    (hword : word.kind = .declareWord) :
    Does (take >>= fun _ => declaration n opening >>= fun _ => pure Command.declaration : Parse σ Command)
      ⟨source, some word⟩ accounted.done accounted.broken := by
  refine .take_peeked_bind (((does_declaration n opening _).map _).mono ?_ ?_)
  · rintro _ _ peeked - ⟨name, rest, rfl, ⟨-, hwords, hcloses⟩, r, rfl, hname⟩ more ahead hahead hmore
    have hkind : name.kind ≠ .declareWord := by
      rw [hname.1]
      decide
    have hends : closes (name :: (rest ++ ahead)) = true := by
      rw [closes_cons_of_ne (by rw [hname.1]; decide)]
      exact closes_of_prefix hcloses hahead
    show List.Forall₂ _ (r :: more) (declaredNames (word :: name :: (rest ++ ahead)))
    rw [declaredNames_of_closes hword hends, declaredNames_cons_of_ne hkind,
      declaredNames_append_of_ne hwords]
    exact .cons hname hmore
  · rintro _ tokens peeked - ⟨rfl, hcloses⟩
    refine accounted_of_within ⟨rfl, ?_⟩
    rwa [List.cons_append, closes_cons_of_ne (by rw [hword]; decide)]

theorem keeps_command_succ (ih : KeepsBlock σ n) (opening : Token) :
    Keeps accounted (command (n + 1) opening : Parse σ Command) := by
  refine .peek_bind fun token source => ?_
  split
  · rename_i hkind
    exact .take_peeked (accounted_allows (by decide) token hkind)
      ((keeps_expression n).account.bind fun _ => (keeps_closeCommand n).bind fun _ =>
        ih.arms.bind fun _ => keeps_pure _)
  · rename_i hkind
    exact .take_peeked (accounted_allows (by decide) token hkind)
      ((keeps_expression n).account.bind fun _ => (keeps_closeCommand n).bind fun _ => keeps_pure _)
  · rename_i hkind
    exact .take_peeked (accounted_allows (by decide) token hkind)
      ((keeps_closeCommand n).bind fun _ => keeps_pure _)
  · rename_i hkind
    exact .take_peeked (accounted_allows (by decide) token hkind)
      ((keeps_closeCommand n).bind fun _ => keeps_pure _)
  · rename_i hkind
    exact .take_peeked (accounted_allows (by decide) token hkind)
      ((keeps_assignment n opening).bind fun _ => keeps_pure _)
  · rename_i hkind
    exact does_declaration_command n opening hkind
  · rename_i hkind
    exact .take_peeked (accounted_allows (by decide) token hkind)
      ((keeps_jumpTarget n).account.bind fun _ => (keeps_closeCommand n).bind fun _ => keeps_pure _)
  · rename_i hkind
    exact .take_peeked (accounted_allows (by decide) token hkind)
      ((keeps_closeCommand n).bind fun _ => keeps_pure _)
  · exact ((keeps_genericCommand n opening).bind fun _ => keeps_pure _) _
  · exact ((keeps_genericCommand n opening).bind fun _ => keeps_pure _) _
  · exact keeps_refuse _ _

theorem keeps_arms_succ (ih : KeepsBlock σ n) :
    Keeps accounted (arms (n + 1) : Parse σ (List Statement × Otherwise)) := by
  refine ih.block.bind fun body => ?_
  split
  · exact keeps_pure _
  · exact ih.arms.bind fun _ => keeps_pure _
  · refine ih.block.bind fun rest => ?_
    split
    · exact keeps_pure _
    · exact keeps_misplaced _ _
  · exact keeps_misplaced _ _

theorem keepsBlock (n : Nat) : KeepsBlock σ n := by
  induction n with
  | zero => exact ⟨keeps_refuse _, keeps_refuse _, fun _ => keeps_refuse _, keeps_refuse _⟩
  | succ n ih =>
    exact ⟨keeps_block_succ ih, keeps_option_succ ih, keeps_command_succ ih, keeps_arms_succ ih⟩

theorem keeps_body (n : Nat) : Keeps accounted (body n : Parse σ (List Statement)) := by
  refine (keepsBlock n).block.bind fun b => ?_
  split
  · exact keeps_pure _
  · exact keeps_misplaced _ _

end Grammar

end Parse

/-! Whole bodies. -/

def Declarations.conclude (d : Declarations) (log : List Registration)
    (outcome : Except ParseError (List Statement)) : Except ParseError (List Statement) × Declarations :=
  match d.registerAll log with
  | (none, d') => (outcome, d')
  | (some e, d') => (.error e, d')

theorem Parse.Follows.parse_eq {σ : Type} [TokenSource σ] {source : σ} {log : List Registration}
    {tokens : List Token} {outcome : Except ParseError (List Statement)} {q : Spot σ}
    (h : Follows (Parse.body (4 * TokenSource.weight source + 8)) ⟨source, none⟩ log tokens outcome q)
    (declared : Declarations) : parseSource source declared = declared.conclude log outcome := by
  unfold parseSource Declarations.conclude
  rcases hd : declared.registerAll log with ⟨_ | e, d⟩
  · have hbody := h.admitted hd
    simp only [Spot.cursor] at hbody
    rw [hbody]
    cases outcome <;> rfl
  · obtain ⟨stopped, hbody⟩ := h.refused hd
    simp only [Spot.cursor] at hbody
    rw [hbody]

/-- Parsing registers the same declarations and ends in the same way in every record, unless one of
them is refused. -/
theorem exists_conclude (body : Text) : ∃ log outcome,
    ∀ declared, parse body declared = declared.conclude log outcome := by
  cases Parse.keeps_body (4 * TokenSource.weight (Lexer.ofBody body) + 8) ⟨Lexer.ofBody body, none⟩ with
  | done follows | broken follows | exhausted follows => exact ⟨_, _, follows.parse_eq⟩

structure Respected (R : Declarations → Declarations → Prop) : Prop where
  refl : ∀ d, R d d
  trans : ∀ {d d' d''}, R d d' → R d' d'' → R d d''
  register : ∀ {d d' new span}, d.register new span = .ok d' → R d d'

theorem Respected.registerAll {R : Declarations → Declarations → Prop} (hR : Respected R)
    (d : Declarations) (log : List Registration) : R d (d.registerAll log).2 := by
  induction log generalizing d with
  | nil => exact hR.refl d
  | cons r log ih =>
    simp only [Declarations.registerAll]
    cases hr : d.register r.new r.span with
    | error e => exact hR.refl d
    | ok d' => exact hR.trans (hR.register hr) (ih d')

/-- Whatever holds across every registration holds across parsing, also when it fails. -/
theorem parse_respects {R : Declarations → Declarations → Prop} (hR : Respected R) (body : Text)
    (declared : Declarations) : R declared (parse body declared).2 := by
  obtain ⟨log, outcome, hparse⟩ := exists_conclude body
  have h := hR.registerAll declared log
  rw [hparse, Declarations.conclude]
  rcases hd : declared.registerAll log with ⟨_ | e, d⟩ <;> rw [hd] at h <;> exact h

theorem respected_locked : Respected fun d d' => d.locked = true → d' = d where
  refl := fun _ _ => rfl
  trans := by
    intro d d' d'' hfirst hsecond hlocked
    have hmiddle : d' = d := hfirst hlocked
    rw [hsecond (hmiddle ▸ hlocked), hmiddle]
  register := by
    intro d d' new span hregister hlocked
    simp only [Declarations.register, hlocked, if_true, Except.ok.injEq] at hregister
    exact hregister.symm

@[simp] theorem parse_sealed (body : Text) : (parse body .sealed).2 = .sealed :=
  parse_respects respected_locked body .sealed rfl

end Parley.Body
