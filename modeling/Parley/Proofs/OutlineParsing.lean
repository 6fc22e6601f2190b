import Parley.Proofs.Outline
set_option autoImplicit false

/-!
The grammar reads the lexemes of an outline back as its statements.

The rules call each other as the outline nests, so the proof follows the outline: a list in front of
anything that ends a block is read as its statements and what is found behind them.
-/

namespace Parley.Body

mutual

def Outline.count : Outline → Nat
  | .done => 0
  | .line _ rest => 1 + rest.count
  | .option _ _ _ body rest => 1 + body.count + rest.count
  | .branch _ body arms rest => 1 + body.count + arms.count + rest.count

def Arms.count : Arms → Nat
  | .nothing => 1
  | .otherwise body => 2 + body.count
  | .elseif _ body arms => 1 + body.count + arms.count

end

/-- What may stand behind an outline: not the start of a deeper block, and the end of a block at the
end of the text. -/
def Tail (more : Bool) : List Lexeme → Prop
  | [] => False
  | x :: _ => x.1 ≠ .indent ∧ (more = false → x.1 = .dedent ∨ x.1 = .endOfInput)

def EndsLine (x : Lexeme) : Prop :=
  x.1 = .endOfLine ∨ x.1 = .dedent ∨ x.1 = .endOfInput

theorem Tail.cons_eq {more : Bool} {ys : List Lexeme} (h : Tail more ys) :
    ∃ x zs, breakIf more ++ ys = x :: zs ∧ EndsLine x := by
  cases ys with
  | nil => exact absurd h id
  | cons y ys =>
    cases more with
    | true => exact ⟨_, _, rfl, .inl rfl⟩
    | false => exact ⟨y, ys, rfl, .inr (h.2 rfl)⟩

theorem Tail.rest {more : Bool} {ys : List Lexeme} (h : Tail more ys) (rest : Outline) :
    Tail (more || !rest.isDone) (rest.lexemes more ++ ys) := by
  cases rest with
  | done => simpa [Outline.isDone, Outline.lexemes] using h
  | line t rest => simp [Outline.isDone, Outline.lexemes, Tail]
  | option label guard deeper body rest =>
    simp [Outline.isDone, Outline.lexemes, optionLexemes, Tail]
  | branch condition body arms rest =>
    simp [Outline.isDone, Outline.lexemes, conditionLexemes, Tail]

theorem Arms.tail (arms : Arms) (more : Bool) (ys : List Lexeme) :
    Tail true (arms.lexemes more ++ ys) := by
  cases arms <;> simp [Arms.lexemes, conditionLexemes, wordLexemes, Tail]

theorem VariableName.dropWhile_eq (v : VariableName) :
    ('$' :: v.name).dropWhile (· == '$') = v.name := by
  cases h : v.name with
  | nil => rfl
  | cons c name =>
    have hc : isVariableChar c = true := by
      have := v.chars
      rw [h, List.all_cons, Bool.and_eq_true] at this
      exact this.1
    have hne : c ≠ '$' := by
      intro he
      rw [he] at hc
      exact absurd hc (by decide)
    simp [hne]

namespace Parse

variable {σ : Type} [TokenSource σ] {xs ys zs : List Lexeme}

def Reads (ss : List Statement) (e : BlockEnd) (b : Block) : Prop :=
  unnumberedAll b.statements = ss ∧ b.ending = e

theorem Reads.cons {ss : List Statement} {e : BlockEnd} {b : Block} (h : Reads ss e b)
    {s x : Statement} (hs : s.unnumbered = x) : Reads (x :: ss) e (b.cons s) := by
  refine ⟨?_, h.2⟩
  simp only [Block.cons, unnumberedAll, hs, h.1]

theorem yields_lineEnd (n : Nat) {more : Bool} (h : Tail more ys) :
    Yields (trailer (n + 1) : Parse σ (List Text)) (breakIf more ++ ys) ys (· = []) := by
  cases more with
  | true => exact yields_trailer_break n []
  | false =>
    cases ys with
    | nil => exact absurd h id
    | cons y ys =>
      refine yields_trailer_stop n y ?_
      rcases h.2 rfl with hy | hy <;> simp [hy]

theorem yields_textParts_line (n : Nat) (t : Text) {x : Lexeme} (hx : EndsLine x) :
    Yields (textParts (n + 2) : Parse σ (List Part)) ((.text, t) :: x :: xs) (x :: xs)
      (· = [.text t]) := by
  refine yields_textParts n t x ?_
  rcases hx with hx | hx | hx <;> simp [hx]

theorem yields_textLine (n : Nat) (t : Text) {more : Bool} (h : Tail more ys) :
    Yields (textLine (n + 2) : Parse σ Statement) ((.text, t) :: (breakIf more ++ ys)) ys
      (·.unnumbered = .line [.text t] 0 []) := by
  obtain ⟨x, rest, hx, hends⟩ := h.cons_eq
  unfold textLine
  refine (yields_peek _).bind fun token _ => ?_
  have hend := yields_lineEnd (σ := σ) (n + 1) h
  rw [hx] at hend ⊢
  refine (yields_textParts_line n t hends).bind fun parts hparts => ?_
  refine hend.bind fun hashtags hhashtags => ?_
  exact yields_pure (by rw [Statement.unnumbered, hparts, hhashtags])

theorem yields_closeCommand (n : Nat) (t : Text) {more : Bool} (h : Tail more ys) :
    Yields (closeCommand (n + 1) : Parse σ (List Text)) ((.endCommand, t) :: (breakIf more ++ ys)) ys
      (· = []) := by
  unfold closeCommand
  exact (yields_expect .endCommand t).bind fun _ _ => yields_lineEnd n h

theorem yields_condition (n : Nat) (v : VariableName) (t : Text) :
    Yields (expression (n + 2) : Parse σ Expr)
      ((.variableName, '$' :: v.name) :: (.endCommand, t) :: xs) ((.endCommand, t) :: xs)
      (· = .var v.name) :=
  yields_expression_variable n v.name (.endCommand, t) v.dropWhile_eq rfl

theorem yields_guardClause (n : Nat) (guard : Option VariableName) {x : Lexeme} (hx : EndsLine x) :
    Yields (guardClause (n + 2) : Parse σ (Option Expr)) (guardLexemes guard ++ x :: xs) (x :: xs)
      (· = guard.map fun v => .var v.name) := by
  unfold guardClause
  cases guard with
  | none =>
    refine (yields_peek _).bind fun token h => ?_
    have hk : token.kind = x.1 := congrArg Prod.fst h
    have hne : token.kind ≠ .beginCommand := by
      rw [hk]
      rcases hx with hx | hx | hx <;> simp [hx]
    simp only [hne, if_false]
    exact yields_pure rfl
  | some v =>
    refine (yields_peek (.beginCommand, "<<".toList)).bind fun token h => ?_
    have hk : token.kind = .beginCommand := congrArg Prod.fst h
    simp only [hk, if_true]
    refine (yields_take _).bind fun _ _ => ?_
    refine (yields_expect .ifWord _).bind fun _ _ => ?_
    refine (yields_condition n v _).bind fun condition hcondition => ?_
    refine (yields_expect .endCommand _).bind fun _ _ => ?_
    exact yields_pure (by rw [hcondition]; rfl)

theorem yields_optionLabel (n : Nat) (t : Text) (guard : Option VariableName) {x : Lexeme}
    (hx : EndsLine x) :
    Yields (optionLabel (n + 2) : Parse σ (List Part))
      ((.text, t) :: (guardLexemes guard ++ x :: xs)) (guardLexemes guard ++ x :: xs)
      (· = [.text t]) := by
  have hparts : Yields (textParts (n + 2) : Parse σ (List Part))
      ((.text, t) :: (guardLexemes guard ++ x :: xs)) (guardLexemes guard ++ x :: xs)
      (· = [.text t]) := by
    cases guard with
    | none => exact yields_textParts_line n t hx
    | some v => exact yields_textParts n t (.beginCommand, "<<".toList) (by simp)
  unfold optionLabel
  refine hparts.bind fun parts h => ?_
  subst h
  exact yields_pure rfl

/-! How blocks end. -/

theorem yields_block_dedent (n : Nat) (t : Text) :
    Yields (block (n + 1) : Parse σ Block) ((.dedent, t) :: ys) ys (Reads [] .dedent) := by
  unfold block
  refine (yields_peek _).bind fun token h => ?_
  have hk : token.kind = .dedent := congrArg Prod.fst h
  simp only [hk]
  exact (yields_take _).bind fun _ _ => yields_pure ⟨rfl, rfl⟩

theorem yields_block_endOfInput (n : Nat) (t : Text) :
    Yields (block (n + 1) : Parse σ Block) ((.endOfInput, t) :: ys) ((.endOfInput, t) :: ys)
      (Reads [] .endOfInput) := by
  unfold block
  refine (yields_peek _).bind fun token h => ?_
  have hk : token.kind = .endOfInput := congrArg Prod.fst h
  simp only [hk]
  exact yields_pure ⟨rfl, rfl⟩

theorem yields_block_command (n : Nat) (t : Text) {e : BlockEnd}
    (h : ∀ opening, Yields (command n opening : Parse σ Command) xs ys (· = .ending e)) :
    Yields (block (n + 1) : Parse σ Block) ((.beginCommand, t) :: xs) ys (Reads [] e) := by
  unfold block
  refine (yields_peek _).bind fun token htoken => ?_
  have hk : token.kind = .beginCommand := congrArg Prod.fst htoken
  simp only [hk]
  refine (yields_take _).bind fun opening _ => ?_
  refine (h opening).bind fun c hc => ?_
  subst hc
  exact yields_pure ⟨rfl, rfl⟩

theorem yields_block_endif (n : Nat) {more : Bool} (h : Tail more ys) :
    Yields (block (n + 3) : Parse σ Block)
      (wordLexemes .endifWord "endif".toList ++ (breakIf more ++ ys)) ys (Reads [] .endif) := by
  refine yields_block_command (n + 2) _ fun opening => ?_
  unfold command
  refine (yields_peek _).bind fun token htoken => ?_
  have hk : token.kind = .endifWord := congrArg Prod.fst htoken
  simp only [hk]
  refine (yields_take _).bind fun _ _ => ?_
  exact (yields_closeCommand n _ h).bind fun _ _ => yields_pure rfl

theorem yields_block_else (n : Nat) {more : Bool} (h : Tail more ys) :
    Yields (block (n + 3) : Parse σ Block)
      (wordLexemes .elseWord "else".toList ++ (breakIf more ++ ys)) ys (Reads [] .otherwise) := by
  refine yields_block_command (n + 2) _ fun opening => ?_
  unfold command
  refine (yields_peek _).bind fun token htoken => ?_
  have hk : token.kind = .elseWord := congrArg Prod.fst htoken
  simp only [hk]
  refine (yields_take _).bind fun _ _ => ?_
  exact (yields_closeCommand n _ h).bind fun _ _ => yields_pure rfl

theorem yields_block_elseif (n : Nat) (v : VariableName) {more : Bool} (h : Tail more ys) :
    Yields (block (n + 4) : Parse σ Block)
      (conditionLexemes .elseifWord "elseif".toList v ++ (breakIf more ++ ys)) ys
      (Reads [] (.elseif (.var v.name) [])) := by
  refine yields_block_command (n + 3) _ fun opening => ?_
  unfold command
  refine (yields_peek _).bind fun token htoken => ?_
  have hk : token.kind = .elseifWord := congrArg Prod.fst htoken
  simp only [hk]
  refine (yields_take _).bind fun _ _ => ?_
  refine (yields_condition n v _).bind fun condition hcondition => ?_
  refine (yields_closeCommand (n + 1) _ h).bind fun hashtags hhashtags => ?_
  exact yields_pure (by rw [hcondition, hhashtags])

/-! What blocks begin with. -/

theorem yields_block_line (n : Nat) (t : Text) {more : Bool} {ss : List Statement} {e : BlockEnd}
    (h : Tail more ys) (hrest : Yields (block (n + 2) : Parse σ Block) ys zs (Reads ss e)) :
    Yields (block (n + 3) : Parse σ Block) ((.text, t) :: (breakIf more ++ ys)) zs
      (Reads (.line [.text t] 0 [] :: ss) e) := by
  rw [block]
  refine (yields_peek _).bind fun token htoken => ?_
  have hk : token.kind = .text := congrArg Prod.fst htoken
  simp only [hk]
  refine (yields_textLine n t h).bind fun s hs => ?_
  exact hrest.bind fun b hb => yields_pure (hb.cons hs)

theorem yields_block_option (n : Nat) {x : Choice} {t : Text}
    {ss : List Statement} {e : BlockEnd}
    (h : Yields (option n : Parse σ Choice) ((.arrow, t) :: xs) ys (·.unnumbered = x))
    (hrest : Yields (block n : Parse σ Block) ys zs (Reads ss e)) :
    Yields (block (n + 1) : Parse σ Block) ((.arrow, t) :: xs) zs (Reads (.option x :: ss) e) := by
  rw [block]
  refine (yields_peek _).bind fun token htoken => ?_
  have hk : token.kind = .arrow := congrArg Prod.fst htoken
  simp only [hk]
  refine h.bind fun o ho => ?_
  exact hrest.bind fun b hb => yields_pure (hb.cons (by rw [Statement.unnumbered, ho]))

theorem yields_option_line (n : Nat) (label : PlainText) (guard : Option VariableName) {more : Bool}
    (h : Tail more ys) :
    Yields (option (n + 3) : Parse σ Choice) (optionLexemes label guard ++ (breakIf more ++ ys)) ys
      (·.unnumbered = ⟨[.text label.text], guard.map fun v => .var v.name, none, 0, []⟩) := by
  obtain ⟨x, rest, hx, hends⟩ := h.cons_eq
  have hend := yields_lineEnd (σ := σ) (n + 1) h
  rw [hx] at hend ⊢
  unfold option
  refine (yields_expect .arrow _).bind fun arrow _ => ?_
  refine (yields_optionLabel n label.text guard hends).bind fun parts hparts => ?_
  refine (yields_guardClause n guard hends).bind fun condition hcondition => ?_
  refine hend.bind fun hashtags hhashtags => ?_
  cases ys with
  | nil => exact absurd h id
  | cons y ys =>
    refine (yields_peek y).bind fun token htoken => ?_
    have hy : token.kind = y.1 := congrArg Prod.fst htoken
    have hk : token.kind ≠ .indent := by
      rw [hy]
      exact h.1
    simp only [hk, if_false]
    refine yields_pure ?_
    rw [hparts, hcondition, hhashtags]
    rfl

theorem yields_option_body (n : Nat) (label : PlainText) (guard : Option VariableName)
    {ss : List Statement}
    (hbody : Yields (block (n + 2) : Parse σ Block) xs ys (Reads ss .dedent)) :
    Yields (option (n + 3) : Parse σ Choice)
      (optionLexemes label guard ++ (.endOfLine, []) :: (.indent, []) :: xs) ys
      (·.unnumbered = ⟨[.text label.text], guard.map fun v => .var v.name, some ss, 0, []⟩) := by
  have hends : EndsLine (.endOfLine, []) := .inl rfl
  unfold option
  refine (yields_expect .arrow _).bind fun arrow _ => ?_
  refine (yields_optionLabel n label.text guard hends).bind fun parts hparts => ?_
  refine (yields_guardClause n guard hends).bind fun condition hcondition => ?_
  refine (yields_trailer_break (n + 1) []).bind fun hashtags hhashtags => ?_
  refine (yields_peek (.indent, [])).bind fun token htoken => ?_
  have hk : token.kind = .indent := congrArg Prod.fst htoken
  simp only [hk, if_true]
  refine (yields_take _).bind fun _ _ => ?_
  refine hbody.bind fun b hb => ?_
  simp only [hb.2]
  refine yields_pure ?_
  rw [hparts, hcondition, hhashtags, ← hb.1]
  rfl

theorem yields_block_branch (n : Nat) (v : VariableName) {body : List Statement}
    {otherwise : Otherwise} {ss : List Statement} {e : BlockEnd} (hxs : Tail true xs)
    (harms : Yields (arms (n + 2) : Parse σ (List Statement × Otherwise)) xs ys
      fun r => unnumberedAll r.1 = body ∧ r.2.unnumbered = otherwise)
    (hrest : Yields (block (n + 3) : Parse σ Block) ys zs (Reads ss e)) :
    Yields (block (n + 4) : Parse σ Block)
      (conditionLexemes .ifWord "if".toList v ++ (.endOfLine, []) :: xs) zs
      (Reads (.branch (.var v.name) body otherwise [] :: ss) e) := by
  have hcommand : ∀ opening, Yields (command (n + 3) opening : Parse σ Command)
      ((.ifWord, "if".toList) :: (.variableName, '$' :: v.name) :: (.endCommand, ">>".toList) ::
        (.endOfLine, []) :: xs) ys
      fun c => ∃ s, c = .statement s ∧ s.unnumbered = .branch (.var v.name) body otherwise [] := by
    intro opening
    unfold command
    refine (yields_peek _).bind fun token htoken => ?_
    have hk : token.kind = .ifWord := congrArg Prod.fst htoken
    simp only [hk]
    refine (yields_take _).bind fun _ _ => ?_
    refine (yields_condition n v _).bind fun condition hcondition => ?_
    refine (yields_closeCommand (n + 1) _ hxs).bind fun hashtags hhashtags => ?_
    refine harms.bind fun r hr => ?_
    refine yields_pure ⟨_, rfl, ?_⟩
    rw [Statement.unnumbered, hcondition, hhashtags, hr.1, hr.2]
  rw [block]
  refine (yields_peek (.beginCommand, "<<".toList)).bind fun token htoken => ?_
  have hk : token.kind = .beginCommand := congrArg Prod.fst htoken
  simp only [hk]
  refine (yields_take _).bind fun opening _ => ?_
  refine (hcommand opening).bind fun c hc => ?_
  obtain ⟨s, rfl, hs⟩ := hc
  exact hrest.bind fun b hb => yields_pure (hb.cons hs)

/-- A list is read as its statements and what a block is read as behind it. Six levels of recursion
are enough for each line. -/
def ReadsOutline (σ : Type) [TokenSource σ] (o : Outline) : Prop :=
  ∀ (more : Bool) (ys zs : List Lexeme) (ss : List Statement) (e : BlockEnd) (least : Nat),
    1 ≤ least → Tail more ys →
    (∀ m, least ≤ m → Yields (block m : Parse σ Block) ys zs (Reads ss e)) →
    ∀ n, least + 6 * o.count ≤ n →
      Yields (block n : Parse σ Block) (o.lexemes more ++ ys) zs (Reads (o.statements ++ ss) e)

def ReadsArms (σ : Type) [TokenSource σ] (a : Arms) : Prop :=
  ∀ (o : Outline), ReadsOutline σ o → ∀ (more : Bool) (ys : List Lexeme), Tail more ys →
    ∀ n, 6 * (o.count + a.count) ≤ n →
      Yields (arms n : Parse σ (List Statement × Otherwise))
        (o.lexemes true ++ (a.lexemes more ++ ys)) ys
        fun r => unnumberedAll r.1 = o.statements ∧ r.2.unnumbered = a.statements

theorem ReadsOutline.until {o : Outline} (h : ReadsOutline σ o) (more : Bool) {e : BlockEnd}
    (least : Nat) (hend : ∀ k, Yields (block (k + (least + 1)) : Parse σ Block) ys zs (Reads [] e))
    (htail : Tail more ys) (n : Nat) (hn : least + 1 + 6 * o.count ≤ n) :
    Yields (block n : Parse σ Block) (o.lexemes more ++ ys) zs (Reads o.statements e) := by
  have hfrom : ∀ m, least + 1 ≤ m → Yields (block m : Parse σ Block) ys zs (Reads [] e) := by
    intro m hm
    have hk := hend (m - (least + 1))
    rwa [Nat.sub_add_cancel hm] at hk
  simpa using h more ys zs [] e (least + 1) (by omega) htail hfrom n hn

mutual

theorem readsOutline : ∀ o : Outline, ReadsOutline σ o
  | .done => by
    intro more ys zs ss e least _ _ hrest n hn
    exact hrest n (by simpa [Outline.count] using hn)
  | .line t rest => by
    intro more ys zs ss e least hleast htail hrest n hn
    simp only [Outline.count] at hn
    obtain ⟨k, rfl⟩ : ∃ k, n = k + 3 := ⟨n - 3, by omega⟩
    have hbehind := readsOutline rest more ys zs ss e least hleast htail hrest (k + 2) (by omega)
    have hline := yields_block_line k t.text (htail.rest rest) hbehind
    simpa [Outline.lexemes, Outline.statements] using hline
  | .option label guard deeper body rest => by
    intro more ys zs ss e least hleast htail hrest n hn
    simp only [Outline.count] at hn
    obtain ⟨k, rfl⟩ : ∃ k, n = k + 4 := ⟨n - 4, by omega⟩
    have hbehind := readsOutline rest more ys zs ss e least hleast htail hrest (k + 3) (by omega)
    cases hb : body.isDone with
    | true =>
      have hoption := yields_block_option (k + 3)
        (yields_option_line k label guard (htail.rest rest)) hbehind
      simpa [Outline.lexemes, Outline.statements, hb, optionLexemes] using hoption
    | false =>
      -- The body is a block of its own, and its end is what the lexer puts in front of the rest.
      have hend : ∀ m, Yields (block (m + 1) : Parse σ Block)
          ((.dedent, []) :: (rest.lexemes more ++ ys)) (rest.lexemes more ++ ys)
          (Reads [] .dedent) := fun m => yields_block_dedent m []
      have hbody := (readsOutline body).until (more || !rest.isDone) 0 hend (by simp [Tail]) (k + 2)
        (by omega)
      have hoption := yields_block_option (k + 3) (yields_option_body k label guard hbody) hbehind
      simpa [Outline.lexemes, Outline.statements, hb, optionLexemes] using hoption
  | .branch condition body arms rest => by
    intro more ys zs ss e least hleast htail hrest n hn
    simp only [Outline.count] at hn
    obtain ⟨k, rfl⟩ : ∃ k, n = k + 4 := ⟨n - 4, by omega⟩
    have hbehind := readsOutline rest more ys zs ss e least hleast htail hrest (k + 3) (by omega)
    have harms := readsArms arms body (readsOutline body) _ _ (htail.rest rest) (k + 2) (by omega)
    have hbranch := yields_block_branch k condition
      ((arms.tail (more || !rest.isDone) (rest.lexemes more ++ ys)).rest body) harms hbehind
    simpa [Outline.lexemes, Outline.statements] using hbranch

theorem readsArms : ∀ a : Arms, ReadsArms σ a
  | .nothing => by
    intro o ho more ys htail n hn
    simp only [Arms.count] at hn
    obtain ⟨k, rfl⟩ : ∃ k, n = k + 1 := ⟨n - 1, by omega⟩
    have hend := fun m => yields_block_endif (σ := σ) m htail
    have hfirst := ho.until true 2 hend (by simp [wordLexemes, Tail]) k (by omega)
    simp only [Arms.lexemes, List.append_assoc]
    rw [arms]
    refine hfirst.bind fun b hb => ?_
    simp only [hb.2]
    exact yields_pure ⟨hb.1, rfl⟩
  | .otherwise body => by
    intro o ho more ys htail n hn
    simp only [Arms.count] at hn
    obtain ⟨k, rfl⟩ : ∃ k, n = k + 1 := ⟨n - 1, by omega⟩
    have hend := fun m => yields_block_endif (σ := σ) m htail
    have hlast := (readsOutline body).until true 2 hend (by simp [wordLexemes, Tail]) k (by omega)
    have htail' : Tail true (body.lexemes true ++
        (wordLexemes .endifWord "endif".toList ++ (breakIf more ++ ys))) :=
      (by simp [wordLexemes, Tail] : Tail true _).rest body
    have helse := fun m => yields_block_else (σ := σ) m htail'
    have hfirst := ho.until true 2 helse (by simp [wordLexemes, Tail]) k (by omega)
    simp only [Arms.lexemes, List.append_assoc, List.cons_append]
    rw [arms]
    refine hfirst.bind fun b hb => ?_
    simp only [hb.2]
    refine hlast.bind fun b' hb' => ?_
    simp only [hb'.2]
    exact yields_pure ⟨hb.1, by rw [Otherwise.unnumbered, hb'.1]; rfl⟩
  | .elseif condition body arms => by
    intro o ho more ys htail n hn
    simp only [Arms.count] at hn
    obtain ⟨k, rfl⟩ : ∃ k, n = k + 1 := ⟨n - 1, by omega⟩
    have hlast := readsArms arms body (readsOutline body) more ys htail k (by omega)
    have helseif := fun m =>
      yields_block_elseif (σ := σ) m condition ((arms.tail more ys).rest body)
    have hfirst := ho.until true 3 helseif (by simp [conditionLexemes, Tail]) k (by omega)
    simp only [Arms.lexemes, List.append_assoc, List.cons_append]
    rw [Parse.arms]
    refine hfirst.bind fun b hb => ?_
    simp only [hb.2]
    refine hlast.bind fun r hr => ?_
    exact yields_pure ⟨hb.1, by rw [Otherwise.unnumbered, hr.1, hr.2]; rfl⟩

end

theorem yields_body (o : Outline) (t : Text) (n : Nat) (hn : 1 + 6 * o.count ≤ n) :
    Yields (body n : Parse σ (List Statement)) (o.lexemes false ++ [(.endOfInput, t)])
      [(.endOfInput, t)] (unnumberedAll · = o.statements) := by
  have hend : ∀ m, Yields (block (m + 1) : Parse σ Block) [(.endOfInput, t)] [(.endOfInput, t)]
      (Reads [] .endOfInput) := fun m => yields_block_endOfInput m t
  have hblock := (readsOutline o).until false 0 hend (by simp [Tail]) n hn
  unfold body
  refine hblock.bind fun b hb => ?_
  simp only [hb.2]
  exact yields_pure hb.1

end Parse

end Parley.Body
