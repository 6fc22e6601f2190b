import Parley.Proofs.Outline
set_option autoImplicit false

/-!
The grammar as relations between lists of lexemes.

`Reads` holds between what a rule finds, the lexemes ahead of it and the lexemes it leaves. Places,
bounds on the recursion and the token that is peeked at do not occur. Statements are without their line
numbers, and declarations are listed apart in the order of the text.
-/

namespace Parley.Body

/-! Expressions. -/

/-- What a rule for expressions is asked for and finds. -/
inductive Phrase where
  | binding (power : Nat) (e : Expr)
  | tail (power : Nat) (lhs e : Expr)
  | operand (e : Expr)
  | arguments (es : List Expr)

/-- No operator, or one that binds looser than a power. -/
def Stops (power : Nat) (x : Lexeme) : Prop :=
  ∀ i, operator? x.1 = some i → i.left < power

def literal? : Lexeme → Option Value
  | (.number, t) => (Number.read? t).map .number
  | (.string, t) => some (.string t)
  | (.trueWord, _) => some (.bool true)
  | (.falseWord, _) => some (.bool false)
  | (.nullWord, _) => some .null
  | _ => none

def variableIn (t : Text) : Text :=
  t.dropWhile (· == '$')

def negates (kind : TokenKind) : Bool :=
  kind = .minus || kind = .gluedMinus

inductive Phrase.Reads : Phrase → List Lexeme → List Lexeme → Prop where
  | binding {power : Nat} {lhs e : Expr} {xs ys zs : List Lexeme} (first : Reads (.operand lhs) xs ys)
      (rest : Reads (.tail power lhs e) ys zs) : Reads (.binding power e) xs zs
  | stop {power : Nat} {lhs : Expr} {x : Lexeme} {xs : List Lexeme} (h : Stops power x) :
      Reads (.tail power lhs lhs) (x :: xs) (x :: xs)
  | operator {power : Nat} {lhs rhs e : Expr} {x : Lexeme} {i : Operator} {xs ys zs : List Lexeme}
      (hop : operator? x.1 = some i) (hpower : power ≤ i.left)
      (right : Reads (.binding i.right rhs) xs ys)
      (rest : Reads (.tail power (.binary i.op lhs rhs) e) ys zs) :
      Reads (.tail power lhs e) (x :: xs) zs
  | literal {x : Lexeme} {v : Value} {xs : List Lexeme} (h : literal? x = some v) :
      Reads (.operand (.literal v)) (x :: xs) xs
  | var {t : Text} {xs : List Lexeme} :
      Reads (.operand (.var (variableIn t))) ((.variableName, t) :: xs) xs
  | parens {e : Expr} {t u : Text} {xs ys : List Lexeme}
      (inner : Reads (.binding 0 e) xs ((.rightParen, u) :: ys)) :
      Reads (.operand e) ((.leftParen, t) :: xs) ys
  | emptyCall {f t u : Text} {xs : List Lexeme} :
      Reads (.operand (.call f [])) ((.identifier, f) :: (.leftParen, t) :: (.rightParen, u) :: xs) xs
  | call {f t : Text} {es : List Expr} {x : Lexeme} {xs ys : List Lexeme} (hx : x.1 ≠ .rightParen)
      (args : Reads (.arguments es) (x :: xs) ys) :
      Reads (.operand (.call f es)) ((.identifier, f) :: (.leftParen, t) :: x :: xs) ys
  | not {e : Expr} {t : Text} {xs ys : List Lexeme} (inner : Reads (.binding notPower e) xs ys) :
      Reads (.operand (.unary .not e)) ((.not, t) :: xs) ys
  | negate {e : Expr} {x : Lexeme} {xs ys : List Lexeme} (hx : negates x.1 = true)
      (inner : Reads (.binding negatePower e) xs ys) :
      Reads (.operand (.unary .negate e)) (x :: xs) ys
  | lastArgument {e : Expr} {t : Text} {xs ys : List Lexeme}
      (only : Reads (.binding 0 e) xs ((.rightParen, t) :: ys)) : Reads (.arguments [e]) xs ys
  | argument {e : Expr} {es : List Expr} {t : Text} {xs ys zs : List Lexeme}
      (first : Reads (.binding 0 e) xs ((.comma, t) :: ys)) (rest : Reads (.arguments es) ys zs) :
      Reads (.arguments (e :: es)) xs zs

abbrev ReadsExpr (e : Expr) : List Lexeme → List Lexeme → Prop :=
  (Phrase.binding 0 e).Reads

/-! What stands on a line. -/

/-- Hashtags and comments up to the end of the line, which is passed. -/
inductive Trails : List Text → List Lexeme → List Lexeme → Prop where
  | hashtag {t : Text} {hashtags : List Text} {xs ys : List Lexeme} (rest : Trails hashtags xs ys) :
      Trails (t.dropWhile (· == '#') :: hashtags) ((.hashtag, t) :: xs) ys
  | comment {t : Text} {hashtags : List Text} {xs ys : List Lexeme} (rest : Trails hashtags xs ys) :
      Trails hashtags ((.comment, t) :: xs) ys
  | lineEnd {t : Text} {xs : List Lexeme} : Trails [] ((.endOfLine, t) :: xs) xs
  | stop {x : Lexeme} {xs : List Lexeme} (hhashtag : x.1 ≠ .hashtag) (hcomment : x.1 ≠ .comment)
      (hbreak : x.1 ≠ .endOfLine) : Trails [] (x :: xs) (x :: xs)

def isPart (kind : TokenKind) : Bool :=
  kind = .text || kind = .escape || kind = .leftBrace

inductive ReadsParts : List Part → List Lexeme → List Lexeme → Prop where
  | text {t : Text} {parts : List Part} {xs ys : List Lexeme} (rest : ReadsParts parts xs ys) :
      ReadsParts (.text t :: parts) ((.text, t) :: xs) ys
  | escape {t : Text} {parts : List Part} {xs ys : List Lexeme} (rest : ReadsParts parts xs ys) :
      ReadsParts (.escaped ((Text.afterPrefix? ['\\'] t).getD t) :: parts) ((.escape, t) :: xs) ys
  | inline {t u : Text} {e : Expr} {parts : List Part} {xs ys zs : List Lexeme}
      (inner : ReadsExpr e xs ((.rightBrace, u) :: ys)) (rest : ReadsParts parts ys zs) :
      ReadsParts (.expr e :: parts) ((.leftBrace, t) :: xs) zs
  | stop {x : Lexeme} {xs : List Lexeme} (hx : isPart x.1 = false) :
      ReadsParts [] (x :: xs) (x :: xs)

inductive ReadsCommandParts : List Part → List Lexeme → List Lexeme → Prop where
  | text {t : Text} {parts : List Part} {xs ys : List Lexeme} (rest : ReadsCommandParts parts xs ys) :
      ReadsCommandParts (.text t :: parts) ((.text, t) :: xs) ys
  | inline {t u : Text} {e : Expr} {parts : List Part} {xs ys zs : List Lexeme}
      (inner : ReadsExpr e xs ((.rightBrace, u) :: ys)) (rest : ReadsCommandParts parts ys zs) :
      ReadsCommandParts (.expr e :: parts) ((.leftBrace, t) :: xs) zs
  | stop {t : Text} {xs : List Lexeme} :
      ReadsCommandParts [] ((.endCommand, t) :: xs) ((.endCommand, t) :: xs)

inductive Closes : List Text → List Lexeme → List Lexeme → Prop where
  | intro {t : Text} {hashtags : List Text} {xs ys : List Lexeme} (trail : Trails hashtags xs ys) :
      Closes hashtags ((.endCommand, t) :: xs) ys

inductive ReadsGuard : Option Expr → List Lexeme → List Lexeme → Prop where
  | none {x : Lexeme} {xs : List Lexeme} (hx : x.1 ≠ .beginCommand) :
      ReadsGuard none (x :: xs) (x :: xs)
  | some {t u w : Text} {e : Expr} {xs ys : List Lexeme}
      (condition : ReadsExpr e xs ((.endCommand, w) :: ys)) :
      ReadsGuard (some e) ((.beginCommand, t) :: (.ifWord, u) :: xs) ys

inductive ReadsType : Option TypeName → List Lexeme → List Lexeme → Prop where
  | none {x : Lexeme} {xs : List Lexeme} (hx : x.1 ≠ .asWord) : ReadsType none (x :: xs) (x :: xs)
  | some {t u : Text} {type : TypeName} {xs : List Lexeme} (htype : TypeName.ofText? u = some type) :
      ReadsType (some type) ((.asWord, t) :: (.typeName, u) :: xs) xs

inductive ReadsTarget : JumpTarget → List Lexeme → List Lexeme → Prop where
  | title {t : Text} {xs : List Lexeme} : ReadsTarget (.title t) ((.identifier, t) :: xs) xs
  | expr {t u : Text} {e : Expr} {xs ys : List Lexeme}
      (inner : ReadsExpr e xs ((.rightBrace, u) :: ys)) :
      ReadsTarget (.expr e) ((.leftBrace, t) :: xs) ys

/-- Commands that begin and end on one line, from behind their opening token on. -/
inductive ReadsPlain : Command → List Declaration → List Lexeme → List Lexeme → Prop where
  | assign {t u w : Text} {value : Expr} {hashtags : List Text} {xs ys zs : List Lexeme}
      (right : ReadsExpr value xs ys) (close : Closes hashtags ys zs) :
      ReadsPlain (.statement (.assign (variableIn u) value 0 hashtags)) []
        ((.setWord, t) :: (.variableName, u) :: (.assign, w) :: xs) zs
  | declare {t u w : Text} {value : Expr} {type : Option TypeName} {hashtags : List Text}
      {xs ys zs ws : List Lexeme} (right : ReadsExpr value xs ys) (typed : ReadsType type ys zs)
      (close : Closes hashtags zs ws) :
      ReadsPlain .declaration [⟨variableIn u, value, type, 0⟩]
        ((.declareWord, t) :: (.variableName, u) :: (.assign, w) :: xs) ws
  | jump {t : Text} {target : JumpTarget} {hashtags : List Text} {xs ys zs : List Lexeme}
      (aim : ReadsTarget target xs ys) (close : Closes hashtags ys zs) :
      ReadsPlain (.statement (.jump target hashtags)) [] ((.jumpWord, t) :: xs) zs
  | stop {t : Text} {hashtags : List Text} {xs ys : List Lexeme} (close : Closes hashtags xs ys) :
      ReadsPlain (.statement (.stop hashtags)) [] ((.stopWord, t) :: xs) ys
  | generic {parts : List Part} {hashtags : List Text} {xs ys zs : List Lexeme} (hparts : parts ≠ [])
      (words : ReadsCommandParts parts xs ys) (close : Closes hashtags ys zs) :
      ReadsPlain (.statement (.command parts 0 hashtags)) [] xs zs

/-! Blocks. -/

inductive Passage where
  | block (statements : List Statement) (ending : BlockEnd)
  | option (o : Choice)
  | command (c : Command)
  | arms (body : List Statement) (otherwise : Otherwise)

def isIdle (kind : TokenKind) : Bool :=
  kind = .endOfLine || kind = .comment

inductive Passage.Reads : Passage → List Declaration → List Lexeme → List Lexeme → Prop where
  | idle {ss : List Statement} {e : BlockEnd} {ds : List Declaration} {x : Lexeme}
      {xs ys : List Lexeme} (hx : isIdle x.1 = true) (rest : Reads (.block ss e) ds xs ys) :
      Reads (.block ss e) ds (x :: xs) ys
  | inputEnd {t : Text} {xs : List Lexeme} :
      Reads (.block [] .endOfInput) [] ((.endOfInput, t) :: xs) ((.endOfInput, t) :: xs)
  | dedent {t : Text} {xs : List Lexeme} : Reads (.block [] .dedent) [] ((.dedent, t) :: xs) xs
  | option {o : Choice} {ss : List Statement} {e : BlockEnd} {ds ds' : List Declaration}
      {xs ys zs : List Lexeme} (first : Reads (.option o) ds xs ys)
      (rest : Reads (.block ss e) ds' ys zs) :
      Reads (.block (.option o :: ss) e) (ds ++ ds') xs zs
  | line {parts : List Part} {hashtags : List Text} {ss : List Statement} {e : BlockEnd}
      {ds : List Declaration} {xs ys zs ws : List Lexeme} (hparts : parts ≠ [])
      (first : ReadsParts parts xs ys) (trail : Trails hashtags ys zs)
      (rest : Reads (.block ss e) ds zs ws) :
      Reads (.block (.line parts 0 hashtags :: ss) e) ds xs ws
  | statement {t : Text} {s : Statement} {ss : List Statement} {e : BlockEnd}
      {ds ds' : List Declaration} {xs ys zs : List Lexeme}
      (first : Reads (.command (.statement s)) ds xs ys) (rest : Reads (.block ss e) ds' ys zs) :
      Reads (.block (s :: ss) e) (ds ++ ds') ((.beginCommand, t) :: xs) zs
  | declaration {t : Text} {ss : List Statement} {e : BlockEnd} {ds ds' : List Declaration}
      {xs ys zs : List Lexeme} (first : Reads (.command .declaration) ds xs ys)
      (rest : Reads (.block ss e) ds' ys zs) :
      Reads (.block ss e) (ds ++ ds') ((.beginCommand, t) :: xs) zs
  | ending {t : Text} {e : BlockEnd} {ds : List Declaration} {xs ys : List Lexeme}
      (only : Reads (.command (.ending e)) ds xs ys) :
      Reads (.block [] e) ds ((.beginCommand, t) :: xs) ys
  | leaf {t : Text} {parts : List Part} {guard : Option Expr} {hashtags : List Text} {x : Lexeme}
      {xs ys zs ws : List Lexeme} (hparts : parts ≠ []) (label : ReadsParts parts xs ys)
      (hguard : ReadsGuard guard ys zs) (trail : Trails hashtags zs (x :: ws)) (hx : x.1 ≠ .indent) :
      Reads (.option ⟨parts, guard, none, 0, hashtags⟩) [] ((.arrow, t) :: xs) (x :: ws)
  | nested {t u : Text} {parts : List Part} {guard : Option Expr} {hashtags : List Text}
      {ss : List Statement} {ds : List Declaration} {xs ys zs ws vs : List Lexeme}
      (hparts : parts ≠ []) (label : ReadsParts parts xs ys) (hguard : ReadsGuard guard ys zs)
      (trail : Trails hashtags zs ((.indent, u) :: ws)) (body : Reads (.block ss .dedent) ds ws vs) :
      Reads (.option ⟨parts, guard, some ss, 0, hashtags⟩) ds ((.arrow, t) :: xs) vs
  | plain {c : Command} {ds : List Declaration} {xs ys : List Lexeme} (h : ReadsPlain c ds xs ys) :
      Reads (.command c) ds xs ys
  | branch {t : Text} {condition : Expr} {body : List Statement} {otherwise : Otherwise}
      {hashtags : List Text} {ds : List Declaration} {xs ys zs ws : List Lexeme}
      (test : ReadsExpr condition xs ys) (close : Closes hashtags ys zs)
      (rest : Reads (.arms body otherwise) ds zs ws) :
      Reads (.command (.statement (.branch condition body otherwise hashtags))) ds
        ((.ifWord, t) :: xs) ws
  | elseif {t : Text} {condition : Expr} {hashtags : List Text} {xs ys zs : List Lexeme}
      (test : ReadsExpr condition xs ys) (close : Closes hashtags ys zs) :
      Reads (.command (.ending (.elseif condition hashtags))) [] ((.elseifWord, t) :: xs) zs
  | otherwise {t : Text} {hashtags : List Text} {xs ys : List Lexeme}
      (close : Closes hashtags xs ys) :
      Reads (.command (.ending .otherwise)) [] ((.elseWord, t) :: xs) ys
  | endif {t : Text} {hashtags : List Text} {xs ys : List Lexeme} (close : Closes hashtags xs ys) :
      Reads (.command (.ending .endif)) [] ((.endifWord, t) :: xs) ys
  | lastArm {ss : List Statement} {ds : List Declaration} {xs ys : List Lexeme}
      (body : Reads (.block ss .endif) ds xs ys) : Reads (.arms ss .nothing) ds xs ys
  | nextArm {condition : Expr} {hashtags : List Text} {ss inner : List Statement}
      {otherwise : Otherwise} {ds ds' : List Declaration} {xs ys zs : List Lexeme}
      (body : Reads (.block ss (.elseif condition hashtags)) ds xs ys)
      (rest : Reads (.arms inner otherwise) ds' ys zs) :
      Reads (.arms ss (.branch condition inner otherwise hashtags)) (ds ++ ds') xs zs
  | elseArm {ss inner : List Statement} {ds ds' : List Declaration} {xs ys zs : List Lexeme}
      (body : Reads (.block ss .otherwise) ds xs ys) (rest : Reads (.block inner .endif) ds' ys zs) :
      Reads (.arms ss (.statements inner)) (ds ++ ds') xs zs

/-! Declarations, in a record and apart from it. -/

def Declaration.unnumbered (d : Declaration) : Declaration :=
  { d with number := 0 }

namespace Declarations

/-- No declaration repeats a variable, unless the record takes none. -/
def Admits (d : Declarations) (new : List Declaration) : Prop :=
  d.locked = true ∨
    (new.map Declaration.name).Nodup ∧ ∀ e ∈ d.entries, ∀ n ∈ new, e.name ≠ n.name

def Grows (d : Declarations) (new : List Declaration) (d' : Declarations) : Prop :=
  ∃ added : List Declaration, added.map Declaration.unnumbered = new ∧
    d' = if d.locked then d else { d with entries := d.entries ++ added }

@[simp] theorem admits_nil (d : Declarations) : d.Admits [] :=
  .inr ⟨List.nodup_nil, by simp⟩

@[simp] theorem grows_nil (d : Declarations) : d.Grows [] d :=
  ⟨[], rfl, by simp⟩

theorem Grows.eq_of_nil {d d' : Declarations} (h : d.Grows [] d') : d' = d := by
  obtain ⟨added, hadded, rfl⟩ := h
  rw [List.map_eq_nil_iff.1 hadded]
  simp

theorem Grows.append {d d' d'' : Declarations} {ds ds' : List Declaration} (h : d.Grows ds d')
    (h' : d'.Grows ds' d'') : d.Grows (ds ++ ds') d'' := by
  obtain ⟨added, hadded, rfl⟩ := h
  obtain ⟨more, hmore, rfl⟩ := h'
  refine ⟨added ++ more, by rw [List.map_append, hadded, hmore], ?_⟩
  cases hlocked : d.locked <;> simp [hlocked]

theorem name_mem_of_unnumbered {added new : List Declaration}
    (h : added.map Declaration.unnumbered = new) :
    added.map Declaration.name = new.map Declaration.name := by
  rw [← h, List.map_map]
  rfl

/-- What a grown record admits is what the record admitted behind the declarations it grew by. -/
theorem Grows.admits_iff {d d' : Declarations} {ds ds' : List Declaration} (h : d.Grows ds d')
    (hds : d.Admits ds) : d.Admits (ds ++ ds') ↔ d'.Admits ds' := by
  obtain ⟨added, hadded, rfl⟩ := h
  have hnames := name_mem_of_unnumbered hadded
  cases hlocked : d.locked with
  | true => simp [Admits, hlocked]
  | false =>
    obtain ⟨hnodup, hold⟩ := hds.resolve_left (by simp [hlocked])
    have hnew : (∀ e ∈ added, ∀ n ∈ ds', e.name ≠ n.name) ↔
        ∀ e ∈ ds, ∀ n ∈ ds', e.name ≠ n.name := by
      have hmem : ∀ ds : List Declaration, (∀ e ∈ ds, ∀ n ∈ ds', e.name ≠ n.name) ↔
          ∀ x ∈ ds.map Declaration.name, ∀ n ∈ ds', x ≠ n.name := by simp
      rw [hmem, hmem, hnames]
    simp only [Admits, hlocked, Bool.false_eq_true, false_or, if_false, List.map_append,
      List.nodup_append, List.mem_append]
    constructor
    · rintro ⟨⟨-, hnodup', hdisjoint⟩, hentries⟩
      refine ⟨hnodup', ?_⟩
      rintro e (he | he) n hn
      · exact hentries e he n (.inr hn)
      · refine hnew.2 ?_ e he n hn
        intro e he n hn
        exact hdisjoint _ (List.mem_map_of_mem he) _ (List.mem_map_of_mem hn)
    · rintro ⟨hnodup', hentries⟩
      refine ⟨⟨hnodup, hnodup', ?_⟩, ?_⟩
      · intro x hx y hy
        obtain ⟨e, he, rfl⟩ := List.mem_map.1 hx
        obtain ⟨n, hn, rfl⟩ := List.mem_map.1 hy
        exact hnew.1 (fun e he n hn => hentries e (.inr he) n hn) e he n hn
      · rintro e he n (hn | hn)
        · exact hold e he n hn
        · exact hentries e (.inl he) n hn

theorem admits_of_append {d : Declarations} {ds ds' : List Declaration} (h : d.Admits (ds ++ ds')) :
    d.Admits ds := by
  rcases h with hlocked | ⟨hnodup, hentries⟩
  · exact .inl hlocked
  · rw [List.map_append, List.nodup_append] at hnodup
    exact .inr ⟨hnodup.1, fun e he n hn => hentries e he n (List.mem_append_left _ hn)⟩

theorem register_eq_ok_iff {d d' : Declarations} {new : Declaration} {span : Span} :
    d.register new span = .ok d' ↔ d.Admits [new.unnumbered] ∧
      d' = if d.locked then d else { d with entries := d.entries ++ [new] } := by
  unfold register
  cases hlocked : d.locked with
  | true => simp [Admits, hlocked, eq_comm]
  | false =>
    by_cases hany : d.entries.any (fun e => e.name == new.name) = true
    · have hnot : ¬ d.Admits [new.unnumbered] := by
        obtain ⟨e, he, hname⟩ := List.any_eq_true.1 hany
        rintro (h | ⟨-, h⟩)
        · simp [hlocked] at h
        · exact h e he _ (List.mem_singleton_self _) (by simpa [Declaration.unnumbered] using hname)
      simp [hany, hnot]
    · have hadmits : d.Admits [new.unnumbered] := by
        refine .inr ⟨by simp, ?_⟩
        intro e he n hn
        rw [List.mem_singleton.1 hn]
        intro hname
        exact hany (List.any_eq_true.2 ⟨e, he, by simpa [Declaration.unnumbered] using hname⟩)
      simp [hany, hadmits, eq_comm]

end Declarations

end Parley.Body
