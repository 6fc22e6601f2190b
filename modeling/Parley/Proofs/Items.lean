import Parley.Proofs.Derivation
set_option autoImplicit false

/-!
Statements as one list of what is written, in the order of the text.

A block opens and ends with an item of its own. Declarations are no items: like comments and line ends
they are passed over where a statement may start. So what holds of some items and the lexemes that they
were read from can be told from left to right, whatever blocks the items are part of.
-/

namespace Parley.Body

/-! Items of statements. -/

inductive Item where
  | statement (s : Statement)
  | option (label : List Part) (guard : Option Expr) (number : Nat) (hashtags : List Text)
  | opens
  | branch (condition : Expr) (hashtags : List Text)
  | ending (e : BlockEnd)

def Item.isOption : Item → Bool
  | .option .. => true
  | _ => false

def BlockEnd.items : BlockEnd → List Item
  | .endOfInput => []
  | e => [.ending e]

mutual

def Statement.items : Statement → List Item
  | .option o => o.items
  | .branch condition body otherwise hashtags =>
    .branch condition hashtags :: (itemsAll body ++ otherwise.items)
  | .line parts number hashtags => [.statement (.line parts number hashtags)]
  | .assign name value number hashtags => [.statement (.assign name value number hashtags)]
  | .command parts number hashtags => [.statement (.command parts number hashtags)]
  | .jump target hashtags => [.statement (.jump target hashtags)]
  | .stop hashtags => [.statement (.stop hashtags)]

def Choice.items : Choice → List Item
  | ⟨label, guard, body, number, hashtags⟩ => .option label guard number hashtags :: itemsBody body

def Otherwise.items : Otherwise → List Item
  | .nothing => [.ending .endif]
  | .statements body => .ending .otherwise :: (itemsAll body ++ [.ending .endif])
  | .branch condition body otherwise hashtags =>
    .ending (.elseif condition hashtags) :: (itemsAll body ++ otherwise.items)

def itemsAll : List Statement → List Item
  | [] => []
  | s :: ss => s.items ++ itemsAll ss

def itemsBody : Option (List Statement) → List Item
  | none => []
  | some body => .opens :: (itemsAll body ++ [.ending .dedent])

end

/-! Items that are read. -/

inductive Item.Reads : Item → List Lexeme → List Lexeme → Prop where
  | line {parts : List Part} {hashtags : List Text} {xs ys zs : List Lexeme} (hparts : parts ≠ [])
      (first : ReadsParts parts xs ys) (trail : Trails hashtags ys zs) :
      Reads (.statement (.line parts 0 hashtags)) xs zs
  | plain {t : Text} {s : Statement} {xs ys : List Lexeme} (h : ReadsPlain (.statement s) [] xs ys) :
      Reads (.statement s) ((.beginCommand, t) :: xs) ys
  | option {t : Text} {label : List Part} {guard : Option Expr} {hashtags : List Text}
      {xs ys zs ws : List Lexeme} (hparts : label ≠ []) (first : ReadsParts label xs ys)
      (hguard : ReadsGuard guard ys zs) (trail : Trails hashtags zs ws) :
      Reads (.option label guard 0 hashtags) ((.arrow, t) :: xs) ws
  | opens {t : Text} {xs : List Lexeme} : Reads .opens ((.indent, t) :: xs) xs
  | branch {t u : Text} {condition : Expr} {hashtags : List Text} {xs ys zs : List Lexeme}
      (test : ReadsExpr condition xs ys) (close : Closes hashtags ys zs) :
      Reads (.branch condition hashtags) ((.beginCommand, t) :: (.ifWord, u) :: xs) zs
  | dedent {t : Text} {xs : List Lexeme} : Reads (.ending .dedent) ((.dedent, t) :: xs) xs
  | elseif {t u : Text} {condition : Expr} {hashtags : List Text} {xs ys zs : List Lexeme}
      (test : ReadsExpr condition xs ys) (close : Closes hashtags ys zs) :
      Reads (.ending (.elseif condition hashtags)) ((.beginCommand, t) :: (.elseifWord, u) :: xs) zs
  | otherwise {t u : Text} {hashtags : List Text} {xs ys : List Lexeme} (close : Closes hashtags xs ys) :
      Reads (.ending .otherwise) ((.beginCommand, t) :: (.elseWord, u) :: xs) ys
  | endif {t u : Text} {hashtags : List Text} {xs ys : List Lexeme} (close : Closes hashtags xs ys) :
      Reads (.ending .endif) ((.beginCommand, t) :: (.endifWord, u) :: xs) ys

/-- Items that are read up to the end of the input, and the declarations among them. A block opens right
behind its option only; the flag tells whether an option was read last. -/
inductive Lists : Bool → List Item → List Declaration → List Lexeme → Prop where
  | done {fresh : Bool} : Lists fresh [] [] [inputEnd]
  | idle {fresh : Bool} {items : List Item} {ds : List Declaration} {x : Lexeme} {xs : List Lexeme}
      (hx : isIdle x.1 = true) (rest : Lists false items ds xs) : Lists fresh items ds (x :: xs)
  | declaration {fresh : Bool} {t : Text} {items : List Item} {ds ds' : List Declaration}
      {xs ys : List Lexeme} (first : ReadsPlain .declaration ds xs ys)
      (rest : Lists false items ds' ys) : Lists fresh items (ds ++ ds') ((.beginCommand, t) :: xs)
  | item {fresh : Bool} {i : Item} {items : List Item} {ds : List Declaration} {xs ys : List Lexeme}
      (hfresh : i = .opens → fresh = true) (first : i.Reads xs ys)
      (rest : Lists i.isOption items ds ys) : Lists fresh (i :: items) ds xs

section Lists

variable {fresh : Bool} {i : Item} {items : List Item} {ds ds' : List Declaration}
  {xs ys : List Lexeme}

theorem Lists.refresh (h : Lists false items ds xs) (fresh : Bool) : Lists fresh items ds xs := by
  cases h with
  | done => exact .done
  | idle hx rest => exact .idle hx rest
  | declaration first rest => exact .declaration first rest
  | item hfresh first rest =>
    exact .item (fun hopens => absurd (hfresh hopens) (by simp)) first rest

theorem Item.Reads.lists (h : i.Reads xs ys) (hi : i ≠ .opens) (rest : Lists i.isOption items ds ys)
    (fresh : Bool) : Lists fresh (i :: items) ds xs :=
  .item (fun hopens => absurd hopens hi) h rest

theorem ReadsPlain.items_eq {s : Statement} (h : ReadsPlain (.statement s) ds xs ys) :
    s.items = [.statement s] ∧ ds = [] := by
  cases h <;> exact ⟨by simp [Statement.items], rfl⟩

theorem not_lists_opens : ¬ Lists false (.opens :: items) ds xs := by
  intro h
  generalize hall : Item.opens :: items = all, hfresh : false = fresh at h
  induction h with
  | done => cases hall
  | idle _ _ ih => exact ih hall rfl
  | declaration _ _ ih => exact ih hall rfl
  | item hopens =>
    obtain ⟨rfl, -⟩ := List.cons.inj hall
    rw [← hfresh] at hopens
    exact absurd (hopens rfl) (by simp)

theorem Lists.of_opens (h : Lists fresh (.opens :: items) ds xs) :
    ∃ t ys, fresh = true ∧ xs = (.indent, t) :: ys ∧ Lists false items ds ys := by
  cases h with
  | idle _ rest => exact absurd rest not_lists_opens
  | declaration _ rest => exact absurd rest not_lists_opens
  | item hfresh first rest =>
    cases first with
    | opens => exact ⟨_, _, hfresh rfl, rfl, rest⟩

theorem Item.Reads.not_indent (h : i.Reads xs ys) (hi : i ≠ .opens) :
    ∃ x rest, xs = x :: rest ∧ x.1 ≠ .indent := by
  cases h with
  | line hparts first =>
    cases first with
    | stop => exact absurd rfl hparts
    | _ => exact ⟨_, _, rfl, by simp⟩
  | opens => exact absurd rfl hi
  | _ => exact ⟨_, _, rfl, by simp⟩

theorem Lists.not_indent (h : Lists fresh items ds xs) (hitems : items.head? ≠ some .opens) :
    ∃ x rest, xs = x :: rest ∧ x.1 ≠ .indent := by
  cases h with
  | done => exact ⟨_, _, rfl, by simp [inputEnd]⟩
  | idle hx =>
    refine ⟨_, _, rfl, fun hindent => ?_⟩
    rw [hindent] at hx
    cases hx
  | declaration => exact ⟨_, _, rfl, by simp⟩
  | item _ first => exact first.not_indent fun hopens => hitems (by rw [hopens]; rfl)

end Lists

/-! Derivations list items. -/

def Passage.items : Passage → List Item
  | .block ss e => itemsAll ss ++ e.items
  | .option o => o.items
  | .command (.statement s) => s.items
  | .command (.ending e) => e.items
  | .command .declaration => []
  | .arms body otherwise => itemsAll body ++ otherwise.items

/-- The lexemes of a passage with the opening token of a command, which the grammar passes on its own. -/
def Passage.opened : Passage → Text → List Lexeme → List Lexeme
  | .command _, t, xs => (.beginCommand, t) :: xs
  | _, _, xs => xs

theorem Passage.Reads.lists {p : Passage} {ds ds' : List Declaration} {xs ys : List Lexeme}
    {items : List Item} (h : p.Reads ds xs ys) (t : Text) (fresh : Bool)
    (hys : Lists false items ds' ys) : Lists fresh (p.items ++ items) (ds ++ ds') (p.opened t xs) := by
  induction h generalizing t fresh items ds' with
  | idle hx _ ih => exact .idle hx (ih t false hys)
  | inputEnd => exact hys.refresh fresh
  | dedent => exact .item (by simp) .dedent hys
  | option _ _ ihfirst ihrest =>
    have hfirst := ihfirst t fresh (ihrest t false hys)
    simpa [Passage.items, Passage.opened, itemsAll, Statement.items] using hfirst
  | line hparts first trail _ ih =>
    have hall := (Item.Reads.line hparts first trail).lists (by simp) (ih t false hys) fresh
    simpa [Passage.items, Passage.opened, itemsAll, Statement.items] using hall
  | @statement u _ _ _ _ _ _ _ _ _ _ ihfirst ihrest =>
    have hfirst := ihfirst u fresh (ihrest t false hys)
    simpa [Passage.items, Passage.opened, itemsAll] using hfirst
  | @declaration u _ _ _ _ _ _ _ _ _ ihfirst ihrest =>
    have hfirst := ihfirst u fresh (ihrest t false hys)
    simpa [Passage.items, Passage.opened, itemsAll] using hfirst
  | @ending u _ _ _ _ _ ih => simpa [Passage.items, Passage.opened, itemsAll] using ih u fresh hys
  | @leaf u _ _ _ _ _ _ _ _ hparts label hguard trail =>
    have hoption := Item.Reads.option (t := u) hparts label hguard trail
    have hall := hoption.lists (by simp) (hys.refresh true) fresh
    simpa [Passage.items, Passage.opened, Choice.items, itemsBody] using hall
  | @nested u _ _ _ _ _ _ _ _ _ _ _ hparts label hguard trail _ ih =>
    have hoption := Item.Reads.option (t := u) hparts label hguard trail
    have hall := hoption.lists (by simp) (.item (fun _ => rfl) .opens (ih t false hys)) fresh
    simpa [Passage.items, Passage.opened, Choice.items, itemsBody, BlockEnd.items] using hall
  | @plain c _ _ _ h =>
    cases c with
    | statement s =>
      obtain ⟨hitems, rfl⟩ := h.items_eq
      simpa [Passage.items, Passage.opened, hitems] using (Item.Reads.plain h).lists (by simp) hys fresh
    | declaration => exact .declaration h hys
    | ending => cases h
  | @branch u _ _ _ _ _ _ _ _ _ test close _ ih =>
    have hbranch := Item.Reads.branch (t := t) (u := u) test close
    have hall := hbranch.lists (by simp) (ih t false hys) fresh
    simpa [Passage.items, Passage.opened, Statement.items] using hall
  | elseif test close => exact .item (by simp) (.elseif test close) hys
  | otherwise close => exact .item (by simp) (.otherwise close) hys
  | endif close => exact .item (by simp) (.endif close) hys
  | lastArm _ ih =>
    simpa [Passage.items, Passage.opened, Otherwise.items, BlockEnd.items] using ih t fresh hys
  | nextArm _ _ ihbody ihrest =>
    have hrest := ihrest t false hys
    simpa [Passage.items, Passage.opened, Otherwise.items, BlockEnd.items] using ihbody t fresh hrest
  | elseArm _ _ ihbody ihrest =>
    have hrest := ihrest t false hys
    simpa [Passage.items, Passage.opened, Otherwise.items, BlockEnd.items] using ihbody t fresh hrest

/-! Items make up statements. -/

section Lists

variable {fresh : Bool} {i : Item} {items : List Item} {ds : List Declaration} {xs : List Lexeme}

/-- What stands in front of an item may stand in front of every block. -/
theorem Lists.uncons (h : Lists fresh (i :: items) ds xs) :
    ∃ ds₁ ds₂ ys zs, ds = ds₁ ++ ds₂ ∧ i.Reads ys zs ∧ Lists i.isOption items ds₂ zs ∧
      ∀ {ss e ds' ws}, (Passage.block ss e).Reads ds' ys ws →
        (Passage.block ss e).Reads (ds₁ ++ ds') xs ws := by
  generalize hall : i :: items = all at h
  induction h with
  | done => cases hall
  | idle hx _ ih =>
    obtain ⟨ds₁, ds₂, ys, zs, rfl, hitem, hrest, hblock⟩ := ih hall
    exact ⟨ds₁, ds₂, ys, zs, rfl, hitem, hrest, fun h => .idle hx (hblock h)⟩
  | declaration first _ ih =>
    obtain ⟨ds₁, ds₂, ys, zs, rfl, hitem, hrest, hblock⟩ := ih hall
    refine ⟨_ ++ ds₁, ds₂, ys, zs, (List.append_assoc ..).symm, hitem, hrest, fun h => ?_⟩
    rw [List.append_assoc]
    exact .declaration (.plain first) (hblock h)
  | item _ first rest =>
    obtain ⟨rfl, rfl⟩ := List.cons.inj hall
    exact ⟨[], _, _, _, rfl, first, rest, fun h => h⟩

theorem Lists.reads_inputEnd (h : Lists fresh [] ds xs) :
    (Passage.block [] .endOfInput).Reads ds xs [inputEnd] := by
  generalize hall : [] = items at h
  induction h with
  | done => exact .inputEnd
  | idle hx _ ih => exact .idle hx (ih hall)
  | declaration first _ ih => exact .declaration (.plain first) (ih hall)
  | item => cases hall

theorem Lists.reads_ending {e : BlockEnd} (h : Lists fresh (.ending e :: items) ds xs) :
    ∃ ds₁ ds₂ ys, ds = ds₁ ++ ds₂ ∧ (Passage.block [] e).Reads ds₁ xs ys ∧
      Lists false items ds₂ ys := by
  obtain ⟨ds₁, ds₂, ys, zs, rfl, hitem, hrest, hblock⟩ := h.uncons
  refine ⟨ds₁ ++ [], ds₂, zs, by simp, hblock ?_, hrest⟩
  cases hitem with
  | dedent => exact .dedent
  | elseif test close => exact .ending (.elseif test close)
  | otherwise close => exact .ending (.otherwise close)
  | endif close => exact .ending (.endif close)

end Lists

/-- Some items are read as a passage, and what is left as the items behind it. -/
def Passage.Makes (p : Passage) (items : List Item) : Prop :=
  ∀ fresh ds xs, Lists fresh (p.items ++ items) ds xs →
    ∃ ds₁ ds₂ ys, ds = ds₁ ++ ds₂ ∧ p.Reads ds₁ xs ys ∧ Lists false items ds₂ ys

section Makes

variable {s : Statement} {ss body inner : List Statement} {e : BlockEnd} {otherwise : Otherwise}
  {condition : Expr} {label : List Part} {guard : Option Expr} {number : Nat} {hashtags : List Text}
  {items : List Item}

theorem makes_ending (hend : e = .endOfInput → items = []) : (Passage.block [] e).Makes items := by
  intro fresh ds xs h
  cases e with
  | endOfInput =>
    obtain rfl := hend rfl
    have hblock := Lists.reads_inputEnd (by simpa [Passage.items, itemsAll, BlockEnd.items] using h)
    exact ⟨ds, [], _, by simp, hblock, .done⟩
  | _ => exact Lists.reads_ending (by simpa [Passage.items, itemsAll, BlockEnd.items] using h)

theorem Passage.Makes.cons (rest : (Passage.block ss e).Makes items)
    (hs : s.items = [.statement s]) : (Passage.block (s :: ss) e).Makes items := by
  intro fresh ds xs h
  simp only [Passage.items, itemsAll, hs, List.cons_append, List.nil_append] at h
  obtain ⟨ds₁, ds₂, ys, zs, rfl, hitem, hrest, hblock⟩ := h.uncons
  obtain ⟨ds₃, ds₄, ws, rfl, hread, hlast⟩ := rest _ _ _ hrest
  refine ⟨ds₁ ++ ds₃, ds₄, ws, by simp, hblock ?_, hlast⟩
  cases hitem with
  | line hparts first trail => exact .line hparts first trail hread
  | plain hplain => exact .statement (.plain hplain) hread

theorem head?_items (hend : e = .endOfInput → items = []) :
    ((Passage.block ss e).items ++ items).head? ≠ some .opens := by
  cases ss with
  | nil =>
    cases e with
    | endOfInput => simp [Passage.items, itemsAll, BlockEnd.items, hend]
    | _ => simp [Passage.items, itemsAll, BlockEnd.items]
  | cons s ss =>
    cases s with
    | option o => cases o; simp [Passage.items, itemsAll, Statement.items, Choice.items]
    | _ => simp [Passage.items, itemsAll, Statement.items]

theorem Passage.Makes.leaf (rest : (Passage.block ss e).Makes items)
    (hend : e = .endOfInput → items = []) :
    (Passage.block (.option ⟨label, guard, none, number, hashtags⟩ :: ss) e).Makes items := by
  intro fresh ds xs h
  simp only [Passage.items, itemsAll, Statement.items, Choice.items, itemsBody, List.cons_append,
    List.nil_append] at h
  obtain ⟨ds₁, ds₂, ys, zs, rfl, hitem, hrest, hblock⟩ := h.uncons
  obtain ⟨ds₃, ds₄, ws, rfl, hread, hlast⟩ := rest _ _ _ hrest
  obtain ⟨x, tail, rfl, hx⟩ := Lists.not_indent hrest (head?_items hend)
  refine ⟨ds₁ ++ ([] ++ ds₃), ds₄, ws, by simp, hblock ?_, hlast⟩
  cases hitem with
  | option hparts first hguard trail => exact .option (.leaf hparts first hguard trail hx) hread

theorem Passage.Makes.nested (rest : (Passage.block ss e).Makes items)
    (inside : ∀ items, (Passage.block body .dedent).Makes items) :
    (Passage.block (.option ⟨label, guard, some body, number, hashtags⟩ :: ss) e).Makes items := by
  intro fresh ds xs h
  simp only [Passage.items, itemsAll, Statement.items, Choice.items, itemsBody, List.cons_append,
    List.append_assoc] at h
  obtain ⟨ds₁, ds₂, ys, zs, rfl, hitem, hrest, hblock⟩ := h.uncons
  obtain ⟨t, us, -, rfl, hopened⟩ := hrest.of_opens
  obtain ⟨ds₃, ds₄, vs, rfl, hbody, hbehind⟩ := inside ((Passage.block ss e).items ++ items)
    _ _ _ (by simpa [Passage.items, BlockEnd.items] using hopened)
  obtain ⟨ds₅, ds₆, ws, rfl, hread, hlast⟩ := rest _ _ _ hbehind
  refine ⟨ds₁ ++ (ds₃ ++ ds₅), ds₆, ws, by simp, hblock ?_, hlast⟩
  cases hitem with
  | option hparts first hguard trail =>
    exact .option (.nested hparts first hguard trail hbody) hread

theorem Passage.Makes.branch (rest : (Passage.block ss e).Makes items)
    (inside : ∀ items, (Passage.arms body otherwise).Makes items) :
    (Passage.block (.branch condition body otherwise hashtags :: ss) e).Makes items := by
  intro fresh ds xs h
  simp only [Passage.items, itemsAll, Statement.items, List.cons_append, List.append_assoc] at h
  obtain ⟨ds₁, ds₂, ys, zs, rfl, hitem, hrest, hblock⟩ := h.uncons
  obtain ⟨ds₃, ds₄, vs, rfl, harms, hbehind⟩ := inside ((Passage.block ss e).items ++ items)
    _ _ _ (by simpa [Passage.items] using hrest)
  obtain ⟨ds₅, ds₆, ws, rfl, hread, hlast⟩ := rest _ _ _ hbehind
  refine ⟨ds₁ ++ (ds₃ ++ ds₅), ds₆, ws, by simp, hblock ?_, hlast⟩
  cases hitem with
  | branch test close => exact .statement (.branch test close harms) hread

theorem makes_lastArm (inside : (Passage.block body .endif).Makes items) :
    (Passage.arms body .nothing).Makes items := by
  intro fresh ds xs h
  obtain ⟨ds₁, ds₂, ys, rfl, hread, hlast⟩ := inside _ _ _
    (by simpa [Passage.items, Otherwise.items, BlockEnd.items] using h)
  exact ⟨ds₁, ds₂, ys, rfl, .lastArm hread, hlast⟩

theorem makes_nextArm (inside : ∀ items, (Passage.block body (.elseif condition hashtags)).Makes items)
    (rest : (Passage.arms inner otherwise).Makes items) :
    (Passage.arms body (.branch condition inner otherwise hashtags)).Makes items := by
  intro fresh ds xs h
  obtain ⟨ds₁, ds₂, ys, rfl, hbody, hbehind⟩ := inside ((Passage.arms inner otherwise).items ++ items)
    _ _ _ (by simpa [Passage.items, Otherwise.items, BlockEnd.items] using h)
  obtain ⟨ds₃, ds₄, zs, rfl, hread, hlast⟩ := rest _ _ _ hbehind
  exact ⟨ds₁ ++ ds₃, ds₄, zs, by simp, .nextArm hbody hread, hlast⟩

theorem makes_elseArm (inside : ∀ items, (Passage.block body .otherwise).Makes items)
    (rest : (Passage.block inner .endif).Makes items) :
    (Passage.arms body (.statements inner)).Makes items := by
  intro fresh ds xs h
  obtain ⟨ds₁, ds₂, ys, rfl, hbody, hbehind⟩ := inside ((Passage.block inner .endif).items ++ items)
    _ _ _ (by simpa [Passage.items, Otherwise.items, BlockEnd.items] using h)
  obtain ⟨ds₃, ds₄, zs, rfl, hread, hlast⟩ := rest _ _ _ hbehind
  exact ⟨ds₁ ++ ds₃, ds₄, zs, by simp, .elseArm hbody hread, hlast⟩

end Makes

mutual

theorem makes_block : ∀ (ss : List Statement) {e : BlockEnd} {items : List Item},
    (e = .endOfInput → items = []) → (Passage.block ss e).Makes items
  | [], _, _, hend => makes_ending hend
  | .option ⟨_, _, none, _, _⟩ :: ss, _, _, hend => (makes_block ss hend).leaf hend
  | .option ⟨_, _, some body, _, _⟩ :: ss, _, _, hend =>
    (makes_block ss hend).nested fun _ => makes_block body (by simp)
  | .branch _ body otherwise _ :: ss, _, _, hend =>
    (makes_block ss hend).branch fun _ => makes_arms otherwise fun hend => makes_block body hend
  | .line .. :: ss, _, _, hend => (makes_block ss hend).cons (by simp [Statement.items])
  | .assign .. :: ss, _, _, hend => (makes_block ss hend).cons (by simp [Statement.items])
  | .command .. :: ss, _, _, hend => (makes_block ss hend).cons (by simp [Statement.items])
  | .jump .. :: ss, _, _, hend => (makes_block ss hend).cons (by simp [Statement.items])
  | .stop _ :: ss, _, _, hend => (makes_block ss hend).cons (by simp [Statement.items])

theorem makes_arms : ∀ (otherwise : Otherwise) {body : List Statement} {items : List Item},
    (∀ {e : BlockEnd} {items : List Item}, (e = .endOfInput → items = []) →
      (Passage.block body e).Makes items) → (Passage.arms body otherwise).Makes items
  | .nothing, _, _, inside => makes_lastArm (inside (by simp))
  | .statements inner, _, _, inside =>
    makes_elseArm (fun _ => inside (by simp)) (makes_block inner (by simp))
  | .branch _ inner otherwise _, _, _, inside =>
    makes_nextArm (fun _ => inside (by simp)) (makes_arms otherwise fun hend => makes_block inner hend)

end

/-- What is derived from lexemes are the items that they list, put together to statements. -/
theorem derives_iff_lists {xs : List Lexeme} {ss : List Statement} {ds : List Declaration} :
    Derives xs ss ds ↔ Lists false (itemsAll ss) ds (xs ++ [inputEnd]) := by
  constructor
  · intro h
    simpa [Passage.items, Passage.opened, BlockEnd.items] using Passage.Reads.lists h [] false .done
  · intro h
    have hmakes : (Passage.block ss .endOfInput).Makes [] := makes_block ss fun _ => rfl
    obtain ⟨ds₁, ds₂, ys, rfl, hread, hlast⟩ := hmakes _ _ _
      (by simpa [Passage.items, BlockEnd.items] using h)
    obtain ⟨t, zs, rfl⟩ := hread.inputEnd_of_block
    cases hlast with
    | done =>
      rw [List.append_nil]
      exact hread
    | idle hx => cases hx

end Parley.Body
