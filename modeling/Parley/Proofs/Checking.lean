import Parley.Play.Conversation
import Parley.Proofs.Loading
import Parley.Proofs.Suspension
set_option autoImplicit false

/-!
Checking a script and playing it agree.

A check parses every body once, with a sealed record. A playthrough parses a body whenever it enters a
node, and its record is sealed then, so that it finds what the check found.
-/

namespace Parley.Body

def Otherwise.arms : Otherwise → List (List Statement)
  | .nothing => []
  | .statements body => [body]
  | .branch _ body otherwise _ => body :: otherwise.arms

/-- What comes up while a list of statements is done: all that is left of it at some point, and of the
arms and the options in it. -/
inductive Occurs (whole : List Statement) : List Statement → Prop
  | whole : Occurs whole whole
  | rest {s : Statement} {rest : List Statement} (h : Occurs whole (s :: rest)) : Occurs whole rest
  | arm {condition : Expr} {body : List Statement} {otherwise : Otherwise} {hashtags : List Text}
      {rest arm : List Statement} (h : Occurs whole (.branch condition body otherwise hashtags :: rest))
      (ha : arm ∈ (Otherwise.branch condition body otherwise hashtags).arms) : Occurs whole arm
  | option {o : Choice} {rest body : List Statement} (h : Occurs whole (.option o :: rest))
      (hb : o.body = some body) : Occurs whole body

theorem Occurs.append {whole given rest : List Statement} (h : Occurs whole (given ++ rest)) :
    Occurs whole rest := by
  induction given with
  | nil => exact h
  | cons s given ih => exact ih h.rest

end Parley.Body

namespace Parley.Play

open Body Script

def Offers (whole : List Statement) (o : Choice) : Prop :=
  ∃ rest, Occurs whole (.option o :: rest)

theorem offers_of_occurs {whole rest : List Statement} {options : List Choice}
    (h : Occurs whole (options.map .option ++ rest)) : ∀ o ∈ options, Offers whole o := by
  induction options with
  | nil => simp
  | cons o options ih =>
    rw [List.forall_mem_cons]
    exact ⟨⟨_, h⟩, ih h.rest⟩

def Position.Tells (parsed : Table (List Statement)) (here : Position) : Prop :=
  ∃ statements, parsed.get? here.origin.title = some statements ∧
    ∀ list ∈ here.lists, Occurs statements list

/-- A run has nothing in front of it but what was parsed for the node it is in, and options that wait for
a selection were parsed for the node as well. -/
def Run.Tells (parsed : Table (List Statement)) (r : Run) : Prop :=
  ∃ statements, parsed.get? r.origin.title = some statements ∧
    (∀ list ∈ r.position.lists, Occurs statements list) ∧
    ∀ options, r.awaiting = some options → ∀ o ∈ options, Offers statements o

theorem Run.Tells.position {parsed : Table (List Statement)} {r : Run} (h : r.Tells parsed) :
    r.position.Tells parsed := by
  obtain ⟨statements, hget, hlists, -⟩ := h
  exact ⟨statements, hget, hlists⟩

theorem Position.Tells.run {parsed : Table (List Statement)} {r : Run} (h : r.position.Tells parsed)
    (ha : r.awaiting = none) : r.Tells parsed := by
  obtain ⟨statements, hget, hlists⟩ := h
  exact ⟨statements, hget, hlists, by simp [ha]⟩

def checked (node : Node) : Except Error (Text × List Statement) := do
  return (node.title, ← (parse node.body .sealed).1.mapError .parsing)

theorem checked_eq_ok {node : Node} {x : Text × List Statement} (h : checked node = .ok x) :
    x.1 = node.title ∧ (parse node.body .sealed).1 = .ok x.2 := by
  obtain ⟨statements, hs, h⟩ := exists_of_bind_eq_ok h
  cases h
  cases hp : (parse node.body .sealed).1 with
  | error e => simp [hp, Except.mapError] at hs
  | ok found =>
    rw [hp] at hs
    cases hs
    exact ⟨rfl, rfl⟩

theorem checked_eq_error {node : Node} {err : Error} (h : checked node = .error err) :
    ∃ e, err = .parsing e ∧ (parse node.body .sealed).1 = .error e := by
  rcases error_of_bind_eq_error h with h | ⟨statements, -, h⟩
  · obtain ⟨e, hparse, rfl⟩ := error_of_mapError_eq_error h
    exact ⟨e, rfl, hparse⟩
  · cases h

theorem find?_checked {nodes : List Node} {parsed : Table (List Statement)}
    (h : nodes.mapM checked = .ok parsed) (title : Text) :
    nodes.find? (fun n => n.title == title) = none ∧ parsed.get? title = none ∨
      ∃ node statements, nodes.find? (fun n => n.title == title) = some node ∧
        parsed.get? title = some statements ∧ (parse node.body .sealed).1 = .ok statements := by
  induction nodes generalizing parsed with
  | nil =>
    cases h
    exact .inl ⟨rfl, rfl⟩
  | cons node nodes ih =>
    rw [List.mapM_cons] at h
    obtain ⟨⟨name, statements⟩, hnode, h⟩ := exists_of_bind_eq_ok h
    obtain ⟨rest, hrest, h⟩ := exists_of_bind_eq_ok h
    cases h
    obtain ⟨rfl, hparse⟩ := checked_eq_ok hnode
    by_cases htitle : node.title = title
    · refine .inr ⟨node, statements, List.find?_cons_of_pos (by simpa using htitle), ?_, hparse⟩
      exact if_pos htitle
    · have hfind : (node :: nodes).find? (fun n => n.title == title) =
          nodes.find? fun n => n.title == title := List.find?_cons_of_neg (by simpa using htitle)
      have hget : Table.get? ((node.title, statements) :: rest) title = Table.get? rest title :=
        if_neg htitle
      rw [hfind, hget]
      exact ih hrest

namespace Playthrough

/-- Entering a title opens the statements that were parsed for it. -/
def Opens (p : Playthrough) (title : Text) : Option (List Statement) → Prop
  | none => p.enter title = .error (.unknownNode title)
  | some statements =>
    ∃ node, node.title = title ∧ p.enter title = .ok (p.entered node .sealed, opened node statements)

structure Tells (parsed : Table (List Statement)) (p : Playthrough) : Prop where
  opens : ∀ title, p.Opens title (parsed.get? title)
  running : ∀ r, p.run = some r → r.Tells parsed

structure Plays (nodes : List Node) (parsed : Table (List Statement)) (p : Playthrough) : Prop where
  nodes_eq : p.nodes = nodes
  locked : p.declared = .sealed
  running : ∀ r, p.run = some r → r.Tells parsed

section Playing

variable {nodes : List Node} {parsed : Table (List Statement)} {p q : Playthrough}

theorem node?_checked (hparsed : nodes.mapM checked = .ok parsed) (hnodes : p.nodes = nodes)
    (title : Text) :
    p.node? title = none ∧ parsed.get? title = none ∨
      ∃ node statements, p.node? title = some node ∧ node.title = title ∧
        parsed.get? title = some statements ∧ (parse node.body .sealed).1 = .ok statements := by
  subst hnodes
  rcases find?_checked hparsed title with hnone | ⟨node, statements, hfind, hget, hparse⟩
  · exact .inl hnone
  · exact .inr ⟨node, statements, hfind, by simpa using List.find?_some hfind, hget, hparse⟩

theorem Plays.opens (h : Plays nodes parsed p) (hparsed : nodes.mapM checked = .ok parsed)
    (title : Text) : p.Opens title (parsed.get? title) := by
  rcases node?_checked hparsed h.nodes_eq title with ⟨hn, hget⟩ | ⟨node, statements, hn, ht, hget, hparse⟩
  · rw [hget, Opens, enter, hn]
  · have hfull : parse node.body p.declared = (.ok statements, .sealed) := by
      rw [h.locked]
      exact Prod.ext hparse (parse_sealed node.body)
    rw [hget]
    refine ⟨node, ht, ?_⟩
    rw [enter, hn]
    simp only [hfull]
    rfl

theorem not_barred (hparsed : nodes.mapM checked = .ok parsed) (hnodes : p.nodes = nodes)
    (hlocked : p.declared = .sealed) {title : Text} {e : ParseError} :
    ¬ p.Barred title (.malformed e) := by
  intro h
  cases h with
  | malformed hn hp =>
    rcases node?_checked hparsed hnodes title with ⟨hn', -⟩ | ⟨node, statements, hn', -, -, hparse⟩
    · simp [hn] at hn'
    · rw [hn, Option.some.injEq] at hn'
      subst hn'
      rw [hlocked, hparse] at hp
      cases hp

theorem not_malformed (hparsed : nodes.mapM checked = .ok parsed) (hnodes : p.nodes = nodes)
    (hlocked : p.declared = .sealed) {e : ParseError} : ¬ Cause p (.malformed e) := by
  intro h
  cases h with
  | barred h => exact not_barred hparsed hnodes hlocked h

theorem opened_tells (hparsed : nodes.mapM checked = .ok parsed) (h : Plays nodes parsed p)
    {title : Text} {node : Node} {statements : List Statement} {declared : Declarations}
    (hn : p.node? title = some node) (hp : parse node.body p.declared = (.ok statements, declared)) :
    (opened node statements).Tells parsed := by
  rcases node?_checked hparsed h.nodes_eq title with ⟨hn', -⟩ | ⟨node', found, hn', rfl, hget, hparse⟩
  · simp [hn] at hn'
  · rw [hn, Option.some.injEq] at hn'
    subst hn'
    rw [h.locked] at hp
    rw [hp] at hparse
    cases hparse
    exact ⟨statements, hget, by simp [opened, Run.position, Frame.left, Occurs.whole], by simp [opened]⟩

theorem selectArm_mem {o : Otherwise} {arm : List Statement} (h : p.selectArm o = .ok (some arm)) :
    arm ∈ o.arms := by
  cases o with
  | nothing => cases h
  | statements body =>
    cases h
    exact List.mem_singleton.2 rfl
  | branch condition body otherwise hashtags =>
    obtain ⟨v, -, h⟩ := exists_of_bind_eq_ok h
    split at h
    · cases h
      exact List.mem_cons_self
    · exact List.mem_cons_of_mem body (selectArm_mem h)

theorem Plays.does (h : Plays nodes parsed p) (hparsed : nodes.mapM checked = .ok parsed)
    {here there : Position} {s : Statement} (hd : Does p here s q there) (hhere : here.Tells parsed) :
    there.Tells parsed := by
  cases hd with
  | assign hv hk =>
    obtain ⟨statements, hget, hlists⟩ := hhere
    rw [List.forall_mem_cons] at hlists
    exact ⟨statements, hget, List.forall_mem_cons.2 ⟨hlists.1.rest, hlists.2⟩⟩
  | branch ha =>
    obtain ⟨statements, hget, hlists⟩ := hhere
    rw [List.forall_mem_cons] at hlists
    refine ⟨statements, hget, ?_⟩
    rw [List.forall_mem_append, List.forall_mem_cons]
    refine ⟨?_, hlists.1.rest, hlists.2⟩
    intro arm harm
    rw [Option.mem_toList] at harm
    subst harm
    exact hlists.1.arm (selectArm_mem ha)
  | jump ht hn hp => exact (opened_tells hparsed h hn hp).position

theorem Plays.chooses {r : Run} {options : List Choice} {index : Nat} (hr : r.Tells parsed)
    (ha : r.awaiting = some options) (hi : index < options.length) :
    (Run.choose r options index).Tells parsed := by
  obtain ⟨statements, hget, hlists, hoptions⟩ := hr
  obtain ⟨o, ho⟩ : ∃ o, options[index]? = some o := ⟨_, List.getElem?_eq_getElem hi⟩
  obtain ⟨rest, hoption⟩ := hoptions options ha o (List.mem_of_getElem? ho)
  refine Position.Tells.run ?_ (Run.choose_awaiting r options index)
  rw [choose_position ho]
  refine ⟨statements, hget, ?_⟩
  rw [List.forall_mem_append]
  refine ⟨?_, hlists⟩
  intro body hbody
  rw [Option.mem_toList] at hbody
  exact hoption.option hbody

theorem Turn.plays (hparsed : nodes.mapM checked = .ok parsed) (h : Turn p q)
    (hp : Plays nodes parsed p) : Plays nodes parsed q where
  nodes_eq := h.nodes_eq.trans hp.nodes_eq
  locked := h.locked hp.locked
  running := by
    cases h with
    | chooses hr ha hi =>
      intro u hu
      cases hu
      exact Plays.chooses (hp.running _ hr) ha hi
    | steps hr hs =>
      intro u hu
      have hpos := (hp.running _ hr).position
      cases hs with
      | gathers hto ha =>
        cases hu
        exact Position.Tells.run (hto ▸ hpos) ha
      | closes hfrom hto ha =>
        cases hu
        rw [hfrom] at hpos
        obtain ⟨statements, hget, hlists⟩ := hpos
        refine Position.Tells.run ?_ ha
        rw [hto]
        exact ⟨statements, hget, (List.forall_mem_cons.1 hlists).2⟩
      | does hfrom hd ha =>
        cases hu
        exact (hp.does hparsed hd (hfrom ▸ hpos)).run ha
      | gives hfrom hto ha =>
        cases hu
        rw [hfrom] at hpos
        obtain ⟨statements, hget, hlists⟩ := hpos
        rw [List.forall_mem_cons] at hlists
        have horigin := congrArg Position.origin hto
        refine ⟨statements, ?_, ?_, ?_⟩
        · exact (congrArg (fun o => parsed.get? o.title) horigin).trans hget
        · rw [hto]
          exact List.forall_mem_cons.2 ⟨hlists.1.append, hlists.2⟩
        · intro options hoptions
          rw [ha options hoptions] at hlists
          exact offers_of_occurs hlists.1
      | ends => cases hu

theorem serve_plays (hparsed : nodes.mapM checked = .ok parsed) {x : Request} (hx : x.plays = true)
    (hp : Plays nodes parsed p) : Plays nodes parsed (p.serve x).2 := by
  cases x with
  | start title =>
    rcases p.start_cases title with ⟨e, -, hstart⟩ | ⟨node, statements, declared, hn, hparse, hstart⟩
    · simp only [serve, hstart]
      exact ⟨hp.nodes_eq, hp.locked, by simp⟩
    · simp only [serve, hstart]
      have htells := opened_tells hparsed hp hn hparse
      rw [hp.locked] at hparse
      refine ⟨hp.nodes_eq, sealed_of_parse hparse, ?_⟩
      intro r hr
      cases hr
      exact htells
  | advance fuel s => exact turns_invariant (Turn.plays hparsed) (advance_turns fuel s p) hp
  | _ => cases hx

theorem serve_not_malformed (hparsed : nodes.mapM checked = .ok parsed) {x : Request}
    (hx : x.plays = true) (hp : Plays nodes parsed p) (e : ParseError) :
    (p.serve x).1.error? ≠ some (.malformed e) := by
  intro herror
  cases x with
  | start title =>
    rcases p.start_cases title with ⟨err, henter, hstart⟩ | ⟨node, statements, declared, -, -, hstart⟩
    · simp only [serve, hstart, Reply.error?, Option.some.injEq] at herror
      subst herror
      exact not_barred hparsed hp.nodes_eq hp.locked (enter_eq_error henter)
    · simp [serve, hstart, Reply.error?] at herror
  | advance fuel s =>
    have hfailed : (p.advance fuel s).1 = .failed (.malformed e) := by
      revert herror
      simp only [serve]
      cases (p.advance fuel s).1 <;> simp [Reply.error?]
    have hcall : p.advance fuel s = (.failed (.malformed e), (p.advance fuel s).2) :=
      Prod.ext hfailed rfl
    rcases advance_eq_failed hcall with ⟨hrefusal, -⟩ | ⟨-, here, -, hsuspended⟩
    · cases hrefusal
    · obtain ⟨statements, q, u, -, hfails, -, hq, -⟩ := hsuspended
      -- The playthrough that is left behind differs from `q` in its run only.
      have hleft : Plays nodes parsed (p.advance fuel s).2 := serve_plays hparsed hx hp
      rw [hq] at hleft
      have hnodes : q.nodes = nodes := hleft.nodes_eq
      exact not_malformed hparsed hnodes hleft.locked hfails.cause
  | _ => cases hx

theorem replies_not_malformed (hparsed : nodes.mapM checked = .ok parsed) {requests : List Request}
    (hplays : ∀ x ∈ requests, x.plays = true) (hp : Plays nodes parsed p) :
    ∀ reply ∈ p.replies requests, ∀ e, reply.error? ≠ some (.malformed e) := by
  induction requests generalizing p with
  | nil => simp [replies]
  | cons x xs ih =>
    rw [List.forall_mem_cons] at hplays
    rw [replies, List.forall_mem_cons]
    exact ⟨serve_not_malformed hparsed hplays.1 hp, ih hplays.2 (serve_plays hparsed hplays.1 hp)⟩

theorem after_tells (hparsed : nodes.mapM checked = .ok parsed) {requests : List Request}
    (hplays : ∀ x ∈ requests, x.plays = true) (hp : Plays nodes parsed p) :
    Tells parsed (p.after requests) := by
  have hafter : Plays nodes parsed (p.after requests) :=
    after_invariant (fun x => x.plays = true) (serve_plays hparsed) hplays hp
  exact ⟨hafter.opens hparsed, hafter.running⟩

end Playing

theorem check_eq (script : Text) : check script = match split script with
    | .error e => .error (.splitting e)
    | .ok nodes =>
      match (empty.load nodes).1 with
      | .error e => .error (.loading e)
      | .ok () => nodes.mapM checked := by
  unfold check
  cases split script with
  | error e => rfl
  | ok nodes =>
    show ((empty.load nodes).1.mapError .loading >>= fun _ => nodes.mapM checked) =
      match (empty.load nodes).1 with
      | .error e => .error (.loading e)
      | .ok () => nodes.mapM checked
    cases (empty.load nodes).1 <;> rfl

theorem load_of_check {script : Text} {parsed : Table (List Statement)}
    (h : check script = .ok parsed) :
    ∃ nodes p, empty.loadScript script = (.ok (), p) ∧ empty.load nodes = (.ok (), p) ∧
      nodes.mapM checked = .ok parsed := by
  rw [check_eq] at h
  cases hsplit : split script with
  | error e =>
    rw [hsplit] at h
    cases h
  | ok nodes =>
    rw [hsplit] at h
    dsimp only at h
    cases hload : (empty.load nodes).1 with
    | error e =>
      rw [hload] at h
      cases h
    | ok =>
      rw [hload] at h
      have hfull : empty.load nodes = (.ok (), (empty.load nodes).2) := Prod.ext hload rfl
      refine ⟨nodes, (empty.load nodes).2, ?_, hfull, h⟩
      rw [loadScript, hsplit]
      exact hfull

theorem check_of_loadScript {script : Text} {p : Playthrough}
    (h : empty.loadScript script = (.ok (), p)) :
    ∃ nodes, empty.load nodes = (.ok (), p) ∧ check script = nodes.mapM checked := by
  rw [loadScript] at h
  cases hsplit : split script with
  | error e =>
    rw [hsplit] at h
    cases h
  | ok nodes =>
    rw [hsplit] at h
    dsimp only at h
    refine ⟨nodes, h, ?_⟩
    rw [check_eq, hsplit]
    dsimp only
    rw [h]

theorem gains_of_load {nodes : List Node} {p : Playthrough} (h : empty.load nodes = (.ok (), p)) :
    Gains empty nodes p := by
  have hgains := (load_gains orderly_empty.locked nodes).all
  rw [h] at hgains
  exact hgains rfl

theorem plays_of_load {nodes : List Node} {parsed : Table (List Statement)} {p : Playthrough}
    (h : empty.load nodes = (.ok (), p)) : Plays nodes parsed p := by
  have hgains := gains_of_load h
  refine ⟨hgains.nodes_eq, (hgains.orderly orderly_empty).locked, ?_⟩
  intro r hr
  rw [hgains.rest] at hr
  cases hr

theorem start_of_malformed {p : Playthrough} {node : Node} {e : ParseError}
    (hn : p.node? node.title = some node) (hp : (parse node.body p.declared).1 = .error e) :
    (p.start node.title).1 = .error (.malformed e) := by
  have henter : p.enter node.title = .error (.malformed e) := by
    rw [enter, hn]
    rcases hparse : parse node.body p.declared with ⟨cause | statements, declared⟩
    · rw [hparse] at hp
      cases hp
      simp only [hparse]
    · rw [hparse] at hp
      cases hp
  rcases p.start_cases node.title with ⟨err, herr, hstart⟩ | ⟨node', statements, declared, hn', hparse, -⟩
  · rw [henter] at herr
    cases herr
    rw [hstart]
  · rw [hn] at hn'
    cases hn'
    rw [hparse] at hp
    cases hp

/-- A script that passes the check can be loaded and is then played as it was parsed, without an error about
its text. A script that can be loaded without passing the check has a node that cannot be started, for
the reason that the check gives. -/
theorem check_agrees (script : Text) :
    (∀ parsed, check script = .ok parsed → ∃ p, empty.loadScript script = (.ok (), p) ∧
      ∀ requests, (∀ x ∈ requests, x.plays = true) →
        (∀ reply ∈ p.replies requests, ∀ e, reply.error? ≠ some (.malformed e)) ∧
          Tells parsed (p.after requests)) ∧
    ∀ err p, check script = .error err → empty.loadScript script = (.ok (), p) →
      ∃ e node, err = .parsing e ∧ node ∈ p.nodes ∧ (p.start node.title).1 = .error (.malformed e) := by
  constructor
  · intro parsed hcheck
    obtain ⟨nodes, p, hscript, hload, hparsed⟩ := load_of_check hcheck
    have hp : Plays nodes parsed p := plays_of_load hload
    refine ⟨p, hscript, fun requests hplays => ?_⟩
    exact ⟨replies_not_malformed hparsed hplays hp, after_tells hparsed hplays hp⟩
  · intro err p hcheck hscript
    obtain ⟨nodes, hload, hchecked⟩ := check_of_loadScript hscript
    rw [hchecked] at hcheck
    obtain ⟨node, hnode, herr⟩ := error_of_mapM_eq_error hcheck
    obtain ⟨e, rfl, hparse⟩ := checked_eq_error herr
    have hgains := gains_of_load hload
    have hlocked := (hgains.orderly orderly_empty).locked
    refine ⟨e, node, rfl, by simp [hgains.nodes_eq, hnode], ?_⟩
    exact start_of_malformed (hgains.added node hnode).2 (by rw [hlocked, hparse])

def wellFormed : Text :=
  "title: A\n---\n<<if true>>\n<<jump B>>\n<<endif>>\n===\ntitle: B\n---\n-> Go\n    Hi\n===".toList

def unclosed : Text :=
  "title: A\n---\nHi\n===\ntitle: B\n---\n<<if true>>\nHi\n===".toList

theorem check_agrees_wellFormed :
    (∃ parsed p, check wellFormed = .ok parsed ∧ empty.loadScript wellFormed = (.ok (), p) ∧
      ∀ selection, Tells parsed (p.after [.start "A".toList, .advance 9 none, .advance 9 selection])) ∧
    ∃ p e node, check unclosed = .error (.parsing e) ∧ empty.loadScript unclosed = (.ok (), p) ∧
      node ∈ p.nodes ∧ (p.start node.title).1 = .error (.malformed e) := by
  constructor
  · have hok : (check wellFormed).toBool = true := by decide +kernel
    cases hcheck : check wellFormed with
    | error err =>
      rw [hcheck] at hok
      cases hok
    | ok parsed =>
      obtain ⟨p, hload, hplay⟩ := (check_agrees wellFormed).1 parsed hcheck
      refine ⟨parsed, p, rfl, hload, ?_⟩
      intro selection
      exact (hplay _ (by simp [Request.plays])).2
  · have hload : (empty.loadScript unclosed).1 = .ok () := by decide +kernel
    have hfull : empty.loadScript unclosed = (.ok (), (empty.loadScript unclosed).2) :=
      Prod.ext hload rfl
    have herr : (check unclosed).toBool = false := by decide +kernel
    cases hcheck : check unclosed with
    | ok parsed =>
      rw [hcheck] at herr
      cases herr
    | error err =>
      obtain ⟨e, node, rfl, hnode, hstart⟩ := (check_agrees unclosed).2 err _ hcheck hfull
      exact ⟨_, e, node, rfl, hfull, hnode, hstart⟩

end Playthrough

end Parley.Play
