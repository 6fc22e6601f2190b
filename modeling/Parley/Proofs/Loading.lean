import Parley.Proofs.Prescan
import Parley.Proofs.Records
import Parley.Proofs.Requests
set_option autoImplicit false

/-!
Loading takes all of a batch of nodes or nothing of it.

Titles are checked before anything is touched, values are staged before any is stored, and the record of
declarations is sealed again whatever comes of it. It was sealed before: no request leaves it open.
-/

namespace Parley.Script

/-- A node that can be told apart and that has something to tell. -/
structure Node.Complete (node : Node) : Prop where
  titled : node.title ≠ []
  undotted : '.' ∉ node.title
  told : node.body ≠ []

end Parley.Script

namespace Parley.Play

open Body Script

def declarationsOf (nodes : List Node) : List Declaration :=
  (parse (Text.join ['\n'] (declarationLines nodes)) .empty).2.entries

section Values

variable {store : Store} {functions : Functions} {staged out : Staged} {ds : List Declaration}

theorem stage_names (h : stage store functions staged ds = .ok out) {e : Text × Value} (he : e ∈ out) :
    e ∈ staged ∨ store.get? e.1 = none ∧ ∃ d ∈ ds, d.name = e.1 := by
  induction ds generalizing staged with
  | nil =>
    cases h
    exact .inl he
  | cons d ds ih =>
    obtain ⟨v, -, h⟩ := exists_of_bind_eq_ok h
    split at h
    · rcases ih h with hstaged | ⟨hnone, d', hd', hname⟩
      · exact .inl hstaged
      · exact .inr ⟨hnone, d', List.mem_cons_of_mem d hd', hname⟩
    · rename_i hstored
      rcases ih h with hstaged | ⟨hnone, d', hd', hname⟩
      · rcases List.mem_append.1 hstaged with hstaged | hnew
        · exact .inl hstaged
        · obtain rfl := List.mem_singleton.1 hnew
          exact .inr ⟨by simpa [Table.contains] using hstored, d, by simp, rfl⟩
      · exact .inr ⟨hnone, d', List.mem_cons_of_mem d hd', hname⟩

theorem get?_commit {name : Text} (h : ∀ e ∈ staged, e.1 ≠ name) :
    (staged.commit store).get? name = store.get? name := by
  induction staged generalizing store with
  | nil => rfl
  | cons e staged ih =>
    rw [List.forall_mem_cons] at h
    calc
      (Staged.commit (e :: staged) store).get? name
        = (Staged.commit staged (store.put e.1 e.2)).get? name := rfl
      _ = (store.put e.1 e.2).get? name := ih h.2
      _ = store.get? name := Table.get?_put_ne store e.2 h.1

theorem stage_of_seed {nodes : List Node} (h : (seed nodes .empty store functions).1 = .ok staged) :
    stage store functions [] (declarationsOf nodes) = .ok staged := by
  unfold seed at h
  unfold declarationsOf
  split at h
  · rename_i hnone
    rw [hnone, ← h]
    rfl
  · split at h
    · cases h
    · rename_i hparse
      rw [hparse]
      exact h

theorem get?_of_stage {name : Text} {v : Value} (h : stage store functions [] ds = .ok staged)
    (hv : store.get? name = some v) : (staged.commit store).get? name = some v := by
  rw [get?_commit, hv]
  rintro e he rfl
  rcases stage_names h he with hnil | ⟨hnone, -⟩
  · cases hnil
  · simp [hv] at hnone

theorem contains_of_stage {name : Text} (h : stage store functions [] ds = .ok staged)
    (hnone : store.get? name = none) :
    (staged.commit store).contains name = true ↔ ∃ d ∈ ds, d.name = name := by
  constructor
  · intro hname
    by_contra hd
    have hget : (staged.commit store).get? name = store.get? name := by
      apply get?_commit
      rintro e he rfl
      rcases stage_names h he with hnil | ⟨-, hdeclared⟩
      · cases hnil
      · exact hd hdeclared
    rw [Table.contains, hget, hnone] at hname
    cases hname
  · rintro ⟨d, hd, rfl⟩
    exact contains_commit ((stage_covers h).2 d hd)

end Values

/-! Entering a node leaves a sealed record sealed. -/

theorem sealed_of_parse {body : Text} {statements : List Statement} {declared : Declarations}
    (h : parse body .sealed = (.ok statements, declared)) : declared = .sealed := by
  rw [← parse_sealed body, h]

theorem Does.locked {p q : Playthrough} {here there : Position} {s : Statement}
    (h : Does p here s q there) (hp : p.declared = .sealed) : q.declared = .sealed := by
  cases h with
  | assign hv hk => exact hp
  | branch ha => exact hp
  | jump ht hn hparse =>
    rw [hp] at hparse
    exact sealed_of_parse hparse

namespace Playthrough

theorem Turn.locked {p q : Playthrough} (h : Turn p q) (hp : p.declared = .sealed) :
    q.declared = .sealed := by
  cases h with
  | chooses => exact hp
  | steps hr hs =>
    cases hs with
    | does hfrom hd ha => exact hd.locked hp
    | _ => exact hp

/-! Titles. -/

theorem checkNode_eq_ok {titles : List Text} {node : Node} (h : checkNode titles node = .ok ()) :
    node.Complete ∧ node.title ∉ titles := by
  unfold checkNode at h
  split_ifs at h with htitle hdot hbody hnew
  exact ⟨⟨htitle, by simpa using hdot, hbody⟩, by simpa using hnew⟩

theorem checkNodes_eq_ok {titles : List Text} {nodes : List Node}
    (h : checkNodes titles nodes = .ok ()) :
    (nodes.map Node.title).Nodup ∧ ∀ node ∈ nodes, node.Complete ∧ node.title ∉ titles := by
  induction nodes generalizing titles with
  | nil => simp
  | cons node nodes ih =>
    obtain ⟨⟨⟩, hnode, hnodes⟩ := exists_of_bind_eq_ok h
    obtain ⟨hnodup, hrest⟩ := ih hnodes
    refine ⟨List.nodup_cons.2 ⟨?_, hnodup⟩, List.forall_mem_cons.2 ⟨checkNode_eq_ok hnode, ?_⟩⟩
    · rw [List.mem_map]
      rintro ⟨other, hother, hsame⟩
      exact (hrest other hother).2 (by simp [hsame])
    · intro other hother
      obtain ⟨hcomplete, hnew⟩ := hrest other hother
      exact ⟨hcomplete, fun hmem => hnew (List.mem_cons_of_mem _ hmem)⟩

theorem find?_title {nodes : List Node} (h : (nodes.map Node.title).Nodup) {title : Text} {node : Node} :
    nodes.find? (fun n => n.title == title) = some node ↔ node ∈ nodes ∧ node.title = title := by
  induction nodes with
  | nil => simp
  | cons first nodes ih =>
    rw [List.map_cons, List.nodup_cons] at h
    by_cases hfirst : first.title = title
    · rw [List.find?_cons_of_pos (by simpa using hfirst), Option.some.injEq, List.mem_cons]
      constructor
      · rintro rfl
        exact ⟨.inl rfl, hfirst⟩
      · rintro ⟨rfl | hmem, htitle⟩
        · rfl
        · exact absurd (List.mem_map.2 ⟨node, hmem, htitle.trans hfirst.symm⟩) h.1
    · rw [List.find?_cons_of_neg (by simpa using hfirst), ih h.2, List.mem_cons]
      constructor
      · rintro ⟨hmem, htitle⟩
        exact ⟨.inr hmem, htitle⟩
      · rintro ⟨rfl | hmem, htitle⟩
        · exact absurd htitle hfirst
        · exact ⟨hmem, htitle⟩

theorem find?_title_eq_none {nodes : List Node} {title : Text} :
    nodes.find? (fun n => n.title == title) = none ↔ title ∉ nodes.map Node.title := by
  simp [List.find?_eq_none]

structure Orderly (p : Playthrough) : Prop where
  /-- Each node is found under its own title, and nothing else is. -/
  found : ∀ title node, p.node? title = some node ↔ node ∈ p.nodes ∧ node.title = title
  complete : ∀ node ∈ p.nodes, node.Complete
  locked : p.declared = .sealed

structure Gains (p : Playthrough) (nodes : List Node) (q : Playthrough) : Prop where
  complete : ∀ node ∈ nodes, node.Complete
  nodes_eq : q.nodes = p.nodes ++ nodes
  added : ∀ node ∈ nodes, p.node? node.title = none ∧ q.node? node.title = some node
  others : ∀ title, title ∉ nodes.map Node.title → q.node? title = p.node? title
  kept : ∀ name v, p.store.get? name = some v → q.store.get? name = some v
  seeded : ∀ name, p.store.get? name = none →
    (q.store.contains name = true ↔ ∃ d ∈ declarationsOf nodes, d.name = name)
  /-- Nothing but nodes and variables is different. -/
  rest : q = { p with nodes := q.nodes, store := q.store }

/-- A batch of nodes is gained as a whole, or the playthrough is what it was. -/
structure AllOrNothing (p : Playthrough) (nodes : List Node)
    (result : Except LoadError Unit × Playthrough) : Prop where
  nothing : ∀ {e}, result.1 = .error e → result.2 = p
  all : result.1 = .ok () → Gains p nodes result.2

variable {p q : Playthrough} {nodes : List Node} {result : Except LoadError Unit × Playthrough}

theorem load_gains (hlocked : p.declared = .sealed) (nodes : List Node) :
    AllOrNothing p nodes (p.load nodes) := by
  unfold load
  cases hcheck : checkNodes (p.nodes.map Node.title) nodes with
  | error e => exact ⟨fun _ => rfl, nofun⟩
  | ok =>
    obtain ⟨hnodup, hnodes⟩ := checkNodes_eq_ok hcheck
    cases hseed : (seed nodes .empty p.store p.functions).1 with
    | error e => exact ⟨fun _ => by rw [← hlocked], nofun⟩
    | ok staged =>
      refine ⟨nofun, fun _ => ?_⟩
      have hstage := stage_of_seed hseed
      -- A title is looked up among the earlier nodes first, and then in the batch.
      have hnode? : ∀ title, (p.nodes ++ nodes).find? (fun n => n.title == title) =
          (p.node? title).or (nodes.find? fun n => n.title == title) :=
        fun title => List.find?_append
      refine {
        complete := fun node hmem => (hnodes node hmem).1
        nodes_eq := rfl
        added := ?_
        others := ?_
        kept := fun name v => get?_of_stage hstage
        seeded := fun name => contains_of_stage hstage
        rest := by rw [hlocked] }
      · intro node hmem
        have hnew : p.node? node.title = none := find?_title_eq_none.2 (hnodes node hmem).2
        refine ⟨hnew, (hnode? node.title).trans ?_⟩
        rw [hnew, Option.none_or, find?_title hnodup]
        exact ⟨hmem, rfl⟩
      · intro title htitle
        refine (hnode? title).trans ?_
        rw [find?_title_eq_none.2 htitle, Option.or_none]

theorem loadScript_gains (hlocked : p.declared = .sealed) {script : Text}
    (hsplit : split script = .ok nodes) : AllOrNothing p nodes (p.loadScript script) := by
  unfold loadScript
  rw [hsplit]
  exact load_gains hlocked nodes

/-! No request brings a playthrough out of order. -/

@[simp] theorem orderly_empty : Orderly empty where
  found := by simp [empty, node?]
  complete := by simp [empty]
  locked := rfl

theorem Orderly.of_same (h : Orderly p) (hnodes : q.nodes = p.nodes) (hlocked : q.declared = .sealed) :
    Orderly q where
  found := by
    unfold node?
    rw [hnodes]
    exact h.found
  complete := by
    rw [hnodes]
    exact h.complete
  locked := hlocked

theorem Gains.orderly (h : Gains p nodes q) (hp : Orderly p) : Orderly q where
  found := by
    intro title node
    rw [h.nodes_eq, List.mem_append]
    by_cases htitle : title ∈ nodes.map Node.title
    · obtain ⟨own, hown, rfl⟩ := List.mem_map.1 htitle
      obtain ⟨hnone, hsome⟩ := h.added own hown
      rw [hsome, Option.some.injEq]
      constructor
      · rintro rfl
        exact ⟨.inr hown, rfl⟩
      · rintro ⟨hmem | hmem, hsame⟩
        · have hold := (hp.found own.title node).2 ⟨hmem, hsame⟩
          simp [hnone] at hold
        · have hnew := (h.added node hmem).2
          rwa [hsame, hsome, Option.some.injEq] at hnew
    · rw [h.others title htitle, hp.found]
      constructor
      · rintro ⟨hmem, hsame⟩
        exact ⟨.inl hmem, hsame⟩
      · rintro ⟨hmem | hmem, hsame⟩
        · exact ⟨hmem, hsame⟩
        · exact absurd (List.mem_map.2 ⟨node, hmem, hsame⟩) htitle
  complete := by
    rw [h.nodes_eq, List.forall_mem_append]
    exact ⟨hp.complete, h.complete⟩
  locked := by
    rw [h.rest]
    exact hp.locked

theorem AllOrNothing.orderly (h : AllOrNothing p nodes result) (hp : Orderly p) : Orderly result.2 := by
  cases hresult : result.1 with
  | error e => exact h.nothing hresult ▸ hp
  | ok => exact (h.all hresult).orderly hp

theorem Turn.orderly (h : Turn p q) (hp : Orderly p) : Orderly q :=
  hp.of_same h.nodes_eq (h.locked hp.locked)

theorem serve_orderly (x : Request) (hp : Orderly p) : Orderly (p.serve x).2 := by
  cases x with
  | load nodes => exact (load_gains hp.locked nodes).orderly hp
  | loadScript script =>
    cases hsplit : split script with
    | error e =>
      have hsame : (p.loadScript script).2 = p := by
        unfold loadScript
        rw [hsplit]
      exact hp.of_same (congrArg Playthrough.nodes hsame) (by simp only [serve, hsame, hp.locked])
    | ok nodes => exact (loadScript_gains hp.locked hsplit).orderly hp
  | start title =>
    rcases p.start_cases title with ⟨e, -, hstart⟩ | ⟨node, statements, declared, -, hparse, hstart⟩
    · simp only [serve, hstart]
      exact hp.of_same rfl hp.locked
    · simp only [serve, hstart]
      rw [hp.locked] at hparse
      exact hp.of_same rfl (sealed_of_parse hparse)
  | advance fuel s => exact turns_invariant Turn.orderly (advance_turns fuel s p) hp
  | register name f => exact hp.of_same rfl hp.locked
  | keepEscapes keep => exact hp.of_same rfl hp.locked
  | write name v => exact hp.of_same rfl hp.locked
  | replaceStore store => exact hp.of_same rfl hp.locked

def Reached (p : Playthrough) : Prop :=
  ∃ requests, p = empty.after requests

theorem Reached.orderly (h : Reached p) : Orderly p := by
  obtain ⟨requests, rfl⟩ := h
  exact after_invariant (fun _ => True) (fun _ => serve_orderly _) (by simp) orderly_empty

/-- A load that fails leaves everything as it was; one that succeeds adds the nodes under their titles and
gives first values to declared variables that have none. -/
theorem load_all_or_nothing (h : Reached p) :
    Orderly p ∧ (∀ nodes, AllOrNothing p nodes (p.load nodes)) ∧
      ∀ script, match split script with
        | .error e => p.loadScript script = (.error (.splitting e), p)
        | .ok nodes => AllOrNothing p nodes (p.loadScript script) := by
  have horderly := h.orderly
  refine ⟨horderly, load_gains horderly.locked, ?_⟩
  intro script
  cases hsplit : split script with
  | error e => simp only [loadScript, hsplit]
  | ok nodes => exact loadScript_gains horderly.locked hsplit

/-- A node is loaded, which gives `$x` a value, and told up to its only line. -/
def greeting : List Request :=
  [.loadScript "title: A\n---\n<<declare $x = true>>\nHi\n===".toList,
    .start "A".toList,
    .advance 5 none]

def greeted : Playthrough :=
  empty.after greeting

/-- The second declaration cannot be evaluated, and the value of the first one is dropped. -/
def halfDeclared : List Node :=
  [⟨"B".toList, [], "<<declare $y = $x>>\n<<declare $z = $w>>".toList⟩]

def fullyDeclared : List Node :=
  [⟨"B".toList, [], "<<declare $x = null>>\n<<declare $y = $x>>".toList⟩]

theorem reached_greeted : Reached greeted :=
  ⟨greeting, rfl⟩

theorem load_all_or_nothing_greeted :
    ((greeted.load halfDeclared).1 =
        .error (.initializer "z".toList (.undefinedVariable "w".toList)) ∧
      (greeted.load halfDeclared).2 = greeted) ∧
    (greeted.load fullyDeclared).1 = .ok () ∧
      Gains greeted fullyDeclared (greeted.load fullyDeclared).2 := by
  have hhalf : (greeted.load halfDeclared).1 =
      .error (.initializer "z".toList (.undefinedVariable "w".toList)) := by decide +kernel
  have hfully : (greeted.load fullyDeclared).1 = .ok () := by decide +kernel
  obtain ⟨-, hload, -⟩ := load_all_or_nothing reached_greeted
  have hnothing := AllOrNothing.nothing (hload halfDeclared) hhalf
  have hall := AllOrNothing.all (hload fullyDeclared) hfully
  exact ⟨⟨hhalf, hnothing⟩, hfully, hall⟩

end Playthrough

end Parley.Play
