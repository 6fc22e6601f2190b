import Parley.Proofs.Requests
set_option autoImplicit false

/-!
The nodes that a playthrough has entered, and what it tells about them.

Nodes are entered by a start or by a jump in the middle of a walk, if there is a node of the title and if
its body can be parsed. `enteredBy` lists them in order. The visited titles are those of the listed nodes,
and the last one of them is the origin of every beat.
-/

namespace Parley.Play

open Body Script

/-- The jump that is next in a run. Options that were gathered are offered before it. -/
def Run.jump? (r : Run) : Option JumpTarget :=
  match r.frames with
  | ⟨.jump target _ :: _, []⟩ :: _ => some target
  | _ => none

namespace Playthrough

def reach? (p : Playthrough) (title : Text) : Option Node :=
  (p.node? title).filter fun node => (parse node.body p.declared).1.isOk

def nodeAhead (p : Playthrough) (r : Run) : Option Node :=
  r.jump?.bind fun target => (p.jumpTitle target).toOption.bind p.reach?

def walkEntered : Nat → Playthrough → Run → List Node
  | 0, _, _ => []
  | fuel + 1, p, r => (p.nodeAhead r).toList ++
    match p.step r with
    | .ok (.walk q u) => walkEntered fuel q u
    | _ => []

def advanceEntered (fuel : Nat) (selection : Option Nat) (p : Playthrough) : List Node :=
  match p.run with
  | none => []
  | some r =>
    match r.awaiting with
    | none => walkEntered fuel p r
    | some options =>
      match select selection options.length with
      | .error _ => []
      | .ok index => walkEntered fuel p (Run.choose r options index)

def serveEntered (p : Playthrough) : Request → List Node
  | .start title => (p.reach? title).toList
  | .advance fuel selection => p.advanceEntered fuel selection
  | _ => []

def enteredBy : List Request → Playthrough → List Node
  | [], _ => []
  | x :: xs, p => p.serveEntered x ++ enteredBy xs (p.serve x).2

theorem enteredBy_append (xs ys : List Request) (p : Playthrough) :
    p.enteredBy (xs ++ ys) = p.enteredBy xs ++ (p.after xs).enteredBy ys := by
  induction xs generalizing p with
  | nil => rfl
  | cons x xs ih => simp only [List.cons_append, enteredBy, after, ih, List.append_assoc]

/-! What is on record of the nodes that were entered. -/

/-- The nodes that were entered, the last one last, as a playthrough keeps record of them. -/
structure Records (p : Playthrough) (log : List Node) : Prop where
  visited : ∀ title, title ∈ p.visited ↔ ∃ node ∈ log, node.title = title
  loaded : ∀ node ∈ log, p.node? node.title = some node
  origin : ∀ r, p.run = some r → ∃ node, log.getLast? = some node ∧ r.origin = ⟨node.title, node.tags⟩

@[simp] theorem records_empty : Records empty [] :=
  ⟨by simp [empty], by simp, by simp [empty]⟩

variable {p q : Playthrough} {r u : Run} {log : List Node} {title : Text} {node : Node}

theorem Records.of_same (h : Records p log) (hvisited : q.visited = p.visited)
    (hnode : ∀ title node, p.node? title = some node → q.node? title = some node)
    (hrun : ∀ u, q.run = some u → ∃ r, p.run = some r ∧ u.origin = r.origin) : Records q log where
  visited := by
    rw [hvisited]
    exact h.visited
  loaded node hmem := hnode _ _ (h.loaded node hmem)
  origin u hu := by
    obtain ⟨r, hr, horigin⟩ := hrun u hu
    rw [horigin]
    exact h.origin r hr

theorem title_of_node? (h : p.node? title = some node) : node.title = title := by
  simpa using List.find?_some h

theorem Records.enters (h : Records p log) (hnode : p.node? title = some node) (declared : Declarations)
    (ss : List Statement) :
    Records { p.entered node declared with run := some (opened node ss) } (log ++ [node]) where
  visited other := by
    have hmem : other ∈ (p.entered node declared).visited ↔ other ∈ p.visited ∨ node.title = other := by
      unfold entered
      dsimp only
      split
      · rename_i hvisited
        rw [List.contains_iff_mem] at hvisited
        constructor
        · exact .inl
        · rintro (hother | rfl)
          · exact hother
          · exact hvisited
      · simp [eq_comm]
    rw [show _ ↔ _ from hmem, h.visited]
    simp [or_and_right, exists_or]
  loaded := by
    rw [List.forall_mem_append, List.forall_mem_singleton]
    refine ⟨h.loaded, ?_⟩
    rw [title_of_node? hnode]
    exact hnode
  origin r hr := by
    cases hr
    exact ⟨node, by simp, rfl⟩

/-! Entering a node. -/

theorem reach?_of_enter (h : p.enter title = .ok (q, u)) :
    ∃ node ss declared, p.reach? title = some node ∧ p.node? title = some node ∧
      q = p.entered node declared ∧ u = opened node ss := by
  obtain ⟨node, ss, declared, hnode, hparse, hq, hu⟩ := enter_eq_ok h
  refine ⟨node, ss, declared, ?_, hnode, hq, hu⟩
  simp [reach?, hnode, Option.filter, hparse, Except.isOk, Except.toBool]

theorem reach?_of_enter_error {e : RuntimeError} (h : p.enter title = .error e) :
    p.reach? title = none := by
  cases enter_eq_error h with
  | unknownNode hnode => simp [reach?, hnode]
  | malformed hnode hparse => simp [reach?, hnode, Option.filter, hparse, Except.isOk, Except.toBool]

inductive Stays (p : Playthrough) (r : Run) : Step → Prop
  | walks {q : Playthrough} {u : Run} (hvisited : q.visited = p.visited) (hnode : q.node? = p.node?)
      (horigin : u.origin = r.origin) : Stays p r (.walk q u)
  | gives {b : Beat} {u : Run} (hbeat : b.origin = r.origin) (horigin : u.origin = r.origin) :
      Stays p r (.beat b p u)
  | ends : Stays p r (.ended p)

theorem step_of_jump {target : JumpTarget} (h : r.jump? = some target) :
    p.step r = do
      let (q, u) ← p.enter (← p.jumpTitle target)
      return .walk q u := by
  unfold Run.jump? at h
  split at h
  · rename_i hashtags rest below hframes
    cases h
    simp [step, hframes, perform]
  · cases h

theorem stays_of_perform {s : Statement} {f : Frame} {below : List Frame} {x : Step}
    (hs : ∀ target hashtags, s ≠ .jump target hashtags) (h : p.perform r s f below = .ok x) :
    Stays p r x := by
  cases s with
  | option o =>
    cases h
    exact .walks rfl rfl rfl
  | line parts number hashtags =>
    obtain ⟨text, -, h⟩ := exists_of_bind_eq_ok h
    obtain ⟨y, -, h⟩ := exists_of_bind_eq_ok h
    cases h
    exact .gives rfl rfl
  | branch condition body otherwise hashtags =>
    obtain ⟨arm, -, h⟩ := exists_of_bind_eq_ok h
    cases arm with
    | none =>
      cases h
      exact .walks rfl rfl rfl
    | some arm =>
      cases h
      exact .walks rfl rfl rfl
  | assign name e number hashtags =>
    obtain ⟨q, hq, h⟩ := exists_of_bind_eq_ok h
    obtain ⟨v, -, -, rfl⟩ := assign_eq_ok hq
    cases h
    exact .walks rfl rfl rfl
  | command parts number hashtags =>
    obtain ⟨text, -, h⟩ := exists_of_bind_eq_ok h
    cases h
    exact .gives rfl rfl
  | jump target hashtags => exact absurd rfl (hs target hashtags)
  | stop hashtags =>
    cases h
    exact .ends

theorem stays_of_step {x : Step} (hr : r.jump? = none) (h : p.step r = .ok x) : Stays p r x := by
  unfold step at h
  cases hf : r.frames with
  | nil =>
    simp only [hf, Except.ok.injEq] at h
    subst h
    exact .ends
  | cons f below =>
    obtain ⟨rest, gathered⟩ := f
    simp only [hf] at h
    split at h
    · obtain ⟨entries, -, h⟩ := exists_of_bind_eq_ok h
      cases h
      exact .gives rfl rfl
    · rename_i hoffer
      cases rest with
      | nil =>
        cases h
        exact .walks rfl rfl rfl
      | cons s rest =>
        refine stays_of_perform ?_ h
        rintro target hashtags rfl
        -- A jump that is performed has nothing gathered before it.
        cases gathered with
        | nil => simp [Run.jump?, hf] at hr
        | cons o os => simp [startsWithOption] at hoffer

theorem step_records {x : Step} (h : Records { p with run := some r } log) (hs : p.step r = .ok x) :
    Records x.left (log ++ (p.nodeAhead r).toList) := by
  cases hjump : r.jump? with
  | none =>
    simp only [nodeAhead, hjump, Option.bind_none, Option.toList_none, List.append_nil]
    cases stays_of_step hjump hs with
    | walks hvisited hnode horigin =>
      refine h.of_same hvisited (fun title node hfound => hnode ▸ hfound) fun w hw => ?_
      cases hw
      exact ⟨r, rfl, horigin⟩
    | gives _ horigin =>
      refine h.of_same rfl (fun _ _ => id) fun w hw => ?_
      cases hw
      exact ⟨r, rfl, horigin⟩
    | ends => exact h.of_same rfl (fun _ _ => id) (by simp [Step.left])
  | some target =>
    rw [step_of_jump hjump] at hs
    obtain ⟨title, htitle, hs⟩ := exists_of_bind_eq_ok hs
    obtain ⟨⟨q, u⟩, henter, hs⟩ := exists_of_bind_eq_ok hs
    cases hs
    obtain ⟨node, ss, declared, hreach, hnode, rfl, rfl⟩ := reach?_of_enter henter
    have hahead : p.nodeAhead r = some node := by
      simp [nodeAhead, hjump, htitle, Except.toOption, hreach]
    rw [hahead]
    exact h.enters hnode declared ss

theorem nodeAhead_of_step_error {e : RuntimeError} (h : p.step r = .error e) : p.nodeAhead r = none := by
  unfold nodeAhead
  cases hjump : r.jump? with
  | none => rfl
  | some target =>
    rw [step_of_jump hjump] at h
    rcases error_of_bind_eq_error h with htitle | ⟨title, htitle, h⟩
    · simp [htitle, Except.toOption]
    · rcases error_of_bind_eq_error h with henter | ⟨x, -, h⟩
      · simp [htitle, Except.toOption, reach?_of_enter_error henter]
      · cases h

theorem origin_of_step {b : Beat} (h : p.step r = .ok (.beat b q u)) : b.origin = u.origin := by
  cases hjump : r.jump? with
  | none =>
    cases stays_of_step hjump h with
    | gives hbeat horigin => rw [hbeat, horigin]
  | some target =>
    rw [step_of_jump hjump] at h
    obtain ⟨title, -, h⟩ := exists_of_bind_eq_ok h
    obtain ⟨x, -, h⟩ := exists_of_bind_eq_ok h
    cases h

/-! Walks and requests. -/

def Keeps (answer : Answer) (q : Playthrough) : Prop :=
  ∀ b, answer = .beat b → ∃ u, q.run = some u ∧ b.origin = u.origin

theorem walk_keeps (fuel : Nat) (p : Playthrough) (r : Run) :
    Keeps (walk fuel p r).1 (walk fuel p r).2 := by
  induction fuel generalizing p r with
  | zero => simp [Keeps, walk]
  | succ fuel ih =>
    simp only [walk]
    cases hs : p.step r with
    | error e => simp [Keeps]
    | ok x =>
      cases x with
      | walk q u => exact ih q u
      | beat b q u =>
        intro _ hb
        cases hb
        exact ⟨u, rfl, origin_of_step hs⟩
      | ended q => simp [Keeps]

theorem walk_records (fuel : Nat) (h : Records { p with run := some r } log) :
    Records (walk fuel p r).2 (log ++ walkEntered fuel p r) := by
  induction fuel generalizing p r log with
  | zero => simpa [walk, walkEntered] using h
  | succ fuel ih =>
    simp only [walk, walkEntered]
    cases hs : p.step r with
    | error e => simpa [nodeAhead_of_step_error hs] using h
    | ok x =>
      have hstep := step_records h hs
      cases x with
      | walk q u =>
        rw [← List.append_assoc]
        exact ih hstep
      | beat b q u =>
        rw [List.append_nil]
        exact hstep
      | ended q =>
        rw [List.append_nil]
        exact hstep

theorem advance_keeps (fuel : Nat) (s : Option Nat) (p : Playthrough) :
    Keeps (p.advance fuel s).1 (p.advance fuel s).2 := by
  cases hr : p.run with
  | none =>
    simp [Keeps, advance_of_not_running hr]
  | some r =>
    cases ha : r.awaiting with
    | none =>
      rw [advance_of_walking hr ha]
      exact walk_keeps fuel p r
    | some options =>
      rw [advance_of_waiting hr ha]
      cases select s options.length with
      | error e => simp [Keeps]
      | ok index => exact walk_keeps fuel p _

@[simp] theorem Run.choose_origin (r : Run) (options : List Choice) (index : Nat) :
    (Run.choose r options index).origin = r.origin := by
  unfold Run.choose
  split <;> rfl

theorem advance_records (fuel : Nat) (s : Option Nat) (h : Records p log) :
    Records (p.advance fuel s).2 (log ++ p.advanceEntered fuel s) := by
  cases hr : p.run with
  | none => simpa [advance_of_not_running hr, advanceEntered, hr] using h
  | some r =>
    have hgoes (u : Run) (hu : u.origin = r.origin) : Records { p with run := some u } log := by
      refine h.of_same rfl (fun _ _ => id) fun w hw => ?_
      cases hw
      exact ⟨r, hr, hu⟩
    cases ha : r.awaiting with
    | none =>
      simp only [advance_of_walking hr ha, advanceEntered, hr, ha]
      exact walk_records fuel (hgoes r rfl)
    | some options =>
      simp only [advance_of_waiting hr ha, advanceEntered, hr, ha]
      cases hs : select s options.length with
      | error e =>
        rw [List.append_nil]
        exact h
      | ok index => exact walk_records fuel (hgoes _ (Run.choose_origin r options index))

theorem load_records (nodes : List Node) (h : Records p log) : Records (p.load nodes).2 log := by
  have hrun : ∀ u, (p.load nodes).2.run = some u → ∃ r, p.run = some r ∧ u.origin = r.origin := by
    intro u hu
    rw [load_run] at hu
    exact ⟨u, hu, rfl⟩
  revert hrun
  unfold load
  split
  · exact fun _ => h
  · split
    · exact h.of_same rfl fun _ _ => id
    · refine h.of_same rfl fun title node hnode => ?_
      have hfound : p.nodes.find? (fun n => n.title == title) = some node := hnode
      simp only [node?, List.find?_append, hfound, Option.some_or]

theorem serve_records (x : Request) (h : Records p log) :
    Records (p.serve x).2 (log ++ p.serveEntered x) := by
  cases x with
  | load nodes => simpa [serve, serveEntered] using load_records nodes h
  | loadScript script =>
    simp only [serve, serveEntered, List.append_nil, loadScript]
    cases split script with
    | error e => exact h
    | ok nodes => exact load_records nodes h
  | start title =>
    simp only [serve, serveEntered]
    rcases start_cases p title with ⟨e, henter, hstart⟩ | ⟨node, ss, declared, hnode, hparse, hstart⟩
    · rw [hstart, reach?_of_enter_error henter, Option.toList_none, List.append_nil]
      exact h.of_same rfl (fun _ _ => id) (by simp)
    · have hreach : p.reach? title = some node := by
        simp [reach?, hnode, Option.filter, hparse, Except.isOk, Except.toBool]
      rw [hstart, hreach]
      exact h.enters hnode declared ss
  | advance fuel s => exact advance_records fuel s h
  | _ =>
    simp only [serve, serveEntered, List.append_nil]
    exact h.of_same rfl (fun _ _ => id) fun u hu => ⟨u, hu, rfl⟩

theorem after_records (requests : List Request) (h : Records p log) :
    Records (p.after requests) (log ++ p.enteredBy requests) := by
  induction requests generalizing p log with
  | nil => simpa [after, enteredBy] using h
  | cons x xs ih =>
    rw [enteredBy, ← List.append_assoc]
    exact ih (serve_records x h)

@[simp] theorem advance_nodes (fuel : Nat) (s : Option Nat) (p : Playthrough) :
    (p.advance fuel s).2.nodes = p.nodes :=
  turns_invariant (I := fun q => q.nodes = p.nodes) (fun hturn h => hturn.nodes_eq.trans h)
    (advance_turns fuel s p) rfl

/-- Behind any requests the visited titles are those of the nodes that were entered. They stay visited,
and all of them are titles of loaded nodes. Every beat comes from the node that was entered last, with
its title and its tags as they were loaded. -/
theorem visited_exactly_entered (requests : List Request) :
    (∀ title, title ∈ (empty.after requests).visited ↔
      ∃ node ∈ empty.enteredBy requests, node.title = title) ∧
    (∀ more, (empty.after requests).visited ⊆ (empty.after (requests ++ more)).visited) ∧
    (empty.after requests).visited ⊆ (empty.after requests).nodes.map Node.title ∧
    ∀ fuel s b, ((empty.after requests).advance fuel s).1 = .beat b →
      ∃ node ∈ (empty.after requests).nodes,
        (empty.enteredBy (requests ++ [.advance fuel s])).getLast? = some node ∧
        b.origin = ⟨node.title, node.tags⟩ := by
  have hrecords (xs : List Request) : Records (empty.after xs) (empty.enteredBy xs) :=
    after_records xs records_empty
  refine ⟨(hrecords requests).visited, fun more title htitle => ?_, fun title htitle => ?_,
    fun fuel s b hb => ?_⟩
  · obtain ⟨node, hnode, hsame⟩ := ((hrecords requests).visited title).1 htitle
    rw [(hrecords (requests ++ more)).visited, enteredBy_append]
    exact ⟨node, List.mem_append_left _ hnode, hsame⟩
  · obtain ⟨node, hnode, hsame⟩ := ((hrecords requests).visited title).1 htitle
    exact List.mem_map.2 ⟨node, List.mem_of_find?_eq_some ((hrecords requests).loaded node hnode), hsame⟩
  · have hafter : empty.after (requests ++ [.advance fuel s]) =
        ((empty.after requests).advance fuel s).2 := by
      rw [after_append]
      rfl
    have hlast := hrecords (requests ++ [.advance fuel s])
    rw [hafter] at hlast
    obtain ⟨u, hu, horigin⟩ := advance_keeps fuel s _ b hb
    obtain ⟨node, hnode, hcurrent⟩ := hlast.origin u hu
    have hmem := List.mem_of_find?_eq_some (hlast.loaded node (List.mem_of_getLast? hnode))
    rw [advance_nodes] at hmem
    exact ⟨node, hmem, hnode, horigin.trans hcurrent⟩

def detour : List Request :=
  [.load [⟨"A".toList, [], "<<if true>>\n<<jump B>>\n<<endif>>".toList⟩,
      ⟨"B".toList, ["inn".toList], "Hi".toList⟩],
    .start "C".toList, .start "A".toList]

theorem visited_exactly_entered_detour :
    "B".toList ∈ (empty.after (detour ++ [.advance 9 none])).visited ∧
    "C".toList ∉ (empty.after (detour ++ [.advance 9 none])).visited ∧
    ∃ b, ((empty.after detour).advance 9 none).1 = .beat b ∧
      ∃ node ∈ (empty.after detour).nodes,
        (empty.enteredBy (detour ++ [.advance 9 none])).getLast? = some node ∧
        b.origin = ⟨node.title, node.tags⟩ := by
  obtain ⟨hvisited, -⟩ := visited_exactly_entered (detour ++ [.advance 9 none])
  obtain ⟨-, -, -, horigin⟩ := visited_exactly_entered detour
  have hbeat : ((empty.after detour).advance 9 none).1 =
      .beat (.line ⟨"Hi".toList, [], ⟨"B".toList, ["inn".toList]⟩, [], false⟩) := by decide +kernel
  rw [hvisited, hvisited]
  exact ⟨by decide +kernel, by decide +kernel, _, hbeat, horigin 9 none _ hbeat⟩

end Playthrough

end Parley.Play
