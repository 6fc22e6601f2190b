import Mathlib.Logic.Relation
import Parley.Proofs.Telling
set_option autoImplicit false

/-!
All that one step of a playthrough can do.

A run stands in front of what is left of its open lists. `Does` tells what the statements without a beat
do there, `Fails` tells how the next statement can fail, and `Stepped` lists everything else. Every call
is a chain of turns, so that an invariant of turns is an invariant of calls.
-/

namespace Parley.Play

open Body Script

theorem error_of_bind_eq_error {ε α β : Type} {x : Except ε α} {f : α → Except ε β} {e : ε}
    (h : (x >>= f) = .error e) : x = .error e ∨ ∃ a, x = .ok a ∧ f a = .error e := by
  cases x with
  | error e' =>
    cases h
    exact .inl rfl
  | ok a => exact .inr ⟨a, rfl, h⟩

theorem error_of_mapM_eq_error {ε α β : Type} {f : α → Except ε β} {xs : List α} {e : ε}
    (h : xs.mapM f = .error e) : ∃ x ∈ xs, f x = .error e := by
  induction xs with
  | nil => cases h
  | cons x xs ih =>
    rw [List.mapM_cons] at h
    rcases error_of_bind_eq_error h with h | ⟨b, -, h⟩
    · exact ⟨x, by simp, h⟩
    · rcases error_of_bind_eq_error h with h | ⟨bs, -, h⟩
      · obtain ⟨y, hy, h⟩ := ih h
        exact ⟨y, List.mem_cons_of_mem x hy, h⟩
      · cases h

theorem error_of_mapError_eq_error {ε ε' α : Type} {x : Except ε α} {f : ε → ε'} {err : ε'}
    (h : x.mapError f = .error err) : ∃ e, x = .error e ∧ err = f e := by
  cases x with
  | error e =>
    cases h
    exact ⟨e, rfl, rfl⟩
  | ok a => cases h

def Frame.left (f : Frame) : List Statement :=
  f.gathered.map .option ++ f.rest

/-- The node that a run is in, and what is left of its open lists, the innermost first. -/
structure Position where
  origin : Origin
  lists : List (List Statement)

def Run.position (r : Run) : Position :=
  ⟨r.origin, r.frames.map Frame.left⟩

/-- A variable takes values of one kind only, once it has a value other than null. -/
def Store.Takes (store : Store) (name : Text) (v : Value) : Prop :=
  ∀ w, store.get? name = some w → w.kind = .null ∨ w.kind = v.kind

namespace Playthrough

def entered (p : Playthrough) (node : Node) (declared : Declarations) : Playthrough :=
  { p with
    visited := if p.visited.contains node.title then p.visited else p.visited ++ [node.title]
    declared := declared }

def opened (node : Node) (statements : List Statement) : Run :=
  ⟨⟨node.title, node.tags⟩, [⟨statements, []⟩], none⟩

theorem enter_eq_ok {p q : Playthrough} {title : Text} {u : Run} (h : p.enter title = .ok (q, u)) :
    ∃ node statements declared, p.node? title = some node ∧
      parse node.body p.declared = (.ok statements, declared) ∧
      q = p.entered node declared ∧ u = opened node statements := by
  unfold enter at h
  cases hn : p.node? title with
  | none => simp [hn] at h
  | some node =>
    rcases hp : parse node.body p.declared with ⟨e | statements, declared⟩
    · simp [hn, hp] at h
    · simp only [hn, hp, Except.ok.injEq, Prod.mk.injEq] at h
      exact ⟨node, statements, declared, rfl, hp, h.1.symm, h.2.symm⟩

inductive Barred (p : Playthrough) (title : Text) : RuntimeError → Prop
  | unknownNode (hn : p.node? title = none) : Barred p title (.unknownNode title)
  | malformed {node : Node} {e : ParseError} (hn : p.node? title = some node)
      (hp : (parse node.body p.declared).1 = .error e) : Barred p title (.malformed e)

theorem enter_eq_error {p : Playthrough} {title : Text} {err : RuntimeError}
    (h : p.enter title = .error err) : p.Barred title err := by
  unfold enter at h
  cases hn : p.node? title with
  | none =>
    simp only [hn, Except.error.injEq] at h
    exact h ▸ .unknownNode hn
  | some node =>
    rcases hp : parse node.body p.declared with ⟨e | statements, declared⟩
    · simp only [hn, hp, Except.error.injEq] at h
      exact h ▸ .malformed hn (by rw [hp])
    · simp [hn, hp] at h

theorem assign_eq_ok {p q : Playthrough} {name : Text} {e : Expr} (h : p.assign name e = .ok q) :
    ∃ v, p.evaluate e = .ok v ∧ p.store.Takes name v ∧ q = { p with store := p.store.put name v } := by
  obtain ⟨v, hv, h⟩ := exists_of_bind_eq_ok h
  dsimp only at h
  split at h
  · cases h
  · rename_i hkind
    cases h
    refine ⟨v, hv, ?_, rfl⟩
    intro w hw
    by_cases hnull : w.kind = .null
    · exact .inl hnull
    · right
      by_cases hsame : w.kind = v.kind
      · exact hsame
      · exact absurd ⟨by simpa [hw] using hnull, by simpa [hw] using hsame⟩ hkind

end Playthrough

/-- The statements that give no beat, at the head of the innermost list: what they change and where the
run stands behind them. -/
inductive Does (p : Playthrough) : Position → Statement → Playthrough → Position → Prop
  | assign {origin : Origin} {name : Text} {e : Expr} {number : Nat} {hashtags : List Text}
      {rest : List Statement} {below : List (List Statement)} {v : Value}
      (hv : p.evaluate e = .ok v) (hk : p.store.Takes name v) :
      Does p ⟨origin, (.assign name e number hashtags :: rest) :: below⟩
        (.assign name e number hashtags)
        { p with store := p.store.put name v } ⟨origin, rest :: below⟩
  | branch {origin : Origin} {condition : Expr} {body : List Statement} {otherwise : Otherwise}
      {hashtags : List Text} {rest : List Statement} {below : List (List Statement)}
      {arm : Option (List Statement)}
      (ha : p.selectArm (.branch condition body otherwise hashtags) = .ok arm) :
      Does p ⟨origin, (.branch condition body otherwise hashtags :: rest) :: below⟩
        (.branch condition body otherwise hashtags)
        p ⟨origin, arm.toList ++ rest :: below⟩
  | jump {origin : Origin} {target : JumpTarget} {hashtags : List Text} {rest : List Statement}
      {below : List (List Statement)} {title : Text} {node : Node} {statements : List Statement}
      {declared : Declarations}
      (ht : p.jumpTitle target = .ok title) (hn : p.node? title = some node)
      (hp : parse node.body p.declared = (.ok statements, declared)) :
      Does p ⟨origin, (.jump target hashtags :: rest) :: below⟩ (.jump target hashtags)
        (p.entered node declared) ⟨⟨node.title, node.tags⟩, [statements]⟩

theorem Does.nodes_eq {p q : Playthrough} {here there : Position} {s : Statement}
    (h : Does p here s q there) : q.nodes = p.nodes := by
  cases h <;> rfl

/-- The value of a variable keeps it from taking another value. -/
structure Playthrough.Clashes (p : Playthrough) (name : Text) (existing assigned : Value) : Prop where
  found : p.store.get? name = some existing
  typed : existing.kind ≠ .null
  differs : existing.kind ≠ assigned.kind

/-- How the first statement of a list can fail. The lines that share a line of the script are one
statement here, and so are options that stand together. -/
def FailsAt (p : Playthrough) (err : RuntimeError) : List Statement → Prop
  | .line parts number hashtags :: rest =>
    ((parts, hashtags) :: leadingLines number rest).mapM (fun l => p.render l.1) = .error err
  | .option o :: rest => (o :: leadingOptions rest).mapM p.offer = .error err
  | .branch condition body otherwise hashtags :: _ =>
    p.selectArm (.branch condition body otherwise hashtags) = .error err
  | .assign name e _ _ :: _ =>
    p.evaluate e = .error err ∨
      ∃ v w, p.evaluate e = .ok v ∧ p.Clashes name w v ∧ err = .kindChanged name w.kind v.kind
  | .command parts _ _ :: _ => p.render parts = .error err
  | .jump target _ :: _ =>
    p.jumpTitle target = .error err ∨
      ∃ title, p.jumpTitle target = .ok title ∧ p.Barred title err
  | .stop _ :: _ | [] => False

def Fails (p : Playthrough) (here : Position) (err : RuntimeError) : Prop :=
  ∃ list below, here.lists = list :: below ∧ FailsAt p err list

namespace Playthrough

theorem assign_eq_error {p : Playthrough} {name : Text} {e : Expr} {err : RuntimeError}
    (h : p.assign name e = .error err) :
    p.evaluate e = .error err ∨
      ∃ v w, p.evaluate e = .ok v ∧ p.Clashes name w v ∧ err = .kindChanged name w.kind v.kind := by
  rcases error_of_bind_eq_error h with h | ⟨v, hv, h⟩
  · exact .inl h
  · right
    dsimp only at h
    split at h
    · rename_i hkind
      cases hw : p.store.get? name with
      | none => simp [hw] at hkind
      | some w =>
        simp only [hw, Option.elim_some] at hkind h
        cases h
        exact ⟨v, w, hv, ⟨hw, hkind.1, hkind.2⟩, rfl⟩
    · cases h

theorem failsAt_of_perform {p : Playthrough} {r : Run} {s : Statement} {rest : List Statement}
    {below : List Frame} {err : RuntimeError}
    (h : p.perform r s ⟨rest, []⟩ below = .error err) : FailsAt p err (s :: rest) := by
  cases s with
  | option o => cases h
  | line parts number hashtags =>
    simp only [perform, collect_leadingLines] at h
    simp only [FailsAt, List.mapM_cons]
    rcases error_of_bind_eq_error h with h | ⟨text, ht, h⟩
    · simp [h, bind, Except.bind]
    · simp only [ht, bind, Except.bind]
      cases hm : (leadingLines number rest).mapM fun l => p.render l.1 with
      | error e =>
        rw [hm] at h
        cases h
        rfl
      | ok texts =>
        rw [hm] at h
        cases h
  | branch condition body otherwise hashtags =>
    rcases error_of_bind_eq_error h with h | ⟨arm, ha, h⟩
    · exact h
    · cases arm <;> cases h
  | assign name e number hashtags =>
    rcases error_of_bind_eq_error h with h | ⟨q, hq, h⟩
    · exact assign_eq_error h
    · cases h
  | command parts number hashtags =>
    rcases error_of_bind_eq_error h with h | ⟨text, ht, h⟩
    · exact h
    · cases h
  | jump target hashtags =>
    rcases error_of_bind_eq_error h with h | ⟨title, ht, h⟩
    · exact .inl h
    · rcases error_of_bind_eq_error h with h | ⟨x, hx, h⟩
      · exact .inr ⟨title, ht, enter_eq_error h⟩
      · cases h
  | stop hashtags => cases h

theorem fails_of_step {p : Playthrough} {r : Run} {err : RuntimeError} (h : p.step r = .error err) :
    Fails p r.position err := by
  unfold step at h
  cases hf : r.frames with
  | nil =>
    rw [hf] at h
    cases h
  | cons f below =>
    obtain ⟨rest, gathered⟩ := f
    refine ⟨gathered.map .option ++ rest, below.map Frame.left, by simp [Run.position, hf, Frame.left], ?_⟩
    simp only [hf] at h
    split at h
    · rename_i hoffer
      simp only [Bool.and_eq_true, Bool.not_eq_true', List.isEmpty_eq_false_iff] at hoffer
      obtain ⟨o, os, rfl⟩ := List.exists_cons_of_ne_nil hoffer.1
      simp only [List.map_cons, List.cons_append, FailsAt, leadingOptions_append hoffer.2]
      rcases error_of_bind_eq_error h with h | ⟨entries, he, h⟩
      · exact h
      · cases h
    · rename_i hoffer
      cases rest with
      | nil => cases h
      | cons s rest =>
        cases gathered with
        | nil => exact failsAt_of_perform h
        | cons o os =>
          -- Only an option can follow options that were gathered, and gathering does not fail.
          cases s with
          | option o' => cases h
          | _ => simp [startsWithOption] at hoffer

/-! The errors that a statement can report. -/

theorem evaluate_eq_error {p : Playthrough} {e : Expr} {err : RuntimeError}
    (h : p.evaluate e = .error err) : ∃ cause, err = .evaluation cause := by
  obtain ⟨cause, -, rfl⟩ := error_of_mapError_eq_error h
  exact ⟨cause, rfl⟩

theorem render_eq_error {p : Playthrough} {parts : List Part} {err : RuntimeError}
    (h : p.render parts = .error err) : ∃ cause, err = .evaluation cause := by
  obtain ⟨cause, -, rfl⟩ := error_of_mapError_eq_error h
  exact ⟨cause, rfl⟩

theorem offer_eq_error {p : Playthrough} {o : Choice} {err : RuntimeError}
    (h : p.offer o = .error err) : ∃ cause, err = .evaluation cause := by
  have hlabel {available : Bool} (h : (do
      let text ← p.render o.label
      return (⟨Text.trim text, available, o.hashtags, []⟩ : Entry)) = .error err) :
      ∃ cause, err = .evaluation cause := by
    rcases error_of_bind_eq_error h with h | ⟨text, -, h⟩
    · exact render_eq_error h
    · cases h
  unfold offer at h
  cases hg : o.guard with
  | none =>
    rw [hg] at h
    exact hlabel h
  | some condition =>
    rw [hg] at h
    rcases error_of_bind_eq_error h with h | ⟨v, -, h⟩
    · exact evaluate_eq_error h
    · exact hlabel h

theorem selectArm_eq_error {p : Playthrough} {err : RuntimeError} :
    ∀ {o : Otherwise}, p.selectArm o = .error err → ∃ cause, err = .evaluation cause
  | .nothing, h => by cases h
  | .statements body, h => by cases h
  | .branch condition body otherwise hashtags, h => by
    rcases error_of_bind_eq_error h with h | ⟨v, -, h⟩
    · exact evaluate_eq_error h
    · split at h
      · cases h
      · exact selectArm_eq_error h

theorem jumpTitle_eq_error {p : Playthrough} {target : JumpTarget} {err : RuntimeError}
    (h : p.jumpTitle target = .error err) : ∃ cause, err = .evaluation cause := by
  cases target with
  | title t => cases h
  | expr e =>
    rcases error_of_bind_eq_error h with h | ⟨v, -, h⟩
    · exact evaluate_eq_error h
    · cases h

end Playthrough

inductive Cause (p : Playthrough) : RuntimeError → Prop
  | evaluation (e : EvalError) : Cause p (.evaluation e)
  | kindChanged (name : Text) (existing assigned : Kind) : Cause p (.kindChanged name existing assigned)
  | barred {title : Text} {err : RuntimeError} (h : p.Barred title err) : Cause p err

theorem FailsAt.cause {p : Playthrough} {err : RuntimeError} {list : List Statement}
    (h : FailsAt p err list) : Cause p err := by
  cases list with
  | nil => cases h
  | cons s rest =>
    cases s with
    | line parts number hashtags =>
      obtain ⟨l, -, hl⟩ := error_of_mapM_eq_error h
      obtain ⟨e, rfl⟩ := Playthrough.render_eq_error hl
      exact .evaluation e
    | option o =>
      obtain ⟨o', -, ho⟩ := error_of_mapM_eq_error h
      obtain ⟨e, rfl⟩ := Playthrough.offer_eq_error ho
      exact .evaluation e
    | branch condition body otherwise hashtags =>
      obtain ⟨e, rfl⟩ := Playthrough.selectArm_eq_error h
      exact .evaluation e
    | assign name e number hashtags =>
      rcases h with h | ⟨v, w, -, -, rfl⟩
      · obtain ⟨e, rfl⟩ := Playthrough.evaluate_eq_error h
        exact .evaluation e
      · exact .kindChanged name w.kind v.kind
    | command parts number hashtags =>
      obtain ⟨e, rfl⟩ := Playthrough.render_eq_error h
      exact .evaluation e
    | jump target hashtags =>
      rcases h with h | ⟨title, -, h⟩
      · obtain ⟨e, rfl⟩ := Playthrough.jumpTitle_eq_error h
        exact .evaluation e
      · exact .barred h
    | stop hashtags => cases h

theorem Fails.cause {p : Playthrough} {here : Position} {err : RuntimeError} (h : Fails p here err) :
    Cause p err := by
  obtain ⟨list, below, -, hlist⟩ := h
  exact hlist.cause

namespace Playthrough

inductive Stepped (p : Playthrough) (r : Run) : Step → Prop
  | gathers {u : Run} (hu : u.position = r.position) (ha : u.awaiting = none) : Stepped p r (.walk p u)
  | closes {u : Run} {origin : Origin} {below : List (List Statement)}
      (hfrom : r.position = ⟨origin, [] :: below⟩) (hto : u.position = ⟨origin, below⟩)
      (ha : u.awaiting = none) : Stepped p r (.walk p u)
  | does {u : Run} {here : Position} {s : Statement} {q : Playthrough} (hfrom : r.position = here)
      (hd : Does p here s q u.position) (ha : u.awaiting = none) : Stepped p r (.walk q u)
  | gives {u : Run} {b : Beat} {origin : Origin} {given rest : List Statement}
      {below : List (List Statement)} (hfrom : r.position = ⟨origin, (given ++ rest) :: below⟩)
      (hto : u.position = ⟨origin, rest :: below⟩)
      (ha : ∀ options, u.awaiting = some options → given = options.map .option) :
      Stepped p r (.beat b p u)
  | ends : Stepped p r (.ended p)

theorem stepped_of_perform {p : Playthrough} {r : Run} {s : Statement} {rest : List Statement}
    {below : List Frame} {x : Step} (ha : r.awaiting = none)
    (hp : r.position = ⟨r.origin, (s :: rest) :: below.map Frame.left⟩)
    (h : p.perform r s ⟨rest, []⟩ below = .ok x) : Stepped p r x := by
  cases s with
  | option o =>
    cases h
    refine .gathers ?_ ha
    rw [hp]
    rfl
  | line parts number hashtags =>
    simp only [perform, collect_leadingLines] at h
    obtain ⟨text, -, h⟩ := exists_of_bind_eq_ok h
    obtain ⟨y, hy, h⟩ := exists_of_bind_eq_ok h
    cases hm : (leadingLines number rest).mapM fun l => p.render l.1 with
    | error e => simp [hm, Except.map] at hy
    | ok texts =>
      simp only [hm, Except.map, Except.ok.injEq] at hy
      subst hy
      cases h
      -- The lines that were told together are the first ones of the list.
      have hfrom : r.position = ⟨r.origin, (.line parts number hashtags ::
            rest.take (leadingLines number rest).length ++
          rest.drop (leadingLines number rest).length) :: below.map Frame.left⟩ := by
        rw [hp, List.cons_append, List.take_append_drop]
      exact .gives hfrom rfl (by simp [ha])
  | branch condition body otherwise hashtags =>
    obtain ⟨arm, harm, h⟩ := exists_of_bind_eq_ok h
    cases arm with
    | none =>
      cases h
      exact .does hp (.branch harm) ha
    | some arm =>
      cases h
      exact .does hp (.branch harm) ha
  | assign name e number hashtags =>
    obtain ⟨q, hq, h⟩ := exists_of_bind_eq_ok h
    obtain ⟨v, hv, hk, rfl⟩ := assign_eq_ok hq
    cases h
    exact .does hp (.assign hv hk) ha
  | command parts number hashtags =>
    obtain ⟨text, -, h⟩ := exists_of_bind_eq_ok h
    cases h
    have hfrom : r.position = ⟨r.origin, ([.command parts number hashtags] ++ rest) ::
        below.map Frame.left⟩ := hp
    exact .gives hfrom rfl (by simp [ha])
  | jump target hashtags =>
    obtain ⟨title, ht, h⟩ := exists_of_bind_eq_ok h
    obtain ⟨y, hy, h⟩ := exists_of_bind_eq_ok h
    obtain ⟨node, statements, declared, hn, hparse, hq, hu⟩ := enter_eq_ok hy
    cases h
    rw [hq, hu]
    exact .does hp (.jump ht hn hparse) rfl
  | stop hashtags =>
    cases h
    exact .ends

theorem stepped_of_step {p : Playthrough} {r : Run} {x : Step} (ha : r.awaiting = none)
    (h : p.step r = .ok x) : Stepped p r x := by
  unfold step at h
  cases hf : r.frames with
  | nil =>
    simp only [hf, Except.ok.injEq] at h
    subst h
    exact .ends
  | cons f below =>
    obtain ⟨rest, gathered⟩ := f
    have hp : r.position = ⟨r.origin, (gathered.map .option ++ rest) :: below.map Frame.left⟩ := by
      simp [Run.position, hf, Frame.left]
    simp only [hf] at h
    split at h
    · obtain ⟨entries, -, h⟩ := exists_of_bind_eq_ok h
      cases h
      exact .gives hp rfl (by simp)
    · rename_i hoffer
      cases rest with
      | nil =>
        cases gathered with
        | nil =>
          cases h
          exact .closes hp rfl ha
        | cons o os => simp [startsWithOption] at hoffer
      | cons s rest =>
        cases gathered with
        | nil => exact stepped_of_perform ha hp h
        | cons o os =>
          cases s with
          | option o' =>
            cases h
            refine .gathers ?_ ha
            rw [hp]
            simp [Run.position, Frame.left]
          | _ => simp [startsWithOption] at hoffer

def Step.left : Step → Playthrough
  | .walk q u => { q with run := some u }
  | .beat _ q u => { q with run := some u }
  | .ended q => { q with run := none }

/-- All that happens within calls, one thing at a time: a selection is taken, or a step is made. -/
inductive Turn (p : Playthrough) : Playthrough → Prop
  | chooses {r : Run} {options : List Choice} {index : Nat} (hr : p.run = some r)
      (ha : r.awaiting = some options) (hi : index < options.length) :
      Turn p { p with run := some (Run.choose r options index) }
  | steps {r : Run} {x : Step} (hr : p.run = some r) (hs : Stepped p r x) : Turn p x.left

theorem Turn.nodes_eq {p q : Playthrough} (h : Turn p q) : q.nodes = p.nodes := by
  cases h with
  | chooses => rfl
  | steps hr hs =>
    cases hs with
    | does hfrom hd ha => exact hd.nodes_eq
    | _ => rfl

theorem walk_turns (fuel : Nat) (p : Playthrough) (r : Run) (ha : r.awaiting = none) :
    Relation.ReflTransGen Turn { p with run := some r } (walk fuel p r).2 := by
  induction fuel generalizing p r with
  | zero => exact .refl
  | succ fuel ih =>
    simp only [walk]
    cases hs : p.step r with
    | error e => exact .refl
    | ok x =>
      have hturn : Turn { p with run := some r } (x.withRun (some r)).left := by
        refine .steps rfl (stepped_of_step ha ?_)
        rw [step_withRun, hs]
        rfl
      have hx := step_fits ha hs
      cases x with
      | walk q u => exact .head hturn (ih q u hx)
      | beat b q u => exact .single hturn
      | ended q => exact .single hturn

/-- A call is a chain of turns. -/
theorem advance_turns (fuel : Nat) (s : Option Nat) (p : Playthrough) :
    Relation.ReflTransGen Turn p (p.advance fuel s).2 := by
  cases hr : p.run with
  | none =>
    rw [advance_of_not_running hr]
  | some r =>
    have hp : { p with run := some r } = p := by rw [← hr]
    cases ha : r.awaiting with
    | none =>
      rw [advance_of_walking hr ha]
      simpa only [hp] using walk_turns fuel p r ha
    | some options =>
      rw [advance_of_waiting hr ha]
      cases hs : select s options.length with
      | error e => exact .refl
      | ok index =>
        refine .head (.chooses hr ha (select_lt hs)) ?_
        exact walk_turns fuel p _ (Run.choose_awaiting r options index)

end Playthrough

end Parley.Play
