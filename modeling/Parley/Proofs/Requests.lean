import Parley.Proofs.Turns
set_option autoImplicit false

/-!
Everything that a host can ask of a playthrough, one request after the other.

An invariant of turns holds behind every call, and an invariant of requests behind all of them.
-/

namespace Parley.Play

open Body Script

inductive Request where
  | load (nodes : List Node)
  | loadScript (script : Text)
  | start (title : Text)
  | advance (fuel : Nat) (selection : Option Nat)
  | register (name : Text) (f : HostFunction)
  | keepEscapes (keep : Bool)
  /-- The host sets a variable, past all checks. -/
  | write (name : Text) (v : Value)
  /-- The host puts another store in place of the one in use. -/
  | replaceStore (store : Store)

inductive Reply where
  | loaded (result : Except LoadError Unit)
  | started (result : Except RuntimeError Unit)
  | answered (answer : Playthrough.Answer)
  | noted

namespace Request

/-- Requests that are answered by playing. -/
def plays : Request → Bool
  | .start _ | .advance .. => true
  | _ => false

/-- Requests by which the host itself changes variables. -/
def changesStore : Request → Bool
  | .write .. | .replaceStore _ => true
  | _ => false

end Request

def Reply.error? : Reply → Option RuntimeError
  | .started (.error e) => some e
  | .answered (.failed e) => some e
  | _ => none

namespace Playthrough

def serve (p : Playthrough) : Request → Reply × Playthrough
  | .load nodes => (.loaded (p.load nodes).1, (p.load nodes).2)
  | .loadScript script => (.loaded (p.loadScript script).1, (p.loadScript script).2)
  | .start title => (.started (p.start title).1, (p.start title).2)
  | .advance fuel selection =>
    (.answered (p.advance fuel selection).1, (p.advance fuel selection).2)
  | .register name f => (.noted, { p with functions := p.functions.register name f })
  | .keepEscapes keep => (.noted, { p with keepEscapes := keep })
  | .write name v => (.noted, { p with store := p.store.put name v })
  | .replaceStore store => (.noted, { p with store := store })

def replies : List Request → Playthrough → List Reply
  | [], _ => []
  | x :: xs, p => (p.serve x).1 :: replies xs (p.serve x).2

def after : List Request → Playthrough → Playthrough
  | [], p => p
  | x :: xs, p => after xs (p.serve x).2

@[simp] theorem after_append (xs ys : List Request) (p : Playthrough) :
    p.after (xs ++ ys) = (p.after xs).after ys := by
  induction xs generalizing p with
  | nil => rfl
  | cons x xs ih => simp only [List.cons_append, after, ih]

theorem turns_invariant {I : Playthrough → Prop} (hturn : ∀ {p q}, Turn p q → I p → I q)
    {p q : Playthrough} (h : Relation.ReflTransGen Turn p q) (hp : I p) : I q := by
  induction h with
  | refl => exact hp
  | tail _ h ih => exact hturn h ih

theorem after_invariant {I : Playthrough → Prop} (Allowed : Request → Prop)
    (hserve : ∀ {p x}, Allowed x → I p → I (p.serve x).2) {p : Playthrough} {requests : List Request}
    (hallowed : ∀ x ∈ requests, Allowed x) (hp : I p) : I (p.after requests) := by
  induction requests generalizing p with
  | nil => exact hp
  | cons x xs ih =>
    rw [List.forall_mem_cons] at hallowed
    exact ih hallowed.2 (hserve hallowed.1 hp)

/-- A start fails as entering the node does, and gives up the run, or it opens the node. -/
theorem start_cases (p : Playthrough) (title : Text) :
    (∃ e, p.enter title = .error e ∧ p.start title = (.error e, { p with run := none })) ∨
      ∃ node statements declared, p.node? title = some node ∧
        parse node.body p.declared = (.ok statements, declared) ∧
        p.start title =
          (.ok (), { p.entered node declared with run := some (opened node statements) }) := by
  cases h : p.enter title with
  | error e =>
    refine .inl ⟨e, rfl, ?_⟩
    simp only [start, enter_withRun, h, Except.map]
  | ok x =>
    obtain ⟨q, u⟩ := x
    obtain ⟨node, statements, declared, hn, hparse, rfl, rfl⟩ := enter_eq_ok h
    refine .inr ⟨node, statements, declared, hn, hparse, ?_⟩
    simp only [start, enter_withRun, h, Except.map]

@[simp] theorem start_waits (p : Playthrough) (title : Text) : (p.start title).2.waits = false := by
  rcases start_cases p title with ⟨e, -, h⟩ | ⟨node, statements, declared, -, -, h⟩ <;> rw [h] <;> rfl

@[simp] theorem load_run (p : Playthrough) (nodes : List Node) : (p.load nodes).2.run = p.run := by
  unfold load
  split
  · rfl
  · split <;> rfl

theorem serve_run {x : Request} (h : x.plays = false) (p : Playthrough) :
    (p.serve x).2.run = p.run := by
  cases x with
  | start title => cases h
  | advance fuel s => cases h
  | load nodes => exact load_run p nodes
  | loadScript script =>
    simp only [serve, loadScript]
    cases split script with
    | error e => rfl
    | ok nodes => exact load_run p nodes
  | _ => rfl

end Playthrough

end Parley.Play
