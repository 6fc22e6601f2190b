import Parley.Proofs.Loading
set_option autoImplicit false

/-!
Variables keep their kinds.

Values are written by assignments, which compare kinds, and by declarations, which only write variables
that have no value. Neither can change the kind of a value other than null.
-/

namespace Parley.Play

open Body Script

/-- Every variable of the first store has a value in the second one, of the same kind unless it was
null. -/
def Store.Keeps (store later : Store) : Prop :=
  ∀ name v, store.get? name = some v →
    ∃ w, later.get? name = some w ∧ (v.kind ≠ .null → w.kind = v.kind)

namespace Store

theorem Keeps.refl (store : Store) : store.Keeps store :=
  fun _ v hv => ⟨v, hv, fun _ => rfl⟩

theorem Keeps.trans {store later last : Store} (h : store.Keeps later) (h' : later.Keeps last) :
    store.Keeps last := by
  intro name v hv
  obtain ⟨w, hw, hkind⟩ := h name v hv
  obtain ⟨x, hx, hkind'⟩ := h' name w hw
  refine ⟨x, hx, fun hnull => ?_⟩
  have hsame : w.kind = v.kind := hkind hnull
  rw [← hsame] at hnull ⊢
  exact hkind' hnull

theorem keeps_put {store : Store} {name : Text} {v : Value} (h : store.Takes name v) :
    store.Keeps (store.put name v) := by
  intro other w hw
  by_cases hname : name = other
  · subst hname
    exact ⟨v, Table.get?_put_self store name v, fun hnull => ((h w hw).resolve_left hnull).symm⟩
  · exact ⟨w, (Table.get?_put_ne store v hname).trans hw, fun _ => rfl⟩

theorem keeps_commit {store : Store} {functions : Functions} {ds : List Declaration} {staged : Staged}
    (h : stage store functions [] ds = .ok staged) : store.Keeps (staged.commit store) :=
  fun _ v hv => ⟨v, get?_of_stage h hv, fun _ => rfl⟩

end Store

theorem Does.keeps {p q : Playthrough} {here there : Position} {s : Statement}
    (h : Does p here s q there) : p.store.Keeps q.store := by
  cases h with
  | assign hv hk => exact Store.keeps_put hk
  | branch ha => exact .refl p.store
  | jump ht hn hparse => exact .refl p.store

namespace Playthrough

theorem Turn.keeps {p q : Playthrough} (h : Turn p q) : p.store.Keeps q.store := by
  cases h with
  | chooses => exact .refl p.store
  | steps hr hs =>
    cases hs with
    | does hfrom hd ha => exact hd.keeps
    | _ => exact .refl p.store

theorem load_keeps (p : Playthrough) (nodes : List Node) : p.store.Keeps (p.load nodes).2.store := by
  unfold load
  split
  · exact .refl p.store
  · split
    · exact .refl p.store
    · rename_i staged hseed
      exact Store.keeps_commit (stage_of_seed hseed)

@[simp] theorem start_store (p : Playthrough) (title : Text) : (p.start title).2.store = p.store := by
  rcases p.start_cases title with ⟨e, -, hstart⟩ | ⟨node, statements, declared, -, -, hstart⟩
  · rw [hstart]
  · rw [hstart]
    rfl

theorem serve_keeps {p : Playthrough} {x : Request} (h : x.changesStore = false) :
    p.store.Keeps (p.serve x).2.store := by
  cases x with
  | load nodes => exact p.load_keeps nodes
  | loadScript script =>
    simp only [serve, loadScript]
    split
    · exact .refl p.store
    · exact p.load_keeps _
  | start title =>
    simp only [serve, start_store]
    exact .refl p.store
  | advance fuel s =>
    have hturn : ∀ {q q' : Playthrough}, Turn q q' → p.store.Keeps q.store → p.store.Keeps q'.store :=
      fun hq hkeeps => hkeeps.trans hq.keeps
    exact turns_invariant hturn (advance_turns fuel s p) (.refl p.store)
  | register name f => exact .refl p.store
  | keepEscapes keep => exact .refl p.store
  | write name v => cases h
  | replaceStore store => cases h

theorem after_keeps {requests : List Request} (h : ∀ x ∈ requests, x.changesStore = false)
    (p : Playthrough) : p.store.Keeps (p.after requests).store := by
  induction requests generalizing p with
  | nil => exact .refl p.store
  | cons x xs ih =>
    rw [List.forall_mem_cons] at h
    exact (serve_keeps h.1).trans (ih h.2 (p.serve x).2)

/-- A variable never loses its value, and a value other than null never changes its kind, as long as the
host does not write variables itself. -/
theorem kinds_stable (p : Playthrough) (earlier later : List Request)
    (h : ∀ x ∈ later, x.changesStore = false) (name : Text) (v : Value)
    (hv : (p.after earlier).store.get? name = some v) :
    ∃ w, (p.after (earlier ++ later)).store.get? name = some w ∧
      (v.kind ≠ .null → w.kind = v.kind) := by
  rw [after_append]
  exact after_keeps h (p.after earlier) name v hv

/-- The second assignment fails each time, and the declaration of a later node comes too late. -/
def wavering : List Node :=
  [⟨"A".toList, [], "<<declare $x = true>>\n<<set $x = false>>\n<<set $x = \"no\">>".toList⟩]

def insisting : List Request :=
  [.start "A".toList, .advance 9 none, .advance 9 (some 0),
    .loadScript "title: B\n---\n<<declare $x = \"no\">>\n===".toList]

theorem kinds_stable_wavering :
    (empty.after [.load wavering]).store.get? "x".toList = some (.bool true) ∧
      ∃ w, (empty.after ([.load wavering] ++ insisting)).store.get? "x".toList = some w ∧
        w.kind = .bool := by
  have hload : (empty.after [.load wavering]).store.get? "x".toList = some (.bool true) := by
    decide +kernel
  obtain ⟨w, hw, hkind⟩ := kinds_stable empty [.load wavering] insisting (by decide) "x".toList
    (.bool true) hload
  exact ⟨hload, w, hw, hkind (by decide)⟩

end Playthrough

end Parley.Play
