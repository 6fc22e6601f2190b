import Parley.Play.Playthrough
set_option autoImplicit false

/-!
Walks and the calls that make them.

More steps never change an answer that was reached, a step that fails fails again, and a playthrough
waits for a selection exactly when its last beat was a menu.
-/

namespace Parley.Play

open Body Script

theorem exists_of_bind_eq_ok {ε α β : Type} {x : Except ε α} {f : α → Except ε β} {b : β}
    (h : (x >>= f) = .ok b) : ∃ a, x = .ok a ∧ f a = .ok b := by
  cases x with
  | error e => cases h
  | ok a => exact ⟨a, rfl, h⟩

/-- A beat as a playthrough gives it: nothing is joined to it, and it is not marked as the last. -/
def Beat.Fresh : Beat → Prop
  | .line l => l.last = false
  | .menu m => m.last = false ∧ m.text = none
  | .cue c => c.last = false

namespace Playthrough

def asks (fuel : Nat) : List (Option Nat) → Playthrough → List Answer × Playthrough
  | [], p => ([], p)
  | s :: ss, p => ((p.advance fuel s).1 :: (asks fuel ss (p.advance fuel s).2).1,
      (asks fuel ss (p.advance fuel s).2).2)

def still (p : Playthrough) : Playthrough := { p with run := none }

def beatsOf : List Answer → List Beat
  | [] => []
  | .beat b :: as => b :: beatsOf as
  | _ :: as => beatsOf as

def waits (p : Playthrough) : Bool :=
  p.run.any fun r => r.awaiting.isSome

theorem walk_mono {fuel more : Nat} {p : Playthrough} {r : Run}
    (h : (walk fuel p r).1 ≠ .stalled) (hle : fuel ≤ more) : walk more p r = walk fuel p r := by
  induction fuel generalizing more p r with
  | zero => exact absurd rfl h
  | succ fuel ih =>
    obtain ⟨more, rfl⟩ : ∃ m, more = m + 1 := ⟨more - 1, by omega⟩
    simp only [walk] at h ⊢
    cases hs : p.step r with
    | error e => rfl
    | ok s =>
      cases s with
      | walk q u =>
        simp only [hs] at h
        exact ih h (by omega)
      | beat b q u => rfl
      | ended q => rfl

theorem advance_of_not_running {p : Playthrough} (h : p.run = none) (fuel : Nat) (s : Option Nat) :
    p.advance fuel s = (.ended, p) := by
  simp [advance, h]

theorem advance_of_walking {p : Playthrough} {r : Run} (hr : p.run = some r)
    (ha : r.awaiting = none) (fuel : Nat) (s : Option Nat) : p.advance fuel s = walk fuel p r := by
  simp [advance, hr, ha]

theorem advance_of_waiting {p : Playthrough} {r : Run} {options : List Choice}
    (hr : p.run = some r) (ha : r.awaiting = some options) (fuel : Nat) (s : Option Nat) :
    p.advance fuel s = match select s options.length with
      | .error e => (.failed e, p)
      | .ok i => walk fuel p (Run.choose r options i) := by
  cases hs : select s options.length <;> simp [advance, hr, ha, hs]

theorem advance_mono {fuel more : Nat} {p : Playthrough} {s : Option Nat}
    (h : (p.advance fuel s).1 ≠ .stalled) (hle : fuel ≤ more) :
    p.advance more s = p.advance fuel s := by
  cases hr : p.run with
  | none => rw [advance_of_not_running hr, advance_of_not_running hr]
  | some r =>
    cases ha : r.awaiting with
    | none =>
      rw [advance_of_walking hr ha] at h
      rw [advance_of_walking hr ha, advance_of_walking hr ha, walk_mono h hle]
    | some options =>
      rw [advance_of_waiting hr ha] at h
      rw [advance_of_waiting hr ha, advance_of_waiting hr ha]
      cases hs : select s options.length with
      | error e => rfl
      | ok i =>
        simp only [hs] at h
        exact walk_mono h hle

theorem asks_mono {fuel more : Nat} (ss : List (Option Nat)) {p : Playthrough}
    (h : ∀ a ∈ (p.asks fuel ss).1, a ≠ .stalled) (hle : fuel ≤ more) :
    p.asks more ss = p.asks fuel ss := by
  induction ss generalizing p with
  | nil => rfl
  | cons s ss ih =>
    simp only [asks, List.mem_cons, forall_eq_or_imp] at h ⊢
    rw [advance_mono h.1 hle, ih h.2]

theorem asks_of_not_running {p : Playthrough} (h : p.run = none) (fuel : Nat)
    (ss : List (Option Nat)) : p.asks fuel ss = (ss.map fun _ => .ended, p) := by
  induction ss with
  | nil => rfl
  | cons s ss ih => simp [asks, advance_of_not_running h, ih]

theorem asks_append (fuel : Nat) (ss ts : List (Option Nat)) (p : Playthrough) :
    p.asks fuel (ss ++ ts) = ((p.asks fuel ss).1 ++ ((p.asks fuel ss).2.asks fuel ts).1,
      ((p.asks fuel ss).2.asks fuel ts).2) := by
  induction ss generalizing p with
  | nil => rfl
  | cons s ss ih => simp [asks, ih]

def Step.Fits : Step → Prop
  | .walk _ u => u.awaiting = none
  | .beat b _ u => u.awaiting.isSome = b.isMenu ∧ b.Fresh
  | .ended _ => True

theorem enter_awaiting {p q : Playthrough} {u : Run} {title : Text} (h : p.enter title = .ok (q, u)) :
    u.awaiting = none := by
  unfold enter at h
  split at h
  · simp at h
  · split at h
    · simp at h
    · simp only [Except.ok.injEq, Prod.mk.injEq] at h
      rw [← h.2]

theorem perform_fits {p : Playthrough} {r : Run} {s : Statement} {f : Frame} {below : List Frame}
    {x : Step} (ha : r.awaiting = none) (h : p.perform r s f below = .ok x) : x.Fits := by
  cases s with
  | option o =>
    cases h
    exact ha
  | line parts number hashtags =>
    obtain ⟨text, -, h⟩ := exists_of_bind_eq_ok h
    obtain ⟨y, -, h⟩ := exists_of_bind_eq_ok h
    cases h
    simp [Step.Fits, ha, Beat.isMenu, Beat.Fresh]
  | branch condition body otherwise hashtags =>
    obtain ⟨arm, -, h⟩ := exists_of_bind_eq_ok h
    cases arm with
    | none =>
      cases h
      exact ha
    | some arm =>
      cases h
      exact ha
  | assign name e number hashtags =>
    obtain ⟨q, -, h⟩ := exists_of_bind_eq_ok h
    cases h
    exact ha
  | command parts number hashtags =>
    obtain ⟨text, -, h⟩ := exists_of_bind_eq_ok h
    cases h
    simp [Step.Fits, ha, Beat.isMenu, Beat.Fresh]
  | jump target hashtags =>
    obtain ⟨title, -, h⟩ := exists_of_bind_eq_ok h
    obtain ⟨y, he, h⟩ := exists_of_bind_eq_ok h
    cases h
    exact enter_awaiting he
  | stop hashtags =>
    cases h
    trivial

theorem step_fits {p : Playthrough} {r : Run} {x : Step} (ha : r.awaiting = none)
    (h : p.step r = .ok x) : x.Fits := by
  unfold step at h
  split at h
  · cases h
    trivial
  · split at h
    · obtain ⟨entries, -, h⟩ := exists_of_bind_eq_ok h
      cases h
      simp [Step.Fits, Beat.isMenu, Beat.Fresh]
    · split at h
      · cases h
        exact ha
      · exact perform_fits ha h

section Progress

variable (p : Playthrough) (x : Option Run)

/-! What is in progress has no part in any step. -/

def Step.withRun (x : Option Run) : Step → Step
  | .walk p r => .walk { p with run := x } r
  | .beat b p r => .beat b { p with run := x } r
  | .ended p => .ended { p with run := x }

theorem collect_withRun (number : Nat) (ss : List Statement) :
    collect { p with run := x } number ss = p.collect number ss := by
  have hr (parts : List Part) : render { p with run := x } parts = p.render parts := rfl
  induction ss with
  | nil => rfl
  | cons s ss ih =>
    cases s with
    | line parts n hashtags => simp only [collect, hr, ih]
    | _ => rfl

theorem selectArm_withRun : ∀ o : Otherwise, selectArm { p with run := x } o = p.selectArm o
  | .nothing => rfl
  | .statements _ => rfl
  | .branch condition _ otherwise _ => by
    have he : evaluate { p with run := x } condition = p.evaluate condition := rfl
    simp only [selectArm, he, selectArm_withRun otherwise]

theorem assign_withRun (name : Text) (e : Expr) :
    assign { p with run := x } name e = (p.assign name e).map ({ · with run := x }) := by
  have he : evaluate { p with run := x } e = p.evaluate e := rfl
  simp only [assign, he]
  cases p.evaluate e with
  | error e => rfl
  | ok v =>
    simp only [bind, Except.bind]
    split <;> rfl

theorem enter_withRun (title : Text) :
    enter { p with run := x } title = (p.enter title).map fun y => ({ y.1 with run := x }, y.2) := by
  have hn : node? { p with run := x } title = p.node? title := rfl
  simp only [enter, hn]
  cases p.node? title with
  | none => rfl
  | some node =>
    rcases hp : parse node.body p.declared with ⟨e | statements, declared⟩
    · simp only [hp]
      rfl
    · simp only [hp]
      rfl

theorem jumpTitle_withRun (target : JumpTarget) :
    jumpTitle { p with run := x } target = p.jumpTitle target := by
  cases target <;> rfl

theorem perform_withRun (r : Run) (s : Statement) (f : Frame) (below : List Frame) :
    perform { p with run := x } r s f below = (p.perform r s f below).map (Step.withRun x) := by
  have hr (parts : List Part) : render { p with run := x } parts = p.render parts := rfl
  cases s with
  | option o => rfl
  | line parts number hashtags =>
    simp only [perform, hr, collect_withRun]
    cases p.render parts with
    | error e => rfl
    | ok text => cases p.collect number f.rest <;> rfl
  | branch condition body otherwise hashtags =>
    simp only [perform, selectArm_withRun]
    rcases p.selectArm (.branch condition body otherwise hashtags) with e | _ | arm <;> rfl
  | assign name e number hashtags =>
    simp only [perform, assign_withRun]
    cases p.assign name e <;> rfl
  | command parts number hashtags =>
    simp only [perform, hr]
    cases p.render parts <;> rfl
  | jump target hashtags =>
    simp only [perform, jumpTitle_withRun]
    cases p.jumpTitle target with
    | error e => rfl
    | ok title =>
      simp only [bind, Except.bind, enter_withRun]
      cases p.enter title <;> rfl
  | stop hashtags => rfl

theorem step_withRun (r : Run) :
    step { p with run := x } r = (p.step r).map (Step.withRun x) := by
  have ho : offer { p with run := x } = p.offer := rfl
  unfold step
  cases r.frames with
  | nil => rfl
  | cons f below =>
    simp only [ho]
    split
    · cases f.gathered.mapM p.offer <;> rfl
    · cases f.rest with
      | nil => rfl
      | cons s rest => exact perform_withRun p x r s _ below

end Progress

/-- Answers that a playthrough does not wait after, whatever it was asked before. -/
def Answer.Passing (a : Answer) : Prop :=
  (∀ m, a ≠ .beat (.menu m)) ∧ ∀ e, a ≠ .failed e

/-- What an answer says about the playthrough behind it. A walk that failed stays in front of the step
that failed. -/
def Behind : Answer → Playthrough → Prop
  | .beat b, p => p.waits = b.isMenu
  | .ended, p => p.run = none
  | .failed e, p => p.waits = false ∧ ∀ fuel s, p.advance (fuel + 1) s = (.failed e, p)
  | .stalled, p => p.waits = false

theorem walk_behind (fuel : Nat) (p : Playthrough) (r : Run) (ha : r.awaiting = none) :
    Behind (walk fuel p r).1 (walk fuel p r).2 := by
  induction fuel generalizing p r with
  | zero => simp [walk, Behind, waits, ha]
  | succ fuel ih =>
    simp only [walk]
    cases hs : p.step r with
    | error e =>
      refine ⟨by simp [waits, ha], fun fuel s => ?_⟩
      rw [advance_of_walking rfl ha]
      simp [walk, step_withRun, hs, Except.map]
    | ok x =>
      have hx := step_fits ha hs
      cases x with
      | walk q u => exact ih q u hx
      | beat b q u => simpa [Behind, waits] using hx.1
      | ended q => rfl

theorem walk_fresh {fuel : Nat} {p : Playthrough} {r : Run} {b : Beat} (ha : r.awaiting = none)
    (h : (walk fuel p r).1 = .beat b) : b.Fresh := by
  induction fuel generalizing p r with
  | zero => simp [walk] at h
  | succ fuel ih =>
    simp only [walk] at h
    cases hs : p.step r with
    | error e => simp [hs] at h
    | ok x =>
      have hx := step_fits ha hs
      simp only [hs] at h
      cases x with
      | walk q u => exact ih hx h
      | beat b' q u =>
        simp only [Answer.beat.injEq] at h
        exact h ▸ hx.2
      | ended q => simp at h

@[simp] theorem Run.choose_awaiting (r : Run) (options : List Choice) (i : Nat) :
    (Run.choose r options i).awaiting = none := by
  unfold Run.choose
  split <;> rfl

theorem advance_behind (fuel : Nat) (s : Option Nat) (p : Playthrough) (h : p.waits = false) :
    Behind (p.advance fuel s).1 (p.advance fuel s).2 := by
  cases hr : p.run with
  | none =>
    rw [advance_of_not_running hr]
    exact hr
  | some r =>
    have ha : r.awaiting = none := by simpa [waits, hr] using h
    rw [advance_of_walking hr ha]
    exact walk_behind fuel p r ha

theorem advance_of_waits (fuel : Nat) (s : Option Nat) {p : Playthrough} (h : p.waits = true) :
    (∃ e, p.advance fuel s = (.failed e, p)) ∨ Behind (p.advance fuel s).1 (p.advance fuel s).2 := by
  cases hr : p.run with
  | none => simp [waits, hr] at h
  | some r =>
    cases ha : r.awaiting with
    | none => simp [waits, hr, ha] at h
    | some options =>
      rw [advance_of_waiting hr ha]
      cases hs : select s options.length with
      | error e => exact .inl ⟨e, rfl⟩
      | ok i => exact .inr (walk_behind fuel p _ (Run.choose_awaiting r options i))

/-- Only a selection that is refused leaves a playthrough waiting. -/
theorem behind_of_advance {fuel : Nat} {s : Option Nat} {p : Playthrough}
    (h : p.waits = true → ∀ e, (p.advance fuel s).1 ≠ .failed e) :
    Behind (p.advance fuel s).1 (p.advance fuel s).2 := by
  cases hw : p.waits with
  | false => exact advance_behind fuel s p hw
  | true =>
    rcases advance_of_waits fuel s hw with ⟨e, he⟩ | hb
    · exact absurd (by rw [he]) (h hw e)
    · exact hb

theorem run_of_advance_ended {fuel : Nat} {s : Option Nat} {p : Playthrough}
    (h : (p.advance fuel s).1 = .ended) : (p.advance fuel s).2.run = none := by
  have hb : Behind (p.advance fuel s).1 (p.advance fuel s).2 :=
    behind_of_advance fun _ e => by simp [h]
  rwa [h] at hb

/-- What each call says about the playthrough behind it, the last of some calls says as well. -/
theorem asks_snoc {fuel : Nat} {P : Answer → Playthrough → Prop}
    (hone : ∀ s p, P (advance fuel s p).1 (advance fuel s p).2) {ss : List (Option Nat)}
    {p : Playthrough} {before : List Answer} {a : Answer} (h : (p.asks fuel ss).1 = before ++ [a]) :
    P a (p.asks fuel ss).2 := by
  induction ss generalizing p before with
  | nil => simp [asks] at h
  | cons s ss ih =>
    cases before with
    | nil =>
      simp only [asks, List.nil_append, List.cons.injEq] at h
      cases ss with
      | nil => exact h.1 ▸ hone s p
      | cons s' ss => simp [asks] at h
    | cons x before =>
      simp only [asks, List.cons_append, List.cons.injEq] at h
      exact ih h.2

theorem run_of_asks_ended {fuel : Nat} {ss : List (Option Nat)} {p : Playthrough}
    {before : List Answer} (h : (p.asks fuel ss).1 = before ++ [.ended]) :
    (p.asks fuel ss).2.run = none :=
  asks_snoc (P := fun a q => a = .ended → q.run = none) (fun _ _ => run_of_advance_ended) h rfl

theorem waits_of_behind {a : Answer} {p : Playthrough} (h : Behind a p)
    (hm : ∀ m, a ≠ .beat (.menu m)) : p.waits = false := by
  cases a with
  | beat b =>
    cases b with
    | menu m => exact absurd rfl (hm m)
    | line l => exact h
    | cue c => exact h
  | ended =>
    have hr : p.run = none := h
    simp [waits, hr]
  | failed e => exact h.1
  | stalled => exact h

/-- What the last of some answers says about the playthrough, when no call was made on a menu but
perhaps the first one. -/
theorem asks_behind {fuel : Nat} {ss : List (Option Nat)} {p : Playthrough} {before : List Answer}
    {a : Answer} (h : (p.asks fuel ss).1 = before ++ [a])
    (hm : ∀ x ∈ before, x.Passing) :
    (p.waits = true ∧ before = [] ∧ (∃ e, a = .failed e) ∧ (p.asks fuel ss).2 = p) ∨
      Behind a (p.asks fuel ss).2 := by
  induction ss generalizing p before with
  | nil => simp [asks] at h
  | cons s ss ih =>
    simp only [asks] at h ⊢
    cases before with
    | nil =>
      simp only [List.nil_append, List.cons.injEq] at h
      have hss : ss = [] := by
        cases ss with
        | nil => rfl
        | cons s' ss => simp [asks] at h
      subst hss
      obtain ⟨rfl, _⟩ := h
      cases hw : p.waits with
      | false => exact .inr (advance_behind fuel s p hw)
      | true =>
        rcases advance_of_waits fuel s hw with ⟨e, he⟩ | hb
        · exact .inl ⟨rfl, rfl, ⟨e, by rw [he]⟩, by rw [he]; rfl⟩
        · exact .inr hb
    | cons x before =>
      simp only [List.cons_append, List.cons.injEq] at h
      obtain ⟨rfl, h⟩ := h
      have hx := hm _ (List.mem_cons_self ..)
      have hw := waits_of_behind (behind_of_advance fun _ => hx.2) hx.1
      rcases ih h (fun y hy => hm y (List.mem_cons_of_mem _ hy)) with ⟨hc, _⟩ | h
      · simp [hw] at hc
      · exact .inr h

theorem advance_fresh {fuel : Nat} {s : Option Nat} {p : Playthrough} {b : Beat}
    (h : (p.advance fuel s).1 = .beat b) : b.Fresh := by
  cases hr : p.run with
  | none => simp [advance_of_not_running hr] at h
  | some r =>
    cases ha : r.awaiting with
    | none =>
      rw [advance_of_walking hr ha] at h
      exact walk_fresh ha h
    | some options =>
      rw [advance_of_waiting hr ha] at h
      cases hs : select s options.length with
      | error e => simp [hs] at h
      | ok i =>
        simp only [hs] at h
        exact walk_fresh (Run.choose_awaiting r options i) h

theorem asks_fresh {fuel : Nat} (ss : List (Option Nat)) (p : Playthrough) :
    ∀ b ∈ beatsOf (p.asks fuel ss).1, b.Fresh := by
  induction ss generalizing p with
  | nil => simp [asks, beatsOf]
  | cons s ss ih =>
    simp only [asks]
    cases ha : (p.advance fuel s).1 with
    | beat b =>
      intro x hx
      rcases List.mem_cons.1 hx with rfl | hx
      · exact advance_fresh ha
      · exact ih _ x hx
    | ended => exact ih _
    | failed e => exact ih _
    | stalled => exact ih _

@[simp] theorem beatsOf_append (as bs : List Answer) :
    beatsOf (as ++ bs) = beatsOf as ++ beatsOf bs := by
  induction as with
  | nil => rfl
  | cons a as ih => cases a <;> simp [beatsOf, ih]

@[simp] theorem beatsOf_map_beat (bs : List Beat) : beatsOf (bs.map .beat) = bs := by
  induction bs with
  | nil => rfl
  | cons b bs ih => simp [beatsOf, ih]

end Playthrough

end Parley.Play
