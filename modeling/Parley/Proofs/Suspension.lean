import Parley.Proofs.Turns
set_option autoImplicit false

/-!
A call that fails stops in front of the statement that fails.

Everything before that statement is done, in order, and nothing of the statement itself: the next call
meets it again. Whether escapes are kept changes texts only, so that it makes no difference to failures.
-/

namespace Parley.Play

open Body Script

/-- The statements that are done between two positions. A list at its end makes way for the list around
it. -/
inductive Executes : Playthrough → Position → List Statement → Playthrough → Position → Prop
  | nothing {p : Playthrough} {here : Position} : Executes p here [] p here
  | closes {p q : Playthrough} {origin : Origin} {below : List (List Statement)}
      {statements : List Statement} {there : Position}
      (h : Executes p ⟨origin, below⟩ statements q there) :
      Executes p ⟨origin, [] :: below⟩ statements q there
  | does {p q q' : Playthrough} {here there there' : Position} {s : Statement}
      {statements : List Statement} (hd : Does p here s q there)
      (h : Executes q there statements q' there') : Executes p here (s :: statements) q' there'

/-- Errors of the selection, and not of the script. -/
def RuntimeError.isRefusal : RuntimeError → Bool
  | .noSelection | .selectionOutOfRange .. => true
  | _ => false

theorem Cause.not_refusal {p : Playthrough} {err : RuntimeError} (h : Cause p err) :
    err.isRefusal = false := by
  cases h with
  | barred h => cases h <;> rfl
  | _ => rfl

/-! Failures do not depend on escapes. -/

section Failure

variable {ε α β γ : Type}

def failure? : Except ε α → Option ε
  | .error e => some e
  | .ok _ => none

theorem failure?_eq_some {x : Except ε α} {e : ε} : failure? x = some e ↔ x = .error e := by
  cases x <;> simp [failure?]

/-- Two computations that fail alike go on failing alike. -/
theorem failure?_bind {x : Except ε α} {y : Except ε β} {f : α → Except ε γ} {δ : Type}
    {g : β → Except ε δ} (h : failure? x = failure? y) (hfg : ∀ a b, failure? (f a) = failure? (g b)) :
    failure? (x >>= f) = failure? (y >>= g) := by
  cases x with
  | error e =>
    cases y with
    | error e' => exact h
    | ok b => cases h
  | ok a =>
    cases y with
    | error e => cases h
    | ok b => exact hfg a b

@[simp] theorem failure?_map (f : α → β) (x : Except ε α) : failure? (x.map f) = failure? x := by
  cases x <;> rfl

@[simp] theorem failure?_mapError {δ : Type} (f : ε → δ) (x : Except ε α) :
    failure? (x.mapError f) = (failure? x).map f := by
  cases x <;> rfl

theorem failure?_mapM {f g : α → Except ε β} (h : ∀ a, failure? (f a) = failure? (g a)) (xs : List α) :
    failure? (xs.mapM f) = failure? (xs.mapM g) := by
  induction xs with
  | nil => rfl
  | cons x xs ih =>
    rw [List.mapM_cons, List.mapM_cons]
    exact failure?_bind (h x) fun _ _ => failure?_bind ih fun _ _ => rfl

theorem failure?_renderPart (env : Env) (keep keep' : Bool) (part : Part) :
    failure? (renderPart env keep part) = failure? (renderPart env keep' part) := by
  cases part <;> rfl

theorem failure?_renderParts (env : Env) (keep keep' : Bool) (parts : List Part) :
    failure? (render env keep parts) = failure? (render env keep' parts) := by
  induction parts with
  | nil => rfl
  | cons part parts ih =>
    exact failure?_bind (failure?_renderPart env keep keep' part) fun _ _ =>
      failure?_bind ih fun _ _ => rfl

end Failure

namespace Playthrough

section Escapes

variable (p : Playthrough) (keep : Bool)

theorem failure?_render (parts : List Part) :
    failure? (render { p with keepEscapes := keep } parts) = failure? (p.render parts) := by
  unfold render
  rw [failure?_mapError, failure?_mapError]
  exact congrArg _ (failure?_renderParts p.env keep p.keepEscapes parts)

theorem failure?_offer (o : Choice) :
    failure? (offer { p with keepEscapes := keep } o) = failure? (p.offer o) := by
  have he (e : Expr) : evaluate { p with keepEscapes := keep } e = p.evaluate e := rfl
  unfold offer
  cases o.guard with
  | none =>
    exact failure?_bind rfl fun _ _ => failure?_bind (failure?_render p keep o.label) fun _ _ => rfl
  | some condition =>
    exact failure?_bind (congrArg failure? (he condition)) fun _ _ =>
      failure?_bind rfl fun _ _ => failure?_bind (failure?_render p keep o.label) fun _ _ => rfl

theorem failure?_collect (number : Nat) (ss : List Statement) :
    failure? (collect { p with keepEscapes := keep } number ss) = failure? (p.collect number ss) := by
  rw [collect_leadingLines, collect_leadingLines, failure?_map, failure?_map]
  exact failure?_mapM (fun (l : List Part × List Text) => failure?_render p keep l.1) _

theorem selectArm_escapes : ∀ o : Otherwise, selectArm { p with keepEscapes := keep } o = p.selectArm o
  | .nothing => rfl
  | .statements _ => rfl
  | .branch condition _ otherwise _ => by
    have he : evaluate { p with keepEscapes := keep } condition = p.evaluate condition := rfl
    simp only [selectArm, he, selectArm_escapes otherwise]

theorem failure?_assign (name : Text) (e : Expr) :
    failure? (assign { p with keepEscapes := keep } name e) = failure? (p.assign name e) := by
  have he : evaluate { p with keepEscapes := keep } e = p.evaluate e := rfl
  simp only [assign, he]
  cases p.evaluate e with
  | error e => rfl
  | ok v =>
    simp only [bind, Except.bind]
    split <;> rfl

theorem failure?_enter (title : Text) :
    failure? (enter { p with keepEscapes := keep } title) = failure? (p.enter title) := by
  have hn : node? { p with keepEscapes := keep } title = p.node? title := rfl
  simp only [enter, hn]
  cases p.node? title with
  | none => rfl
  | some node =>
    rcases hp : parse node.body p.declared with ⟨e | statements, declared⟩
    · simp only [hp]
    · simp only [hp]
      rfl

theorem failure?_perform (r : Run) (s : Statement) (f : Frame) (below : List Frame) :
    failure? (perform { p with keepEscapes := keep } r s f below) =
      failure? (p.perform r s f below) := by
  cases s with
  | option o => rfl
  | line parts number hashtags =>
    exact failure?_bind (failure?_render p keep parts) fun _ _ =>
      failure?_bind (failure?_collect p keep number f.rest) fun _ _ => rfl
  | branch condition body otherwise hashtags =>
    simp only [perform, selectArm_escapes]
    refine failure?_bind rfl fun arm arm' => ?_
    cases arm <;> cases arm' <;> rfl
  | assign name e number hashtags =>
    exact failure?_bind (failure?_assign p keep name e) fun _ _ => rfl
  | command parts number hashtags =>
    exact failure?_bind (failure?_render p keep parts) fun _ _ => rfl
  | jump target hashtags =>
    have ht : jumpTitle { p with keepEscapes := keep } target = p.jumpTitle target := by
      cases target <;> rfl
    simp only [perform, ht]
    cases p.jumpTitle target with
    | error e => rfl
    | ok title =>
      show failure? (enter { p with keepEscapes := keep } title >>= _) = failure? (p.enter title >>= _)
      exact failure?_bind (failure?_enter p keep title) fun _ _ => rfl
  | stop hashtags => rfl

theorem failure?_step (r : Run) :
    failure? (step { p with keepEscapes := keep } r) = failure? (p.step r) := by
  unfold step
  cases r.frames with
  | nil => rfl
  | cons f below =>
    dsimp only
    split
    · exact failure?_bind (failure?_mapM (failure?_offer p keep) f.gathered) fun _ _ => rfl
    · cases f.rest with
      | nil => rfl
      | cons s rest => exact failure?_perform p keep r s _ below

end Escapes

/-- Where a call goes on: at the point where it stopped, or in the body of the option that is chosen. -/
inductive Resumes (p : Playthrough) : Option Nat → Position → Prop
  | walking {s : Option Nat} {r : Run} (hr : p.run = some r) (ha : r.awaiting = none) :
      Resumes p s r.position
  | chosen {index : Nat} {r : Run} {options : List Choice} {o : Choice} (hr : p.run = some r)
      (ha : r.awaiting = some options) (ho : options[index]? = some o) :
      Resumes p (some index) ⟨r.origin, o.body.toList ++ r.position.lists⟩

theorem choose_position {r : Run} {options : List Choice} {index : Nat} {o : Choice}
    (ho : options[index]? = some o) :
    (Run.choose r options index).position = ⟨r.origin, o.body.toList ++ r.position.lists⟩ := by
  unfold Run.choose
  rw [ho]
  cases hb : o.body with
  | none => simp [hb, Run.position]
  | some body => simp [hb, Run.position, Frame.left]

/-- A call that went on from a position was cut short by an error: the statements before the one that
fails are done, and every further call fails in the same way and changes nothing. -/
def Suspended (p : Playthrough) (here : Position) (e : RuntimeError) (p' : Playthrough) : Prop :=
  ∃ statements q u, Executes p here statements q u.position ∧ Fails q u.position e ∧
    u.awaiting = none ∧ p' = { q with run := some u } ∧
    ∀ keep fuel s, advance (fuel + 1) s { p' with keepEscapes := keep } =
      (.failed e, { p' with keepEscapes := keep })

/-- A walk that fails has done the statements before the one that fails. -/
theorem walk_executes {fuel : Nat} {p p' : Playthrough} {r : Run} {e : RuntimeError}
    (ha : r.awaiting = none) (h : walk fuel p r = (.failed e, p')) :
    ∃ statements q u, Executes p r.position statements q u.position ∧ q.step u = .error e ∧
      u.awaiting = none ∧ p' = { q with run := some u } := by
  induction fuel generalizing p r with
  | zero => cases h
  | succ fuel ih =>
    simp only [walk] at h
    cases hs : p.step r with
    | error e' =>
      rw [hs] at h
      cases h
      exact ⟨[], p, r, .nothing, hs, ha, rfl⟩
    | ok x =>
      rw [hs] at h
      cases stepped_of_step ha hs with
      | gathers hu ha' =>
        obtain ⟨statements, q, u, hexec, hrest⟩ := ih ha' h
        exact ⟨statements, q, u, hu ▸ hexec, hrest⟩
      | closes hfrom hto ha' =>
        obtain ⟨statements, q, u, hexec, hrest⟩ := ih ha' h
        rw [hto] at hexec
        rw [hfrom]
        exact ⟨statements, q, u, .closes hexec, hrest⟩
      | does hfrom hd ha' =>
        obtain ⟨statements, q, u, hexec, hrest⟩ := ih ha' h
        rw [hfrom]
        exact ⟨_, q, u, .does hd hexec, hrest⟩
      | gives hfrom hto ha' => cases h
      | ends => cases h

/-- In front of a step that fails, every call fails in the same way and changes nothing. -/
theorem advance_of_step_eq_error {q : Playthrough} {u : Run} {e : RuntimeError}
    (h : q.step u = .error e) (ha : u.awaiting = none) (keep : Bool) (fuel : Nat) (s : Option Nat) :
    advance (fuel + 1) s { q with run := some u, keepEscapes := keep } =
      (.failed e, { q with run := some u, keepEscapes := keep }) := by
  have hstep : step { q with run := some u, keepEscapes := keep } u = .error e := by
    rw [← failure?_eq_some, failure?_step { q with run := some u } keep, step_withRun, h]
    rfl
  rw [advance_of_walking rfl ha, walk, hstep]

theorem walk_suspended {fuel : Nat} {p p' : Playthrough} {r : Run} {e : RuntimeError}
    (ha : r.awaiting = none) (h : walk fuel p r = (.failed e, p')) :
    e.isRefusal = false ∧ Suspended p r.position e p' := by
  obtain ⟨statements, q, u, hexec, hstep, hu, rfl⟩ := walk_executes ha h
  have hfails : Fails q u.position e := fails_of_step hstep
  have hretry := advance_of_step_eq_error hstep hu
  exact ⟨hfails.cause.not_refusal, statements, q, u, hexec, hfails, hu, rfl, hretry⟩

theorem select_eq_error {s : Option Nat} {count : Nat} {e : RuntimeError}
    (h : select s count = .error e) : e.isRefusal = true := by
  unfold select at h
  split at h
  · cases h
    rfl
  · split at h
    · cases h
    · cases h
      rfl

theorem select_eq_ok {s : Option Nat} {count index : Nat} (h : select s count = .ok index) :
    s = some index := by
  unfold select at h
  split at h
  · cases h
  · split at h
    · cases h
      rfl
    · cases h

theorem advance_eq_failed {fuel : Nat} {s : Option Nat} {p p' : Playthrough} {e : RuntimeError}
    (h : p.advance fuel s = (.failed e, p')) :
    e.isRefusal = true ∧ p' = p ∨
      e.isRefusal = false ∧ ∃ here, Resumes p s here ∧ Suspended p here e p' := by
  cases hr : p.run with
  | none =>
    rw [advance_of_not_running hr] at h
    cases h
  | some r =>
    cases ha : r.awaiting with
    | none =>
      rw [advance_of_walking hr ha] at h
      obtain ⟨hrefusal, hsuspended⟩ := walk_suspended ha h
      exact .inr ⟨hrefusal, r.position, .walking hr ha, hsuspended⟩
    | some options =>
      rw [advance_of_waiting hr ha] at h
      cases hs : select s options.length with
      | error e' =>
        rw [hs] at h
        cases h
        exact .inl ⟨select_eq_error hs, rfl⟩
      | ok index =>
        rw [hs] at h
        obtain rfl := select_eq_ok hs
        obtain ⟨hrefusal, hsuspended⟩ := walk_suspended (Run.choose_awaiting r options index) h
        obtain ⟨o, ho⟩ : ∃ o, options[index]? = some o := ⟨_, List.getElem?_eq_getElem (select_lt hs)⟩
        rw [choose_position ho] at hsuspended
        exact .inr ⟨hrefusal, _, .chosen hr ha ho, hsuspended⟩

/-- A call that refuses a selection changes nothing. Any other call that fails has done the statements in
front of the one that fails, and stays in front of it. -/
theorem advance_suspends {fuel : Nat} {s : Option Nat} {p : Playthrough} {e : RuntimeError}
    (h : (p.advance fuel s).1 = .failed e) :
    (e.isRefusal = true → (p.advance fuel s).2 = p) ∧
      (e.isRefusal = false →
        ∃ here, Resumes p s here ∧ Suspended p here e (p.advance fuel s).2) := by
  rcases advance_eq_failed (Prod.ext h rfl) with ⟨hrefusal, hkept⟩ | ⟨hrefusal, hsuspended⟩
  · exact ⟨fun _ => hkept, by simp [hrefusal]⟩
  · exact ⟨by simp [hrefusal], fun _ => hsuspended⟩

def unsettled : Node :=
  ⟨"A".toList, [], "-> Go\n    <<set $x = true>>\n    <<if $x>>\n    {$y}\n    <<endif>>".toList⟩

def offered : Playthrough :=
  (((empty.load [unsettled]).2.start "A".toList).2.advance 5 none).2

theorem advance_suspends_offered :
    ((offered.advance 5 none).1 = .failed .noSelection ∧ (offered.advance 5 none).2 = offered) ∧
    (offered.advance 5 (some 0)).1 = .failed (.evaluation (.undefinedVariable "y".toList)) ∧
      ∃ here, Resumes offered (some 0) here ∧
        Suspended offered here (.evaluation (.undefinedVariable "y".toList))
          (offered.advance 5 (some 0)).2 := by
  have hnone : (offered.advance 5 none).1 = .failed .noSelection := by decide +kernel
  have hsome : (offered.advance 5 (some 0)).1 =
      .failed (.evaluation (.undefinedVariable "y".toList)) := by decide +kernel
  have hkept := (advance_suspends hnone).1 rfl
  have hsuspended := (advance_suspends hsome).2 rfl
  exact ⟨⟨hnone, hkept⟩, hsome, hsuspended⟩

end Playthrough

end Parley.Play
