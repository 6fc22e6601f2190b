import Mathlib.Algebra.Order.Group.Multiset
import Mathlib.Tactic.Abel
import Parley.Proofs.Requests
set_option autoImplicit false

/-!
A node without jumps comes to its end.

Everything that a run can still come to is already in its lists: the statements that are left, and the
bodies of the options that were gathered or that wait for a selection. A step takes the statements that
it does out of them and puts nothing back, so that each statement is done at most once. What a step may
add is a list to walk through, which is paid for by the statement that leads to it.
-/

namespace Parley.Body

mutual

/-- A statement and all the statements inside it. -/
def Statement.within : Statement → Multiset Statement
  | .option o => .option o ::ₘ o.within
  | .branch condition body otherwise hashtags =>
    .branch condition body otherwise hashtags ::ₘ (withinAll body + otherwise.within)
  | .line parts number hashtags => {.line parts number hashtags}
  | .assign name value number hashtags => {.assign name value number hashtags}
  | .command parts number hashtags => {.command parts number hashtags}
  | .jump target hashtags => {.jump target hashtags}
  | .stop hashtags => {.stop hashtags}

def Choice.within : Choice → Multiset Statement
  | ⟨_, _, body, _, _⟩ => withinBody body

def Otherwise.within : Otherwise → Multiset Statement
  | .nothing => 0
  | .statements body => withinAll body
  | .branch _ body otherwise _ => withinAll body + otherwise.within

def withinAll : List Statement → Multiset Statement
  | [] => 0
  | s :: ss => s.within + withinAll ss

def withinBody : Option (List Statement) → Multiset Statement
  | none => 0
  | some body => withinAll body

end

def Statement.isJump : Statement → Bool
  | .jump .. => true
  | _ => false

def JumpFree (ss : Multiset Statement) : Prop :=
  ∀ s ∈ ss, s.isJump = false

instance (ss : Multiset Statement) : Decidable (JumpFree ss) :=
  inferInstanceAs (Decidable (∀ s ∈ ss, s.isJump = false))

theorem JumpFree.of_le {ss ss' : Multiset Statement} (h : JumpFree ss) (hle : ss' ≤ ss) : JumpFree ss' :=
  fun s hs => h s (Multiset.mem_of_le hle hs)

theorem Choice.within_eq (o : Choice) : o.within = o.body.elim 0 withinAll := by
  obtain ⟨label, guard, body, number, hashtags⟩ := o
  cases body <;> simp [Choice.within, withinBody]

end Parley.Body

namespace Parley.Play

open Body Script

def bodies (options : List Choice) : Multiset Statement :=
  (options.map Choice.within).sum

def Frame.ahead (f : Frame) : Multiset Statement :=
  bodies f.gathered + withinAll f.rest

def Frame.menus (f : Frame) : Nat :=
  if f.gathered.isEmpty then 0 else 1

namespace Run

def ahead (r : Run) : Multiset Statement :=
  bodies (r.awaiting.getD []) + (r.frames.map Frame.ahead).sum

def menus (r : Run) : Nat :=
  (r.frames.map Frame.menus).sum

/-- What steps are made for besides statements: lists that end, menus to offer and selections to take. -/
def lists (r : Run) : Nat :=
  r.frames.length + r.menus + r.awaiting.elim 0 fun _ => 1

def stepsLeft (r : Run) : Nat :=
  2 * r.ahead.card + r.lists

def beatsLeft (r : Run) : Nat :=
  r.ahead.card + r.menus

end Run

/-- The statements that are done together with the first one of a list: lines that stand together. -/
def doneWith (rest : List Statement) : Statement → List Statement
  | .line parts number hashtags =>
    .line parts number hashtags :: rest.take (leadingLines number rest).length
  | s => [s]

/-- The statements that the next step does if it succeeds. An option is done when it is gathered. -/
def Run.due (r : Run) : List Statement :=
  match r.frames with
  | [] => []
  | frame :: _ =>
    if !frame.gathered.isEmpty && !Playthrough.startsWithOption frame.rest then []
    else match frame.rest with
      | [] => []
      | s :: rest => doneWith rest s

/-! The innermost list of a run. -/

@[simp] theorem bodies_append (os os' : List Choice) : bodies (os ++ os') = bodies os + bodies os' := by
  simp [bodies]

@[simp] theorem bodies_singleton (o : Choice) : bodies [o] = o.within := by
  simp [bodies]

section Innermost

variable (origin : Origin) (fs below : List Frame) (awaiting : Option (List Choice))

theorem Run.ahead_append : (⟨origin, fs ++ below, awaiting⟩ : Run).ahead =
    (fs.map Frame.ahead).sum + (⟨origin, below, awaiting⟩ : Run).ahead := by
  simp only [Run.ahead, List.map_append, List.sum_append]
  abel

theorem Run.menus_append : (⟨origin, fs ++ below, awaiting⟩ : Run).menus =
    (fs.map Frame.menus).sum + (⟨origin, below, awaiting⟩ : Run).menus := by
  simp [Run.menus]

theorem Run.lists_append : (⟨origin, fs ++ below, awaiting⟩ : Run).lists =
    fs.length + (fs.map Frame.menus).sum + (⟨origin, below, awaiting⟩ : Run).lists := by
  simp only [Run.lists, Run.menus_append, List.length_append]
  omega

end Innermost

theorem Frame.menus_le_one (f : Frame) : f.menus ≤ 1 := by
  unfold Frame.menus
  split <;> omega

/-! The statements of a list. -/

@[simp] theorem withinAll_append (ss ss' : List Statement) :
    withinAll (ss ++ ss') = withinAll ss + withinAll ss' := by
  induction ss with
  | nil => simp [withinAll]
  | cons s ss ih => simp only [List.cons_append, withinAll, ih, add_assoc]

theorem withinAll_lines (number : Nat) (ss : List Statement) :
    withinAll (ss.take (leadingLines number ss).length) = ↑(ss.take (leadingLines number ss).length) := by
  induction ss with
  | nil => rfl
  | cons s ss ih =>
    cases s with
    | line parts n hashtags =>
      by_cases hn : n = number
      · simp only [leadingLines, if_pos hn, List.length_cons, List.take_succ_cons, withinAll, ih,
          Statement.within, ← Multiset.cons_coe, Multiset.singleton_add]
      · simp [leadingLines, hn, withinAll]
    | _ => simp [leadingLines, withinAll]

/-- The statements that are done stand in front of those that are left. -/
theorem doneWith_line (parts : List Part) (number : Nat) (hashtags : List Text) (rest : List Statement) :
    ↑(doneWith rest (.line parts number hashtags)) +
        withinAll (rest.drop (leadingLines number rest).length) =
      withinAll (.line parts number hashtags :: rest) := by
  rw [doneWith, ← Multiset.cons_coe, ← withinAll_lines, Multiset.cons_add, ← withinAll_append,
    List.take_append_drop, withinAll, Statement.within, Multiset.singleton_add]

theorem singleton_le_within (s : Statement) : {s} ≤ s.within := by
  cases s <;> simp [Statement.within]

theorem within_selectArm {p : Playthrough} : ∀ {o : Otherwise} {arm : List Statement},
    p.selectArm o = .ok (some arm) → withinAll arm ≤ o.within
  | .nothing, _, h => by cases h
  | .statements body, _, h => by
    cases h
    rw [Otherwise.within]
  | .branch condition body otherwise _, arm, h => by
    obtain ⟨v, -, h⟩ := exists_of_bind_eq_ok h
    rw [Otherwise.within]
    split at h
    · cases h
      exact Multiset.le_add_right _ _
    · exact le_trans (within_selectArm h) (Multiset.le_add_left _ _)

namespace Playthrough

def ahead (p : Playthrough) : Multiset Statement :=
  p.run.elim 0 Run.ahead

def stepsLeft (p : Playthrough) : Nat :=
  p.run.elim 0 Run.stepsLeft

def beatsLeft (p : Playthrough) : Nat :=
  p.run.elim 0 Run.beatsLeft

/-- From one playthrough to another some statements are done and some beats are given, and all of them
are taken out of what was ahead. -/
structure Spends (p : Playthrough) (done : List Statement) (beats : Nat) (q : Playthrough) : Prop where
  ahead : ↑done + q.ahead ≤ p.ahead
  stepsLeft : q.stepsLeft ≤ p.stepsLeft
  beatsLeft : beats + q.beatsLeft ≤ p.beatsLeft

@[simp] theorem spends_refl (p : Playthrough) : Spends p [] 0 p :=
  ⟨by simp, Nat.le_refl _, by simp⟩

theorem Spends.trans {p q q' : Playthrough} {done done' : List Statement} {n n' : Nat}
    (h : Spends p done n q) (h' : Spends q done' n' q') : Spends p (done ++ done') (n + n') q' where
  ahead := by
    calc ↑(done ++ done') + q'.ahead = ↑done + (↑done' + q'.ahead) := by
          rw [← Multiset.coe_add, add_assoc]
      _ ≤ ↑done + q.ahead := by gcongr; exact h'.ahead
      _ ≤ p.ahead := h.ahead
  stepsLeft := Nat.le_trans h'.stepsLeft h.stepsLeft
  beatsLeft := by
    have := h.beatsLeft
    have := h'.beatsLeft
    omega

theorem Spends.jumpFree {p q : Playthrough} {done : List Statement} {n : Nat} (h : Spends p done n q)
    (hp : JumpFree p.ahead) : JumpFree q.ahead :=
  hp.of_le (le_trans (Multiset.le_add_left _ _) h.ahead)

/-- What a step that does some statements costs. A step that gives no beat leaves fewer steps, and one
that gives a beat leaves fewer beats. -/
inductive Spent (r : Run) (done : List Statement) : Step → Prop
  | walks {q : Playthrough} {u : Run} (hahead : ↑done + u.ahead ≤ r.ahead)
      (hlists : u.lists < r.lists + 2 * done.length) (hmenus : u.menus ≤ r.menus + done.length) :
      Spent r done (.walk q u)
  | gives {b : Beat} {q : Playthrough} {u : Run} (hahead : ↑done + u.ahead ≤ r.ahead)
      (hlists : u.lists ≤ r.lists + 2 * done.length) (hmenus : u.menus < r.menus + done.length) :
      Spent r done (.beat b q u)
  | ends {q : Playthrough} (hahead : ↑done ≤ r.ahead) : Spent r done (.ended q)

theorem rest_of_collect {p : Playthrough} {number : Nat} {ss rest : List Statement} {texts : Text}
    {more : List Text} (h : p.collect number ss = .ok (texts, more, rest)) :
    rest = ss.drop (leadingLines number ss).length := by
  rw [collect_leadingLines] at h
  cases hm : (leadingLines number ss).mapM fun l => p.render l.1 with
  | error e =>
    rw [hm] at h
    cases h
  | ok rendered =>
    rw [hm] at h
    cases h
    rfl

section Perform

variable {p : Playthrough} {r : Run} {s : Statement} {rest : List Statement} {gathered : List Choice}
  {below : List Frame}

theorem spent_of_frames {origin : Origin} {f : Frame} (fs : List Frame) {done : List Statement}
    (hahead : ↑done + (fs.map Frame.ahead).sum ≤ f.ahead)
    (hlists : fs.length + (fs.map Frame.menus).sum < 1 + f.menus + 2 * done.length)
    (hmenus : (fs.map Frame.menus).sum ≤ f.menus + done.length) :
    Spent ⟨origin, f :: below, none⟩ done (.walk p ⟨origin, fs ++ below, none⟩) := by
  rw [← List.singleton_append]
  refine .walks ?_ ?_ ?_
  · rw [Run.ahead_append, Run.ahead_append, ← add_assoc, List.map_singleton, List.sum_singleton]
    gcongr
  · rw [Run.lists_append, Run.lists_append, List.map_singleton, List.sum_singleton, List.length_singleton]
    omega
  · rw [Run.menus_append, Run.menus_append, List.map_singleton, List.sum_singleton]
    omega

/-- A beat that is made of the first statements of the innermost list. -/
theorem spent_of_rest {origin : Origin} {b : Beat} {left done : List Statement}
    (hahead : ↑done + withinAll left = withinAll rest) (hdone : 0 < done.length) :
    Spent ⟨origin, ⟨rest, gathered⟩ :: below, none⟩ done
      (.beat b p ⟨origin, ⟨left, gathered⟩ :: below, none⟩) := by
  have hkept : (⟨left, gathered⟩ : Frame).menus = (⟨rest, gathered⟩ : Frame).menus := rfl
  rw [← List.singleton_append, ← List.singleton_append (l := below)]
  refine .gives ?_ ?_ ?_
  · rw [Run.ahead_append, Run.ahead_append, ← add_assoc]
    gcongr
    simp only [List.map_singleton, List.sum_singleton, Frame.ahead, ← hahead]
    rw [add_left_comm]
  · simp only [Run.lists_append, List.map_singleton, List.sum_singleton, List.length_singleton, hkept]
    omega
  · simp only [Run.menus_append, List.map_singleton, List.sum_singleton, hkept]
    omega

/-- A statement with nothing inside, or nothing that is done, leaves the rest of its list. -/
theorem spent_of_walk {origin : Origin} :
    Spent ⟨origin, ⟨s :: rest, gathered⟩ :: below, none⟩ [s]
      (.walk p ⟨origin, ⟨rest, gathered⟩ :: below, none⟩) := by
  have hkept : (⟨s :: rest, gathered⟩ : Frame).menus = (⟨rest, gathered⟩ : Frame).menus := rfl
  refine spent_of_frames [⟨rest, gathered⟩] ?_ ?_ ?_
  · simp only [List.map_singleton, List.sum_singleton, Frame.ahead, withinAll, Multiset.coe_singleton]
    rw [add_left_comm]
    gcongr
    exact singleton_le_within s
  · simp only [List.map_singleton, List.sum_singleton, List.length_singleton, hkept]
    omega
  · simp only [List.map_singleton, List.sum_singleton, hkept]
    omega

theorem spent_of_option {origin : Origin} {o : Choice} :
    Spent ⟨origin, ⟨.option o :: rest, gathered⟩ :: below, none⟩ [.option o]
      (.walk p ⟨origin, ⟨rest, gathered ++ [o]⟩ :: below, none⟩) := by
  have hmenus := Frame.menus_le_one ⟨rest, gathered ++ [o]⟩
  refine spent_of_frames [⟨rest, gathered ++ [o]⟩] (le_of_eq ?_) ?_ ?_
  · simp only [List.map_singleton, List.sum_singleton, Frame.ahead, bodies_append, bodies_singleton,
      withinAll, Statement.within, ← Multiset.singleton_add, Multiset.coe_singleton]
    abel
  · simp only [List.map_singleton, List.sum_singleton, List.length_singleton]
    omega
  · simp only [List.map_singleton, List.sum_singleton, List.length_singleton]
    omega

theorem spent_of_arm {origin : Origin} {condition : Expr} {body arm : List Statement}
    {otherwise : Otherwise} {hashtags : List Text}
    (harm : p.selectArm (.branch condition body otherwise hashtags) = .ok (some arm)) :
    Spent ⟨origin, ⟨.branch condition body otherwise hashtags :: rest, gathered⟩ :: below, none⟩
      [.branch condition body otherwise hashtags]
      (.walk p ⟨origin, ⟨arm, []⟩ :: ⟨rest, gathered⟩ :: below, none⟩) := by
  have hle := within_selectArm harm
  simp only [Otherwise.within] at hle
  have hkept : (⟨.branch condition body otherwise hashtags :: rest, gathered⟩ : Frame).menus =
      (⟨rest, gathered⟩ : Frame).menus := rfl
  have hnone : (⟨arm, []⟩ : Frame).menus = 0 := rfl
  refine spent_of_frames [⟨arm, []⟩, ⟨rest, gathered⟩] ?_ ?_ ?_
  · have hahead : (⟨arm, []⟩ : Frame).ahead = withinAll arm := by simp [Frame.ahead, bodies]
    simp only [List.map_cons, List.map_nil, List.sum_cons, List.sum_nil, add_zero, hahead]
    simp only [Frame.ahead, withinAll, Statement.within, ← Multiset.singleton_add, Multiset.coe_singleton]
    -- The arm comes to the front, where the whole conditional stood.
    rw [add_left_comm (bodies gathered), ← add_assoc]
    gcongr
  · simp only [List.map_cons, List.map_nil, List.sum_cons, List.sum_nil, List.length_cons,
      List.length_nil, hkept, hnone]
    omega
  · simp only [List.map_cons, List.map_nil, List.sum_cons, List.sum_nil, hkept, hnone]
    omega

theorem spent_of_perform {x : Step} (ha : r.awaiting = none)
    (hr : r.frames = ⟨s :: rest, gathered⟩ :: below) (hjump : s.isJump = false)
    (h : p.perform r s ⟨rest, gathered⟩ below = .ok x) : Spent r (doneWith rest s) x := by
  obtain ⟨origin, frames, awaiting⟩ := r
  cases hr
  cases ha
  cases s with
  | option o =>
    cases h
    exact spent_of_option
  | line parts number hashtags =>
    obtain ⟨text, -, h⟩ := exists_of_bind_eq_ok h
    obtain ⟨⟨texts, more, left⟩, hcollect, h⟩ := exists_of_bind_eq_ok h
    cases h
    obtain rfl := rest_of_collect hcollect
    exact spent_of_rest (doneWith_line parts number hashtags rest) (Nat.succ_pos _)
  | branch condition body otherwise hashtags =>
    obtain ⟨arm, harm, h⟩ := exists_of_bind_eq_ok h
    cases arm with
    | none =>
      cases h
      exact spent_of_walk
    | some arm =>
      cases h
      exact spent_of_arm harm
  | assign name e number hashtags =>
    obtain ⟨q, -, h⟩ := exists_of_bind_eq_ok h
    cases h
    exact spent_of_walk
  | command parts number hashtags =>
    obtain ⟨text, -, h⟩ := exists_of_bind_eq_ok h
    cases h
    exact spent_of_rest rfl Nat.zero_lt_one
  | jump target hashtags => cases hjump
  | stop hashtags =>
    cases h
    refine .ends ?_
    simp [Run.ahead, Frame.ahead, withinAll, Statement.within, doneWith]

theorem spent_of_menu {origin : Origin} {b : Beat} (hg : gathered.isEmpty = false) :
    Spent ⟨origin, ⟨rest, gathered⟩ :: below, none⟩ []
      (.beat b p ⟨origin, ⟨rest, []⟩ :: below, some gathered⟩) := by
  have hone : (⟨rest, gathered⟩ : Frame).menus = 1 := by simp [Frame.menus, hg]
  have hnone : (⟨rest, []⟩ : Frame).menus = 0 := rfl
  refine .gives (le_of_eq ?_) ?_ ?_
  · simp only [Run.ahead, Frame.ahead, List.map_cons, List.sum_cons, Option.getD_some, Option.getD_none,
      Multiset.coe_nil, bodies, List.map_nil, List.sum_nil, zero_add]
    rw [add_assoc]
  · simp only [Run.lists, Run.menus, List.map_cons, List.sum_cons, List.length_cons, Option.elim_some,
      Option.elim_none, hone, hnone]
    omega
  · simp only [Run.menus, List.map_cons, List.sum_cons, hone, hnone]
    omega

theorem spent_of_step {x : Step} (ha : r.awaiting = none) (hfree : JumpFree r.ahead)
    (h : p.step r = .ok x) : Spent r r.due x := by
  obtain ⟨origin, frames, awaiting⟩ := r
  cases ha
  unfold step at h
  cases frames with
  | nil =>
    cases h
    exact .ends (Multiset.zero_le _)
  | cons f below =>
    obtain ⟨rest, gathered⟩ := f
    dsimp only at h
    split at h
    · rename_i hoffer
      obtain ⟨entries, -, h⟩ := exists_of_bind_eq_ok h
      cases h
      simp only [Run.due, if_pos hoffer]
      exact spent_of_menu (by simpa using (Bool.and_eq_true_iff.1 hoffer).1)
    · rename_i hoffer
      simp only [Run.due, if_neg hoffer]
      cases rest with
      | nil =>
        cases h
        -- The list is done and makes way, which nothing but its own place pays for.
        refine spent_of_frames [] ?_ ?_ (Nat.zero_le _)
        · rw [List.map_nil, List.sum_nil, add_zero]
          exact Multiset.zero_le _
        · rw [List.map_nil, List.sum_nil, List.length_nil]
          omega
      | cons s rest =>
        refine spent_of_perform rfl rfl (hfree s ?_) h
        have hmem : s ∈ s.within := Multiset.mem_of_le (singleton_le_within s) (by simp)
        simp [Run.ahead, Frame.ahead, withinAll, hmem]

end Perform

/-! Walks and calls. -/

theorem card_of_ahead {r u : Run} {done : List Statement} (h : ↑done + u.ahead ≤ r.ahead) :
    done.length + u.ahead.card ≤ r.ahead.card := by
  simpa using Multiset.card_le_card h

theorem spends_of_runs {p q : Playthrough} {r u : Run} {done : List Statement} {beats : Nat}
    (hp : p.run = some r) (hq : q.run = some u) (hahead : ↑done + u.ahead ≤ r.ahead)
    (hlists : u.lists ≤ r.lists + 2 * done.length) (hmenus : beats + u.menus ≤ r.menus + done.length) :
    Spends p done beats q := by
  have hcard := card_of_ahead hahead
  refine ⟨?_, ?_, ?_⟩
  · simpa only [Playthrough.ahead, hp, hq, Option.elim_some] using hahead
  · simp only [Playthrough.stepsLeft, hp, hq, Option.elim_some, Run.stepsLeft]
    omega
  · simp only [Playthrough.beatsLeft, hp, hq, Option.elim_some, Run.beatsLeft]
    omega

def Step.beats : Step → Nat
  | .beat .. => 1
  | _ => 0

theorem Spent.spends {r : Run} {done : List Statement} {x : Step} (h : Spent r done x) (p : Playthrough) :
    Spends { p with run := some r } done x.beats x.left := by
  cases h with
  | walks hahead hlists hmenus =>
    exact spends_of_runs rfl rfl hahead (Nat.le_of_lt hlists) (by simpa [Step.beats] using hmenus)
  | gives hahead hlists hmenus =>
    exact spends_of_runs rfl rfl hahead hlists (by simp only [Step.beats]; omega)
  | ends hahead =>
    refine ⟨?_, Nat.zero_le _, Nat.zero_le _⟩
    simpa [Playthrough.ahead, Step.left] using hahead

theorem Spent.stepsLeft_lt {r u : Run} {done : List Statement} {q : Playthrough}
    (h : Spent r done (.walk q u)) : u.stepsLeft < r.stepsLeft := by
  cases h with
  | walks hahead hlists _ =>
    have hcard := card_of_ahead hahead
    simp only [Run.stepsLeft]
    omega

def walkDone : Nat → Playthrough → Run → List Statement
  | 0, _, _ => []
  | fuel + 1, p, r =>
    match p.step r with
    | .ok (.walk q u) => r.due ++ walkDone fuel q u
    | .ok _ => r.due
    | .error _ => []

theorem walk_spends (fuel : Nat) (p : Playthrough) {r : Run} (ha : r.awaiting = none)
    (hfree : JumpFree r.ahead) :
    Spends { p with run := some r } (walkDone fuel p r) (beatsOf [(walk fuel p r).1]).length
      (walk fuel p r).2 := by
  induction fuel generalizing p r with
  | zero => exact spends_refl _
  | succ fuel ih =>
    simp only [walk, walkDone]
    cases hs : p.step r with
    | error e => exact spends_refl _
    | ok x =>
      have hspends := (spent_of_step ha hfree hs).spends p
      cases x with
      | walk q u =>
        have hrest := ih q (step_fits ha hs) (hspends.jumpFree hfree)
        simpa [Step.beats] using hspends.trans hrest
      | beat b q u => exact hspends
      | ended q => exact hspends

theorem walk_not_stalled {fuel : Nat} {p : Playthrough} {r : Run} (ha : r.awaiting = none)
    (hfree : JumpFree r.ahead) (hfuel : r.stepsLeft < fuel) : (walk fuel p r).1 ≠ .stalled := by
  induction fuel generalizing p r with
  | zero => omega
  | succ fuel ih =>
    simp only [walk]
    cases hs : p.step r with
    | error e => simp
    | ok x =>
      have hspent := spent_of_step ha hfree hs
      cases x with
      | walk q u =>
        have hless := hspent.stepsLeft_lt
        exact ih (step_fits ha hs) ((hspent.spends p).jumpFree hfree) (by omega)
      | beat b q u => simp
      | ended q => simp

theorem within_le_bodies {o : Choice} {options : List Choice} (h : o ∈ options) :
    o.within ≤ bodies options := by
  obtain ⟨front, back, rfl⟩ := List.append_of_mem h
  simp only [bodies, List.map_append, List.map_cons, List.sum_append, List.sum_cons]
  exact le_trans (Multiset.le_add_right _ _) (Multiset.le_add_left _ _)

theorem spends_choose {p : Playthrough} {r : Run} {options : List Choice} (hr : p.run = some r)
    (ha : r.awaiting = some options) (index : Nat) :
    Spends p [] 0 { p with run := some (Run.choose r options index) } := by
  obtain ⟨origin, frames, awaiting⟩ := r
  cases ha
  unfold Run.choose
  split
  · refine spends_of_runs hr rfl ?_ ?_ ?_
    · simp only [Run.ahead, Option.getD_some, Option.getD_none, bodies, List.map_nil, List.sum_nil,
        Multiset.coe_nil, zero_add]
      exact Multiset.le_add_left _ _
    · simp [Run.lists, Run.menus]
    · simp [Run.menus]
  · rename_i body hbody
    obtain ⟨o, ho, hbody⟩ := Option.bind_eq_some_iff.1 hbody
    have hle := within_le_bodies (List.mem_of_getElem? ho)
    rw [o.within_eq, hbody, Option.elim_some] at hle
    have hnone : (⟨body, []⟩ : Frame).menus = 0 := rfl
    refine spends_of_runs hr rfl ?_ ?_ ?_
    · simpa [Run.ahead, Frame.ahead, bodies] using hle
    · simp only [Run.lists, Run.menus, List.length_cons, List.map_cons, List.sum_cons, Option.elim_some,
        Option.elim_none, hnone]
      omega
    · simp only [Run.menus, List.map_cons, List.sum_cons, hnone]
      omega

def advanceDone (fuel : Nat) (selection : Option Nat) (p : Playthrough) : List Statement :=
  match p.run with
  | none => []
  | some r =>
    match r.awaiting with
    | none => walkDone fuel p r
    | some options =>
      match select selection options.length with
      | .error _ => []
      | .ok index => walkDone fuel p (Run.choose r options index)

theorem advance_spends (fuel : Nat) (selection : Option Nat) {p : Playthrough}
    (hfree : JumpFree p.ahead) :
    Spends p (p.advanceDone fuel selection) (beatsOf [(p.advance fuel selection).1]).length
      (p.advance fuel selection).2 ∧
    (p.stepsLeft < fuel → (p.advance fuel selection).1 ≠ .stalled) := by
  cases hr : p.run with
  | none =>
    rw [advance_of_not_running hr, advanceDone, hr]
    exact ⟨spends_refl p, fun _ => by simp⟩
  | some r =>
    have hp : { p with run := some r } = p := by rw [← hr]
    cases ha : r.awaiting with
    | none =>
      have hfree : JumpFree r.ahead := by simpa [Playthrough.ahead, hr] using hfree
      have hwalk := walk_spends fuel p ha hfree
      rw [hp] at hwalk
      simp only [advance_of_walking hr ha, advanceDone, hr, ha]
      refine ⟨hwalk, fun hfuel => walk_not_stalled ha hfree ?_⟩
      simpa [Playthrough.stepsLeft, hr] using hfuel
    | some options =>
      simp only [advance_of_waiting hr ha, advanceDone, hr, ha]
      cases hs : select selection options.length with
      | error e => exact ⟨spends_refl p, fun _ => by simp⟩
      | ok index =>
        have hchoose := spends_choose hr ha index
        have hawaits := Run.choose_awaiting r options index
        have hfree : JumpFree (Run.choose r options index).ahead := hchoose.jumpFree hfree
        refine ⟨?_, fun hfuel => walk_not_stalled hawaits hfree ?_⟩
        · simpa using hchoose.trans (walk_spends fuel p hawaits hfree)
        · exact Nat.lt_of_le_of_lt hchoose.stepsLeft hfuel

def asksDone (fuel : Nat) : List (Option Nat) → Playthrough → List Statement
  | [], _ => []
  | s :: ss, p => p.advanceDone fuel s ++ asksDone fuel ss (p.advance fuel s).2

theorem asks_spends (fuel : Nat) (ss : List (Option Nat)) {p : Playthrough} (hfree : JumpFree p.ahead) :
    Spends p (p.asksDone fuel ss) (beatsOf (p.asks fuel ss).1).length (p.asks fuel ss).2 := by
  induction ss generalizing p with
  | nil => exact spends_refl p
  | cons s ss ih =>
    have hfirst := (advance_spends fuel s hfree).1
    have hboth := hfirst.trans (ih (hfirst.jumpFree hfree))
    rwa [← List.length_append, ← beatsOf_append, List.singleton_append] at hboth

theorem asks_not_stalled {fuel : Nat} {p : Playthrough} (ss : List (Option Nat))
    (hfree : JumpFree p.ahead) (hfuel : p.stepsLeft < fuel) : ∀ a ∈ (p.asks fuel ss).1, a ≠ .stalled := by
  induction ss generalizing p with
  | nil => simp [asks]
  | cons s ss ih =>
    obtain ⟨hspends, hanswer⟩ := advance_spends fuel s hfree
    simp only [asks, List.forall_mem_cons]
    refine ⟨hanswer hfuel, ih (hspends.jumpFree hfree) ?_⟩
    exact Nat.lt_of_le_of_lt hspends.stepsLeft hfuel

/-! Playing a node. -/

theorem start_of_parse {p : Playthrough} {title : Text} {node : Node} {ss : List Statement}
    {declared : Declarations} (hnode : p.node? title = some node)
    (hparse : parse node.body p.declared = (.ok ss, declared)) :
    p.start title = (.ok (), { p.entered node declared with run := some (opened node ss) }) := by
  have henter : p.enter title = .ok (p.entered node declared, opened node ss) := by
    simp only [enter, hnode, hparse, entered, opened]
  rcases start_cases p title with ⟨e, herror, -⟩ | ⟨node', ss', declared', hnode', hparse', hstart⟩
  · rw [henter] at herror
    cases herror
  · rw [hnode] at hnode'
    cases hnode'
    rw [hparse] at hparse'
    cases hparse'
    exact hstart

@[simp] theorem asks_length (fuel : Nat) (selections : List (Option Nat)) (p : Playthrough) :
    (p.asks fuel selections).1.length = selections.length := by
  induction selections generalizing p with
  | nil => rfl
  | cons s ss ih => simp [asks, ih]

theorem length_beatsOf {as : List Answer} (h : ∀ a ∈ as, ∃ b, a = .beat b) :
    (beatsOf as).length = as.length := by
  induction as with
  | nil => rfl
  | cons a as ih =>
    rw [List.forall_mem_cons] at h
    obtain ⟨⟨b, rfl⟩, has⟩ := h
    simp [beatsOf, ih has]

/-- Calls that neither fail nor stall come to the end, unless there are as many beats as calls. -/
theorem ended_of_many {as : List Answer} (hstalled : ∀ a ∈ as, a ≠ .stalled)
    (hfailed : ∀ a ∈ as, ∀ e, a ≠ .failed e) (hmany : (beatsOf as).length < as.length) :
    .ended ∈ as := by
  by_contra hended
  have hbeats : (beatsOf as).length = as.length := by
    refine length_beatsOf fun a ha => ?_
    cases a with
    | beat b => exact ⟨b, rfl⟩
    | ended => exact absurd ha hended
    | failed e => exact absurd rfl (hfailed _ ha e)
    | stalled => exact absurd rfl (hstalled _ ha)
  omega

/-- A node in which nothing jumps is played to its end. Whatever is selected, no call walks on forever:
some number of steps is enough for all of them. The statements that were done and those that can still
be done are together statements of the node, each as often as it stands there, and there are not more
beats than statements. If no call fails, one call more than that finds the end. -/
theorem jumpFree_runs_out {p : Playthrough} {title : Text} {node : Node} {ss : List Statement}
    {declared : Declarations} (hnode : p.node? title = some node)
    (hparse : parse node.body p.declared = (.ok ss, declared)) (hfree : JumpFree (withinAll ss)) :
    ∃ q, p.start title = (.ok (), q) ∧ ∀ (selections : List (Option Nat)) (fuel : Nat),
      2 * (withinAll ss).card + 2 ≤ fuel →
        (∀ a ∈ (q.asks fuel selections).1, a ≠ .stalled) ∧
        q.asks fuel selections = q.asks (2 * (withinAll ss).card + 2) selections ∧
        ↑(q.asksDone fuel selections) + (q.asks fuel selections).2.ahead ≤ withinAll ss ∧
        (beatsOf (q.asks fuel selections).1).length ≤ (withinAll ss).card ∧
        ((withinAll ss).card < selections.length →
          (∀ a ∈ (q.asks fuel selections).1, ∀ e, a ≠ .failed e) →
          .ended ∈ (q.asks fuel selections).1) := by
  refine ⟨_, start_of_parse hnode hparse, fun selections fuel hfuel => ?_⟩
  generalize hq : { p.entered node declared with run := some (opened node ss) } = q
  have hahead : q.ahead = withinAll ss := by
    simp [← hq, Playthrough.ahead, opened, Run.ahead, Frame.ahead, bodies]
  have hsteps : q.stepsLeft = 2 * (withinAll ss).card + 1 := by
    rw [← hahead]
    simp [← hq, Playthrough.stepsLeft, Playthrough.ahead, opened, Run.stepsLeft, Run.lists, Run.menus,
      Frame.menus]
  have hbeats : q.beatsLeft = (withinAll ss).card := by
    rw [← hahead]
    simp [← hq, Playthrough.beatsLeft, Playthrough.ahead, opened, Run.beatsLeft, Run.menus, Frame.menus]
  rw [← hahead] at hfree
  have hstalled := asks_not_stalled selections hfree (by omega : q.stepsLeft < fuel)
  have hspends := asks_spends fuel selections hfree
  have hless : (beatsOf (q.asks fuel selections).1).length ≤ (withinAll ss).card := by
    have := hspends.beatsLeft
    omega
  refine ⟨hstalled, asks_mono selections ?_ hfuel, hahead ▸ hspends.ahead, hless, fun hmany hfailed => ?_⟩
  · exact asks_not_stalled selections hfree (by omega)
  · refine ended_of_many hstalled hfailed ?_
    rw [asks_length]
    omega

/-- A node with options, of which one leads to a conditional, and a statement that ends it. -/
def crossroads : Node :=
  ⟨"A".toList, [], ("Where to?\n-> Left\n  <<if $seen>>\n  Again!\n  <<else>>\n  Hm.\n  <<endif>>\n" ++
    "-> Right\n<<stop>>").toList⟩

def parsesTo (count : Nat) : Except ParseError (List Statement) → Bool
  | .ok ss => JumpFree (withinAll ss) ∧ (withinAll ss).card = count
  | .error _ => false

theorem jumpFree_runs_out_crossroads :
    ∃ q, { empty with nodes := [crossroads] }.start "A".toList = (.ok (), q) ∧
    ∀ selections : List (Option Nat), (∀ a ∈ (q.asks 16 selections).1, a ≠ .stalled) ∧
      (q.asksDone 16 selections).length ≤ 7 ∧ (beatsOf (q.asks 16 selections).1).length ≤ 7 := by
  have hparses : parsesTo 7 (parse crossroads.body .sealed).1 = true := by decide +kernel
  rcases hparse : parse crossroads.body .sealed with ⟨e | ss, declared⟩
  · rw [hparse] at hparses
    cases hparses
  · rw [hparse] at hparses
    obtain ⟨hfree, hcard⟩ := of_decide_eq_true hparses
    have hnode : node? { empty with nodes := [crossroads] } "A".toList = some crossroads := by
      decide +kernel
    obtain ⟨q, hstart, hq⟩ := jumpFree_runs_out hnode hparse hfree
    refine ⟨q, hstart, fun selections => ?_⟩
    obtain ⟨hstalled, -, hdone, hbeats, -⟩ := hq selections 16 (by omega)
    have hle := Multiset.card_le_card hdone
    rw [Multiset.card_add, Multiset.coe_card] at hle
    exact ⟨hstalled, by omega, by omega⟩

end Playthrough

end Parley.Play
