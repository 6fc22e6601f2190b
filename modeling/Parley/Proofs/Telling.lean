import Parley.Proofs.Walking
set_option autoImplicit false

/-!
A second reading of nodes, by recursion on their lists of statements.

A telling keeps no open lists: bodies and arms are told by recursion, and only a jump or a stop is
passed outward. Calls are made one after the other, so a telling that is out of calls pauses right
behind its last beat. Main statement: a playthrough gives the answers of the telling, whatever is
nested in what.
-/

namespace Parley.Play

open Body Script

structure Telling where
  play : Playthrough
  beats : List Beat
  /-- The selections of the calls that are still to be made. -/
  calls : List (Option Nat)

inductive Outcome where
  | through (t : Telling)
  | paused (t : Telling)
  | stopped (t : Telling)
  | jumped (title : Text) (t : Telling)
  | failed (e : RuntimeError)

namespace Outcome

def andThen (o : Outcome) (k : Telling → Outcome) : Outcome :=
  match o with
  | .through t => k t
  | o => o

def attempt {α : Type} (x : Except RuntimeError α) (k : α → Outcome) : Outcome :=
  match x with
  | .ok a => k a
  | .error e => .failed e

@[simp] theorem attempt_ok {α : Type} (a : α) (k : α → Outcome) : attempt (.ok a) k = k a := rfl

@[simp] theorem attempt_error {α : Type} (e : RuntimeError) (k : α → Outcome) :
    attempt (.error e) k = .failed e := rfl

@[simp] theorem through_andThen (t : Telling) (k : Telling → Outcome) :
    (Outcome.through t).andThen k = k t := rfl

@[simp] theorem andThen_through (o : Outcome) : o.andThen .through = o := by
  cases o <;> rfl

@[simp] theorem andThen_assoc (o : Outcome) (k l : Telling → Outcome) :
    (o.andThen k).andThen l = o.andThen fun t => (k t).andThen l := by
  cases o <;> rfl

end Outcome

def Telling.give (t : Telling) (b : Beat) (k : Option Nat → Telling → Outcome) : Outcome :=
  match t.calls with
  | [] => .paused { t with beats := t.beats ++ [b] }
  | s :: calls => k s { t with beats := t.beats ++ [b], calls := calls }

@[simp] theorem Telling.give_andThen (t : Telling) (b : Beat) (k : Option Nat → Telling → Outcome)
    (l : Telling → Outcome) : (t.give b k).andThen l = t.give b fun s t => (k s t).andThen l := by
  unfold give
  cases t.calls <;> rfl

def leadingOptions : List Statement → List Choice
  | .option o :: rest => o :: leadingOptions rest
  | _ => []

/-- The lines in front that stand on one line of the script, with their hashtags. -/
def leadingLines (number : Nat) : List Statement → List (List Part × List Text)
  | .line parts n hashtags :: rest =>
    if n = number then (parts, hashtags) :: leadingLines number rest else []
  | _ => []

mutual

/-- Tells a list in order, from behind the statements that were told with one before them. -/
def tellList (origin : Origin) : Nat → List Statement → Telling → Outcome
  | _, [], t => .through t
  | told + 1, _ :: rest, t => tellList origin told rest t
  | 0, .line parts number hashtags :: rest, t =>
    let lines := (parts, hashtags) :: leadingLines number rest
    .attempt (lines.mapM fun l => t.play.render l.1) fun texts =>
      t.give (.line ⟨Text.trimEnd texts.flatten, lines.flatMap Prod.snd, origin, [], false⟩)
        fun _ t => tellList origin (leadingLines number rest).length rest t
  | 0, .option o :: rest, t =>
    let options := o :: leadingOptions rest
    .attempt (options.mapM t.play.offer) fun entries =>
      t.give (.menu ⟨entries, origin, none, [], [], false⟩) fun selection t =>
        .attempt (Playthrough.select selection options.length) fun index =>
          (match index with
            | 0 => tellBody origin o t
            | i + 1 => tellOption origin rest i t).andThen
          fun t => tellList origin (leadingOptions rest).length rest t
  | 0, .branch condition body otherwise _ :: rest, t =>
    (Outcome.attempt (t.play.evaluate condition) fun v =>
      if v.truthy then tellList origin 0 body t else tellOtherwise origin otherwise t).andThen
    fun t => tellList origin 0 rest t
  | 0, .assign name e _ _ :: rest, t =>
    .attempt (t.play.assign name e) fun p => tellList origin 0 rest { t with play := p }
  | 0, .command parts _ hashtags :: rest, t =>
    .attempt (t.play.render parts) fun text =>
      t.give (.cue ⟨Text.trim text, hashtags, origin, false⟩) fun _ t => tellList origin 0 rest t
  | 0, .jump target _ :: _, t =>
    .attempt (t.play.jumpTitle target) fun title => .jumped title t
  | 0, .stop _ :: _, t => .stopped t
termination_by structural _ ss => ss

def tellOtherwise (origin : Origin) : Otherwise → Telling → Outcome
  | .nothing, t => .through t
  | .statements body, t => tellList origin 0 body t
  | .branch condition body otherwise _, t =>
    .attempt (t.play.evaluate condition) fun v =>
      if v.truthy then tellList origin 0 body t else tellOtherwise origin otherwise t
termination_by structural o => o

def tellOption (origin : Origin) : List Statement → Nat → Telling → Outcome
  | .option o :: _, 0, t => tellBody origin o t
  | .option _ :: rest, i + 1, t => tellOption origin rest i t
  | _, _, t => .through t
termination_by structural ss => ss

def tellBody (origin : Origin) : Choice → Telling → Outcome
  | ⟨_, _, some body, _, _⟩, t => tellList origin 0 body t
  | ⟨_, _, none, _, _⟩, t => .through t
termination_by structural o => o

end

def Playthrough.opening (p : Playthrough) (title : Text) :
    Except RuntimeError (Playthrough × Origin × List Statement) :=
  match p.node? title with
  | none => .error (.unknownNode title)
  | some node =>
    match parse node.body p.declared with
    | (.error e, _) => .error (.malformed e)
    | (.ok statements, declared) =>
      let visited := if p.visited.contains node.title then p.visited else p.visited ++ [node.title]
      .ok ({ p with visited := visited, declared := declared }, ⟨node.title, node.tags⟩, statements)

/-- Goes on with the whole node that was jumped to, for a number of jumps. -/
def Outcome.follow : Nat → Outcome → Outcome
  | n + 1, .jumped title t =>
    .attempt (t.play.opening title) fun (p, origin, statements) =>
      follow n (tellList origin 0 statements { t with play := p })
  | _, o => o

/-- Tells from a node on, with as many calls as there are selections. What was in progress before is
given up. -/
def Playthrough.tell (jumps : Nat) (title : Text) (selections : List (Option Nat))
    (p : Playthrough) : Outcome :=
  .attempt (p.still.opening title) fun (p, origin, statements) =>
    match selections with
    | [] => .paused ⟨p, [], []⟩
    | _ :: calls => (tellList origin 0 statements ⟨p, [], calls⟩).follow jumps

/-- What an audience can tell of some calls: their answers, the variables and the visited nodes. -/
structure Account where
  answers : List Playthrough.Answer
  store : Store
  visited : List Text

/-- The account of a telling on which nothing fails and no jump is left to follow. Calls behind the
end all get the same answer. -/
def Outcome.account? : Outcome → Option Account
  | .through t | .stopped t =>
    some ⟨t.beats.map .beat ++ .ended :: t.calls.map fun _ => .ended, t.play.store, t.play.visited⟩
  | .paused t => some ⟨t.beats.map .beat, t.play.store, t.play.visited⟩
  | .jumped .. | .failed _ => none

def Playthrough.Answer.isGood : Playthrough.Answer → Bool
  | .beat _ | .ended => true
  | .failed _ | .stalled => false

def Playthrough.callsAccount? (fuel : Nat) (selections : List (Option Nat)) (p : Playthrough) :
    Option Account :=
  if (p.asks fuel selections).1.all Answer.isGood then
    some ⟨(p.asks fuel selections).1, (p.asks fuel selections).2.store,
      (p.asks fuel selections).2.visited⟩
  else none

def Playthrough.account? (fuel : Nat) (title : Text) (selections : List (Option Nat))
    (p : Playthrough) : Option Account :=
  match p.start title with
  | (.error _, _) => none
  | (.ok (), p) => p.callsAccount? fuel selections

theorem tellList_drop (origin : Origin) (told : Nat) (ss : List Statement) (t : Telling) :
    tellList origin told ss t = tellList origin 0 (ss.drop told) t := by
  induction ss generalizing told with
  | nil => simp [tellList]
  | cons s ss ih =>
    cases told with
    | zero => rfl
    | succ told => simp [tellList, ih]

theorem leadingOptions_append {rest : List Statement} (h : Playthrough.startsWithOption rest = false)
    (os : List Choice) : leadingOptions (os.map .option ++ rest) = os := by
  induction os with
  | nil =>
    cases rest with
    | nil => rfl
    | cons s rest => cases s <;> simp_all [leadingOptions, Playthrough.startsWithOption]
  | cons o os ih => simp [leadingOptions, ih]

theorem tellOption_append (origin : Origin) (rest : List Statement) (os : List Choice) (i : Nat)
    (hi : i < os.length) (t : Telling) :
    tellOption origin (os.map .option ++ rest) i t = tellBody origin (os.get ⟨i, hi⟩) t := by
  induction os generalizing i with
  | nil => simp at hi
  | cons o os ih =>
    cases i with
    | zero => rfl
    | succ i => exact ih i (by simpa using hi)

theorem tellOtherwise_selectArm (origin : Origin) (t : Telling) : ∀ o : Otherwise,
    tellOtherwise origin o t = .attempt (t.play.selectArm o) fun
      | none => .through t
      | some arm => tellList origin 0 arm t
  | .nothing => rfl
  | .statements _ => rfl
  | .branch condition body otherwise _ => by
    have ih := tellOtherwise_selectArm origin t otherwise
    cases hc : t.play.evaluate condition with
    | error e => simp [tellOtherwise, Playthrough.selectArm, hc, bind, Except.bind]
    | ok v =>
      cases hv : v.truthy with
      | true => simp [tellOtherwise, Playthrough.selectArm, hc, hv, bind, Except.bind, pure, Except.pure]
      | false => simp [tellOtherwise, Playthrough.selectArm, hc, hv, bind, Except.bind, ih]

theorem sizeOf_selectArm (p : Playthrough) : ∀ {o : Otherwise} {arm : List Statement},
    p.selectArm o = .ok (some arm) → sizeOf arm < sizeOf o
  | .nothing, _, h => by simp [Playthrough.selectArm] at h
  | .statements _, _, h => by
    simp only [Playthrough.selectArm, Except.ok.injEq, Option.some.injEq] at h
    subst h
    simp
  | .branch condition body otherwise _, arm, h => by
    cases hc : p.evaluate condition with
    | error e => simp [Playthrough.selectArm, hc, bind, Except.bind] at h
    | ok v =>
      cases hv : v.truthy with
      | true =>
        simp only [Playthrough.selectArm, hc, hv, bind, Except.bind, pure, Except.pure, if_true,
          Except.ok.injEq, Option.some.injEq] at h
        subst h
        simp
        omega
      | false =>
        have ih := @sizeOf_selectArm p otherwise arm
          (by simpa [Playthrough.selectArm, hc, hv, bind, Except.bind] using h)
        simp
        omega

theorem collect_leadingLines (p : Playthrough) (number : Nat) (ss : List Statement) :
    p.collect number ss = ((leadingLines number ss).mapM fun l => p.render l.1).map fun texts =>
      (texts.flatten, (leadingLines number ss).flatMap Prod.snd,
        ss.drop (leadingLines number ss).length) := by
  induction ss with
  | nil => rfl
  | cons s ss ih =>
    cases s with
    | line parts n hashtags =>
      by_cases hn : n = number
      · cases hr : p.render parts with
        | error e => simp [Playthrough.collect, leadingLines, hn, hr, bind, Except.bind, Except.map]
        | ok text =>
          cases hm : (leadingLines number ss).mapM fun l => p.render l.1 with
          | error e =>
            rw [hm] at ih
            simp [Playthrough.collect, leadingLines, hn, hr, hm, ih, bind, Except.bind, Except.map]
          | ok texts =>
            rw [hm] at ih
            simp [Playthrough.collect, leadingLines, hn, hr, hm, ih, bind, Except.bind, Except.map,
              pure, Except.pure]
      · simp [Playthrough.collect, leadingLines, hn, pure, Except.pure, Except.map]
    | _ => rfl

theorem enter_eq_opening (p : Playthrough) (title : Text) :
    p.enter title = (p.opening title).map fun (p, origin, statements) =>
      (p, ⟨origin, [⟨statements, []⟩], none⟩) := by
  unfold Playthrough.enter Playthrough.opening
  cases p.node? title with
  | none => rfl
  | some node =>
    rcases hp : parse node.body p.declared with ⟨e | statements, declared⟩
    · simp [hp, Except.map]
    · simp [hp, Except.map]

def tellFrames (origin : Origin) : List Frame → Telling → Outcome
  | [], t => .through t
  | f :: below, t =>
    (tellList origin 0 (f.gathered.map .option ++ f.rest) t).andThen (tellFrames origin below)

def Run.tellOn (r : Run) (s : Option Nat) (t : Telling) : Outcome :=
  match r.awaiting with
  | none => tellFrames r.origin r.frames t
  | some options =>
    .attempt (Playthrough.select s options.length) fun i =>
      tellFrames r.origin (Playthrough.Run.choose r options i).frames t

noncomputable def framesSize : List Frame → Nat
  | [] => 0
  | f :: below => sizeOf f.rest + 1 + framesSize below

/-- What a step does to the telling of a run. A step that is neither a jump nor the end of a walk
leaves what is to be told as it was, and leaves less of it. -/
inductive Tells (p : Playthrough) (r : Run) (t : Telling) : Except RuntimeError Playthrough.Step → Prop
  | fails (e : RuntimeError) (h : tellFrames r.origin r.frames t = .failed e) : Tells p r t (.error e)
  | walks (q : Playthrough) (u : Run) (ha : u.awaiting = r.awaiting)
      (h : tellFrames r.origin r.frames t = tellFrames u.origin u.frames { t with play := q.still })
      (hlt : framesSize u.frames < framesSize r.frames) : Tells p r t (.ok (.walk q u))
  | jumps (title : Text) (h : tellFrames r.origin r.frames t = .jumped title t) :
      Tells p r t ((p.enter title).map fun x => .walk x.1 x.2)
  | gives (b : Beat) (u : Run) (h : tellFrames r.origin r.frames t = t.give b u.tellOn) :
      Tells p r t (.ok (.beat b p u))
  | ends (h : tellFrames r.origin r.frames t = .through t) : Tells p r t (.ok (.ended p))
  | stops (h : tellFrames r.origin r.frames t = .stopped t) : Tells p r t (.ok (.ended p))

theorem opening_still (p : Playthrough) (title : Text) :
    p.still.opening title = (p.opening title).map fun x => (x.1.still, x.2) := by
  have hn : p.still.node? title = p.node? title := rfl
  have hd : p.still.declared = p.declared := rfl
  simp only [Playthrough.opening, hn, hd]
  cases p.node? title with
  | none => rfl
  | some node =>
    rcases hp : parse node.body p.declared with ⟨e | statements, declared⟩
    · simp only [hp]
      rfl
    · simp only [hp]
      rfl

theorem tellFrames_choose (r : Run) (os : List Choice) (i : Nat) (hi : i < os.length)
    (t : Telling) :
    tellFrames r.origin (Playthrough.Run.choose r os i).frames t =
      (tellBody r.origin (os.get ⟨i, hi⟩) t).andThen (tellFrames r.origin r.frames) := by
  have hg : os[i]? = some (os.get ⟨i, hi⟩) := List.getElem?_eq_getElem hi
  unfold Playthrough.Run.choose
  rw [hg]
  rcases os.get ⟨i, hi⟩ with ⟨label, guard, _ | body, number, hashtags⟩
  · rfl
  · rfl

theorem select_lt {s : Option Nat} {count i : Nat} (h : Playthrough.select s count = .ok i) :
    i < count := by
  cases s with
  | none => simp [Playthrough.select] at h
  | some j =>
    by_cases hj : j < count
    · simp only [Playthrough.select, hj, if_pos, Except.ok.injEq] at h
      omega
    · simp [Playthrough.select, hj] at h

theorem tellFrames_menu (origin : Origin) (o : Choice) (os : List Choice) {rest : List Statement}
    (h : Playthrough.startsWithOption rest = false) (below : List Frame) (t : Telling) :
    tellFrames origin (⟨rest, o :: os⟩ :: below) t =
      .attempt ((o :: os).mapM t.play.offer) fun entries =>
        t.give (.menu ⟨entries, origin, none, [], [], false⟩)
          (Run.tellOn ⟨origin, ⟨rest, []⟩ :: below, some (o :: os)⟩) := by
  have hl := leadingOptions_append h os
  have hd : (os.map Statement.option ++ rest).drop os.length = rest := by
    rw [List.drop_append_of_le_length (by simp), List.drop_eq_nil_of_le (by simp), List.nil_append]
  have hm (i : Nat) (t : Telling) :
      (match i with
        | 0 => tellBody origin o t
        | i + 1 => tellOption origin (os.map Statement.option ++ rest) i t) =
      tellOption origin ((o :: os).map Statement.option ++ rest) i t := by
    cases i <;> rfl
  simp only [tellFrames, List.map_cons, List.cons_append, tellList, hl, hm]
  cases (o :: os).mapM t.play.offer with
  | error e => rfl
  | ok entries =>
    simp only [Outcome.attempt_ok, Telling.give_andThen]
    congr 1
    funext s t
    simp only [Run.tellOn]
    cases hs : Playthrough.select s (o :: os).length with
    | error e => rfl
    | ok i =>
      have hi := select_lt hs
      simp only [Outcome.attempt_ok]
      have hc := tellFrames_choose ⟨origin, ⟨rest, []⟩ :: below, some (o :: os)⟩ (o :: os) i hi t
      have hb := tellOption_append origin rest (o :: os) i hi t
      simp only [List.map_cons, List.cons_append] at hb
      rw [hc, hb, Outcome.andThen_assoc]
      simp only [tellList_drop origin os.length, hd]
      rfl

section Steps

variable (p : Playthrough) (r : Run) (rest : List Statement) (below : List Frame) (t : Telling)

theorem tells_option (o : Choice) (gathered : List Choice)
    (hf : r.frames = ⟨.option o :: rest, gathered⟩ :: below) (ht : t.play = p.still) :
    Tells p r t (p.perform r (.option o) ⟨rest, gathered⟩ below) := by
  refine .walks p { r with frames := ⟨rest, gathered ++ [o]⟩ :: below } rfl ?_ ?_
  · rw [← ht, hf]
    simp [tellFrames]
  · rw [hf]
    simp only [framesSize, List.cons.sizeOf_spec]
    omega

theorem tells_line (parts : List Part) (number : Nat) (hashtags : List Text)
    (hf : r.frames = ⟨.line parts number hashtags :: rest, []⟩ :: below) (ht : t.play = p.still)
    (ha : r.awaiting = none) :
    Tells p r t (p.perform r (.line parts number hashtags) ⟨rest, []⟩ below) := by
  have hr : t.play.render = p.render := by rw [ht]; rfl
  have hc := collect_leadingLines p number rest
  have htell : tellFrames r.origin r.frames t =
      .attempt (((parts, hashtags) :: leadingLines number rest).mapM fun l => p.render l.1)
        fun texts => t.give (.line ⟨Text.trimEnd texts.flatten,
            ((parts, hashtags) :: leadingLines number rest).flatMap Prod.snd, r.origin, [], false⟩)
          (Run.tellOn { r with
            frames := ⟨rest.drop (leadingLines number rest).length, []⟩ :: below }) := by
    rw [hf]
    simp only [tellFrames, List.map_nil, List.nil_append, tellList, hr]
    cases ((parts, hashtags) :: leadingLines number rest).mapM fun l => p.render l.1 with
    | error e => rfl
    | ok texts =>
      simp only [Outcome.attempt_ok, Telling.give_andThen]
      congr 1
      funext s t
      rw [tellList_drop]
      simp [Run.tellOn, ha, tellFrames]
  simp only [List.mapM_cons] at htell
  cases hp : p.render parts with
  | error e =>
    simp only [Playthrough.perform, hp]
    exact .fails e (by rw [htell, hp]; rfl)
  | ok text =>
    cases hm : (leadingLines number rest).mapM fun l => p.render l.1 with
    | error e =>
      rw [hm] at hc
      simp only [Playthrough.perform, hp, hc]
      exact .fails e (by rw [htell, hp, hm]; rfl)
    | ok texts =>
      rw [hm] at hc
      simp only [Playthrough.perform, hp, hc]
      exact .gives _ _ (by rw [htell, hp, hm]; rfl)

theorem tells_branch (condition : Expr) (body : List Statement) (otherwise : Otherwise)
    (hashtags : List Text)
    (hf : r.frames = ⟨.branch condition body otherwise hashtags :: rest, []⟩ :: below)
    (ht : t.play = p.still) :
    Tells p r t (p.perform r (.branch condition body otherwise hashtags) ⟨rest, []⟩ below) := by
  have htell : tellFrames r.origin r.frames t =
      (tellOtherwise r.origin (.branch condition body otherwise hashtags) t).andThen
        (tellFrames r.origin (⟨rest, []⟩ :: below)) := by
    rw [hf]
    simp [tellFrames, tellList, tellOtherwise]
  rw [tellOtherwise_selectArm, ht, Playthrough.still, Playthrough.selectArm_withRun] at htell
  cases hs : p.selectArm (.branch condition body otherwise hashtags) with
  | error e =>
    simp only [Playthrough.perform, hs]
    exact .fails e (by rw [htell, hs]; rfl)
  | ok arm =>
    simp only [hs, Outcome.attempt_ok] at htell
    cases arm with
    | none =>
      simp only [Playthrough.perform, hs]
      refine .walks p _ rfl ?_ ?_
      · rw [htell, ← ht]
        rfl
      · rw [hf]
        simp only [framesSize, List.cons.sizeOf_spec]
        omega
    | some arm =>
      have hlt := sizeOf_selectArm p hs
      simp only [Playthrough.perform, hs]
      refine .walks p _ rfl ?_ ?_
      · rw [htell, ← ht]
        rfl
      · rw [hf]
        simp only [framesSize, List.cons.sizeOf_spec, Statement.branch.sizeOf_spec,
          Otherwise.branch.sizeOf_spec] at hlt ⊢
        omega

theorem tells_assign (name : Text) (e : Expr) (number : Nat) (hashtags : List Text)
    (hf : r.frames = ⟨.assign name e number hashtags :: rest, []⟩ :: below)
    (ht : t.play = p.still) :
    Tells p r t (p.perform r (.assign name e number hashtags) ⟨rest, []⟩ below) := by
  have htell : tellFrames r.origin r.frames t =
      .attempt (p.still.assign name e) fun q =>
        tellFrames r.origin (⟨rest, []⟩ :: below) { t with play := q } := by
    rw [hf, ← ht]
    simp only [tellFrames, List.map_nil, List.nil_append, tellList]
    cases t.play.assign name e <;> rfl
  rw [Playthrough.still, Playthrough.assign_withRun] at htell
  cases hs : p.assign name e with
  | error e =>
    simp only [Playthrough.perform, hs]
    exact .fails e (by rw [htell, hs]; rfl)
  | ok q =>
    simp only [Playthrough.perform, hs]
    refine .walks q _ rfl ?_ ?_
    · rw [htell, hs]
      rfl
    · rw [hf]
      simp only [framesSize, List.cons.sizeOf_spec]
      omega

theorem tells_command (parts : List Part) (number : Nat) (hashtags : List Text)
    (hf : r.frames = ⟨.command parts number hashtags :: rest, []⟩ :: below) (ht : t.play = p.still)
    (ha : r.awaiting = none) :
    Tells p r t (p.perform r (.command parts number hashtags) ⟨rest, []⟩ below) := by
  have hr : t.play.render = p.render := by rw [ht]; rfl
  have htell : tellFrames r.origin r.frames t =
      .attempt (p.render parts) fun text =>
        t.give (.cue ⟨Text.trim text, hashtags, r.origin, false⟩)
          (Run.tellOn { r with frames := ⟨rest, []⟩ :: below }) := by
    rw [hf]
    simp only [tellFrames, List.map_nil, List.nil_append, tellList, hr]
    cases p.render parts with
    | error e => rfl
    | ok text =>
      simp only [Outcome.attempt_ok, Telling.give_andThen]
      congr 1
      funext s t
      simp [Run.tellOn, ha, tellFrames]
  cases hp : p.render parts with
  | error e =>
    simp only [Playthrough.perform, hp]
    exact .fails e (by rw [htell, hp]; rfl)
  | ok text =>
    simp only [Playthrough.perform, hp]
    exact .gives _ _ (by rw [htell, hp]; rfl)

theorem tells_jump (target : JumpTarget) (hashtags : List Text)
    (hf : r.frames = ⟨.jump target hashtags :: rest, []⟩ :: below) (ht : t.play = p.still) :
    Tells p r t (p.perform r (.jump target hashtags) ⟨rest, []⟩ below) := by
  have hj : t.play.jumpTitle target = p.jumpTitle target := by
    rw [ht]
    exact Playthrough.jumpTitle_withRun p none target
  have htell : tellFrames r.origin r.frames t =
      .attempt (p.jumpTitle target) fun title => .jumped title t := by
    rw [hf]
    simp only [tellFrames, List.map_nil, List.nil_append, tellList, hj]
    cases p.jumpTitle target <;> rfl
  cases hs : p.jumpTitle target with
  | error e =>
    simp only [Playthrough.perform, hs]
    exact .fails e (by rw [htell, hs]; rfl)
  | ok title =>
    have h := Tells.jumps (p := p) (r := r) (t := t) title (by rw [htell, hs]; rfl)
    cases he : p.enter title with
    | error e =>
      simp only [Playthrough.perform, hs, bind, Except.bind, he]
      rwa [he] at h
    | ok x =>
      simp only [Playthrough.perform, hs, bind, Except.bind, he]
      rwa [he] at h

end Steps

theorem tells_step (p : Playthrough) (r : Run) (t : Telling) (ht : t.play = p.still)
    (ha : r.awaiting = none) : Tells p r t (p.step r) := by
  unfold Playthrough.step
  cases hf : r.frames with
  | nil => exact .ends (by rw [hf]; rfl)
  | cons f below =>
    obtain ⟨rest, gathered⟩ := f
    by_cases hg : (!gathered.isEmpty && !Playthrough.startsWithOption rest) = true
    · simp only [hg, if_true]
      simp only [Bool.and_eq_true, Bool.not_eq_true'] at hg
      cases gathered with
      | nil => simp at hg
      | cons o os =>
        have htell := tellFrames_menu r.origin o os hg.2 below t
        rw [← hf] at htell
        have ho : t.play.offer = p.offer := by rw [ht]; rfl
        rw [ho] at htell
        cases hm : (o :: os).mapM p.offer with
        | error e => exact .fails e (by rw [htell, hm]; rfl)
        | ok entries => exact .gives _ _ (by rw [htell, hm]; rfl)
    · simp only [hg]
      have he : Playthrough.startsWithOption rest = false → gathered = [] := by
        intro h
        simpa [h] using hg
      cases rest with
      | nil =>
        obtain rfl := he rfl
        refine .walks p { r with frames := below } rfl ?_ ?_
        · rw [hf, ← ht]
          rfl
        · rw [hf]
          simp only [framesSize]
          omega
      | cons s rest =>
        cases s with
        | option o => exact tells_option p r rest below t o gathered hf ht
        | line parts number hashtags =>
          obtain rfl := he rfl
          exact tells_line p r rest below t parts number hashtags hf ht ha
        | branch condition body otherwise hashtags =>
          obtain rfl := he rfl
          exact tells_branch p r rest below t condition body otherwise hashtags hf ht
        | assign name e number hashtags =>
          obtain rfl := he rfl
          exact tells_assign p r rest below t name e number hashtags hf ht
        | command parts number hashtags =>
          obtain rfl := he rfl
          exact tells_command p r rest below t parts number hashtags hf ht ha
        | jump target hashtags =>
          obtain rfl := he rfl
          exact tells_jump p r rest below t target hashtags hf ht
        | stop hashtags =>
          obtain rfl := he rfl
          exact .stops (by rw [hf]; rfl)

def Outcome.LeadsTo (o o' : Outcome) : Prop :=
  ∃ n, ∀ m, o.follow (n + m) = o'.follow m

theorem Outcome.LeadsTo.trans {o o' o'' : Outcome} (h : o.LeadsTo o') (h' : o'.LeadsTo o'') :
    o.LeadsTo o'' := by
  obtain ⟨n, hn⟩ := h
  obtain ⟨m, hm⟩ := h'
  exact ⟨n + m, fun k => by rw [Nat.add_assoc, hn, hm]⟩

theorem Outcome.LeadsTo.of_eq {o o' : Outcome} (h : o = o') : o.LeadsTo o' :=
  ⟨0, fun m => by rw [h, Nat.zero_add]⟩

theorem Outcome.follow_of_account {o : Outcome} {a : Account} (h : o.account? = some a) (n : Nat) :
    o.follow n = o := by
  cases o <;> cases n <;> first | rfl | simp [account?] at h

/-- An account does not depend on how many jumps are allowed beyond those that are made. -/
theorem Outcome.account?_follow_add {o : Outcome} {a : Account} {n : Nat}
    (h : (o.follow n).account? = some a) (m : Nat) : (o.follow (n + m)).account? = some a := by
  induction n generalizing o with
  | zero =>
    have h0 : o.follow 0 = o := by cases o <;> rfl
    rw [h0] at h
    rw [follow_of_account h, h]
  | succ n ih =>
    rw [Nat.succ_add]
    cases o with
    | jumped title t =>
      simp only [follow] at h ⊢
      cases ho : t.play.opening title with
      | error e => simp [ho, account?] at h
      | ok x =>
        rw [ho] at h
        exact ih h
    | through t => exact h
    | paused t => exact h
    | stopped t => exact h
    | failed e => exact h

theorem follow_of_enter {p q : Playthrough} {u : Run} {title : Text} {t : Telling}
    (ht : t.play = p.still) (h : p.enter title = .ok (q, u)) :
    u.awaiting = none ∧ ∀ n, (Outcome.jumped title t).follow (n + 1) =
      (tellFrames u.origin u.frames { t with play := q.still }).follow n := by
  rw [enter_eq_opening] at h
  cases ho : p.opening title with
  | error e => simp [ho, Except.map] at h
  | ok x =>
    simp only [ho, Except.map, Except.ok.injEq, Prod.mk.injEq] at h
    obtain ⟨rfl, rfl⟩ := h
    refine ⟨rfl, fun n => ?_⟩
    simp [Outcome.follow, ht, opening_still, ho, Except.map, tellFrames]

theorem leadsTo_of_enter_error {p : Playthrough} {title : Text} {e : RuntimeError} {t : Telling}
    (ht : t.play = p.still) (h : p.enter title = .error e) :
    (Outcome.jumped title t).LeadsTo (.failed e) := by
  rw [enter_eq_opening] at h
  cases ho : p.opening title with
  | ok x => simp [ho, Except.map] at h
  | error e' =>
    simp only [ho, Except.map, Except.error.injEq] at h
    refine ⟨1, fun m => ?_⟩
    rw [Nat.add_comm]
    cases m <;> simp [Outcome.follow, ht, opening_still, ho, Except.map, h]

/-- An outcome leads to what a call answered, with the beats and the further calls of a telling. -/
def Outcome.Answered (o : Outcome) (t : Telling) : Playthrough.Answer × Playthrough → Prop
  | (.beat b, q) => ∃ u, q.run = some u ∧ o.LeadsTo ({ t with play := q.still }.give b u.tellOn)
  | (.ended, q) => q.run = none ∧ (o.LeadsTo (.through { t with play := q.still }) ∨
      o.LeadsTo (.stopped { t with play := q.still }))
  | (.failed e, _) => o.LeadsTo (.failed e)
  | (.stalled, _) => True

theorem Outcome.LeadsTo.answered {o o' : Outcome} (h : o.LeadsTo o') {t : Telling}
    {x : Playthrough.Answer × Playthrough} (hx : o'.Answered t x) : o.Answered t x := by
  obtain ⟨a, q⟩ := x
  cases a with
  | beat b =>
    obtain ⟨u, hu, ho⟩ := hx
    exact ⟨u, hu, h.trans ho⟩
  | ended => exact ⟨hx.1, hx.2.imp h.trans h.trans⟩
  | failed e => exact h.trans hx
  | stalled => trivial

theorem walk_answered (fuel : Nat) (p : Playthrough) (r : Run) (t : Telling) (ht : t.play = p.still)
    (ha : r.awaiting = none) :
    (tellFrames r.origin r.frames t).Answered t (Playthrough.walk fuel p r) := by
  induction fuel generalizing p r t with
  | zero => trivial
  | succ fuel ih =>
    have h := tells_step p r t ht ha
    simp only [Playthrough.walk]
    generalize p.step r = x at h
    have hp : { t with play := p.still } = t := by rw [← ht]
    cases h with
    | fails e h => exact .of_eq h
    | walks q u hu h _ =>
      rw [h]
      exact ih q u { t with play := q.still } rfl (hu.trans ha)
    | jumps title h =>
      cases he : p.enter title with
      | error e => exact (Outcome.LeadsTo.of_eq h).trans (leadsTo_of_enter_error ht he)
      | ok x =>
        obtain ⟨hu, hl⟩ := follow_of_enter ht he
        have hj : (Outcome.jumped title t).LeadsTo _ := ⟨1, fun m => by rw [Nat.add_comm, hl]⟩
        refine ((Outcome.LeadsTo.of_eq h).trans hj).answered ?_
        exact ih x.1 x.2 { t with play := x.1.still } rfl hu
    | gives b u h =>
      refine ⟨u, rfl, .of_eq ?_⟩
      rw [h, ← hp]
      rfl
    | ends h => exact ⟨rfl, .inl (.of_eq (by rw [h, ← hp]; rfl))⟩
    | stops h => exact ⟨rfl, .inr (.of_eq (by rw [h, ← hp]; rfl))⟩

theorem exists_walk_of_account (n : Nat) (p : Playthrough) (r : Run) (t : Telling) {a : Account}
    (ht : t.play = p.still) (ha : r.awaiting = none)
    (h : ((tellFrames r.origin r.frames t).follow n).account? = some a) :
    ∃ fuel, (Playthrough.walk fuel p r).1 ≠ .stalled := by
  have hs := tells_step p r t ht ha
  generalize hx : p.step r = x at hs
  cases hs with
  | fails e _ => exact ⟨1, by simp [Playthrough.walk, hx]⟩
  | gives b u _ => exact ⟨1, by simp [Playthrough.walk, hx]⟩
  | ends _ => exact ⟨1, by simp [Playthrough.walk, hx]⟩
  | stops _ => exact ⟨1, by simp [Playthrough.walk, hx]⟩
  | walks q u hu heq hlt =>
    rw [heq] at h
    obtain ⟨fuel, hf⟩ := exists_walk_of_account n q u _ rfl (hu.trans ha) h
    exact ⟨fuel + 1, by simpa [Playthrough.walk, hx] using hf⟩
  | jumps title heq =>
    cases n with
    | zero => simp [heq, Outcome.follow, Outcome.account?] at h
    | succ n =>
      cases he : p.enter title with
      | error e => exact ⟨1, by simp [Playthrough.walk, hx, he, Except.map]⟩
      | ok y =>
        obtain ⟨hu, hl⟩ := follow_of_enter ht he
        rw [heq, hl] at h
        obtain ⟨fuel, hf⟩ := exists_walk_of_account n y.1 y.2 _ rfl hu h
        exact ⟨fuel + 1, by simpa [Playthrough.walk, hx, he, Except.map] using hf⟩
-- A jump may open lists of any size but takes one of the jumps; every other step leaves less.
termination_by (n, framesSize r.frames)

theorem Outcome.LeadsTo.account_iff {o o' : Outcome} (h : o.LeadsTo o') (a : Account) :
    (∃ n, (o.follow n).account? = some a) ↔ ∃ n, (o'.follow n).account? = some a := by
  obtain ⟨n, hn⟩ := h
  constructor
  · rintro ⟨m, hm⟩
    exact ⟨m, by rw [← hn, Nat.add_comm]; exact account?_follow_add hm n⟩
  · rintro ⟨m, hm⟩
    exact ⟨n + m, by rw [hn, hm]⟩

def Account.behind (before : List Beat) (a : Account) : Account :=
  { a with answers := before.map .beat ++ a.answers }

theorem callsAccount?_cons (fuel : Nat) (s : Option Nat) (ss : List (Option Nat)) (p : Playthrough) :
    p.callsAccount? fuel (s :: ss) =
      if (p.advance fuel s).1.isGood then
        ((p.advance fuel s).2.callsAccount? fuel ss).map fun a =>
          { a with answers := (p.advance fuel s).1 :: a.answers }
      else none := by
  simp only [Playthrough.callsAccount?, Playthrough.asks, List.all_cons, Bool.and_eq_true]
  by_cases hg : (p.advance fuel s).1.isGood = true
  · by_cases hr : ((p.advance fuel s).2.asks fuel ss).1.all Playthrough.Answer.isGood = true
    · simp [hg, hr]
    · simp [hg, hr]
  · simp [hg]

theorem callsAccount?_mono {fuel more : Nat} {ss : List (Option Nat)} {p : Playthrough} {a : Account}
    (h : p.callsAccount? fuel ss = some a) (hle : fuel ≤ more) :
    p.callsAccount? more ss = some a := by
  unfold Playthrough.callsAccount? at h ⊢
  split at h
  · rename_i hg
    have hs : ∀ x ∈ (p.asks fuel ss).1, x ≠ .stalled := by
      intro x hx hc
      have := List.all_eq_true.1 hg x hx
      simp [hc, Playthrough.Answer.isGood] at this
    rw [Playthrough.asks_mono ss hs hle, if_pos hg, h]
  · simp at h

def GivesAccount (calls : List (Option Nat)) : Prop :=
  ∀ (b : Beat) (q : Playthrough) (u : Run) (t : Telling) (a : Account),
    q.run = some u → t.play = q.still → t.calls = calls →
    ((∃ n, ((t.give b u.tellOn).follow n).account? = some a) ↔
      ∃ fuel, (q.callsAccount? fuel calls).map (Account.behind (t.beats ++ [b])) = some a)

theorem Outcome.Answered.account_iff {calls : List (Option Nat)} (hgive : GivesAccount calls)
    {o : Outcome} {t : Telling} {x : Playthrough.Answer × Playthrough} (ho : o.Answered t x)
    (hc : t.calls = calls) (hx : x.1 ≠ .stalled) (a : Account) :
    (∃ n, (o.follow n).account? = some a) ↔
      ∃ fuel, (if x.1.isGood then (x.2.callsAccount? fuel calls).map fun a =>
          { a with answers := x.1 :: a.answers } else none).map (Account.behind t.beats) = some a := by
  obtain ⟨answer, q⟩ := x
  cases answer with
  | stalled => simp at hx
  | failed e =>
    rw [LeadsTo.account_iff ho]
    constructor
    · rintro ⟨n, hn⟩
      cases n <;> simp [follow, account?] at hn
    · rintro ⟨fuel, hf⟩
      simp [Playthrough.Answer.isGood] at hf
  | ended =>
    have hq (fuel : Nat) : q.callsAccount? fuel calls =
        some ⟨calls.map fun _ => .ended, q.store, q.visited⟩ := by
      simp [Playthrough.callsAccount?, Playthrough.asks_of_not_running ho.1,
        Playthrough.Answer.isGood]
    have hf (n : Nat) : ((Outcome.through { t with play := q.still }).follow n).account? =
          some (Account.behind t.beats ⟨.ended :: calls.map fun _ => .ended, q.store, q.visited⟩) ∧
        ((Outcome.stopped { t with play := q.still }).follow n).account? =
          some (Account.behind t.beats ⟨.ended :: calls.map fun _ => .ended, q.store, q.visited⟩) := by
      cases n <;> simp [follow, account?, Account.behind, hc, Playthrough.still]
    rcases ho.2 with hl | hl
    · rw [LeadsTo.account_iff hl]
      simp [hf, hq, Playthrough.Answer.isGood]
    · rw [LeadsTo.account_iff hl]
      simp [hf, hq, Playthrough.Answer.isGood]
  | beat b =>
    obtain ⟨u, hu, hl⟩ := ho
    have hb : (Account.behind t.beats ∘ fun a => { a with answers := .beat b :: a.answers }) =
        Account.behind (t.beats ++ [b]) := by
      funext a
      simp [Account.behind]
    rw [LeadsTo.account_iff hl, hgive b q u { t with play := q.still } a hu rfl hc]
    simp only [Playthrough.Answer.isGood, if_true, Option.map_map, hb]

theorem callsAccount?_good {fuel : Nat} {s : Option Nat} {calls : List (Option Nat)} {p : Playthrough}
    {a : Account} {bs : List Beat}
    (h : (p.callsAccount? fuel (s :: calls)).map (Account.behind bs) = some a) :
    (p.advance fuel s).1 ≠ .stalled := by
  intro hc
  rw [callsAccount?_cons, hc] at h
  simp [Playthrough.Answer.isGood] at h

theorem walk_account_iff {calls : List (Option Nat)} (hgive : GivesAccount calls) {s : Option Nat}
    {p : Playthrough} {r : Run} {t : Telling} (ht : t.play = p.still) (ha : r.awaiting = none)
    (hw : ∀ fuel, p.advance fuel s = Playthrough.walk fuel p r) (hc : t.calls = calls) (a : Account) :
    (∃ n, ((tellFrames r.origin r.frames t).follow n).account? = some a) ↔
      ∃ fuel, (p.callsAccount? fuel (s :: calls)).map (Account.behind t.beats) = some a := by
  constructor
  · rintro ⟨n, hn⟩
    obtain ⟨fuel, hf⟩ := exists_walk_of_account n p r t ht ha hn
    have hiff := (walk_answered fuel p r t ht ha).account_iff hgive hc hf a
    obtain ⟨fuel', hf'⟩ := hiff.1 ⟨n, hn⟩
    refine ⟨max fuel fuel', ?_⟩
    rw [← hw] at hf hf'
    rw [callsAccount?_cons, Playthrough.advance_mono hf (Nat.le_max_left ..)]
    by_cases hg : (p.advance fuel s).1.isGood = true
    · simp only [hg, if_true, Option.map_map] at hf' ⊢
      obtain ⟨x, hx, rfl⟩ := Option.map_eq_some_iff.1 hf'
      rw [callsAccount?_mono hx (Nat.le_max_right ..), Option.map_some]
    · simp [hg] at hf'
  · rintro ⟨fuel, hf⟩
    have hs := callsAccount?_good hf
    rw [hw] at hs
    refine ((walk_answered fuel p r t ht ha).account_iff hgive hc hs a).2 ⟨fuel, ?_⟩
    rwa [callsAccount?_cons, hw] at hf

theorem tellOn_account_iff {calls : List (Option Nat)} (hgive : GivesAccount calls) (s : Option Nat)
    {p : Playthrough} {r : Run} {t : Telling} (hr : p.run = some r) (ht : t.play = p.still)
    (hc : t.calls = calls) (a : Account) :
    (∃ n, ((r.tellOn s t).follow n).account? = some a) ↔
      ∃ fuel, (p.callsAccount? fuel (s :: calls)).map (Account.behind t.beats) = some a := by
  cases ha : r.awaiting with
  | none =>
    have h := walk_account_iff hgive ht ha (Playthrough.advance_of_walking hr ha · s) hc a
    simpa [Run.tellOn, ha] using h
  | some options =>
    cases hs : Playthrough.select s options.length with
    | error e =>
      constructor
      · rintro ⟨n, hn⟩
        cases n <;> simp [Run.tellOn, ha, hs, Outcome.follow, Outcome.account?] at hn
      · rintro ⟨fuel, hf⟩
        rw [callsAccount?_cons, Playthrough.advance_of_waiting hr ha, hs] at hf
        simp [Playthrough.Answer.isGood] at hf
    | ok i =>
      have hw (fuel : Nat) : p.advance fuel s =
          Playthrough.walk fuel p (Playthrough.Run.choose r options i) := by
        rw [Playthrough.advance_of_waiting hr ha, hs]
      have ho : (Playthrough.Run.choose r options i).origin = r.origin := by
        unfold Playthrough.Run.choose
        split <;> rfl
      have h := walk_account_iff hgive ht (Playthrough.Run.choose_awaiting r options i) hw hc a
      rw [ho] at h
      simpa [Run.tellOn, ha, hs] using h

theorem givesAccount (calls : List (Option Nat)) : GivesAccount calls := by
  -- A call uses the statement only for the calls behind it, however long it walks itself.
  induction calls with
  | nil =>
    intro b q u t a hu ht hc
    have hf (n : Nat) : ((t.give b u.tellOn).follow n).account? =
        some (Account.behind (t.beats ++ [b]) ⟨[], q.store, q.visited⟩) := by
      cases n <;> simp [Telling.give, hc, Outcome.follow, Outcome.account?, Account.behind, ht,
        Playthrough.still]
    simp [hf, Playthrough.callsAccount?, Playthrough.asks]
  | cons s calls ih =>
    intro b q u t a hu ht hc
    have h := tellOn_account_iff ih s (t := { t with beats := t.beats ++ [b], calls := calls })
      hu ht rfl a
    simpa [Telling.give, hc] using h

/-- Playing on from a node gives the answers, the variables and the visited nodes of its telling: one
has an account exactly when the other has, and it is the same. -/
theorem account_iff_tell (p : Playthrough) (title : Text) (selections : List (Option Nat))
    (a : Account) :
    (∃ fuel, p.account? fuel title selections = some a) ↔
      ∃ jumps, (p.tell jumps title selections).account? = some a := by
  have he : { p with run := none } = p.still := rfl
  simp only [Playthrough.account?, Playthrough.start, he, enter_eq_opening, opening_still,
    Playthrough.tell]
  cases ho : p.opening title with
  | error e => simp [Except.map, Outcome.account?]
  | ok x =>
    obtain ⟨q, origin, statements⟩ := x
    cases selections with
    | nil =>
      simp [Except.map, Outcome.account?, Playthrough.callsAccount?, Playthrough.asks,
        Playthrough.still]
    | cons s calls =>
      have h := tellOn_account_iff (givesAccount calls) s
        (p := { q with run := some ⟨origin, [⟨statements, []⟩], none⟩ }) (t := ⟨q.still, [], calls⟩)
        rfl rfl rfl a
      have hb : Account.behind [] = id := rfl
      simpa [Run.tellOn, tellFrames, hb, Except.map, Playthrough.still] using h.symm

end Parley.Play
