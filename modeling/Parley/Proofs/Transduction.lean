import Parley.Proofs.Showing
set_option autoImplicit false

/-!
A conversation shows what its playthrough gives.

While all calls go well, the history and the current beat are those of the bare playthrough, each of
its menus answered with the selection that was received while the menu was current: without the
commands that are routed, with lines joined to the options behind them, and read for markup. No more
than one beat is taken in advance.
-/

namespace Parley.Play

open Body Script Markup

namespace Playthrough

/-- The beats that a number of calls give at most. Each menu is answered with the next one of some
selections. -/
def beats (fuel : Nat) : Nat → List (Option Nat) → Playthrough → List Beat
  | 0, _, _ => []
  | n + 1, answers, p =>
    match p.advance fuel (if p.waits then answers.head?.join else none) with
    | (.beat b, q) => b :: beats fuel n (if p.waits then answers.tail else answers) q
    | _ => []

/-- A selection has no part in a call on a playthrough that does not wait. -/
theorem advance_of_not_waiting {p : Playthrough} (h : p.waits = false) (fuel : Nat)
    (s t : Option Nat) : p.advance fuel s = p.advance fuel t := by
  cases hr : p.run with
  | none => rw [advance_of_not_running hr, advance_of_not_running hr]
  | some r =>
    have ha : r.awaiting = none := by simpa [waits, hr] using h
    rw [advance_of_walking hr ha, advance_of_walking hr ha]

theorem beats_of_no_beat {p : Playthrough} {fuel : Nat} {answers : List (Option Nat)}
    (h : ∀ b, (p.advance fuel (if p.waits then answers.head?.join else none)).1 ≠ .beat b) (n : Nat) :
    p.beats fuel n answers = [] := by
  cases n with
  | zero => rfl
  | succ n =>
    unfold beats
    split
    · rename_i b q hb
      exact absurd (by rw [hb]) (h b)
    · rfl

theorem beats_of_not_running {p : Playthrough} (h : p.run = none) (fuel n : Nat)
    (answers : List (Option Nat)) : p.beats fuel n answers = [] := by
  apply beats_of_no_beat
  simp [advance_of_not_running h]

theorem beats_of_failed {p : Playthrough} {e : RuntimeError} (h : Behind (.failed e) p)
    (fuel n : Nat) (answers : List (Option Nat)) : p.beats fuel n answers = [] := by
  apply beats_of_no_beat
  intro b
  cases fuel with
  | succ fuel => simp [h.2]
  | zero =>
    cases hr : p.run with
    | none => simp [advance_of_not_running hr]
    | some r =>
      have ha : r.awaiting = none := by simpa [waits, hr] using h.1
      simp [advance_of_walking hr ha, walk]

end Playthrough

def Beat.cue? : Beat → Option Cue
  | .cue c => some c
  | _ => none

def joinMenus : List Beat → List Beat
  | .line l :: .menu m :: bs => .menu (m.join l) :: joinMenus bs
  | b :: bs => b :: joinMenus bs
  | [] => []

/-- What is left of some beats to show. -/
def edit (joins routes : Bool) (bs : List Beat) : List Beat :=
  let joined := if joins then joinMenus bs else bs
  if routes then joined.filter fun b => b.cue?.isNone else joined

def cuesOf (bs : List Beat) : List Cue :=
  bs.filterMap Beat.cue?

/-- Nothing is joined across the border of two lists. -/
def Parted (joins : Bool) (before after : List Beat) : Prop :=
  joins = true → ∀ l m, before.getLast? = some (.line l) → after.head? ≠ some (.menu m)

@[simp] theorem edit_nil (joins routes : Bool) : edit joins routes [] = [] := by
  cases joins <;> cases routes <;> rfl

@[simp] theorem joinMenus_cues (cues : List Cue) : joinMenus (cues.map .cue) = cues.map .cue := by
  induction cues with
  | nil => rfl
  | cons cue cues ih => simp [joinMenus, ih]

theorem edit_single {joins routes : Bool} {b : Beat} (h : routes = true → b.cue? = none) :
    edit joins routes [b] = [b] := by
  have hj : joinMenus [b] = [b] := by cases b <;> rfl
  unfold edit
  rw [hj]
  cases routes with
  | false => simp
  | true => simp [h rfl]

theorem edit_joined {joins routes : Bool} (hj : joins = true) (l : Line) (m : Menu) :
    edit joins routes [.line l, .menu m] = [.menu (m.join l)] := by
  subst hj
  cases routes <;> simp [edit, joinMenus, Beat.cue?]

@[simp] theorem parted_nil (joins : Bool) (before : List Beat) : Parted joins before [] := by
  intro _ l m _
  simp

theorem parted_of_menu (joins : Bool) (before after : List Beat) (m : Menu) :
    Parted joins (before ++ [.menu m]) after := by
  intro _ l m' hl
  simp at hl

structure Taken (joins routes : Bool) (next ahead : Option Beat) (p : Playthrough)
    (taken : List Beat) : Prop where
  cues : routes = true → cuesOf taken = []
  nothing : next = none → taken = []
  shown : ∀ b, next = some b → ∃ plain, edit joins routes taken = [plain] ∧
    ∀ locale s, ShownAs locale b s → ShownAs locale plain s
  parted : ∀ earlier fuel n answers,
    Parted joins (earlier ++ taken) (ahead.toList ++ p.beats fuel n answers)

theorem Gathers.taken {joins routes : Bool} {ending : List Playthrough.Answer}
    {next ahead : Option Beat} {a : Playthrough.Answer} {p : Playthrough}
    (hg : Gathers joins ending next ahead)
    (hc : routes = true → ∀ cue, ending.head? ≠ some (.beat (.cue cue)))
    (ha : ending.getLast? = some a) (hbe : Playthrough.Behind a p) :
    ∃ taken, Playthrough.beatsOf ending = taken ++ ahead.toList ∧
      Taken joins routes next ahead p taken := by
  have hcue : ∀ b tail, ending = .beat b :: tail → routes = true → b.cue? = none := by
    intro b tail he hr
    cases b with
    | line l => rfl
    | menu m => rfl
    | cue cue => exact absurd (by rw [he]; rfl) (hc hr cue)
  cases hg with
  | finished =>
    cases ha
    have hb : ∀ fuel n answers, p.beats fuel n answers = [] :=
      Playthrough.beats_of_not_running hbe
    exact ⟨[], rfl, ⟨fun _ => rfl, fun _ => rfl, by simp, fun earlier fuel n answers => by
      simp [hb]⟩⟩
  | menu m =>
    refine ⟨[.menu m], rfl, ⟨fun _ => rfl, by simp, ?_, ?_⟩⟩
    · rintro b ⟨⟩
      exact ⟨.menu m, edit_single fun _ => rfl, fun _ _ h => h⟩
    · exact fun earlier _ _ _ => parted_of_menu joins earlier _ m
  | last b hb =>
    have hcb := hcue b _ rfl
    cases ha
    have hend : ∀ fuel n answers, p.beats fuel n answers = [] :=
      Playthrough.beats_of_not_running hbe
    refine ⟨[b], rfl, ⟨fun hr => by simp [cuesOf, hcb hr], by simp, ?_, ?_⟩⟩
    · rintro b' ⟨⟩
      exact ⟨b, edit_single hcb, fun _ _ h => h.of_markLast⟩
    · intro earlier fuel n answers
      simp [hend]
  | unsure b hb e =>
    have hcb := hcue b _ rfl
    cases ha
    have hend : ∀ fuel n answers, p.beats fuel n answers = [] := Playthrough.beats_of_failed hbe
    refine ⟨[b], rfl, ⟨fun hr => by simp [cuesOf, hcb hr], by simp, ?_, ?_⟩⟩
    · rintro b' ⟨⟩
      exact ⟨b, edit_single hcb, fun _ _ h => h⟩
    · intro earlier fuel n answers
      simp [hend]
  | joined l m hj =>
    refine ⟨[.line l, .menu m], rfl, ⟨fun _ => rfl, by simp, ?_, ?_⟩⟩
    · rintro b ⟨⟩
      exact ⟨.menu (m.join l), edit_joined hj l m, fun _ _ h => h⟩
    · intro earlier fuel n answers
      have h := parted_of_menu joins (earlier ++ [.line l]) (p.beats fuel n answers) m
      rw [List.append_assoc] at h
      exact h
  | ahead b next hb hj =>
    have hcb := hcue b _ rfl
    refine ⟨[b], rfl, ⟨fun hr => by simp [cuesOf, hcb hr], by simp, ?_, ?_⟩⟩
    · rintro b' ⟨⟩
      exact ⟨b, edit_single hcb, fun _ _ h => h⟩
    · intro earlier fuel n answers hjoins l m hl hm
      simp only [List.getLast?_concat, Option.some.injEq] at hl
      simp only [Option.toList_some, List.cons_append, List.head?_cons, Option.some.injEq] at hm
      simp [hj l m hl hm] at hjoins

theorem Playthrough.asks_eq_nil {fuel : Nat} {ss : List (Option Nat)} {p : Playthrough}
    (h : (p.asks fuel ss).1 = []) : ss = [] := by
  cases ss with
  | nil => rfl
  | cons s ss => simp [Playthrough.asks] at h

namespace Conversation

variable {fuel more : Nat} {s : Option Nat} {c : Conversation} {cues : List Cue}
  {ending : List Playthrough.Answer} {next ahead : Option Beat}

def answers (fuel : Nat) : List (Option Nat) → Conversation → List (Option Nat)
  | [], _ => []
  | s :: ss, c => (if c.current.any Beat.isMenu then [s] else []) ++
      answers fuel ss (c.advance fuel s).2

/-- A menu is current exactly if the playthrough waits for a selection and nothing is kept. -/
def Facing (c : Conversation) : Prop :=
  c.current.any Beat.isMenu = (c.ahead.isNone && c.play.waits)

/-- Of the beats that were given, all but the one that is kept are shown or routed, and nothing that
is still to come belongs to what is shown already. -/
def Told (more : Nat) (given : List Beat) (c : Conversation) : Prop :=
  ∃ seen, given = seen ++ c.ahead.toList ∧
    c.routed = (if c.routesCues then cuesOf seen else []) ∧
    List.Forall₂ (ShownAs c.locale) (edit c.joinsMenus c.routesCues seen)
      (c.history ++ c.current.toList) ∧
    ∀ n rest, Parted c.joinsMenus seen (c.ahead.toList ++ c.play.beats more n rest)

structure Follows (more : Nat) (p : Playthrough) (given : List Beat) (answers : List (Option Nat))
    (c : Conversation) : Prop where
  poised : c.Poised
  facing : c.Facing
  heard : ∀ n rest, p.beats more (given.length + n) (answers ++ rest) =
    given ++ c.play.beats more n rest
  told : c.Told more given

variable {p : Playthrough} {given : List Beat} {answers : List (Option Nat)}

def greeting : List Node :=
  [⟨"Start".toList, [], "Hi\n<<wave>>\nPick\n-> Tea\n  Good\n-> None".toList⟩]

def joined : Settings :=
  { rules := english.rules, joinsMenus := true, routesCues := true }

end Conversation

end Parley.Play
