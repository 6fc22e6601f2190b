import Mathlib.Algebra.GroupWithZero.Nat
import Parley.Proofs.Showing
set_option autoImplicit false

/-!
Where the beats of a playthrough go in a conversation.

Each beat is shown, routed or kept, unless its markup is at fault: then it is lost, and options that
were lost go on waiting all the same.
-/

namespace Parley.Play

open Body Script Markup

inductive Kept (locale : Locale) : List Beat → List Beat → List Cue → Prop
  | nothing : Kept locale [] [] []
  | routed {beats shown : List Beat} {cues : List Cue} (cue : Cue)
      (h : Kept locale beats shown cues) :
      Kept locale (beats ++ [.cue cue]) shown (cues ++ [cue])
  | shown {beats shown : List Beat} {cues : List Cue} (b s : Beat)
      (h : Kept locale beats shown cues) (hs : ShownAs locale b s) :
      Kept locale (beats ++ [b]) (shown ++ [s]) cues
  | joined {beats shown : List Beat} {cues : List Cue} (l : Line) (m : Menu) (s : Beat)
      (h : Kept locale beats shown cues) (hs : ShownAs locale (.menu (m.join l)) s) :
      Kept locale (beats ++ [.line l, .menu m]) (shown ++ [s]) cues

theorem Kept.route {locale : Locale} {beats shown : List Beat} {cues : List Cue}
    (h : Kept locale beats shown cues) (more : List Cue) :
    Kept locale (beats ++ more.map .cue) shown (cues ++ more) := by
  induction more generalizing beats cues with
  | nil => simpa using h
  | cons cue more ih => simpa using ih (h.routed cue)

theorem Breaks.beats {ending : List Playthrough.Answer} {report : Report} {ahead : Option Beat}
    (h : Breaks ending report ahead) : Playthrough.beatsOf ending = ahead.toList := by
  cases h <;> rfl

/-- What is shown of an ending is made of all of its beats but the one that is kept. -/
theorem Kept.gather {locale : Locale} {beats shown : List Beat} {cues : List Cue} {joins : Bool}
    {ending : List Playthrough.Answer} {b s : Beat} {ahead : Option Beat}
    (h : Kept locale beats shown cues) (hg : Gathers joins ending (some b) ahead)
    (hs : ShownAs locale b s) :
    ∃ taken, Playthrough.beatsOf ending = taken ++ ahead.toList ∧
      Kept locale (beats ++ taken) (shown ++ [s]) cues := by
  cases hg with
  | menu m => exact ⟨[.menu m], rfl, h.shown _ s hs⟩
  | last b hb => exact ⟨[b], rfl, h.shown b s hs.of_markLast⟩
  | unsure b hb e => exact ⟨[b], rfl, h.shown b s hs⟩
  | joined l m hj => exact ⟨[.line l, .menu m], rfl, h.joined l m s hs⟩
  | ahead b next hb hj => exact ⟨[b], rfl, h.shown b s hs⟩

theorem Gathers.beats_of_none {joins : Bool} {ending : List Playthrough.Answer} {ahead : Option Beat}
    (h : Gathers joins ending none ahead) : Playthrough.beatsOf ending = [] ∧ ahead = none := by
  cases h
  exact ⟨rfl, rfl⟩

namespace Conversation

variable {fuel : Nat} {s : Option Nat} {c : Conversation} {given : List Beat}

/-- Each of the beats given so far is in the history, is the current one, was routed or is kept. -/
def Accounted (c : Conversation) (given : List Beat) : Prop :=
  ∃ before, given = before ++ c.ahead.toList ∧
    Kept c.locale before (c.history ++ c.current.toList) c.routed

/-- The last of the beats given so far are options that are kept or that are the current beat. -/
def Awaited (c : Conversation) (given : List Beat) : Prop :=
  ∃ m, given.getLast? = some (.menu m) ∧
    (c.ahead = some (.menu m) ∨
      c.ahead = none ∧ ∃ shown, c.current = some shown ∧
        (ShownAs c.locale (.menu m) shown ∨ ∃ l, ShownAs c.locale (.menu (m.join l)) shown))

def Intact (c : Conversation) (given : List Beat) : Prop :=
  c.Accounted given ∧ (c.play.waits = true → c.Awaited given)

theorem accounted_of_breaks {ss : List (Option Nat)} {cues : List Cue}
    {ending : List Playthrough.Answer} {report : Report} {ahead : Option Beat} {play : Playthrough}
    (h : c.Accounted given)
    (ht : c.ahead.toList.map .beat ++ (c.play.asks fuel ss).1 =
      cues.map (fun cue => .beat (.cue cue)) ++ ending)
    (hb : Breaks ending report ahead) :
    Accounted { c with play := play, routed := c.routed ++ cues, ahead := ahead }
      (given ++ Playthrough.beatsOf (c.play.asks fuel ss).1) := by
  obtain ⟨before, rfl, hk⟩ := h
  refine ⟨before ++ cues.map .cue, ?_, hk.route cues⟩
  rw [List.append_assoc, beats_of_tape ht, hb.beats, List.append_assoc]

theorem intact_of_breaks {ss : List (Option Nat)} {cues : List Cue}
    {ending : List Playthrough.Answer} {report : Report} {ahead : Option Beat} (hp : c.Poised)
    (h : c.Intact given)
    (ht : c.ahead.toList.map .beat ++ (c.play.asks fuel ss).1 =
      cues.map (fun cue => .beat (.cue cue)) ++ ending)
    (hb : Breaks ending report ahead) :
    Intact { c with
        play := (c.play.asks fuel ss).2
        routed := c.routed ++ cues
        ahead := ahead }
      (given ++ Playthrough.beatsOf (c.play.asks fuel ss).1) := by
  refine ⟨accounted_of_breaks h.1 ht hb, ?_⟩
  rcases waits_of_breaks hp ht hb with ⟨hah, rfl, ⟨e, rfl⟩, hq⟩ | hw
  · -- The selection was refused: the same options wait, and no beat was given.
    have hnone := beats_of_tape ht
    simp only [hah, Option.toList_none, List.nil_append, List.map_nil, Playthrough.beatsOf] at hnone
    have hahead : ahead = none := by
      cases hb
      rfl
    intro hw
    obtain ⟨m, hm, hwhere⟩ := h.2 (hq ▸ hw)
    refine ⟨m, by simpa [hnone] using hm, ?_⟩
    simpa [hah, hahead] using hwhere
  · intro hw'
    simp [hw] at hw'

theorem awaited_of_gathers {joins : Bool} {ending : List Playthrough.Answer} {b shown : Beat}
    {ahead : Option Beat} {p : Playthrough} {a : Playthrough.Answer} {before : List Beat}
    (hg : Gathers joins ending (some b) ahead) (hs : ShownAs c.locale b shown)
    (ha : ending.getLast? = some a) (hbe : Playthrough.Behind a p) (hw : p.waits = true)
    (hah : c.ahead = ahead) (hcur : c.current = some shown) :
    c.Awaited (before ++ Playthrough.beatsOf ending) := by
  cases hg with
  | menu m => exact ⟨m, by simp [Playthrough.beatsOf], .inr ⟨hah, shown, hcur, .inl hs⟩⟩
  | last b hb =>
    cases ha
    have hr : p.run = none := hbe
    simp [Playthrough.waits, hr] at hw
  | unsure b hb e =>
    cases ha
    simp [hbe.1] at hw
  | joined l m hj =>
    exact ⟨m, by simp [Playthrough.beatsOf], .inr ⟨hah, shown, hcur, .inr ⟨l, hs⟩⟩⟩
  | ahead b next hb hj =>
    cases ha
    have hm : p.waits = next.isMenu := hbe
    cases next with
    | menu m => exact ⟨m, by simp [Playthrough.beatsOf], .inl hah⟩
    | line l => simp [hm, Beat.isMenu] at hw
    | cue cue => simp [hm, Beat.isMenu] at hw

/-- A call keeps everything unless it reports an error of markup. -/
theorem advance_intact (hp : c.Poised) (h : c.Intact given)
    (hm : ∀ e, (c.advance fuel s).1 ≠ .failed (.markup e)) :
    (c.advance fuel s).2.Intact
      (given ++ Playthrough.beatsOf (c.play.asks fuel (c.asked fuel s)).1) := by
  obtain ⟨cues, ending, ht, _, ⟨report, ahead, hb, hadv⟩ | ⟨next, ahead, hg, _, hadv⟩⟩ :=
    advance_course fuel s c
  · rw [hadv]
    exact intact_of_breaks hp h ht hb
  · obtain ⟨a, ha, hbe⟩ := behind_of_gathers hp ht hg
    obtain ⟨⟨before, rfl, hk⟩, _⟩ := h
    have hgiven : before ++ c.ahead.toList ++
        Playthrough.beatsOf (c.play.asks fuel (c.asked fuel s)).1 =
        before ++ cues.map .cue ++ Playthrough.beatsOf ending := by
      rw [List.append_assoc, beats_of_tape ht, List.append_assoc]
    rw [hgiven]
    rcases reveal_cases next { c with
        play := (c.play.asks fuel (c.asked fuel s)).2
        routed := c.routed ++ cues
        ahead := ahead } with ⟨rfl, hr⟩ | ⟨b, rfl, ⟨shown, hs, hr⟩ | ⟨e, hr⟩⟩
    · obtain ⟨hnil, rfl⟩ := hg.beats_of_none
      rw [hadv, hr]
      refine ⟨⟨before ++ cues.map .cue, by simp [hnil, present], ?_⟩, ?_⟩
      · simpa [present] using hk.route cues
      · intro hw
        cases hg
        cases ha
        have hrun : (c.play.asks fuel (c.asked fuel s)).2.run = none := hbe
        simp [present, Playthrough.waits, hrun] at hw
    · obtain ⟨taken, htaken, hk'⟩ := (hk.route cues).gather hg hs
      rw [hadv, hr]
      refine ⟨⟨before ++ cues.map .cue ++ taken, by simp [htaken, present], ?_⟩, ?_⟩
      · simpa [present] using hk'
      · intro hw
        exact awaited_of_gathers hg hs ha hbe hw rfl rfl
    · exact absurd (by rw [hadv, hr]) (hm e)

theorem advances_intact (fuel : Nat) (selections : List (Option Nat)) (hp : c.Poised) (h : c.Intact given)
    (hm : ∀ e, .failed (.markup e) ∉ (c.advances fuel selections).1) :
    (c.advances fuel selections).2.Intact (given ++ c.given fuel selections) := by
  induction selections generalizing c given with
  | nil => simpa [advances, Conversation.given, askedIn, Playthrough.asks, Playthrough.beatsOf] using h
  | cons s ss ih =>
    simp only [advances, List.mem_cons, not_or] at hm ⊢
    have h' := advance_intact hp h (fun e he => (hm e).1 he.symm)
    rw [given_cons, ← List.append_assoc]
    exact ih (advance_poised fuel s hp) h' fun e => (hm e).2

/-- Options that wait for a selection while something else is current, and nothing is kept, wait for
good: no selection reaches them any more. -/
theorem advance_of_lost_menu (hw : c.play.waits = true) (hah : c.ahead = none)
    (hcur : c.current.any Beat.isMenu = false) (fuel : Nat) (s : Option Nat) :
    c.advance fuel s = (.failed (.running .noSelection), c) := by
  have hpass : c.passed s = none := by simp [passed, hcur]
  have hplay : c.play.advance fuel none = (.failed .noSelection, c.play) := by
    cases hr : c.play.run with
    | none => simp [Playthrough.waits, hr] at hw
    | some r =>
      cases ha : r.awaiting with
      | none => simp [Playthrough.waits, hr, ha] at hw
      | some options => simp [Playthrough.advance_of_waiting hr ha, Playthrough.select]
  have hfirst : c.first fuel s = (.failed .noSelection, c) := by
    unfold first
    split
    · rename_i b hb
      simp [hah] at hb
    · rw [hpass, hplay]
  have hpull : c.pull fuel (c.passed s) = (.failed .noSelection, c) := by
    rw [pull_eq, hfirst]
    split
    · exact (route_of_not_cue fuel fuel c (by simp)).2
    · rfl
  rw [advance_of_pull hpull]

end Conversation

/-! The converse is a matter of counting: what is shown, routed or kept stands for no more beats than
were given, and for fewer once one was lost. -/

/-- The number of beats that a shown one stands for. -/
def Beat.parts : Beat → Nat
  | .menu m => if m.text.isSome then 2 else 1
  | _ => 1

theorem ShownAs.parts_of_fresh {locale : Locale} {b s : Beat} (h : ShownAs locale b s)
    (hb : b.Fresh) : s.parts = 1 := by
  cases h with
  | line l marked last h => rfl
  | menu m entries last ht he => simp [Beat.parts, ht]
  | joined m text marked entries last ht h he => simp [hb.2] at ht
  | cue c last => rfl

theorem ShownAs.parts_of_joined {locale : Locale} {l : Line} {m : Menu} {s : Beat}
    (h : ShownAs locale (.menu (m.join l)) s) : s.parts = 2 := by
  cases h with
  | menu m entries last ht he => simp [Menu.join] at ht
  | joined m text marked entries last ht h he => simp [Beat.parts]

theorem Kept.length_eq {locale : Locale} {beats shown : List Beat} {cues : List Cue}
    (h : Kept locale beats shown cues) (hf : ∀ b ∈ beats, b.Fresh) :
    beats.length = (shown.map Beat.parts).sum + cues.length := by
  induction h with
  | nothing => rfl
  | routed cue h ih =>
    have := ih fun b hb => hf b (List.mem_append_left _ hb)
    simp only [List.length_append, List.length_singleton]
    omega
  | shown b s h hs ih =>
    have := ih fun b hb => hf b (List.mem_append_left _ hb)
    have hb : s.parts = 1 := hs.parts_of_fresh (hf b (by simp))
    simp only [List.length_append, List.length_singleton, List.map_append, List.map_cons,
      List.map_nil, List.sum_append, List.sum_singleton]
    omega
  | joined l m s h hs ih =>
    have := ih fun b hb => hf b (List.mem_append_left _ hb)
    have hb : s.parts = 2 := hs.parts_of_joined
    simp only [List.length_append, List.length_cons, List.length_nil, List.map_append,
      List.map_cons, List.map_nil, List.sum_append, List.sum_singleton]
    omega

theorem Gathers.parts_le {locale : Locale} {joins : Bool} {ending : List Playthrough.Answer}
    {b s : Beat} {ahead : Option Beat} (hg : Gathers joins ending (some b) ahead)
    (hs : ShownAs locale b s) (hf : ∀ b ∈ Playthrough.beatsOf ending, b.Fresh) :
    s.parts + ahead.toList.length = (Playthrough.beatsOf ending).length := by
  obtain ⟨taken, htaken, hk⟩ := Kept.nothing.gather hg hs
  have hlen := hk.length_eq fun b hb => hf b (by simpa [htaken] using .inl (by simpa using hb))
  rw [htaken]
  simp only [List.nil_append, List.map_cons, List.map_nil, List.sum_singleton, List.length_nil]
    at hlen
  simp only [List.length_append]
  omega

theorem Gathers.beats_pos {joins : Bool} {ending : List Playthrough.Answer} {b : Beat}
    {ahead : Option Beat} (hg : Gathers joins ending (some b) ahead) :
    ahead.toList.length < (Playthrough.beatsOf ending).length := by
  cases hg <;> simp [Playthrough.beatsOf]

def Report.isMarkup : Report → Bool
  | .failed (.markup _) => true
  | _ => false

namespace Conversation

variable {fuel : Nat} {c : Conversation}

/-- The number of beats that a conversation has something of. -/
def held (c : Conversation) : Nat :=
  ((c.history ++ c.current.toList).map Beat.parts).sum + c.routed.length + c.ahead.toList.length

theorem advance_held (fuel : Nat) (s : Option Nat) (hp : c.Poised) :
    (c.advance fuel s).2.held + (if (c.advance fuel s).1.isMarkup then 1 else 0) ≤
      c.held + (Playthrough.beatsOf (c.play.asks fuel (c.asked fuel s)).1).length := by
  obtain ⟨cues, ending, ht, _, ⟨report, ahead, hb, hadv⟩ | ⟨next, ahead, hg, _, hadv⟩⟩ :=
    advance_course fuel s c
  · have hlen := congrArg List.length (beats_of_tape ht)
    simp only [List.length_append, List.length_map, hb.beats] at hlen
    have hr : report.isMarkup = false := by cases hb <;> rfl
    simp only [hadv, hr, held, List.length_append, Bool.false_eq_true, if_false]
    omega
  · have hlen := congrArg List.length (beats_of_tape ht)
    simp only [List.length_append, List.length_map] at hlen
    rcases reveal_cases next { c with
        play := (c.play.asks fuel (c.asked fuel s)).2
        routed := c.routed ++ cues
        ahead := ahead } with ⟨rfl, hr⟩ | ⟨b, rfl, ⟨shown, hs, hr⟩ | ⟨e, hr⟩⟩
    · obtain ⟨hnil, rfl⟩ := hg.beats_of_none
      rw [hadv, hr]
      simp [held, present, Report.isMarkup, hnil] at hlen ⊢
      omega
    · have hparts := hg.parts_le hs (fresh_of_tape hp ht)
      rw [hadv, hr]
      simp [held, present, Report.isMarkup] at hlen hparts ⊢
      omega
    · have hpos := hg.beats_pos
      rw [hadv, hr]
      simp only [held, Report.isMarkup, List.length_append, if_true]
      omega

theorem advances_held (fuel : Nat) (selections : List (Option Nat)) (hp : c.Poised) :
    (c.advances fuel selections).2.held +
        (c.advances fuel selections).1.countP Report.isMarkup ≤
      c.held + (c.given fuel selections).length := by
  induction selections generalizing c with
  | nil => simp [advances]
  | cons s ss ih =>
    have hone := advance_held fuel s hp
    have hrest := ih (advance_poised fuel s hp)
    simp only [advances, List.countP_cons, given_cons, List.length_append]
    omega

theorem given_fresh (fuel : Nat) (selections : List (Option Nat)) (c : Conversation) :
    ∀ b ∈ c.given fuel selections, b.Fresh :=
  Playthrough.asks_fresh _ _

theorem held_of_accounted {given : List Beat} (h : c.Accounted given)
    (hf : ∀ b ∈ given, b.Fresh) : given.length = c.held := by
  obtain ⟨before, rfl, hk⟩ := h
  have hlen := hk.length_eq fun b hb => hf b (List.mem_append_left _ hb)
  simp only [held, List.length_append]
  omega

/-- In a conversation that has begun, nothing is lost and options that wait can be answered exactly as
long as no call reports an error of markup. -/
theorem intact_iff_no_markup_error {settings : Settings} {nodes : List Node} {c₀ : Conversation}
    {selections : List (Option Nat)} {reports : List Report}
    (hbegin : begin fuel settings nodes = (.ok, c₀))
    (h : c₀.advances fuel selections = (reports, c)) :
    c.play = ((plain settings nodes).asks fuel
        ((ofPlay settings (plain settings nodes)).askedIn fuel (none :: selections))).2 ∧
      (c.Intact ((ofPlay settings (plain settings nodes)).given fuel (none :: selections)) ↔
        ∀ e, .failed (.markup e) ∉ reports) := by
  obtain ⟨hfirst, hwaits⟩ := begin_ok hbegin
  generalize hopen : ofPlay settings (plain settings nodes) = opening at hfirst ⊢
  have hp : opening.Poised := hopen ▸ ofPlay_poised _ _
  have hplay : opening.play = plain settings nodes := by
    rw [← hopen]
    rfl
  have hall : opening.advances fuel (none :: selections) = (.ok :: reports, c) := by
    simp [advances, hfirst, h]
  refine ⟨?_, ?_, ?_⟩
  · rw [← hplay, ← advances_play, hall]
  · intro hintact e he
    have hheld := advances_held fuel (none :: selections) hp
    have hlen := held_of_accounted hintact.1 (given_fresh fuel _ opening)
    have hzero : opening.held = 0 := by
      rw [← hopen]
      rfl
    have hlost : 0 < reports.countP Report.isMarkup :=
      List.countP_pos_iff.2 ⟨_, he, rfl⟩
    rw [hall, List.countP_cons] at hheld
    simp only [Report.isMarkup, Bool.false_eq_true, if_false] at hheld
    omega
  · intro hm
    have hstart : opening.Intact [] := by
      refine ⟨⟨[], ?_, ?_⟩, ?_⟩
      · rw [← hopen]
        rfl
      · rw [← hopen]
        exact .nothing
      · simp [hplay, hwaits]
    have hrun := advances_intact fuel (none :: selections) hp hstart
    rw [hall] at hrun
    simpa using hrun (by simpa using hm)

def brokenMenu : List Node :=
  [⟨"Start".toList, [], "Hello\n-> [/b]Go".toList⟩]

def unadorned : Settings :=
  { rules := english.rules }

theorem brokenMenu_not_intact :
    ¬ ((begin 9 unadorned brokenMenu).2.advances 9 [none]).2.Intact
      ((ofPlay unadorned (plain unadorned brokenMenu)).given 9 [none, none]) := by
  have hbegin : (begin 9 unadorned brokenMenu).1 = .ok := by decide +kernel
  have hreports : Report.failed (.markup ⟨.unmatchedClose "b".toList, 0⟩) ∈
      ((begin 9 unadorned brokenMenu).2.advances 9 [none]).1 := by decide +kernel
  generalize hstart : begin 9 unadorned brokenMenu = started at *
  obtain ⟨report, c₀⟩ := started
  cases hbegin
  intro h
  exact (intact_iff_no_markup_error hstart rfl).2.1 h _ hreports

end Conversation

end Parley.Play
