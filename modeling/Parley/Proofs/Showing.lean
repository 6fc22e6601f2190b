import Mathlib.Data.List.Forall2
import Parley.Proofs.Course
import Parley.Proofs.MarkupRoundTrip
set_option autoImplicit false

/-!
What a conversation shows of the beats of its playthrough, over many calls.
-/

namespace Parley.Play

open Body Script Markup

def Entry.ShownAs (locale : Locale) (e shown : Entry) : Prop :=
  ∃ marked, readLine locale e.text = .ok marked ∧
    shown = { e with text := marked.text, marks := marked.marks }

/-- A beat and what is seen of it. Each of its texts is read for markup once; apart from that, only
the mark of the last beat may differ. -/
inductive ShownAs (locale : Locale) : Beat → Beat → Prop
  | line (l : Line) (marked : MarkedLine) (last : Bool) (h : readLine locale l.text = .ok marked) :
      ShownAs locale (.line l)
        (.line { l with text := marked.text, marks := marked.marks, last := last })
  | menu (m : Menu) (entries : List Entry) (last : Bool) (ht : m.text = none)
      (he : List.Forall₂ (Entry.ShownAs locale) m.entries entries) :
      ShownAs locale (.menu m) (.menu { m with entries := entries, last := last })
  | joined (m : Menu) (text : Text) (marked : MarkedLine) (entries : List Entry) (last : Bool)
      (ht : m.text = some text) (h : readLine locale text = .ok marked)
      (he : List.Forall₂ (Entry.ShownAs locale) m.entries entries) :
      ShownAs locale (.menu m)
        (.menu { m with
          text := some marked.text
          marks := marked.marks
          entries := entries
          last := last })
  | cue (c : Cue) (last : Bool) : ShownAs locale (.cue c) (.cue { c with last := last })

theorem Entry.shownAs_of_resolveMarkup {locale : Locale} {e shown : Entry}
    (h : e.resolveMarkup locale = .ok shown) : e.ShownAs locale shown := by
  obtain ⟨marked, hr, h⟩ := exists_of_bind_eq_ok h
  cases h
  exact ⟨marked, hr, rfl⟩

theorem entries_shownAs {locale : Locale} (es : List Entry) {shown : List Entry}
    (h : es.mapM (Entry.resolveMarkup locale) = .ok shown) :
    List.Forall₂ (Entry.ShownAs locale) es shown := by
  induction es generalizing shown with
  | nil =>
    cases h
    exact .nil
  | cons e es ih =>
    rw [List.mapM_cons] at h
    obtain ⟨f, he, h⟩ := exists_of_bind_eq_ok h
    obtain ⟨fs, hes, h⟩ := exists_of_bind_eq_ok h
    cases h
    exact .cons (Entry.shownAs_of_resolveMarkup he) (ih hes)

theorem Menu.shownAs_of_resolveMarkup {locale : Locale} {m shown : Menu}
    (h : m.resolveMarkup locale = .ok shown) : ShownAs locale (.menu m) (.menu shown) := by
  unfold Menu.resolveMarkup at h
  cases ht : m.text with
  | none =>
    simp only [ht, pure_bind] at h
    obtain ⟨entries, hes, h⟩ := exists_of_bind_eq_ok h
    cases h
    have hm := ShownAs.menu m entries m.last ht (entries_shownAs _ hes)
    rwa [ht] at hm
  | some text =>
    simp only [ht, pure_bind] at h
    obtain ⟨marked, hr, h⟩ := exists_of_bind_eq_ok h
    obtain ⟨entries, hes, h⟩ := exists_of_bind_eq_ok h
    cases h
    exact .joined m text marked entries m.last ht hr (entries_shownAs _ hes)

theorem shownAs_of_resolveMarkup {locale : Locale} {b shown : Beat}
    (h : b.resolveMarkup locale = .ok shown) : ShownAs locale b shown := by
  cases b with
  | line l =>
    simp only [Beat.resolveMarkup, Line.resolveMarkup] at h
    cases hr : readLine locale l.text with
    | error x => simp [hr, bind, Except.bind, Except.map] at h
    | ok marked =>
      simp only [hr, bind, Except.bind, pure, Except.pure, Except.map, Except.ok.injEq] at h
      subst h
      exact .line l marked l.last hr
  | menu m =>
    simp only [Beat.resolveMarkup] at h
    cases hm : m.resolveMarkup locale with
    | error x => simp [hm, Except.map] at h
    | ok n =>
      simp only [hm, Except.map, Except.ok.injEq] at h
      subst h
      exact Menu.shownAs_of_resolveMarkup hm
  | cue c =>
    cases h
    exact .cue c c.last

/-- That a beat is the last one is no part of what is compared. -/
theorem ShownAs.of_markLast {locale : Locale} {b shown : Beat} (h : ShownAs locale b.markLast shown) :
    ShownAs locale b shown := by
  cases b with
  | line l =>
    cases h with
    | line _ marked last h => exact .line l marked last h
  | menu m =>
    cases h with
    | menu _ entries last ht he => exact .menu m entries last ht he
    | joined _ text marked entries last ht h he => exact .joined m text marked entries last ht h he
  | cue c =>
    cases h with
    | cue _ last => exact .cue c last

theorem ShownAs.isMenu_eq {locale : Locale} {b shown : Beat} (h : ShownAs locale b shown) :
    shown.isMenu = b.isMenu := by
  cases h <;> rfl

namespace Conversation

/-- The markup of a beat is resolved and the beat is shown, or its markup is at fault and the conversation
stays as it is. -/
theorem reveal_resolves (next : Option Beat) (c : Conversation) :
    (next = none ∧ c.reveal next = (.ok, c.present none)) ∨
      ∃ b, next = some b ∧
        ((∃ shown, b.resolveMarkup c.locale = .ok shown ∧
            c.reveal next = (.ok, c.present (some shown))) ∨
          ∃ e, c.reveal next = (.failed (.markup e), c)) := by
  cases next with
  | none => exact .inl ⟨rfl, rfl⟩
  | some b =>
    refine .inr ⟨b, rfl, ?_⟩
    cases hb : b.resolveMarkup c.locale with
    | error e => exact .inr ⟨e, by simp [reveal, hb]⟩
    | ok shown => exact .inl ⟨shown, rfl, by simp [reveal, hb]⟩

theorem reveal_cases (next : Option Beat) (c : Conversation) :
    (next = none ∧ c.reveal next = (.ok, c.present none)) ∨
      ∃ b, next = some b ∧
        ((∃ shown, ShownAs c.locale b shown ∧ c.reveal next = (.ok, c.present (some shown))) ∨
          ∃ e, c.reveal next = (.failed (.markup e), c)) := by
  rcases reveal_resolves next c with h | ⟨b, rfl, ⟨shown, hb, h⟩ | h⟩
  · exact .inl h
  · exact .inr ⟨b, rfl, .inl ⟨shown, shownAs_of_resolveMarkup hb, h⟩⟩
  · exact .inr ⟨b, rfl, .inr h⟩

def advances (fuel : Nat) : List (Option Nat) → Conversation → List Report × Conversation
  | [], c => ([], c)
  | s :: ss, c => ((c.advance fuel s).1 :: (advances fuel ss (c.advance fuel s).2).1,
      (advances fuel ss (c.advance fuel s).2).2)

/-- The selections that the playthrough is asked with in the course of some calls. -/
def askedIn (fuel : Nat) : List (Option Nat) → Conversation → List (Option Nat)
  | [], _ => []
  | s :: ss, c => c.asked fuel s ++ askedIn fuel ss (c.advance fuel s).2

/-- The beats that the playthrough gives in the course of some calls. -/
def given (fuel : Nat) (selections : List (Option Nat)) (c : Conversation) : List Beat :=
  Playthrough.beatsOf (c.play.asks fuel (c.askedIn fuel selections)).1

def plain (settings : Settings) (nodes : List Node) : Playthrough :=
  (((prepare settings).load nodes).2.start settings.startAt).2

@[simp] theorem reveal_play (next : Option Beat) (c : Conversation) :
    (c.reveal next).2.play = c.play := by
  rcases reveal_cases next c with ⟨_, h⟩ | ⟨b, _, ⟨shown, _, h⟩ | ⟨e, h⟩⟩ <;> rw [h] <;> rfl

theorem advance_play (fuel : Nat) (s : Option Nat) (c : Conversation) :
    (c.advance fuel s).2.play = (c.play.asks fuel (c.asked fuel s)).2 := by
  obtain ⟨cues, ending, _, _, ⟨report, ahead, _, h⟩ | ⟨next, ahead, _, _, h⟩⟩ :=
    advance_course fuel s c
  · rw [h]
  · rw [h, reveal_play]

theorem advances_play (fuel : Nat) (selections : List (Option Nat)) (c : Conversation) :
    (c.advances fuel selections).2.play =
      (c.play.asks fuel (c.askedIn fuel selections)).2 := by
  induction selections generalizing c with
  | nil => rfl
  | cons s ss ih =>
    simp only [advances, askedIn, Playthrough.asks_append]
    rw [ih, advance_play]

theorem given_cons (fuel : Nat) (s : Option Nat) (ss : List (Option Nat)) (c : Conversation) :
    c.given fuel (s :: ss) = Playthrough.beatsOf (c.play.asks fuel (c.asked fuel s)).1 ++
      (c.advance fuel s).2.given fuel ss := by
  simp only [given, askedIn, Playthrough.asks_append, Playthrough.beatsOf_append, advance_play]

theorem begin_ok {fuel : Nat} {settings : Settings} {nodes : List Node} {c : Conversation}
    (h : begin fuel settings nodes = (.ok, c)) :
    (ofPlay settings (plain settings nodes)).advance fuel none = (.ok, c) ∧
      (plain settings nodes).waits = false := by
  unfold begin at h
  unfold plain
  rcases hl : (prepare settings).load nodes with ⟨e | _, p⟩
  · simp [hl] at h
  · simp only [hl] at h ⊢
    rcases hs : p.start settings.startAt with ⟨e | _, q⟩
    · simp [hs] at h
    · simp only [hs] at h ⊢
      refine ⟨h, ?_⟩
      unfold Playthrough.start at hs
      cases he : ({ p with run := none } : Playthrough).enter settings.startAt with
      | error e => simp [he] at hs
      | ok x =>
        simp only [he, Prod.mk.injEq, true_and] at hs
        rw [← hs]
        simp [Playthrough.waits, Playthrough.enter_awaiting he]

/-- The playthrough waits for a selection if the beat that is kept is a menu, and does not wait if it
is another one. Nothing was done to the beat yet. -/
def Poised (c : Conversation) : Prop :=
  ∀ b, c.ahead = some b → c.play.waits = b.isMenu ∧ b.Fresh

/-- What the last answer of a call says about the playthrough. The one exception is a call that was
refused for its selection and did nothing. -/
theorem behind_of_tape {fuel : Nat} {ss : List (Option Nat)} {c : Conversation}
    {before : List Playthrough.Answer} {a : Playthrough.Answer} (hp : c.Poised)
    (h : c.ahead.toList.map .beat ++ (c.play.asks fuel ss).1 = before ++ [a])
    (hm : ∀ x ∈ before, x.Passing) :
    (c.play.waits = true ∧ c.ahead = none ∧ before = [] ∧ (∃ e, a = .failed e) ∧
        (c.play.asks fuel ss).2 = c.play) ∨
      Playthrough.Behind a (c.play.asks fuel ss).2 := by
  cases hah : c.ahead with
  | none =>
    simp only [hah, Option.toList_none, List.map_nil, List.nil_append] at h
    rcases Playthrough.asks_behind h hm with ⟨hw, hb, he, hq⟩ | hb
    · exact .inl ⟨hw, rfl, hb, he, hq⟩
    · exact .inr hb
  | some b =>
    have hw := (hp b hah).1
    simp only [hah, Option.toList_some, List.map_cons, List.map_nil, List.cons_append,
      List.nil_append] at h
    cases before with
    | nil =>
      simp only [List.nil_append, List.cons.injEq] at h
      obtain ⟨rfl, h⟩ := h
      cases ss with
      | nil => exact .inr hw
      | cons s ss => simp [Playthrough.asks] at h
    | cons x before =>
      simp only [List.cons_append, List.cons.injEq] at h
      obtain ⟨rfl, h⟩ := h
      have hb : b.isMenu = false := by
        cases b with
        | menu m => exact absurd rfl ((hm _ (List.mem_cons_self ..)).1 m)
        | line l => rfl
        | cue cue => rfl
      rcases Playthrough.asks_behind h (fun y hy => hm y (List.mem_cons_of_mem _ hy)) with
        ⟨hw', _⟩ | hb'
      · simp [hw, hb] at hw'
      · exact .inr hb'

end Conversation

theorem passing_of_not_menu {b : Beat} (h : b.isMenu = false) :
    (Playthrough.Answer.beat b).Passing := by
  refine ⟨?_, by simp⟩
  intro m hm
  simp only [Playthrough.Answer.beat.injEq] at hm
  simp [hm, Beat.isMenu] at h

theorem passing_of_cues {cues : List Cue} {before : List Playthrough.Answer}
    (h : ∀ x ∈ before, x.Passing) :
    ∀ x ∈ cues.map (fun cue => Playthrough.Answer.beat (.cue cue)) ++ before, x.Passing := by
  intro x hx
  rcases List.mem_append.1 hx with hx | hx
  · obtain ⟨cue, _, rfl⟩ := List.mem_map.1 hx
    exact passing_of_not_menu rfl
  · exact h x hx

theorem Breaks.snoc {ending : List Playthrough.Answer} {report : Report} {ahead : Option Beat}
    (h : Breaks ending report ahead) : ∃ before a, ending = before ++ [a] ∧
      (∀ x ∈ before, x.Passing) ∧ ∀ m, a ≠ .beat (.menu m) := by
  cases h with
  | failed e => exact ⟨[], _, rfl, by simp, by simp⟩
  | stalled => exact ⟨[], _, rfl, by simp, by simp⟩
  | routing cue => exact ⟨[], _, rfl, by simp, by simp⟩
  | looking b hb => exact ⟨[.beat b], _, rfl, by simpa using passing_of_not_menu hb, by simp⟩

theorem Gathers.snoc {joins : Bool} {ending : List Playthrough.Answer} {next ahead : Option Beat}
    (h : Gathers joins ending next ahead) : ∃ before a, ending = before ++ [a] ∧
      (∀ x ∈ before, x.Passing) ∧ (before = [] → ∀ e, a ≠ .failed e) := by
  cases h with
  | finished => exact ⟨[.ended], _, rfl, by simp [Playthrough.Answer.Passing], by simp⟩
  | menu m => exact ⟨[], _, rfl, by simp, by simp⟩
  | last b hb => exact ⟨[.beat b], _, rfl, by simpa using passing_of_not_menu hb, by simp⟩
  | unsure b hb e => exact ⟨[.beat b], _, rfl, by simpa using passing_of_not_menu hb, by simp⟩
  | joined l m hj => exact ⟨[.beat (.line l)], _, rfl, by simpa using passing_of_not_menu rfl, by simp⟩
  | ahead b next hb hj =>
    exact ⟨[.beat b], _, rfl, by simpa using passing_of_not_menu hb, by simp⟩

namespace Conversation

variable {fuel : Nat} {ss : List (Option Nat)} {c : Conversation} {cues : List Cue}
  {ending : List Playthrough.Answer}

/-- A call that shows nothing either does nothing at all, on options that go on waiting, or leaves the
playthrough not waiting. -/
theorem waits_of_breaks {report : Report} {ahead : Option Beat} (hp : c.Poised)
    (h : c.ahead.toList.map .beat ++ (c.play.asks fuel ss).1 =
      cues.map (fun cue => .beat (.cue cue)) ++ ending)
    (hb : Breaks ending report ahead) :
    (c.ahead = none ∧ cues = [] ∧ (∃ e, ending = [.failed e]) ∧
        (c.play.asks fuel ss).2 = c.play) ∨
      (c.play.asks fuel ss).2.waits = false := by
  obtain ⟨before, a, rfl, hbefore, ha⟩ := hb.snoc
  rw [← List.append_assoc] at h
  rcases behind_of_tape hp h (passing_of_cues hbefore) with ⟨_, hah, hc, ⟨e, rfl⟩, hq⟩ | hb
  · simp only [List.append_eq_nil_iff, List.map_eq_nil_iff] at hc
    exact .inl ⟨hah, hc.1, ⟨e, by simp [hc.2]⟩, hq⟩
  · exact .inr (Playthrough.waits_of_behind hb ha)

theorem behind_of_gathers {joins : Bool} {next ahead : Option Beat} (hp : c.Poised)
    (h : c.ahead.toList.map .beat ++ (c.play.asks fuel ss).1 =
      cues.map (fun cue => .beat (.cue cue)) ++ ending)
    (hg : Gathers joins ending next ahead) :
    ∃ a, ending.getLast? = some a ∧ Playthrough.Behind a (c.play.asks fuel ss).2 := by
  obtain ⟨before, a, rfl, hbefore, ha⟩ := hg.snoc
  rw [← List.append_assoc] at h
  refine ⟨a, by simp, ?_⟩
  rcases behind_of_tape hp h (passing_of_cues hbefore) with ⟨_, _, hc, ⟨e, he⟩, _⟩ | hb
  · simp only [List.append_eq_nil_iff] at hc
    exact absurd he (ha hc.2 e)
  · exact hb

theorem beats_of_tape
    (h : c.ahead.toList.map .beat ++ (c.play.asks fuel ss).1 =
      cues.map (fun cue => .beat (.cue cue)) ++ ending) :
    c.ahead.toList ++ Playthrough.beatsOf (c.play.asks fuel ss).1 =
      cues.map .cue ++ Playthrough.beatsOf ending := by
  have h := congrArg Playthrough.beatsOf h
  have hc : cues.map (fun cue => Playthrough.Answer.beat (.cue cue)) = (cues.map .cue).map .beat := by
    simp
  rwa [hc, Playthrough.beatsOf_append, Playthrough.beatsOf_append, Playthrough.beatsOf_map_beat,
    Playthrough.beatsOf_map_beat] at h

/-- Nothing was done yet to the beats of a call, if nothing was done to the one that is kept. -/
theorem beats_fresh (hf : ∀ b, c.ahead = some b → b.Fresh)
    (h : c.ahead.toList.map .beat ++ (c.play.asks fuel ss).1 =
      cues.map (fun cue => .beat (.cue cue)) ++ ending) :
    ∀ b ∈ Playthrough.beatsOf ending, b.Fresh := by
  intro b hb
  have hmem : b ∈ cues.map .cue ++ Playthrough.beatsOf ending := List.mem_append_right _ hb
  rw [← beats_of_tape h] at hmem
  rcases List.mem_append.1 hmem with hah | hnew
  · exact hf b (by simpa using hah)
  · exact Playthrough.asks_fresh ss c.play b hnew

theorem fresh_of_tape (hp : c.Poised)
    (h : c.ahead.toList.map .beat ++ (c.play.asks fuel ss).1 =
      cues.map (fun cue => .beat (.cue cue)) ++ ending) :
    ∀ b ∈ Playthrough.beatsOf ending, b.Fresh :=
  beats_fresh (fun b hb => (hp b hb).2) h

@[simp] theorem reveal_ahead (next : Option Beat) (c : Conversation) :
    (c.reveal next).2.ahead = c.ahead := by
  rcases reveal_cases next c with ⟨_, h⟩ | ⟨b, _, ⟨shown, _, h⟩ | ⟨e, h⟩⟩ <;> rw [h] <;> rfl

/-- Every call keeps the conversation poised. -/
theorem advance_poised (fuel : Nat) (s : Option Nat) (hp : c.Poised) :
    (c.advance fuel s).2.Poised := by
  obtain ⟨cues, ending, ht, _, ⟨report, ahead, hb, h⟩ | ⟨next, ahead, hg, _, h⟩⟩ :=
    advance_course fuel s c
  · have hfresh := fresh_of_tape hp ht
    intro b hb'
    rw [advance_play]
    rw [h] at hb'
    cases hb with
    | failed e => simp at hb'
    | stalled => simp at hb'
    | routing cue =>
      cases hb'
      rcases waits_of_breaks hp ht (.routing cue) with ⟨_, _, ⟨e, he⟩, _⟩ | hw
      · simp at he
      · exact ⟨hw, hfresh _ (by simp [Playthrough.beatsOf])⟩
    | looking b hm =>
      cases hb'
      rcases waits_of_breaks hp ht (.looking b hm) with ⟨_, _, ⟨e, he⟩, _⟩ | hw
      · simp at he
      · exact ⟨by rw [hw, hm], hfresh _ (by simp [Playthrough.beatsOf])⟩
  · have hfresh := fresh_of_tape hp ht
    obtain ⟨a, ha, hbe⟩ := behind_of_gathers hp ht hg
    intro b hb
    rw [h, reveal_ahead] at hb
    rw [advance_play]
    cases hg with
    | ahead b' next hb' hj =>
      cases hb
      cases ha
      exact ⟨hbe, hfresh _ (by simp [Playthrough.beatsOf])⟩
    | _ => simp at hb

theorem ofPlay_poised (settings : Settings) (p : Playthrough) : (ofPlay settings p).Poised := by
  intro b hb
  simp [ofPlay] at hb

end Conversation

end Parley.Play
