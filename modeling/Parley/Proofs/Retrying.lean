import Parley.Proofs.Requests
import Parley.Proofs.Showing
set_option autoImplicit false

/-!
Errors of the script in a conversation.

A call that meets one shows nothing, and the next call meets it again: the playthrough stays in front of
what failed, and the commands in front of that are routed once only. An error that is met while looking
ahead waits for the next call, behind the beat that was reached.
-/

namespace Parley.Play

open Body Script Markup

namespace Playthrough

/-- A call that failed fails again: a refused one with the same selection, any other one with all. -/
theorem advance_again {fuel : Nat} {s : Option Nat} {p q : Playthrough} {e : RuntimeError}
    (h : p.advance fuel s = (.failed e, q)) :
    (q = p ∧ ∀ more, p.advance more s = (.failed e, p)) ∨ Behind (.failed e) q := by
  cases hr : p.run with
  | none =>
    rw [advance_of_not_running hr] at h
    cases h
  | some r =>
    cases ha : r.awaiting with
    | none =>
      rw [advance_of_walking hr ha] at h
      have hb := walk_behind fuel p r ha
      rw [h] at hb
      exact .inr hb
    | some options =>
      have hwaiting := advance_of_waiting hr ha
      rw [hwaiting] at h
      cases hs : select s options.length with
      | error e' =>
        simp only [hs] at h hwaiting
        cases h
        exact .inl ⟨rfl, fun more => by rw [hwaiting, hs]⟩
      | ok i =>
        simp only [hs] at h
        have hb := walk_behind fuel p _ (Run.choose_awaiting r options i)
        rw [h] at hb
        exact .inr hb

end Playthrough

theorem Beat.last_of_fresh {b : Beat} (h : b.Fresh) : b.last = false := by
  cases b with
  | line l => exact h
  | menu m => exact h.1
  | cue c => exact h

theorem Menu.last_of_resolveMarkup {locale : Locale} {m shown : Menu}
    (h : m.resolveMarkup locale = .ok shown) : shown.last = m.last := by
  unfold Menu.resolveMarkup at h
  cases ht : m.text with
  | none =>
    simp only [ht, pure_bind] at h
    obtain ⟨entries, -, h⟩ := exists_of_bind_eq_ok h
    cases h
    rfl
  | some t =>
    simp only [ht, pure_bind] at h
    obtain ⟨marked, -, h⟩ := exists_of_bind_eq_ok h
    obtain ⟨entries, -, h⟩ := exists_of_bind_eq_ok h
    cases h
    rfl

/-- Markup does not make a beat the last one. -/
theorem Beat.last_of_resolveMarkup {locale : Locale} {b shown : Beat}
    (h : b.resolveMarkup locale = .ok shown) : shown.last = b.last := by
  cases b with
  | line l =>
    simp only [Beat.resolveMarkup, Line.resolveMarkup] at h
    cases hr : readLine locale l.text with
    | error e => simp [hr, bind, Except.bind, Except.map] at h
    | ok marked =>
      rw [hr] at h
      cases h
      rfl
  | menu m =>
    simp only [Beat.resolveMarkup] at h
    cases hm : m.resolveMarkup locale with
    | error e => simp [hm, Except.map] at h
    | ok n =>
      rw [hm] at h
      cases h
      exact Menu.last_of_resolveMarkup hm
  | cue cue =>
    cases h
    rfl

namespace Conversation

/-- Conversations in front of their first beat, and whatever calls and the host make of them. The host
may do anything to the playthrough, except that it does not advance it past a beat that is kept: the
playthrough could then wait for a selection in front of which a kept command is still to be routed. -/
inductive Reached : Conversation → Prop
  | fresh (settings : Settings) (nodes : List Node) : Reached (ofPlay settings (plain settings nodes))
  | advanced {c : Conversation} (h : Reached c) (fuel : Nat) (s : Option Nat) :
      Reached (c.advance fuel s).2
  | hosted {c : Conversation} (h : Reached c) (x : Request)
      (hx : ∀ fuel s, x = .advance fuel s → c.ahead = none) :
      Reached { c with play := (c.play.serve x).2 }

theorem reached_of_begin {fuel : Nat} {settings : Settings} {nodes : List Node} {c : Conversation}
    (h : begin fuel settings nodes = (.ok, c)) : Reached c := by
  have hfirst := (begin_ok h).1
  have hreached := (Reached.fresh settings nodes).advanced fuel none
  rwa [hfirst] at hreached

theorem reached_of_beginScript {fuel : Nat} {settings : Settings} {script : Text} {c : Conversation}
    (h : beginScript fuel settings script = (.ok, c)) : Reached c := by
  unfold beginScript at h
  cases hs : split script with
  | error e => simp [hs] at h
  | ok nodes =>
    rw [hs] at h
    exact reached_of_begin h

/-- Every call with the selection reports the error, and does nothing else. -/
def Repeats (c : Conversation) (s : Option Nat) (e : RuntimeError) : Prop :=
  ∀ fuel, c.advance (fuel + 1) s = (.failed (.running e), c)

def routing : Settings :=
  { rules := english.rules, routesCues := true }

def staged (script : Text) : Conversation :=
  (beginScript 9 routing script).2

theorem reached_staged {script : Text} (h : (beginScript 9 routing script).1 = .ok) :
    Reached (staged script) :=
  reached_of_beginScript (Prod.ext h rfl)

/-- The line behind the first option cannot be shown, and the command behind it is kept. -/
def overtaken : Text :=
  "title: Start\n---\n-> A\n    [/b]\n    <<wave>>\n    -> B\n===".toList

/-- Where the host advances the playthrough past the kept command, an error is not reported again: the
selection comes too early for the next options, and then just in time. -/
theorem overtaken_not_repeats :
    let c := ((staged overtaken).advance 9 (some 0)).2
    let d := { c with play := (c.play.serve (.advance 9 none)).2 }
    Reached c ∧ c.ahead.isSome = true ∧ (d.advance 9 (some 0)).1 = .failed (.running .noSelection) ∧
      ¬ (d.advance 9 (some 0)).2.Repeats (some 0) .noSelection := by
  intro c d
  have hbegin : (beginScript 9 routing overtaken).1 = .ok := by decide +kernel
  have hfailed : (d.advance 9 (some 0)).1 = .failed (.running .noSelection) := by decide +kernel
  have hnext : ((d.advance 9 (some 0)).2.advance 9 (some 0)).1 = .ok := by decide +kernel
  refine ⟨(reached_staged hbegin).advanced 9 (some 0), by decide +kernel, hfailed, fun h => ?_⟩
  rw [h 8] at hnext
  cases hnext

/-- The playthrough does not wait behind a beat that is kept, unless that beat is a menu. This is weaker
than `Poised`, since a host may start the playthrough anew behind a menu that is kept. -/
def Ready (c : Conversation) : Prop :=
  ∀ b, c.ahead = some b → b.Fresh ∧ (b.isMenu = false → c.play.waits = false)

theorem Poised.ready {c : Conversation} (h : c.Poised) : c.Ready := by
  intro b hb
  obtain ⟨hw, hfresh⟩ := h b hb
  exact ⟨hfresh, fun hm => hw.trans hm⟩

theorem Ready.cases {c : Conversation} (h : c.Ready) :
    (∃ m, c.ahead = some (.menu m)) ∨ c.Poised := by
  by_cases hm : ∃ m, c.ahead = some (.menu m)
  · exact .inl hm
  · refine .inr fun b hb => ?_
    obtain ⟨hfresh, hw⟩ := h b hb
    cases b with
    | menu m => exact absurd ⟨m, hb⟩ hm
    | line l => exact ⟨hw rfl, hfresh⟩
    | cue cue => exact ⟨hw rfl, hfresh⟩

theorem pull_of_menu_ahead {c : Conversation} {m : Menu} (h : c.ahead = some (.menu m)) (fuel : Nat)
    (s : Option Nat) : c.pull fuel s = (.beat (.menu m), { c with ahead := none }) := by
  unfold pull
  rw [h]
  dsimp only
  split
  · exact (route_of_not_cue fuel fuel _ (by simp)).2
  · rfl

theorem advance_of_menu_ahead {c : Conversation} {m : Menu} (h : c.ahead = some (.menu m))
    (fuel : Nat) (s : Option Nat) :
    c.advance fuel s = reveal (some (.menu m)) { c with ahead := none } := by
  rw [advance_of_pull (pull_of_menu_ahead h fuel _)]
  rfl

theorem advance_ready {c : Conversation} (h : c.Ready) (fuel : Nat) (s : Option Nat) :
    (c.advance fuel s).2.Ready := by
  rcases h.cases with ⟨m, hm⟩ | hp
  · intro b hb
    rw [advance_of_menu_ahead hm, reveal_ahead] at hb
    cases hb
  · exact (advance_poised fuel s hp).ready

theorem serve_ready {c : Conversation} (h : c.Ready) {x : Request}
    (hx : ∀ fuel s, x = .advance fuel s → c.ahead = none) :
    Ready { c with play := (c.play.serve x).2 } := by
  intro b hb
  obtain ⟨hfresh, hw⟩ := h b hb
  refine ⟨hfresh, fun hm => ?_⟩
  cases hplays : x.plays with
  | false => simpa only [Playthrough.waits, Playthrough.serve_run hplays] using hw hm
  | true =>
    cases x with
    | start title => exact Playthrough.start_waits c.play title
    | advance fuel s =>
      have hnone : c.ahead = none := hx fuel s rfl
      simp only [hnone] at hb
      cases hb
    | _ => cases hplays

theorem Reached.ready {c : Conversation} (h : Reached c) : c.Ready := by
  induction h with
  | fresh settings nodes => exact (ofPlay_poised settings _).ready
  | advanced h fuel s ih => exact advance_ready ih fuel s
  | hosted h x hx ih => exact serve_ready ih hx

theorem repeats_of_play {c : Conversation} {s : Option Nat} {e : RuntimeError} (hah : c.ahead = none)
    (h : ∀ fuel, c.play.advance (fuel + 1) (c.passed s) = (.failed e, c.play)) : c.Repeats s e := by
  intro fuel
  have hpull : c.pull (fuel + 1) (c.passed s) = (.failed e, c) := by
    unfold pull
    rw [hah]
    dsimp only
    rw [h]
    dsimp only
    split
    · rw [(route_of_not_cue _ _ _ (by simp)).2, ← hah]
    · rw [← hah]
  rw [advance_of_pull hpull]

theorem pullAsked_of_failed {c : Conversation} {fuel : Nat} {s : Option Nat} {e : RuntimeError}
    (hah : c.ahead = none) (h : (c.play.advance fuel (c.passed s)).1 = .failed e) :
    c.pullAsked fuel s = [c.passed s] := by
  have hfirst : (c.first fuel s).1 = .failed e := by
    unfold first
    rw [hah]
    exact h
  have hcue : ∀ cue, (c.first fuel s).1 ≠ .beat (.cue cue) := by simp [hfirst]
  simp [pullAsked, hah, (route_of_not_cue fuel fuel (c.first fuel s).2 hcue).1]

/-- What is pulled, and where the playthrough is then. A selection that is refused is refused at once,
in front of all commands. -/
theorem pull_cases {c d : Conversation} {fuel : Nat} {s : Option Nat} {a : Playthrough.Answer}
    (hp : c.Poised) (h : c.pull fuel (c.passed s) = (a, d)) (ha : a ≠ .stalled) :
    ∃ cues q, d = { c with play := q, routed := c.routed ++ cues, ahead := none } ∧
      (∀ b, a = .beat b → b.Fresh) ∧
      ((∃ e, a = .failed e ∧ q = c.play ∧
          ∀ more, c.play.advance more (c.passed s) = (.failed e, c.play)) ∨
        Playthrough.Behind a q) := by
  obtain ⟨cues, final, htape, -, ⟨-, hpull⟩ | ⟨cue, -, hpull⟩⟩ := pull_course fuel s c
  · rw [h] at hpull
    cases hpull
    refine ⟨cues, _, rfl, ?_, ?_⟩
    · rintro b rfl
      exact fresh_of_tape hp htape b (by simp [Playthrough.beatsOf])
    · have hpassing : ∀ x ∈ cues.map fun cue => Playthrough.Answer.beat (.cue cue), x.Passing := by
        intro x hx
        obtain ⟨cue, -, rfl⟩ := List.mem_map.1 hx
        exact passing_of_not_menu rfl
      rcases behind_of_tape hp htape hpassing with ⟨-, hah, hcues, ⟨e, rfl⟩, hkept⟩ | hb
      · -- Nothing was routed, so that the first answer is the one that failed.
        rw [hcues, hah] at htape
        have hfailed : (c.play.advance fuel (c.passed s)).1 = .failed e := by
          simp only [pullAsked, hah] at htape
          exact (List.cons.inj htape).1
        rw [pullAsked_of_failed hah hfailed]
        rcases Playthrough.advance_again (Prod.ext hfailed rfl) with ⟨hq, hagain⟩ | hb
        · exact .inl ⟨e, rfl, hq, hagain⟩
        · exact .inr hb
      · exact .inr hb
  · rw [h] at hpull
    cases hpull
    exact absurd rfl ha

theorem reveal_not_running (next : Option Beat) (c : Conversation) (e : RuntimeError) :
    (c.reveal next).1 ≠ .failed (.running e) := by
  rcases reveal_cases next c with ⟨-, h⟩ | ⟨b, -, ⟨shown, -, h⟩ | ⟨e', h⟩⟩ <;> simp [h]

/-- Errors of the script come from what is pulled. -/
theorem pull_of_advance_failed {c : Conversation} {fuel : Nat} {s : Option Nat} {e : RuntimeError}
    (h : (c.advance fuel s).1 = .failed (.running e)) :
    c.pull fuel (c.passed s) = (.failed e, (c.advance fuel s).2) := by
  rcases hpull : c.pull fuel (c.passed s) with ⟨answer, d⟩
  rw [advance_of_pull hpull] at h ⊢
  cases answer with
  | failed e' =>
    cases h
    rfl
  | stalled => cases h
  | ended =>
    rcases hlook : d.lookAhead fuel none with ⟨_ | next, d'⟩
    · simp [hlook] at h
    · simp only [hlook] at h
      exact absurd h (reveal_not_running next d' e)
  | beat b =>
    rcases hlook : d.lookAhead fuel (some b) with ⟨_ | next, d'⟩
    · simp [hlook] at h
    · simp only [hlook] at h
      exact absurd h (reveal_not_running next d' e)

def glimpse (fuel : Nat) (s : Option Nat) (c : Conversation) : Option Playthrough.Answer :=
  match c.pull fuel (c.passed s) with
  | (.beat b, d) => if b.isMenu then none else some (d.play.advance fuel none).1
  | (.ended, d) => some (d.play.advance fuel none).1
  | _ => none

variable {c d : Conversation} {fuel : Nat} {s : Option Nat} {e : RuntimeError}

theorem advance_of_pull_failing {b : Beat} {q : Playthrough}
    (hpull : c.pull fuel (c.passed s) = (.beat b, d)) (hb : b.isMenu = false)
    (h : d.play.advance fuel none = (.failed e, q)) :
    c.advance fuel s = reveal (some b) { d with play := q } := by
  have hlook : d.lookAhead fuel (some b) = (some (some b), { d with play := q }) := by
    simp [lookAhead, hb, h]
  rw [advance_of_pull hpull]
  simp only [hlook]

theorem failed_repeats (hready : c.Ready) (h : (c.advance fuel s).1 = .failed (.running e)) :
    (c.advance fuel s).2.current = c.current ∧ (c.advance fuel s).2.history = c.history ∧
      (c.advance fuel s).2.Repeats s e := by
  have hpull := pull_of_advance_failed h
  rcases hready.cases with ⟨m, hm⟩ | hp
  · rw [pull_of_menu_ahead hm] at hpull
    cases hpull
  · obtain ⟨cues, q, hd, -, hq⟩ := pull_cases hp hpull (by simp)
    rw [hd]
    refine ⟨rfl, rfl, repeats_of_play rfl ?_⟩
    intro more
    rcases hq with ⟨e', he, rfl, hagain⟩ | hb
    · cases he
      exact hagain (more + 1)
    · exact hb.2 more _

/-- While what is shown is no menu, no selection is passed on, so that an error repeats for all. -/
theorem repeats_of_present {p q : Playthrough} {shown : Beat} (hah : d.ahead = none)
    (hmenu : shown.isMenu = false) (h : p.advance fuel none = (.failed e, q)) (t : Option Nat) :
    Repeats (present (some shown) { d with play := q }) t e := by
  refine repeats_of_play hah fun more => ?_
  have hpassed : passed t (present (some shown) { d with play := q }) = none := by
    simp [passed, present, hmenu]
  rw [hpassed]
  rcases Playthrough.advance_again h with ⟨rfl, hagain⟩ | hb
  · exact hagain (more + 1)
  · exact hb.2 more none

/-- The beat that a call shows in front of an error: the one that it reached, with the rest of the
conversation moved on by one. -/
structure Surfaces (c : Conversation) (fuel : Nat) (s : Option Nat) (b shown : Beat) : Prop where
  pulled : (c.pull fuel (c.passed s)).1 = .beat b
  resolved : b.resolveMarkup c.locale = .ok shown
  current : (c.advance fuel s).2.current = some shown
  history : (c.advance fuel s).2.history = c.history ++ c.current.toList
  notLast : shown.last = false

/-- An error that is met while looking ahead is what all further calls report. -/
theorem glimpsed_repeats (hready : c.Ready) (hok : (c.advance fuel s).1 = .ok)
    (hg : c.glimpse fuel s = some (.failed e)) :
    ∃ b shown, c.Surfaces fuel s b shown ∧ ∀ t, (c.advance fuel s).2.Repeats t e := by
  rcases hready.cases with ⟨m, hm⟩ | hp
  · simp [glimpse, pull_of_menu_ahead hm, Beat.isMenu] at hg
  rcases hpull : c.pull fuel (c.passed s) with ⟨answer, d⟩
  unfold glimpse at hg
  rw [hpull] at hg
  cases answer with
  | failed e' => cases hg
  | stalled => cases hg
  | ended =>
    -- Nothing fails behind the end.
    obtain ⟨cues, q, rfl, -, ⟨e', he, -⟩ | hrun⟩ := pull_cases hp hpull (by simp)
    · cases he
    · simp [Playthrough.advance_of_not_running hrun] at hg
  | beat b =>
    obtain ⟨cues, q, rfl, hfresh, -⟩ := pull_cases hp hpull (by simp)
    cases hb : b.isMenu with
    | true => simp [hb] at hg
    | false =>
      simp only [hb, Bool.false_eq_true, if_false, Option.some.injEq] at hg
      have hfailed : q.advance fuel none = (.failed e, (q.advance fuel none).2) := Prod.ext hg rfl
      have hadvance := advance_of_pull_failing hpull hb hfailed
      cases hshown : b.resolveMarkup c.locale with
      | error e' => simp [hadvance, reveal, hshown] at hok
      | ok shown =>
        simp only [reveal, hshown] at hadvance
        have hlast := (Beat.last_of_resolveMarkup hshown).trans (Beat.last_of_fresh (hfresh b rfl))
        have hmenu := (shownAs_of_resolveMarkup hshown).isMenu_eq.trans hb
        have hsurfaces : c.Surfaces fuel s b shown :=
          { pulled := by rw [hpull]
            resolved := hshown
            current := by rw [hadvance]; rfl
            history := by rw [hadvance]; rfl
            notLast := hlast }
        refine ⟨b, shown, hsurfaces, fun t => ?_⟩
        rw [hadvance]
        let pulled : Conversation := { c with play := q, routed := c.routed ++ cues, ahead := none }
        have hah : pulled.ahead = none := rfl
        exact repeats_of_present hah hmenu hfailed t

/-- An error of the script leaves a conversation in place and is reported again, for the same selection,
with no command routed once more. One that is met while looking ahead is reported by the next call, for
all selections; the beat in front of it is shown, and not as the last one. -/
theorem advance_retries (h : Reached c) (fuel : Nat) (s : Option Nat) (e : RuntimeError) :
    ((c.advance fuel s).1 = .failed (.running e) →
      (c.advance fuel s).2.current = c.current ∧ (c.advance fuel s).2.history = c.history ∧
        (c.advance fuel s).2.Repeats s e) ∧
    ((c.advance fuel s).1 = .ok → c.glimpse fuel s = some (.failed e) →
      ∃ b shown, c.Surfaces fuel s b shown ∧ ∀ t, (c.advance fuel s).2.Repeats t e) :=
  ⟨failed_repeats h.ready, glimpsed_repeats h.ready⟩

def waved : Text := "title: Start\n---\nOne\n<<wave>>\n<<jump B>>\n===".toList

def told : Text := "title: Start\n---\nOne\nTwo\n<<jump B>>\n===".toList

theorem advance_retries_staged :
    (((staged waved).advance 9 none).1 = .failed (.running (.unknownNode "B".toList)) ∧
      ((staged waved).advance 9 none).2.routed.length = 1 ∧
      ((staged waved).advance 9 none).2.current = (staged waved).current ∧
      ((staged waved).advance 9 none).2.Repeats none (.unknownNode "B".toList)) ∧
    ∃ b shown, (staged told).Surfaces 9 none b shown ∧
      ((staged told).advance 9 none).2.Repeats (some 0) (.unknownNode "B".toList) := by
  have hwaved : Reached (staged waved) := reached_staged (by decide +kernel)
  have htold : Reached (staged told) := reached_staged (by decide +kernel)
  have hfailed : ((staged waved).advance 9 none).1 =
      .failed (.running (.unknownNode "B".toList)) := by decide +kernel
  have hrouted : ((staged waved).advance 9 none).2.routed.length = 1 := by decide +kernel
  have hok : ((staged told).advance 9 none).1 = .ok := by decide +kernel
  have hglimpse : (staged told).glimpse 9 none = some (.failed (.unknownNode "B".toList)) := by
    decide +kernel
  obtain ⟨hcurrent, -, hrepeats⟩ := (advance_retries hwaved 9 none _).1 hfailed
  obtain ⟨b, shown, hsurfaces, hnext⟩ := (advance_retries htold 9 none _).2 hok hglimpse
  exact ⟨⟨hfailed, hrouted, hcurrent, hrepeats⟩, b, shown, hsurfaces, hnext (some 0)⟩

end Conversation

end Parley.Play
