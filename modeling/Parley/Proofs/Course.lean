import Parley.Play.Conversation
import Parley.Proofs.Walking
set_option autoImplicit false

/-!
The course of a call on a conversation.

A call asks its playthrough for beats and makes something of the answers. The answers, behind a beat
that was looked at before, are commands that are routed and then an ending; the ending alone decides
what is shown and what is kept for the next call.
-/

namespace Parley.Play

open Body Script Markup

namespace Conversation

def routeAsked (fuel : Nat) : Nat → Playthrough.Answer → Conversation → List (Option Nat)
  | n + 1, .beat (.cue cue), c =>
    none :: routeAsked fuel n (c.play.advance fuel none).1
      { c with play := (c.play.advance fuel none).2, routed := c.routed ++ [cue] }
  | _, _, _ => []

/-- The selection that a call passes on. -/
def passed (selection : Option Nat) (c : Conversation) : Option Nat :=
  if c.current.any Beat.isMenu then selection else none

def first (fuel : Nat) (selection : Option Nat) (c : Conversation) :
    Playthrough.Answer × Conversation :=
  match c.ahead with
  | some b => (.beat b, { c with ahead := none })
  | none => ((c.play.advance fuel (c.passed selection)).1,
      { c with play := (c.play.advance fuel (c.passed selection)).2 })

def pullAsked (fuel : Nat) (selection : Option Nat) (c : Conversation) : List (Option Nat) :=
  (if c.ahead.isSome then [] else [c.passed selection]) ++
    if c.routesCues then routeAsked fuel fuel (c.first fuel selection).1 (c.first fuel selection).2
    else []

/-- The selections that a call asks its playthrough with, in order. -/
def asked (fuel : Nat) (selection : Option Nat) (c : Conversation) : List (Option Nat) :=
  c.pullAsked fuel selection ++
    match (c.pull fuel (c.passed selection)).1 with
    | .beat b => if b.isMenu then [] else [none]
    | .ended => [none]
    | .failed _ | .stalled => []

end Conversation

/-- Endings that show nothing: the report, and the beat that is kept for the next call. -/
inductive Breaks : List Playthrough.Answer → Report → Option Beat → Prop
  | failed (e : RuntimeError) : Breaks [.failed e] (.failed (.running e)) none
  | stalled : Breaks [.stalled] .stalled none
  | routing (cue : Cue) : Breaks [.beat (.cue cue)] .stalled (some (.cue cue))
  | looking (b : Beat) (hb : b.isMenu = false) : Breaks [.beat b, .stalled] .stalled (some b)

/-- Endings that come to a beat to show: what it is before its markup is resolved, and the beat that
is kept for the next call. -/
inductive Gathers (joins : Bool) : List Playthrough.Answer → Option Beat → Option Beat → Prop
  | finished : Gathers joins [.ended, .ended] none none
  | menu (m : Menu) : Gathers joins [.beat (.menu m)] (some (.menu m)) none
  | last (b : Beat) (hb : b.isMenu = false) : Gathers joins [.beat b, .ended] (some b.markLast) none
  | unsure (b : Beat) (hb : b.isMenu = false) (e : RuntimeError) :
      Gathers joins [.beat b, .failed e] (some b) none
  | joined (l : Line) (m : Menu) (hj : joins = true) :
      Gathers joins [.beat (.line l), .beat (.menu m)] (some (.menu (m.join l))) none
  | ahead (b next : Beat) (hb : b.isMenu = false)
      (hj : ∀ l m, b = .line l → next = .menu m → joins = false) :
      Gathers joins [.beat b, .beat next] (some b) (some next)

namespace Conversation

theorem route_of_not_cue (fuel n : Nat) {answer : Playthrough.Answer} (c : Conversation)
    (h : ∀ cue, answer ≠ .beat (.cue cue)) :
    routeAsked fuel n answer c = [] ∧ route fuel n answer c = (answer, c) := by
  cases n <;> (unfold routeAsked route; split) <;> simp_all

theorem route_course (fuel n : Nat) (answer : Playthrough.Answer) (c : Conversation)
    (hc : c.ahead = none) :
    ∃ (cues : List Cue) (final : Playthrough.Answer),
      answer :: (c.play.asks fuel (routeAsked fuel n answer c)).1 =
        cues.map (fun cue => .beat (.cue cue)) ++ [final] ∧
      ((∀ cue, final ≠ .beat (.cue cue)) ∧ route fuel n answer c =
          (final, { c with
            play := (c.play.asks fuel (routeAsked fuel n answer c)).2
            routed := c.routed ++ cues }) ∨
        ∃ cue, final = .beat (.cue cue) ∧ route fuel n answer c =
          (.stalled, { c with
            play := (c.play.asks fuel (routeAsked fuel n answer c)).2
            routed := c.routed ++ cues
            ahead := some (.cue cue) })) := by
  induction n generalizing answer c with
  | zero =>
    by_cases hcue : ∃ cue, answer = .beat (.cue cue)
    · obtain ⟨cue, rfl⟩ := hcue
      exact ⟨[], .beat (.cue cue), rfl, .inr ⟨cue, rfl, by simp [route, routeAsked, Playthrough.asks]⟩⟩
    · have h : ∀ cue, answer ≠ .beat (.cue cue) := fun cue he => hcue ⟨cue, he⟩
      obtain ⟨ha, hr⟩ := route_of_not_cue fuel 0 c h
      exact ⟨[], answer, by simp [ha, Playthrough.asks],
        .inl ⟨h, by simp [ha, hr, Playthrough.asks]⟩⟩
  | succ n ih =>
    by_cases hcue : ∃ cue, answer = .beat (.cue cue)
    · obtain ⟨cue, rfl⟩ := hcue
      obtain ⟨cues, final, has, hfinal⟩ := ih (c.play.advance fuel none).1
        { c with play := (c.play.advance fuel none).2, routed := c.routed ++ [cue] } hc
      refine ⟨cue :: cues, final, ?_, ?_⟩
      · simp only [routeAsked, Playthrough.asks, List.map_cons, List.cons_append, has]
      · simpa [route, routeAsked, Playthrough.asks] using hfinal
    · have h : ∀ cue, answer ≠ .beat (.cue cue) := fun cue he => hcue ⟨cue, he⟩
      obtain ⟨ha, hr⟩ := route_of_not_cue fuel (n + 1) c h
      exact ⟨[], answer, by simp [ha, Playthrough.asks],
        .inl ⟨h, by simp [ha, hr, Playthrough.asks]⟩⟩

theorem pull_eq (fuel : Nat) (s : Option Nat) (c : Conversation) :
    c.pull fuel (c.passed s) =
      if c.routesCues then route fuel fuel (c.first fuel s).1 (c.first fuel s).2
      else c.first fuel s := by
  unfold pull first
  cases c.ahead <;> rfl

theorem first_eq (fuel : Nat) (s : Option Nat) (c : Conversation) :
    ∃ q, c.first fuel s = ((c.first fuel s).1, { c with play := q, ahead := none }) := by
  unfold first
  cases c.ahead with
  | none => exact ⟨(c.play.advance fuel (c.passed s)).2, rfl⟩
  | some b => exact ⟨c.play, rfl⟩

theorem first_asks (fuel : Nat) (s : Option Nat) (ss : List (Option Nat)) (c : Conversation) :
    c.ahead.toList.map .beat ++
        (c.play.asks fuel ((if c.ahead.isSome then [] else [c.passed s]) ++ ss)).1 =
      (c.first fuel s).1 :: ((c.first fuel s).2.play.asks fuel ss).1 ∧
    (c.play.asks fuel ((if c.ahead.isSome then [] else [c.passed s]) ++ ss)).2 =
      ((c.first fuel s).2.play.asks fuel ss).2 := by
  unfold first
  cases c.ahead with
  | none => simp [Playthrough.asks]
  | some b => simp

/-- What is pulled are commands to route, and one answer that is no such command or that routing has
no steps left for. -/
theorem pull_course (fuel : Nat) (s : Option Nat) (c : Conversation) :
    ∃ (cues : List Cue) (final : Playthrough.Answer),
      c.ahead.toList.map .beat ++ (c.play.asks fuel (c.pullAsked fuel s)).1 =
        cues.map (fun cue => .beat (.cue cue)) ++ [final] ∧
      (c.routesCues = false → cues = []) ∧
      ((c.routesCues = true → ∀ cue, final ≠ .beat (.cue cue)) ∧ c.pull fuel (c.passed s) =
          (final, { c with
            play := (c.play.asks fuel (c.pullAsked fuel s)).2
            routed := c.routed ++ cues
            ahead := none }) ∨
        ∃ cue, final = .beat (.cue cue) ∧ c.pull fuel (c.passed s) =
          (.stalled, { c with
            play := (c.play.asks fuel (c.pullAsked fuel s)).2
            routed := c.routed ++ cues
            ahead := some (.cue cue) })) := by
  obtain ⟨q, hq⟩ := first_eq fuel s c
  generalize (c.first fuel s).1 = answer at hq
  by_cases hr : c.routesCues = true
  · have hp : c.pullAsked fuel s = (if c.ahead.isSome then [] else [c.passed s]) ++
        routeAsked fuel fuel answer { c with play := q, ahead := none } := by
      simp [pullAsked, hr, hq]
    obtain ⟨h1, h2⟩ := first_asks fuel s
      (routeAsked fuel fuel answer { c with play := q, ahead := none }) c
    obtain ⟨cues, final, has, hfinal⟩ := route_course fuel fuel answer
      { c with play := q, ahead := none } rfl
    rw [← hp, hq] at h1 h2
    refine ⟨cues, final, by rw [h1, has], by simp [hr], ?_⟩
    rw [pull_eq, if_pos hr, hq, h2]
    rcases hfinal with ⟨hn, h⟩ | hcue
    · exact .inl ⟨fun _ => hn, h⟩
    · exact .inr hcue
  · have hp : c.pullAsked fuel s = (if c.ahead.isSome then [] else [c.passed s]) ++ [] := by
      simp [pullAsked, hr]
    obtain ⟨h1, h2⟩ := first_asks fuel s [] c
    rw [← hp, hq] at h1 h2
    refine ⟨[], answer, h1, fun _ => rfl, .inl ⟨fun h => absurd h hr, ?_⟩⟩
    rw [pull_eq, if_neg hr, hq, h2]
    simp [Playthrough.asks]

theorem advance_of_pull {fuel : Nat} {s : Option Nat} {c d : Conversation}
    {answer : Playthrough.Answer} (h : c.pull fuel (c.passed s) = (answer, d)) :
    c.advance fuel s =
      match answer with
      | .failed e => (.failed (.running e), d)
      | .stalled => (.stalled, d)
      | .ended =>
        match d.lookAhead fuel none with
        | (some next, d) => d.reveal next
        | (none, d) => (.stalled, d)
      | .beat b =>
        match d.lookAhead fuel (some b) with
        | (some next, d) => d.reveal next
        | (none, d) => (.stalled, d) := by
  unfold passed at h
  simp only [advance, h]
  cases answer <;> rfl

theorem lookAhead_course (fuel : Nat) (b : Beat) (hb : b.isMenu = false) (c : Conversation)
    (hc : c.ahead = none) :
    (∃ next ahead, Gathers c.joinsMenus [.beat b, (c.play.advance fuel none).1] next ahead ∧
        c.lookAhead fuel (some b) =
          (some next, { c with play := (c.play.advance fuel none).2, ahead := ahead })) ∨
      (c.play.advance fuel none).1 = .stalled ∧ c.lookAhead fuel (some b) =
        (none, { c with play := (c.play.advance fuel none).2, ahead := some b }) := by
  have hb' : (some b).any Beat.isMenu = false := hb
  unfold lookAhead
  rw [hb']
  rcases c.play.advance fuel none with ⟨next | _ | e | _, q⟩
  · by_cases hj : ∃ l m, b = .line l ∧ next = .menu m ∧ c.joinsMenus = true
    · obtain ⟨l, m, rfl, rfl, hj⟩ := hj
      exact .inl ⟨_, _, .joined l m hj, by simp [settle, hj, hc]⟩
    · have hj' : ∀ l m, b = .line l → next = .menu m → c.joinsMenus = false := by
        intro l m hl hm
        cases hjm : c.joinsMenus with
        | false => rfl
        | true => exact absurd ⟨l, m, hl, hm, hjm⟩ hj
      refine .inl ⟨_, _, .ahead b next hb hj', ?_⟩
      cases b with
      | menu m => simp [Beat.isMenu] at hb
      | cue cue => simp [settle]
      | line l =>
        cases next with
        | menu m => simp [settle, hj' l m rfl rfl]
        | line _ => simp [settle]
        | cue _ => simp [settle]
  · exact .inl ⟨_, _, .last b hb, by cases b <;> simp [settle, hc]⟩
  · exact .inl ⟨_, _, .unsure b hb e, by simp [hc]⟩
  · exact .inr ⟨rfl, rfl⟩

theorem advance_course (fuel : Nat) (s : Option Nat) (c : Conversation) :
    ∃ (cues : List Cue) (ending : List Playthrough.Answer),
      c.ahead.toList.map .beat ++ (c.play.asks fuel (c.asked fuel s)).1 =
        cues.map (fun cue => .beat (.cue cue)) ++ ending ∧
      (c.routesCues = false → cues = []) ∧
      ((∃ report ahead, Breaks ending report ahead ∧ c.advance fuel s =
          (report, { c with
            play := (c.play.asks fuel (c.asked fuel s)).2
            routed := c.routed ++ cues
            ahead := ahead })) ∨
        ∃ next ahead, Gathers c.joinsMenus ending next ahead ∧
          (c.routesCues = true → ∀ cue, ending.head? ≠ some (.beat (.cue cue))) ∧
          c.advance fuel s =
            reveal next { c with
              play := (c.play.asks fuel (c.asked fuel s)).2
              routed := c.routed ++ cues
              ahead := ahead }) := by
  obtain ⟨cues, final, htape, hcues, hpull⟩ := pull_course fuel s c
  rcases hpull with ⟨hn, hp⟩ | ⟨cue, rfl, hp⟩
  · cases final with
    | failed e =>
      have ha : c.asked fuel s = c.pullAsked fuel s := by simp [asked, hp]
      rw [ha]
      exact ⟨cues, _, htape, hcues, .inl ⟨_, _, .failed e, by rw [advance_of_pull hp]⟩⟩
    | stalled =>
      have ha : c.asked fuel s = c.pullAsked fuel s := by simp [asked, hp]
      rw [ha]
      exact ⟨cues, _, htape, hcues, .inl ⟨_, _, .stalled, by rw [advance_of_pull hp]⟩⟩
    | ended =>
      have ha : c.asked fuel s = c.pullAsked fuel s ++ [none] := by simp [asked, hp]
      have hr : (c.play.asks fuel (c.pullAsked fuel s)).2.run = none := by
        cases hah : c.ahead with
        | none =>
          simp only [hah, Option.toList_none, List.map_nil, List.nil_append] at htape
          exact Playthrough.run_of_asks_ended htape
        | some b =>
          cases cues with
          | nil => simp [hah] at htape
          | cons cue cues =>
            simp only [hah, Option.toList_some, List.map_cons, List.map_nil, List.cons_append,
              List.nil_append, List.cons.injEq] at htape
            exact Playthrough.run_of_asks_ended htape.2
      have hadv := Playthrough.advance_of_not_running hr fuel none
      rw [ha, Playthrough.asks_append]
      refine ⟨cues, [.ended, .ended], ?_, hcues, .inr ⟨_, _, .finished, by simp, ?_⟩⟩
      · simp only [Playthrough.asks, hadv]
        rw [← List.append_assoc, htape]
        simp
      · rw [advance_of_pull hp]
        simp [lookAhead, settle, Playthrough.asks, hadv]
    | beat b =>
      cases hb : b.isMenu with
      | true =>
        have ha : c.asked fuel s = c.pullAsked fuel s := by simp [asked, hp, hb]
        cases b with
        | line l => simp [Beat.isMenu] at hb
        | cue cue => simp [Beat.isMenu] at hb
        | menu m =>
          rw [ha]
          refine ⟨cues, _, htape, hcues, .inr ⟨_, _, .menu m, by simp, ?_⟩⟩
          rw [advance_of_pull hp]
          simp [lookAhead, Beat.isMenu]
      | false =>
        have ha : c.asked fuel s = c.pullAsked fuel s ++ [none] := by simp [asked, hp, hb]
        rw [ha, Playthrough.asks_append]
        generalize hq : (c.play.asks fuel (c.pullAsked fuel s)).2 = q at hp
        have hl := lookAhead_course fuel b hb
          { c with play := q, routed := c.routed ++ cues, ahead := none } rfl
        have ht : c.ahead.toList.map .beat ++ ((c.play.asks fuel (c.pullAsked fuel s)).1 ++
            (q.asks fuel [none]).1) =
            cues.map (fun cue => .beat (.cue cue)) ++ [.beat b, (q.advance fuel none).1] := by
          rw [← List.append_assoc, htape]
          simp [Playthrough.asks]
        refine ⟨cues, _, ht, hcues, ?_⟩
        rcases hl with ⟨next, ahead, hg, h⟩ | ⟨hs, h⟩
        · refine .inr ⟨next, ahead, hg, ?_, ?_⟩
          · intro hr cue hc
            simp only [List.head?_cons, Option.some.injEq] at hc
            exact hn hr cue hc
          · rw [advance_of_pull hp]
            simp only [h]
            rfl
        · rw [hs]
          refine .inl ⟨_, _, .looking b hb, ?_⟩
          rw [advance_of_pull hp]
          simp only [h]
          rfl
  · have ha : c.asked fuel s = c.pullAsked fuel s := by simp [asked, hp]
    rw [ha]
    exact ⟨cues, _, htape, hcues, .inl ⟨_, _, .routing cue, by rw [advance_of_pull hp]⟩⟩

end Conversation

end Parley.Play
