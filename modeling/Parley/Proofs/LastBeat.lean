import Parley.Proofs.Accounting
import Parley.Proofs.Retrying
set_option autoImplicit false

/-!
The mark of the last beat.

A line or a command that is shown carries the mark exactly if the next call goes well, shows nothing and
routes nothing. The mark is set one call early, by what is found while looking ahead: an end sets it, and
a beat that is kept or an error that waits does not. Menus are never marked.
-/

namespace Parley.Play

open Body Script Markup

theorem Playthrough.not_ended_of_failed {fuel : Nat} {s : Option Nat} {p q : Playthrough}
    {e : RuntimeError} (h : p.advance fuel s = (.failed e, q)) (more : Nat) :
    (q.advance more s).1 ≠ .ended := by
  intro hended
  rcases advance_again h with ⟨rfl, hagain⟩ | hb
  · simp [hagain more] at hended
  · -- More steps keep an answer, and with one step at least the answer is the error.
    have hmore := advance_mono (s := s) (p := q) (by simp [hended]) (Nat.le_succ more)
    simp [hb.2 more s, ← hmore] at hended

/-- What is gathered is marked exactly if the end was found behind it. -/
theorem Gathers.last_iff {joins : Bool} {ending : List Playthrough.Answer} {b : Beat}
    {ahead : Option Beat} (hg : Gathers joins ending (some b) ahead)
    (hf : ∀ b ∈ Playthrough.beatsOf ending, b.Fresh) :
    b.last = true ↔ ending.getLast? = some .ended := by
  cases hg with
  | menu m => simpa using Beat.last_of_fresh (hf (.menu m) (by simp [Playthrough.beatsOf]))
  | last b hb => simp
  | unsure b hb e => simpa using Beat.last_of_fresh (hf b (by simp [Playthrough.beatsOf]))
  | joined l m hj =>
    have hm := Beat.last_of_fresh (hf (.menu m) (by simp [Playthrough.beatsOf]))
    simpa [Beat.last, Menu.join] using hm
  | ahead b next hb hj => simpa using Beat.last_of_fresh (hf b (by simp [Playthrough.beatsOf]))

theorem Gathers.last_of_menu {joins : Bool} {ending : List Playthrough.Answer} {b : Beat}
    {ahead : Option Beat} (hg : Gathers joins ending (some b) ahead) (hmenu : b.isMenu = true)
    (hf : ∀ b ∈ Playthrough.beatsOf ending, b.Fresh) : b.last = false := by
  have hlast := hg.last_iff hf
  cases hg with
  | menu m => simpa using hlast
  | joined l m hj => simpa using hlast
  | last b hb => cases b <;> simp_all [Beat.isMenu, Beat.markLast]
  | unsure b hb e => simp [hb] at hmenu
  | ahead b next hb hj => simp [hb] at hmenu

theorem Gathers.ahead_mem {joins : Bool} {ending : List Playthrough.Answer} {next : Option Beat}
    {ahead : Option Beat} {b : Beat} (hg : Gathers joins ending next ahead) (h : ahead = some b) :
    b ∈ Playthrough.beatsOf ending := by
  cases hg with
  | ahead b' next hb hj =>
    cases h
    simp [Playthrough.beatsOf]
  | _ => cases h

namespace Conversation

/-- Conversations in front of their first beat, and whatever calls make of them. In between, the host
may put any playthrough in the place of the one in use. -/
inductive Arises : Conversation → Prop
  | opened (settings : Settings) (p : Playthrough) : Arises (ofPlay settings p)
  | advanced {c : Conversation} (h : Arises c) (fuel : Nat) (s : Option Nat) :
      Arises (c.advance fuel s).2
  | hosted {c : Conversation} (h : Arises c) (p : Playthrough) : Arises { c with play := p }

inductive Settled (d : Conversation) : Prop
  | begun {fuel : Nat} {settings : Settings} {nodes : List Node}
      (h : begin fuel settings nodes = (.ok, d)) : Settled d
  | begunScript {fuel : Nat} {settings : Settings} {script : Text}
      (h : beginScript fuel settings script = (.ok, d)) : Settled d
  | advanced {c : Conversation} {fuel : Nat} {s : Option Nat} (hc : Arises c)
      (h : c.advance fuel s = (.ok, d)) : Settled d

/-- The call goes well, shows nothing and routes nothing. -/
structure Concludes (c : Conversation) (fuel : Nat) (s : Option Nat) : Prop where
  reported : (c.advance fuel s).1 = .ok
  shown : (c.advance fuel s).2.current = none
  routed : (c.advance fuel s).2.routed = c.routed

/-- Marks are set on what is shown only, and there on no menu. -/
structure MenusUnmarked (c : Conversation) : Prop where
  ahead : ∀ b, c.ahead = some b → b.Fresh
  shown : ∀ m, Beat.menu m ∈ c.history ++ c.current.toList → m.last = false

variable {c d : Conversation} {fuel : Nat} {s : Option Nat}

theorem advance_menusUnmarked (fuel : Nat) (s : Option Nat) (h : c.MenusUnmarked) :
    (c.advance fuel s).2.MenusUnmarked := by
  obtain ⟨cues, ending, ht, -, ⟨report, ahead, hb, hadv⟩ | ⟨next, ahead, hg, -, hadv⟩⟩ :=
    advance_course fuel s c
  · rw [hadv]
    refine ⟨fun b hah => beats_fresh h.ahead ht b ?_, h.shown⟩
    rw [hb.beats]
    simpa using hah
  · have hfresh := beats_fresh h.ahead ht
    have hkept : ∀ b, ahead = some b → b.Fresh := fun b hah => hfresh b (hg.ahead_mem hah)
    rcases reveal_resolves next { c with
        play := (c.play.asks fuel (c.asked fuel s)).2
        routed := c.routed ++ cues
        ahead := ahead } with ⟨-, hr⟩ | ⟨b, rfl, ⟨shown, hres, hr⟩ | ⟨e, hr⟩⟩
    · rw [hadv, hr]
      exact ⟨hkept, by simpa [present] using h.shown⟩
    · rw [hadv, hr]
      refine ⟨hkept, fun m hm => ?_⟩
      rcases List.mem_append.1 hm with hm | hm
      · exact h.shown m hm
      · obtain rfl : Beat.menu m = shown := by simpa [present] using hm
        have hmenu := (shownAs_of_resolveMarkup hres).isMenu_eq
        exact (Beat.last_of_resolveMarkup hres).trans (hg.last_of_menu hmenu.symm hfresh)
    · rw [hadv, hr]
      exact ⟨hkept, h.shown⟩

theorem Arises.menusUnmarked (h : Arises c) : c.MenusUnmarked := by
  induction h with
  | opened settings p => exact ⟨by simp [ofPlay], by simp [ofPlay]⟩
  | advanced h fuel s ih => exact advance_menusUnmarked fuel s ih
  | hosted h p ih => exact ⟨ih.ahead, ih.shown⟩

/-- Behind the end, a call only puts the current beat away. -/
theorem concludes_of_not_running (hah : c.ahead = none) (hrun : c.play.run = none) (fuel : Nat)
    (s : Option Nat) : c.Concludes fuel s := by
  have hended := Playthrough.advance_of_not_running hrun fuel
  have hkeep : { c with ahead := none } = c := by rw [← hah]
  have hpull : c.pull fuel (c.passed s) = (.ended, c) := by
    simp only [pull, hah, hended]
    split
    · rw [(route_of_not_cue fuel fuel _ (by simp)).2, hkeep]
    · rw [hkeep]
  have hadv : c.advance fuel s = (.ok, c.present none) := by
    rw [advance_of_pull hpull]
    simp [lookAhead, hended, settle, reveal, hkeep]
  exact ⟨by rw [hadv], by rw [hadv]; rfl, by rw [hadv]; rfl⟩

theorem Concludes.ended (h : c.Concludes fuel s) :
    c.ahead = none ∧ (c.play.advance fuel (c.passed s)).1 = .ended := by
  obtain ⟨hreported, hshown, hrouted⟩ := h
  obtain ⟨cues, ending, ht, -, ⟨report, ahead, hb, hadv⟩ | ⟨next, ahead, hg, -, hadv⟩⟩ :=
    advance_course fuel s c
  · rw [hadv] at hreported
    cases hb <;> cases hreported
  · rw [hadv] at hreported hshown hrouted
    rcases reveal_resolves next { c with
        play := (c.play.asks fuel (c.asked fuel s)).2
        routed := c.routed ++ cues
        ahead := ahead } with ⟨rfl, hr⟩ | ⟨b, rfl, ⟨shown, -, hr⟩ | ⟨e, hr⟩⟩
    · rw [hr] at hrouted
      obtain rfl : cues = [] := by simpa [present] using hrouted
      cases hg
      cases hah : c.ahead with
      | some b => simp [hah] at ht
      | none =>
        simp only [hah, asked, pullAsked, Option.toList_none, Option.isSome_none, List.map_nil,
          List.nil_append, Bool.false_eq_true, if_false, List.cons_append, Playthrough.asks,
          List.cons.injEq] at ht
        exact ⟨rfl, ht.1⟩
    · rw [hr] at hshown
      cases hshown
    · rw [hr] at hreported
      cases hreported

theorem reveal_shows {next : Option Beat} {shown : Beat} (hok : (d.reveal next).1 = .ok)
    (hcur : (d.reveal next).2.current = some shown) :
    ∃ b, next = some b ∧ b.resolveMarkup d.locale = .ok shown ∧
      (d.reveal next).2 = d.present (some shown) := by
  rcases reveal_resolves next d with ⟨rfl, hr⟩ | ⟨b, rfl, ⟨shown', hres, hr⟩ | ⟨e, hr⟩⟩
  · rw [hr] at hcur
    cases hcur
  · rw [hr] at hcur ⊢
    cases hcur
    exact ⟨b, rfl, hres, rfl⟩
  · rw [hr] at hok
    cases hok

theorem lookAhead_of_none (fuel : Nat) (d : Conversation) :
    (d.lookAhead fuel none).1 = some none ∨ (d.lookAhead fuel none).1 = none := by
  unfold lookAhead
  rcases d.play.advance fuel none with ⟨b | _ | e | _, q⟩
  · exact .inl rfl
  · exact .inl rfl
  · exact .inl rfl
  · exact .inr rfl

/-- How a line or a command comes to be shown: a beat is pulled, and what is found behind it decides on
the mark. -/
theorem advance_shown {shown : Beat} (hf : ∀ b, c.ahead = some b → b.Fresh)
    (hok : (c.advance fuel s).1 = .ok) (hcur : (c.advance fuel s).2.current = some shown)
    (hmenu : shown.isMenu = false) :
    ∃ (b : Beat) (d : Conversation) (next : Beat) (ahead : Option Beat), b.Fresh ∧
      Gathers d.joinsMenus [.beat b, (d.play.advance fuel none).1] (some next) ahead ∧
      next.resolveMarkup d.locale = .ok shown ∧
      (c.advance fuel s).2 = present (some shown)
        { d with play := (d.play.advance fuel none).2, ahead := ahead } := by
  obtain ⟨cues, final, htape, -, ⟨-, hpull⟩ | ⟨cue, -, hpull⟩⟩ := pull_course fuel s c
  · have hadv := advance_of_pull hpull
    generalize hd : ({ c with
      play := (c.play.asks fuel (c.pullAsked fuel s)).2
      routed := c.routed ++ cues
      ahead := none } : Conversation) = d at hpull hadv
    have hah : d.ahead = none := by rw [← hd]
    cases final with
    | failed e =>
      rw [hadv] at hok
      cases hok
    | stalled =>
      rw [hadv] at hok
      cases hok
    | ended =>
      -- Nothing is shown behind the end.
      have hnone := lookAhead_of_none fuel d
      rcases hlook : d.lookAhead fuel none with ⟨_ | next, d'⟩
      · simp only [hlook] at hadv
        rw [hadv] at hok
        cases hok
      · simp only [hlook] at hadv
        rw [hadv] at hok hcur
        obtain ⟨b, rfl, -⟩ := reveal_shows hok hcur
        simp [hlook] at hnone
    | beat b =>
      have hfresh : b.Fresh := beats_fresh hf htape b (by simp [Playthrough.beatsOf])
      cases hb : b.isMenu with
      | true =>
        have hlook : d.lookAhead fuel (some b) = (some (some b), d) := by simp [lookAhead, hb]
        simp only [hlook] at hadv
        rw [hadv] at hok hcur
        obtain ⟨b', hb', hres, -⟩ := reveal_shows hok hcur
        cases hb'
        simp [(shownAs_of_resolveMarkup hres).isMenu_eq, hb] at hmenu
      | false =>
        rcases lookAhead_course fuel b hb d hah with ⟨next, ahead, hg, hlook⟩ | ⟨-, hlook⟩
        · simp only [hlook] at hadv
          rw [hadv] at hok hcur ⊢
          obtain ⟨b', rfl, hres, hr⟩ := reveal_shows hok hcur
          exact ⟨b, d, b', ahead, hfresh, hg, hres, hr⟩
        · simp only [hlook] at hadv
          rw [hadv] at hok
          cases hok
  · rw [advance_of_pull hpull] at hok
    cases hok

/-- The mark is exact one call ahead, for every selection and every number of steps of that call. -/
theorem last_iff_of_advance {b : Beat} (hf : ∀ b, c.ahead = some b → b.Fresh)
    (hok : c.advance fuel s = (.ok, d)) (hcur : d.current = some b) (hmenu : b.isMenu = false)
    (more : Nat) (t : Option Nat) : b.last = true ↔ d.Concludes more t := by
  obtain ⟨pulled, e, next, ahead, hfresh, hg, hres, hd⟩ :=
    advance_shown hf (by rw [hok]) (by rw [hok, hcur]) hmenu
  rw [hok] at hd
  subst hd
  have hbeats : ∀ x ∈ Playthrough.beatsOf [.beat pulled, (e.play.advance fuel none).1], x.Fresh := by
    intro x hx
    cases ha : (e.play.advance fuel none).1 with
    | beat b' =>
      have hx : x = pulled ∨ x = b' := by simpa [ha, Playthrough.beatsOf] using hx
      rcases hx with rfl | rfl
      · exact hfresh
      · exact Playthrough.advance_fresh ha
    | _ =>
      obtain rfl : x = pulled := by simpa [ha, Playthrough.beatsOf] using hx
      exact hfresh
  rw [Beat.last_of_resolveMarkup hres, hg.last_iff hbeats]
  simp only [List.getLast?_cons_cons, List.getLast?_singleton, Option.some.injEq]
  constructor
  · intro hended
    have hah : ahead = none := by
      rw [hended] at hg
      cases hg
      rfl
    exact concludes_of_not_running hah (Playthrough.run_of_advance_ended hended) more t
  · intro hconcludes
    obtain ⟨hah, hended⟩ := hconcludes.ended
    have hpassed : passed t (present (some b)
        { e with play := (e.play.advance fuel none).2, ahead := ahead }) = none := by
      simp [passed, present, hmenu]
    rw [hpassed] at hended
    have hshown : next.isMenu = false := by rw [← hmenu, (shownAs_of_resolveMarkup hres).isMenu_eq]
    generalize hlook : e.play.advance fuel none = x at hg hended ⊢
    obtain ⟨answer, q⟩ := x
    cases hg with
    | last b' hb' => rfl
    | unsure b' hb' err => exact absurd hended (Playthrough.not_ended_of_failed hlook more)
    | joined l m hj => simp [Beat.isMenu] at hshown
    | ahead b' next' hb' hj => cases hah

theorem Arises.settled (h : Arises c) (hok : (c.advance fuel s).1 = .ok) :
    Settled (c.advance fuel s).2 :=
  .advanced h (Prod.ext hok rfl)

theorem Settled.exists_advance (h : Settled d) :
    ∃ c fuel s, Arises c ∧ c.advance fuel s = (.ok, d) := by
  have hbegun {fuel : Nat} {settings : Settings} {nodes : List Node}
      (h : begin fuel settings nodes = (.ok, d)) : ∃ c fuel s, Arises c ∧ c.advance fuel s = (.ok, d) :=
    ⟨_, fuel, none, .opened settings (plain settings nodes), (begin_ok h).1⟩
  cases h with
  | begun h => exact hbegun h
  | begunScript h =>
    rename_i settings script
    unfold beginScript at h
    cases hs : split script with
    | error e => simp [hs] at h
    | ok nodes =>
      rw [hs] at h
      exact hbegun h
  | advanced hc h => exact ⟨_, _, _, hc, h⟩

theorem Settled.arises (h : Settled d) : Arises d := by
  obtain ⟨c, fuel, s, hc, hok⟩ := h.exists_advance
  have harises := hc.advanced fuel s
  rwa [hok] at harises

/-- In a conversation that has just begun or moved on, a line or a command is marked as the last beat if
and only if the next call goes well, shows nothing and routes nothing, whatever its selection is. No menu
is ever marked. -/
theorem last_iff_concludes (h : Settled d) :
    (∀ b, d.current = some b → b.isMenu = false →
      ∀ fuel s, b.last = true ↔ d.Concludes fuel s) ∧
    ∀ m, .menu m ∈ d.history ++ d.current.toList → m.last = false := by
  obtain ⟨c, fuel, s, hc, hok⟩ := h.exists_advance
  refine ⟨fun b hcur hmenu => last_iff_of_advance hc.menusUnmarked.ahead hok hcur hmenu, ?_⟩
  have hunmarked := advance_menusUnmarked fuel s hc.menusUnmarked
  rw [hok] at hunmarked
  exact hunmarked.shown

theorem settled_staged {script : Text} (h : (beginScript 9 routing script).1 = .ok) :
    Settled (staged script) :=
  .begunScript (Prod.ext h rfl)

def waveAtEnd : Text := "title: Start\n---\nOne\n<<wave>>\n===".toList

def chosenAtEnd : Text := "title: Start\n---\n-> One\n    Two\n-> Three\n===".toList

theorem last_iff_concludes_staged :
    (∃ b, (staged waveAtEnd).current = some b ∧ b.last = false ∧
      ¬ (staged waveAtEnd).Concludes 9 none) ∧
    ∃ b, ((staged chosenAtEnd).advance 9 (some 0)).2.current = some b ∧ b.last = true ∧
      ((staged chosenAtEnd).advance 9 (some 0)).2.Concludes 9 (some 0) := by
  have hwave : Settled (staged waveAtEnd) := settled_staged (by decide +kernel)
  have hchosen : Settled (staged chosenAtEnd) := settled_staged (by decide +kernel)
  have hmoved : ((staged chosenAtEnd).advance 9 (some 0)).1 = .ok := by decide +kernel
  have hone : (staged waveAtEnd).current.any (fun b => !b.isMenu && !b.last) = true := by
    decide +kernel
  have htwo : ((staged chosenAtEnd).advance 9 (some 0)).2.current.any
      (fun b => !b.isMenu && b.last) = true := by decide +kernel
  constructor
  · obtain ⟨b, hcur, hb⟩ := (Option.any_eq_true _ _).1 hone
    simp only [Bool.and_eq_true, Bool.not_eq_true'] at hb
    refine ⟨b, hcur, hb.2, fun hconcludes => ?_⟩
    have hlast := ((last_iff_concludes hwave).1 b hcur hb.1 9 none).2 hconcludes
    simp [hb.2] at hlast
  · obtain ⟨b, hcur, hb⟩ := (Option.any_eq_true _ _).1 htwo
    simp only [Bool.and_eq_true, Bool.not_eq_true'] at hb
    have hsettled := hchosen.arises.settled hmoved
    exact ⟨b, hcur, hb.2, ((last_iff_concludes hsettled).1 b hcur hb.1 9 (some 0)).1 hb.2⟩

end Conversation

end Parley.Play
