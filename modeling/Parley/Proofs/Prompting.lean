import Parley.Console.Program
import Parley.Proofs.Retrying
import Parley.Proofs.Selections
set_option autoImplicit false

/-!
The selections that the player at the console makes.

Whenever options wait for a selection, the menu that is current, or that is kept to be shown next, lists
them one for one. The player only moves on from a menu with the index of an available entry of it, so
that no selection is ever refused, whatever the script and the input are.
-/

namespace Parley.Play

open Body Script Markup

namespace Playthrough

variable {fuel : Nat} {s : Option Nat} {p : Playthrough} {m : Menu}

theorem awaits_of_advance (h : (p.advance fuel s).1 = .beat (.menu m)) :
    (p.advance fuel s).2.Awaits m.entries.length := by
  cases hw : p.waits with
  | false => exact (onward_of_not_waiting fuel s hw).menu m h
  | true =>
    obtain ⟨r, hr⟩ : ∃ r, p.run = some r := Option.isSome_iff_exists.1 (by
      cases hr : p.run with
      | none => simp [waits, hr] at hw
      | some r => rfl)
    cases ha : r.awaiting with
    | none => simp [waits, hr, ha] at hw
    | some options =>
      rw [advance_of_waiting hr ha] at h ⊢
      cases hs : select s options.length with
      | error e => simp [hs] at h
      | ok index =>
        simp only [hs] at h ⊢
        exact walk_menu h

theorem awaits_of_asks {ss : List (Option Nat)} {before : List Answer}
    (h : (p.asks fuel ss).1 = before ++ [.beat (.menu m)]) :
    (p.asks fuel ss).2.Awaits m.entries.length :=
  asks_snoc (P := fun a q => ∀ m, a = .beat (.menu m) → q.Awaits m.entries.length)
    (fun _ _ _ => awaits_of_advance) h m rfl

end Playthrough

theorem ShownAs.menu_eq {locale : Locale} {m : Menu} {shown : Beat} (h : ShownAs locale (.menu m) shown) :
    ∃ n, shown = .menu n ∧ n.entries.length = m.entries.length := by
  cases h with
  | menu m entries last ht he => exact ⟨_, rfl, he.length_eq.symm⟩
  | joined m text marked entries last ht h he => exact ⟨_, rfl, he.length_eq.symm⟩

theorem Gathers.menu_cases {joins : Bool} {ending : List Playthrough.Answer} {next ahead : Option Beat}
    (h : Gathers joins ending next ahead) :
    (∃ before m, ending = before ++ [.beat (.menu m)] ∧
        (ahead = some (.menu m) ∨
          ahead = none ∧ ∃ n, next = some (.menu n) ∧ n.entries = m.entries)) ∨
      (∀ m, ending.getLast? ≠ some (.beat (.menu m))) ∧ ∀ m, ahead ≠ some (.menu m) := by
  cases h with
  | finished => exact .inr ⟨by simp, by simp⟩
  | menu m => exact .inl ⟨[], m, rfl, .inr ⟨rfl, m, rfl, rfl⟩⟩
  | last b hb => exact .inr ⟨by simp, by simp⟩
  | unsure b hb e => exact .inr ⟨by simp, by simp⟩
  | joined l m hj => exact .inl ⟨[.beat (.line l)], m, rfl, .inr ⟨rfl, m.join l, rfl, rfl⟩⟩
  | ahead b next hb hj =>
    cases next with
    | menu m => exact .inl ⟨[.beat b], m, rfl, .inl rfl⟩
    | line l => exact .inr ⟨by simp, by simp⟩
    | cue cue => exact .inr ⟨by simp, by simp⟩

namespace Conversation

/-- Options that wait are the entries of the menu that is kept or else of the current one. -/
structure Matched (c : Conversation) : Prop where
  poised : c.Poised
  ahead : ∀ m, c.ahead = some (.menu m) → c.play.Awaits m.entries.length
  current : c.ahead = none → c.play.waits = true →
    ∃ m, c.current = some (.menu m) ∧ c.play.Awaits m.entries.length

def Selects (s : Option Nat) (c : Conversation) : Prop :=
  ∀ m, c.current = some (.menu m) → ∃ index, s = some index ∧ index < m.entries.length

variable {fuel : Nat} {s : Option Nat} {c : Conversation}

theorem ofPlay_matched (settings : Settings) {p : Playthrough} (h : p.waits = false) :
    (ofPlay settings p).Matched where
  poised := ofPlay_poised settings p
  ahead := by simp [ofPlay]
  current := by simp [ofPlay, h]

theorem awaits_of_tape {ss : List (Option Nat)} {before : List Playthrough.Answer} {m : Menu}
    (hm : ∀ m, c.ahead = some (.menu m) → c.play.Awaits m.entries.length)
    (ht : c.ahead.toList.map .beat ++ (c.play.asks fuel ss).1 = before ++ [.beat (.menu m)]) :
    (c.play.asks fuel ss).2.Awaits m.entries.length := by
  cases hah : c.ahead with
  | none =>
    simp only [hah, Option.toList_none, List.map_nil, List.nil_append] at ht
    exact Playthrough.awaits_of_asks ht
  | some b =>
    simp only [hah, Option.toList_some, List.map_cons, List.map_nil, List.cons_append,
      List.nil_append] at ht
    cases before with
    | nil =>
      -- The menu was kept, so that the playthrough was asked nothing.
      simp only [List.nil_append, List.cons.injEq, Playthrough.Answer.beat.injEq] at ht
      obtain ⟨rfl, hnil⟩ := ht
      rw [Playthrough.asks_eq_nil hnil]
      exact hm m hah
    | cons a before =>
      simp only [List.cons_append, List.cons.injEq] at ht
      exact Playthrough.awaits_of_asks ht.2

/-- Every call leaves waiting options matched, unless a menu is lost for its markup. -/
theorem advance_matched (h : c.Matched) (hm : ∀ e, (c.advance fuel s).1 ≠ .failed (.markup e)) :
    (c.advance fuel s).2.Matched := by
  have hpoised := advance_poised fuel s h.poised
  obtain ⟨cues, ending, ht, -, ⟨report, ahead, hb, hadv⟩ | ⟨next, ahead, hg, -, hadv⟩⟩ :=
    advance_course fuel s c
  · rw [hadv] at hpoised ⊢
    rcases waits_of_breaks h.poised ht hb with ⟨hah, rfl, ⟨e, rfl⟩, hq⟩ | hw
    · cases hb
      refine ⟨hpoised, by simp, fun _ hw => ?_⟩
      simp only [hq] at hw ⊢
      exact h.current hah hw
    · refine ⟨hpoised, fun m hah => ?_, fun _ hw' => ?_⟩
      · have := (hpoised (.menu m) hah).1
        simp [hw, Beat.isMenu] at this
      · simp [hw] at hw'
  · obtain ⟨a, ha, hbehind⟩ := behind_of_gathers h.poised ht hg
    rw [hadv] at hpoised hm ⊢
    rcases hg.menu_cases with ⟨before, m, rfl, hshown⟩ | ⟨hlast, hah⟩
    · rw [← List.append_assoc] at ht
      have hawaits := awaits_of_tape h.ahead ht
      refine ⟨hpoised, fun n hn => ?_, fun hn _ => ?_⟩
      · rw [reveal_ahead] at hn
        rw [reveal_play]
        rcases hshown with rfl | ⟨rfl, -⟩
        · cases hn
          exact hawaits
        · cases hn
      · rw [reveal_ahead] at hn
        rw [reveal_play]
        rcases hshown with rfl | ⟨-, n, rfl, hentries⟩
        · cases hn
        · rcases reveal_cases (some (.menu n)) _ with ⟨hnone, -⟩ | ⟨b, hb, ⟨shown, hs, hr⟩ | ⟨e, hr⟩⟩
          · cases hnone
          · cases hb
            obtain ⟨k, rfl, hk⟩ := hs.menu_eq
            refine ⟨k, by rw [hr]; rfl, ?_⟩
            rw [hk, hentries]
            exact hawaits
          · exact absurd (congrArg Prod.fst hr) (hm e)
    · have hw : (c.play.asks fuel (c.asked fuel s)).2.waits = false :=
        Playthrough.waits_of_behind hbehind fun m hmenu => hlast m (hmenu ▸ ha)
      refine ⟨hpoised, fun m hn => ?_, fun _ hw' => ?_⟩
      · rw [reveal_ahead] at hn
        exact absurd hn (hah m)
      · rw [reveal_play] at hw'
        simp [hw] at hw'

theorem advance_not_refused {e : RuntimeError} (h : c.Matched) (hs : Selects s c)
    (hadv : (c.advance fuel s).1 = .failed (.running e)) : e.isRefusal = false := by
  have hpull := pull_of_advance_failed hadv
  obtain ⟨cues, q, -, -, ⟨e', he, -, hagain⟩ | hbehind⟩ := pull_cases h.poised hpull (by simp)
  · cases he
    cases hw : c.play.waits with
    | false => exact (Playthrough.onward_of_not_waiting fuel _ hw).fault e (by rw [hagain fuel])
    | true =>
      cases hah : c.ahead with
      | some b =>
        -- Options wait behind a kept menu only, and that is shown before anything is asked for.
        have hmenu := (h.poised b hah).1
        rw [hw] at hmenu
        cases b with
        | menu m =>
          rw [pull_of_menu_ahead hah] at hpull
          cases hpull
        | line l => cases hmenu
        | cue cue => cases hmenu
      | none =>
        obtain ⟨m, hm, hawaits⟩ := h.current hah hw
        obtain ⟨index, rfl, hlt⟩ := hs m hm
        have hpassed : c.passed (some index) = some index := by simp [passed, hm, Beat.isMenu]
        have hagain := hagain fuel
        rw [hpassed] at hagain
        rcases Playthrough.advance_of_awaits fuel (some index) hawaits with ⟨e', he, -⟩ | ⟨-, honward⟩
        · simp [Playthrough.select, hlt] at he
        · exact honward.fault e (by rw [hagain])
  · exact (Playthrough.onward_of_not_waiting 1 none hbehind.1).fault e (by rw [hbehind.2])

theorem advance_current_of_not_ok (h : (c.advance fuel s).1 ≠ .ok) :
    (c.advance fuel s).2.current = c.current := by
  obtain ⟨cues, ending, -, -, ⟨report, ahead, -, hadv⟩ | ⟨next, ahead, -, -, hadv⟩⟩ :=
    advance_course fuel s c
  · rw [hadv]
  · rw [hadv] at h ⊢
    rcases reveal_cases next _ with ⟨-, hr⟩ | ⟨b, -, ⟨shown, -, hr⟩ | ⟨e, hr⟩⟩
    · exact absurd (congrArg Prod.fst hr) h
    · exact absurd (congrArg Prod.fst hr) h
    · rw [hr]

/-- What a call comes to if no selection was refused in it. -/
structure Undisputed (x : Report × Conversation) : Prop where
  accepted : ∀ e, x.1 = .failed (.running e) → e.isRefusal = false
  matched : (∀ e, x.1 ≠ .failed (.markup e)) → x.2.Matched

theorem advance_undisputed (h : c.Matched) (hs : Selects s c) : Undisputed (c.advance fuel s) where
  accepted _ := advance_not_refused h hs
  matched := advance_matched h

theorem start_not_refused {p : Playthrough} {title : Text} {e : RuntimeError}
    (h : (p.start title).1 = .error e) : e.isRefusal = false := by
  rcases Playthrough.start_cases p title with ⟨e', he, hs⟩ | ⟨node, statements, declared, -, -, hs⟩
  · rw [hs] at h
    cases h
    exact (Cause.barred (Playthrough.enter_eq_error he)).not_refusal
  · rw [hs] at h
    cases h

/-- Nothing is refused at the beginning, where nothing is current yet. -/
theorem begin_undisputed (fuel : Nat) (settings : Settings) (nodes : List Node) :
    Undisputed (begin fuel settings nodes) ∧
      ((begin fuel settings nodes).1 ≠ .ok → (begin fuel settings nodes).2.current = none) := by
  unfold begin
  rcases hload : (prepare settings).load nodes with ⟨e | _, p⟩
  · have hp : p.waits = false := by
      have hrun : p.run = none := by
        have hrun := Playthrough.load_run (prepare settings) nodes
        rwa [hload] at hrun
      simp [Playthrough.waits, hrun]
    exact ⟨⟨by simp, fun _ => ofPlay_matched settings hp⟩, fun _ => rfl⟩
  · dsimp only
    have hwaits := Playthrough.start_waits p settings.startAt
    rcases hstart : p.start settings.startAt with ⟨e | _, q⟩
    · rw [hstart] at hwaits
      refine ⟨⟨?_, fun _ => ofPlay_matched settings hwaits⟩, fun _ => rfl⟩
      rintro e' he
      cases he
      exact start_not_refused (congrArg Prod.fst hstart)
    · rw [hstart] at hwaits
      refine ⟨advance_undisputed (ofPlay_matched settings hwaits) ?_, ?_⟩
      · rintro m hm
        cases hm
      · exact fun hok => (advance_current_of_not_ok hok).trans rfl

theorem beginScript_undisputed (fuel : Nat) (settings : Settings) (script : Text) :
    Undisputed (beginScript fuel settings script) ∧
      ((beginScript fuel settings script).1 ≠ .ok →
        (beginScript fuel settings script).2.current = none) := by
  unfold beginScript
  cases split script with
  | error e => exact ⟨⟨by simp, fun _ => ofPlay_matched settings rfl⟩, fun _ => rfl⟩
  | ok nodes => exact begin_undisputed fuel settings nodes

end Conversation

end Parley.Play

namespace Parley.Console

open Play

/-- The selection is the index of an available entry of the menu, if a menu is current. -/
def Chosen (s : Option Nat) (c : Conversation) : Prop :=
  ∀ m, c.current = some (.menu m) →
    ∃ index entry, s = some index ∧ m.entries[index]? = some entry ∧ entry.available = true

theorem Chosen.selects {s : Option Nat} {c : Conversation} (h : Chosen s c) :
    Conversation.Selects s c := by
  intro m hm
  obtain ⟨index, entry, hs, hentry, -⟩ := h m hm
  exact ⟨index, hs, (List.getElem?_eq_some_iff.1 hentry).1⟩

namespace Player

def act (fuel : Nat) (path : Text) (next : Input) : Player → List Output × Player
  | .facing c => face c
  | .asking c m => answer c m next
  | .moving selection c => move fuel path selection c
  | .done code => ([], .done code)

def leaves (input : List Input) : Player → List Input
  | .asking .. => input.tail
  | _ => input

/-- The players that play goes through, each with the line of input in front of it. -/
def stages (fuel : Nat) (path : Text) : Player → List Input → Nat → List (Player × Input)
  | _, _, 0 => []
  | player, input, n + 1 =>
    (player, input.headD .ended) ::
      stages fuel path (player.act fuel path (input.headD .ended)).2 (player.leaves input) n

def code? : Player → Option Nat
  | .done code => some code
  | _ => none

def conversation? : Player → Option Conversation
  | .facing c => some c
  | .asking c _ => some c
  | .moving _ c => some c
  | .done _ => none

variable {fuel : Nat} {path : Text} {player : Player} {input : List Input}

theorem stages_done (code n : Nat) :
    stages fuel path (.done code) input n = .replicate n (.done code, input.headD .ended) := by
  induction n with
  | zero => rfl
  | succ n ih =>
    rw [List.replicate_succ, ← ih]
    rfl

/-- Playing puts out what its stages put out, and ends where one of them is done. -/
theorem playOn_eq_stages (n : Nat) :
    playOn fuel path player input n =
      ((player.stages fuel path input n).flatMap fun x => (x.1.act fuel path x.2).1,
        (player.stages fuel path input n).findSome? fun x => x.1.code?) := by
  induction n generalizing player input with
  | zero => rfl
  | succ n ih =>
    cases player with
    | done code =>
      rw [stages_done]
      simp [playOn, List.replicate_succ, act, code?]
    | facing c => simp [playOn, stages, act, leaves, code?, ih]
    | moving s c => simp [playOn, stages, act, leaves, code?, ih]
    | asking c m => simp [playOn, stages, act, leaves, code?, ih]

def Sound : Player → Prop
  | .facing c => c.Matched
  | .asking c m => c.Matched ∧ c.current = some (.menu m)
  | .moving s c => c.Matched ∧ Chosen s c
  | .done _ => True

theorem choice?_eq_some {m : Menu} {t : Text} {index : Nat} (h : choice? m t = some index) :
    ∃ entry, m.entries[index]? = some entry ∧ entry.available = true := by
  unfold choice? at h
  split at h
  · rename_i i hi
    split at h
    · rename_i hany
      cases h
      exact (Option.any_eq_true _ _).1 hany
    · cases h
  · cases h

theorem onward_sound {s : Option Nat} {c : Conversation} (h : c.Matched) (hs : Chosen s c) :
    (onward s c).Sound := by
  unfold onward
  split
  · exact trivial
  · exact ⟨h, hs⟩

theorem face_sound {c : Conversation} (h : c.Matched) : (face c).2.Sound := by
  unfold face
  split
  · exact trivial
  · rename_i hc
    exact onward_sound h fun m hm => by simp [hm] at hc
  · rename_i hc
    exact onward_sound h fun m hm => by simp [hm] at hc
  · rename_i hc
    exact ⟨h, hc⟩

theorem answer_sound {c : Conversation} {m : Menu} (h : c.Matched)
    (hm : c.current = some (.menu m)) (next : Input) : (answer c m next).2.Sound := by
  cases next with
  | ended => exact trivial
  | undecodable => exact trivial
  | text t =>
    simp only [answer]
    cases hc : choice? m t with
    | none => exact ⟨h, hm⟩
    | some index =>
      refine onward_sound h fun n hn => ?_
      rw [hm] at hn
      cases hn
      obtain ⟨entry, hentry, havailable⟩ := choice?_eq_some hc
      exact ⟨index, entry, rfl, hentry, havailable⟩

theorem follow_sound {s : Option Nat} {report : Report} {c : Conversation}
    (h : Conversation.Undisputed (report, c)) (hs : report = .stalled → Chosen s c) :
    (follow path s c report).2.Sound := by
  cases report with
  | ok => exact h.matched (by simp)
  | stalled => exact ⟨h.matched (by simp), hs rfl⟩
  | failed e =>
    cases e with
    | running e =>
      have hrefusal := h.accepted e rfl
      cases e with
      | noSelection => cases hrefusal
      | selectionOutOfRange index count => cases hrefusal
      | _ => exact trivial
    | _ => exact trivial

theorem move_sound {s : Option Nat} {c : Conversation} (h : c.Matched) (hs : Chosen s c) :
    (move fuel path s c).2.Sound := by
  have hundisputed : Conversation.Undisputed (c.advance fuel s) :=
    Conversation.advance_undisputed h hs.selects
  have hcurrent : (c.advance fuel s).1 ≠ .ok → (c.advance fuel s).2.current = c.current :=
    Conversation.advance_current_of_not_ok
  unfold move
  rcases hadv : c.advance fuel s with ⟨report, after⟩
  rw [hadv] at hundisputed hcurrent
  refine follow_sound hundisputed fun hstalled m hm => hs m ?_
  rw [← hcurrent (by simp [hstalled]), hm]

theorem begin_sound (settings : Settings) (script : Text) :
    (begin fuel path settings script).2.Sound := by
  obtain ⟨hundisputed, hcurrent⟩ := Conversation.beginScript_undisputed fuel settings script
  unfold begin
  rcases hbegin : Conversation.beginScript fuel settings script with ⟨report, c⟩
  rw [hbegin] at hundisputed hcurrent
  refine follow_sound hundisputed fun hstalled m hm => ?_
  rw [hcurrent (by simp [hstalled])] at hm
  cases hm

theorem openFile_sound (settings : Settings) (content : FileContent) :
    (openFile fuel path settings content).2.Sound := by
  unfold openFile
  cases content.read with
  | error reason => exact trivial
  | ok script => exact begin_sound settings script

theorem act_sound (next : Input) (h : player.Sound) : (player.act fuel path next).2.Sound := by
  cases player with
  | facing c => exact face_sound h
  | asking c m => exact answer_sound h.1 h.2 next
  | moving s c => exact move_sound h.1 h.2
  | done code => exact trivial

theorem stages_sound {n : Nat} (h : player.Sound) :
    ∀ x ∈ player.stages fuel path input n, x.1.Sound := by
  induction n generalizing player input with
  | zero => simp [stages]
  | succ n ih =>
    intro x hx
    rcases List.mem_cons.1 hx with rfl | hx
    · exact h
    · exact ih (act_sound _ h) x hx

/-- A player that takes a step: the selection that it moves on with is of an available entry of the
current menu and is not refused, and no options wait behind a beat that is no menu. -/
structure Proper (player : Player) : Prop where
  chosen : ∀ s c, player = .moving s c → Chosen s c
  accepted : ∀ s c, player = .moving s c → ∀ fuel e,
    (c.advance fuel s).1 = .failed (.running e) → e.isRefusal = false
  idle : ∀ c, player.conversation? = some c → ∀ b, c.current = some b → b.isMenu = false →
    c.ahead = none → c.play.waits = false

theorem Sound.matched {c : Conversation} (h : player.Sound) (hc : player.conversation? = some c) :
    c.Matched := by
  cases player with
  | facing d =>
    cases hc
    exact h
  | asking d m =>
    cases hc
    exact h.1
  | moving s d =>
    cases hc
    exact h.1
  | done code => cases hc

theorem Sound.proper (h : player.Sound) : player.Proper where
  chosen s c hp := by
    subst hp
    exact h.2
  accepted s c hp fuel e := by
    subst hp
    exact Conversation.advance_not_refused h.1 h.2.selects
  idle c hc b hb hmenu hah := by
    by_contra hw
    obtain ⟨m, hm, -⟩ := (h.matched hc).current hah (by simpa using hw)
    rw [hb] at hm
    cases hm
    cases hmenu

end Player

/-- Whatever is played, with whatever input, no selection is ever refused. -/
theorem play_never_refused (rules : Plural.Library) (fuel steps : Nat) (path start locale : Text)
    (combine : Bool) (content : FileContent) (input : List Input) :
    let settings := settingsOf rules start locale combine
    let player := (openFile fuel path settings content).2
    let stages := player.stages fuel path input steps
    playOn fuel path player input steps =
        (stages.flatMap fun x => (x.1.act fuel path x.2).1, stages.findSome? fun x => x.1.code?) ∧
      (∀ script e, content.read = .ok script →
        (Conversation.beginScript fuel settings script).1 = .failed (.running e) →
        e.isRefusal = false) ∧
      ∀ x ∈ stages, x.1.Proper := by
  intro settings player stages
  refine ⟨Player.playOn_eq_stages steps, fun script e _ => ?_, fun x hx => ?_⟩
  · exact (Conversation.beginScript_undisputed fuel settings script).1.accepted e
  · exact (Player.stages_sound (Player.openFile_sound settings content) x hx).proper

example :
    run Markup.english.rules 20 (.play "p".toList "Start".toList "en".toList false)
      (fun _ => .text "title: Start\n---\n-> A\n-> B <<if false>>\n===".toList)
      [.text "2\n".toList, .text "1\n".toList] =
    ([.shown "  1. A\n", .shown "  2. B (unavailable)\n", .shown "> ",
      .reported "choose an available option between 1 and 2\n", .shown "> "], some 0) := by
  decide +kernel

end Parley.Console
