import Parley.Proofs.Requests
import Parley.Proofs.Suspension
import Parley.Proofs.Transduction
set_option autoImplicit false

/-!
Which selections a playthrough takes, told from its requests and replies alone.

A menu is pending from the reply that gives it until another beat is given, a selection is accepted or
the playthrough is started anew. A playthrough waits exactly while a menu is pending, and the number of
entries of that menu bounds the selections that it takes.
-/

namespace Parley.Play

open Body Script

structure Exchange where
  request : Request
  reply : Reply

namespace Exchange

def Accepts (x : Exchange) : Prop :=
  ∃ fuel index, x.request = .advance fuel (some index) ∧
    ∀ e, x.reply = .answered (.failed e) → e.isRefusal = false

structure Passes (x : Exchange) : Prop where
  noStart : ∀ title, x.request ≠ .start title
  noBeat : ∀ b, x.reply ≠ .answered (.beat b)
  noSelection : ¬ x.Accepts

end Exchange

/-- The last beat that was given since the last start is a menu, and no selection was accepted since. -/
def Pending (log : List Exchange) (m : Menu) : Prop :=
  ∃ before call since, log = before ++ call :: since ∧
    call.reply = .answered (.beat (.menu m)) ∧ ∀ x ∈ since, x.Passes

@[simp] theorem not_pending_nil (m : Menu) : ¬ Pending [] m := by
  rintro ⟨before, call, since, hlog, -, -⟩
  simp at hlog

theorem pending_snoc {log : List Exchange} {x : Exchange} {m : Menu} :
    Pending (log ++ [x]) m ↔
      x.reply = .answered (.beat (.menu m)) ∨ Pending log m ∧ x.Passes := by
  constructor
  · rintro ⟨before, call, since, hlog, hcall, hsince⟩
    rcases List.eq_nil_or_concat since with rfl | ⟨since, y, rfl⟩
    · obtain ⟨-, hx⟩ := List.append_inj' hlog rfl
      cases hx
      exact .inl hcall
    · rw [List.concat_eq_append, ← List.cons_append, ← List.append_assoc] at hlog
      obtain ⟨hbefore, hx⟩ := List.append_inj' hlog rfl
      cases hx
      exact .inr ⟨⟨before, call, since, hbefore, hcall, fun y hy => hsince y (by simp [hy])⟩,
        hsince x (by simp)⟩
  · rintro (hx | ⟨⟨before, call, since, rfl, hcall, hsince⟩, hx⟩)
    · exact ⟨log, x, [], rfl, hx, by simp⟩
    · refine ⟨before, call, since ++ [x], by simp, hcall, ?_⟩
      intro y hy
      rcases List.mem_append.1 hy with hy | hy
      · exact hsince y hy
      · rwa [List.mem_singleton.1 hy]

theorem length_of_mapM_eq_ok {ε α β : Type} {f : α → Except ε β} {xs : List α} {ys : List β}
    (h : xs.mapM f = .ok ys) : ys.length = xs.length := by
  induction xs generalizing ys with
  | nil =>
    cases h
    rfl
  | cons x xs ih =>
    rw [List.mapM_cons] at h
    obtain ⟨y, -, h⟩ := exists_of_bind_eq_ok h
    obtain ⟨ys', hys, h⟩ := exists_of_bind_eq_ok h
    cases h
    simp [ih hys]

namespace Playthrough

def awaited (p : Playthrough) : Option (List Choice) :=
  p.run.bind Run.awaiting

theorem waits_eq_awaited (p : Playthrough) : p.waits = p.awaited.isSome := by
  unfold waits awaited
  cases p.run <;> rfl

def Awaits (p : Playthrough) (count : Nat) : Prop :=
  ∃ options, p.awaited = some options ∧ options.length = count ∧ 0 < count

theorem Awaits.waits {p : Playthrough} {count : Nat} (h : p.Awaits count) : p.waits = true := by
  obtain ⟨options, ho, -, -⟩ := h
  rw [waits_eq_awaited, ho]
  rfl

theorem perform_not_menu {p q : Playthrough} {r u : Run} {s : Statement} {f : Frame}
    {below : List Frame} {m : Menu} : p.perform r s f below ≠ .ok (.beat (.menu m) q u) := by
  intro h
  cases s with
  | option o => cases h
  | line parts number hashtags =>
    obtain ⟨text, -, h⟩ := exists_of_bind_eq_ok h
    obtain ⟨y, -, h⟩ := exists_of_bind_eq_ok h
    cases h
  | branch condition body otherwise hashtags =>
    obtain ⟨arm, -, h⟩ := exists_of_bind_eq_ok h
    cases arm <;> cases h
  | assign name e number hashtags =>
    obtain ⟨q, -, h⟩ := exists_of_bind_eq_ok h
    cases h
  | command parts number hashtags =>
    obtain ⟨text, -, h⟩ := exists_of_bind_eq_ok h
    cases h
  | jump target hashtags =>
    obtain ⟨title, -, h⟩ := exists_of_bind_eq_ok h
    obtain ⟨y, -, h⟩ := exists_of_bind_eq_ok h
    cases h
  | stop hashtags => cases h

/-- The entries of a menu are the options that wait behind it, one for one. -/
theorem step_menu {p q : Playthrough} {r u : Run} {m : Menu}
    (h : p.step r = .ok (.beat (.menu m) q u)) :
    ∃ options, u.awaiting = some options ∧ options.length = m.entries.length ∧
      0 < m.entries.length := by
  unfold step at h
  cases hf : r.frames with
  | nil =>
    rw [hf] at h
    cases h
  | cons f below =>
    simp only [hf] at h
    split at h
    · rename_i hoffer
      obtain ⟨entries, he, h⟩ := exists_of_bind_eq_ok h
      have hlen := length_of_mapM_eq_ok he
      simp only [Bool.and_eq_true, Bool.not_eq_true', List.isEmpty_eq_false_iff] at hoffer
      have hpos := List.length_pos_of_ne_nil hoffer.1
      cases h
      exact ⟨f.gathered, rfl, hlen.symm, by simpa [hlen] using hpos⟩
    · cases hrest : f.rest with
      | nil =>
        rw [hrest] at h
        cases h
      | cons s rest =>
        rw [hrest] at h
        exact absurd h perform_not_menu

theorem walk_menu {fuel : Nat} {p : Playthrough} {r : Run} {m : Menu}
    (h : (walk fuel p r).1 = .beat (.menu m)) : (walk fuel p r).2.Awaits m.entries.length := by
  induction fuel generalizing p r with
  | zero => cases h
  | succ fuel ih =>
    simp only [walk] at h ⊢
    cases hs : p.step r with
    | error e => simp [hs] at h
    | ok x =>
      simp only [hs] at h
      cases x with
      | walk q u => exact ih h
      | beat b q u =>
        cases h
        exact step_menu hs
      | ended q => cases h

/-- A call that was not refused for its selection: where it leads depends on its answer. -/
structure Onward (a : Answer) (q : Playthrough) : Prop where
  menu : ∀ m, a = .beat (.menu m) → q.Awaits m.entries.length
  other : (∀ m, a ≠ .beat (.menu m)) → q.waits = false
  fault : ∀ e, a = .failed e → e.isRefusal = false

theorem walk_onward (fuel : Nat) (p : Playthrough) {r : Run} (ha : r.awaiting = none) :
    Onward (walk fuel p r).1 (walk fuel p r).2 where
  menu _ hm := walk_menu hm
  other := waits_of_behind (walk_behind fuel p r ha)
  fault _ he := (walk_suspended ha (Prod.ext he rfl)).1

theorem onward_of_not_waiting (fuel : Nat) (s : Option Nat) {p : Playthrough}
    (h : p.waits = false) : Onward (p.advance fuel s).1 (p.advance fuel s).2 := by
  cases hr : p.run with
  | none =>
    rw [advance_of_not_running hr]
    exact ⟨by simp, fun _ => h, by simp⟩
  | some r =>
    have ha : r.awaiting = none := by simpa [waits, hr] using h
    rw [advance_of_walking hr ha]
    exact walk_onward fuel p ha

/-- A call on options that wait either refuses the selection and does nothing, or takes it. -/
theorem advance_of_awaits (fuel : Nat) (s : Option Nat) {p : Playthrough} {count : Nat}
    (h : p.Awaits count) :
    (∃ e, select s count = .error e ∧ p.advance fuel s = (.failed e, p)) ∨
      (∃ index, select s count = .ok index) ∧ Onward (p.advance fuel s).1 (p.advance fuel s).2 := by
  obtain ⟨options, ho, rfl, -⟩ := h
  obtain ⟨r, hr, ha⟩ := Option.bind_eq_some_iff.1 ho
  rw [advance_of_waiting hr ha]
  cases hs : select s options.length with
  | error e => exact .inl ⟨e, rfl, rfl⟩
  | ok index =>
    exact .inr ⟨⟨index, rfl⟩, walk_onward fuel p (Run.choose_awaiting r options index)⟩

theorem select_out_of_range {index count : Nat} (h : count ≤ index) :
    select (some index) count = .error (.selectionOutOfRange index count) := by
  simp [select, Nat.not_lt.2 h]

/-- An error of the selection is reported for some index exactly if there are not that many options. -/
theorem refused_iff (fuel index : Nat) {p : Playthrough} {count : Nat} (h : p.Awaits count) :
    (∃ e, (p.advance fuel (some index)).1 = .failed e ∧ e.isRefusal = true) ↔ count ≤ index := by
  rcases advance_of_awaits fuel (some index) h with ⟨e, hs, hadv⟩ | ⟨⟨i, hs⟩, honward⟩
  · rw [hadv]
    refine ⟨fun _ => ?_, fun _ => ⟨e, rfl, select_eq_error hs⟩⟩
    by_contra hlt
    simp [select, Nat.not_le.1 hlt] at hs
  · have hlt := select_lt hs
    cases select_eq_ok hs
    constructor
    · rintro ⟨e, he, hrefusal⟩
      simp [honward.fault e he] at hrefusal
    · omega

theorem advance_refuses (fuel : Nat) {s : Option Nat} {p : Playthrough} {count : Nat}
    {e : RuntimeError} (h : p.Awaits count) (hs : select s count = .error e) :
    p.advance fuel s = (.failed e, p) := by
  rcases advance_of_awaits fuel s h with ⟨e', hs', hadv⟩ | ⟨⟨i, hs'⟩, -⟩
  · rw [hs] at hs'
    cases hs'
    exact hadv
  · simp [hs] at hs'

/-! The log of a playthrough. -/

def exchanges : List Request → Playthrough → List Exchange
  | [], _ => []
  | x :: xs, p => ⟨x, (p.serve x).1⟩ :: exchanges xs (p.serve x).2

structure Accords (log : List Exchange) (p : Playthrough) : Prop where
  awaits : ∀ m, Pending log m → p.Awaits m.entries.length
  pending : p.waits = true → ∃ m, Pending log m

namespace Accords

variable {log : List Exchange} {p q : Playthrough} {x : Exchange}

theorem passes (h : Accords log p) (hx : x.Passes) (hq : q.run = p.run) :
    Accords (log ++ [x]) q := by
  have hsame : q.awaited = p.awaited := congrArg (·.bind Run.awaiting) hq
  constructor
  · intro m hm
    rcases pending_snoc.1 hm with hm | ⟨hm, -⟩
    · exact absurd hm (hx.noBeat _)
    · obtain ⟨options, ho, hrest⟩ := h.awaits m hm
      exact ⟨options, hsame.trans ho, hrest⟩
  · intro hw
    rw [waits_eq_awaited, hsame, ← waits_eq_awaited] at hw
    obtain ⟨m, hm⟩ := h.pending hw
    exact ⟨m, pending_snoc.2 (.inr ⟨hm, hx⟩)⟩

/-- Behind a call that was not refused, only its own answer counts. -/
theorem onward {a : Answer} (h : Accords log p) (ha : x.reply = .answered a)
    (hx : p.waits = true → ¬ x.Passes) (hq : Onward a q) : Accords (log ++ [x]) q := by
  constructor
  · intro m hm
    rcases pending_snoc.1 hm with hm | ⟨hm, hpasses⟩
    · rw [ha] at hm
      cases hm
      exact hq.menu m rfl
    · exact absurd hpasses (hx (h.awaits m hm).waits)
  · intro hw
    by_cases hm : ∃ m, a = .beat (.menu m)
    · obtain ⟨m, rfl⟩ := hm
      exact ⟨m, pending_snoc.2 (.inl ha)⟩
    · have hnot := hq.other fun m hm' => hm ⟨m, hm'⟩
      simp [hnot] at hw

end Accords

theorem serve_passes {x : Request} (h : x.plays = false) (p : Playthrough) :
    Exchange.Passes ⟨x, (p.serve x).1⟩ := by
  cases x with
  | start title => cases h
  | advance fuel s => cases h
  | _ => exact ⟨by simp, by simp [serve], by simp [Exchange.Accepts]⟩

theorem serve_accords {log : List Exchange} {p : Playthrough} (h : Accords log p) (x : Request) :
    Accords (log ++ [⟨x, (p.serve x).1⟩]) (p.serve x).2 := by
  cases hplays : x.plays with
  | false => exact h.passes (serve_passes hplays p) (serve_run hplays p)
  | true =>
    cases x with
    | start title =>
      constructor
      · intro m hm
        rcases pending_snoc.1 hm with hm | ⟨-, hpasses⟩
        · cases hm
        · exact absurd rfl (hpasses.noStart title)
      · intro hw
        rw [serve, start_waits] at hw
        cases hw
    | advance fuel s =>
      cases hw : p.waits with
      | false => exact h.onward rfl (by simp [hw]) (onward_of_not_waiting fuel s hw)
      | true =>
        obtain ⟨m, hm⟩ := h.pending hw
        have hawaits := h.awaits m hm
        rcases advance_of_awaits fuel s hawaits with ⟨e, hs, hadv⟩ | ⟨⟨i, hs⟩, honward⟩
        · refine h.passes ⟨by simp, by simp [serve, hadv], ?_⟩ (by simp [serve, hadv])
          -- A refusal is no acceptance.
          rintro ⟨fuel', i, -, hnot⟩
          have := hnot e (by simp [serve, hadv])
          simp [select_eq_error hs] at this
        · refine h.onward rfl (fun _ hpasses => ?_) honward
          cases select_eq_ok hs
          refine hpasses.noSelection ⟨fuel, i, rfl, ?_⟩
          intro e he
          simp only [serve, Reply.answered.injEq] at he
          exact honward.fault e he
    | _ => cases hplays

theorem after_accords {log : List Exchange} {p : Playthrough} (h : Accords log p)
    (requests : List Request) : Accords (log ++ p.exchanges requests) (p.after requests) := by
  induction requests generalizing log p with
  | nil => simpa [exchanges, after] using h
  | cons x xs ih => simpa [exchanges, after] using ih (serve_accords h x)

theorem empty_accords : Accords [] empty where
  awaits m hm := absurd hm (not_pending_nil m)
  pending hw := by cases hw

theorem not_running_after {p : Playthrough} {requests : List Request} (h : p.run = none)
    (hstart : ∀ reply ∈ p.replies requests, reply ≠ .started (.ok ())) :
    (p.after requests).run = none := by
  induction requests generalizing p with
  | nil => exact h
  | cons x xs ih =>
    simp only [replies, List.forall_mem_cons] at hstart
    refine ih ?_ hstart.2
    cases hplays : x.plays with
    | false => rw [serve_run hplays, h]
    | true =>
      cases x with
      | start title =>
        rcases start_cases p title with ⟨e, -, hs⟩ | ⟨node, statements, declared, -, -, hs⟩
        · simp [serve, hs]
        · simp [serve, hs] at hstart
      | advance fuel s => simp [serve, advance_of_not_running h, h]
      | _ => cases hplays

/-- Some options wait: a call without a selection, or with one that there is no option for, is told so. -/
structure Due (p : Playthrough) (count : Nat) : Prop where
  nonempty : 1 ≤ count
  missing : ∀ fuel, (p.advance fuel none).1 = .failed .noSelection
  refused : ∀ fuel index,
    (∃ e, (p.advance fuel (some index)).1 = .failed e ∧ e.isRefusal = true) ↔ count ≤ index
  outOfRange : ∀ fuel index, count ≤ index →
    (p.advance fuel (some index)).1 = .failed (.selectionOutOfRange index count)

/-- No selection is refused, and none makes a difference. -/
structure Heedless (p : Playthrough) : Prop where
  accepted : ∀ fuel s e, (p.advance fuel s).1 = .failed e → e.isRefusal = false
  same : ∀ fuel s t, p.advance fuel s = p.advance fuel t

/-- Whatever is requested, there is nothing more to come until a start succeeds. -/
def Over (p : Playthrough) : Prop :=
  ∀ later, (∀ reply ∈ p.replies later, reply ≠ .started (.ok ())) →
    (p.after later).isRunning = false ∧ ∀ fuel s, ((p.after later).advance fuel s).1 = .ended

theorem Awaits.due {p : Playthrough} {count : Nat} (h : p.Awaits count) : p.Due count where
  nonempty := by
    obtain ⟨options, -, -, hpos⟩ := h
    exact hpos
  missing fuel := by rw [advance_refuses fuel h rfl]
  refused fuel index := refused_iff fuel index h
  outOfRange fuel index hle := by rw [advance_refuses fuel h (select_out_of_range hle)]

theorem heedless_of_not_waiting {p : Playthrough} (h : p.waits = false) : p.Heedless where
  accepted fuel s := (onward_of_not_waiting fuel s h).fault
  same := advance_of_not_waiting h

theorem over_of_not_running {p : Playthrough} (h : p.run = none) : p.Over := by
  intro later hstart
  have hrun := not_running_after h hstart
  refine ⟨by simp [isRunning, hrun], fun fuel s => ?_⟩
  rw [advance_of_not_running hrun]

/-- Behind any requests, options wait exactly while a menu is pending, and its entries are what can be
selected. A playthrough that does not wait takes no notice of selections, and one that has ended stays
so until it is started again. -/
theorem selection_protocol (requests : List Request) :
    ((empty.after requests).waits = true ↔ ∃ m, Pending (empty.exchanges requests) m) ∧
    (∀ m, Pending (empty.exchanges requests) m → (empty.after requests).Due m.entries.length) ∧
    ((empty.after requests).waits = false → (empty.after requests).Heedless) ∧
    ∀ fuel s, ((empty.after requests).advance fuel s).1 = .ended →
      ((empty.after requests).advance fuel s).2.Over := by
  have haccords : Accords (empty.exchanges requests) (empty.after requests) :=
    after_accords empty_accords requests
  refine ⟨⟨haccords.pending, ?_⟩, ?_, heedless_of_not_waiting, ?_⟩
  · rintro ⟨m, hm⟩
    exact (haccords.awaits m hm).waits
  · intro m hm
    exact (haccords.awaits m hm).due
  · intro fuel s hended
    exact over_of_not_running (run_of_advance_ended hended)

def undecided : List Request :=
  [.load [⟨"A".toList, [], "-> Yes\n-> No".toList⟩], .start "A".toList, .advance 5 none,
    .advance 5 (some 7)]

theorem selection_protocol_undecided :
    (∃ m, Pending (empty.exchanges undecided) m ∧ (empty.after undecided).Due m.entries.length) ∧
    ((empty.after undecided).advance 5 (some 1)).2.Over ∧
    (empty.after (undecided ++ [.advance 0 (some 0)])).Heedless := by
  have hwaits : (empty.after undecided).waits = true := by decide +kernel
  have hended : ((empty.after undecided).advance 5 (some 1)).1 = .ended := by decide +kernel
  have hchosen : (empty.after (undecided ++ [.advance 0 (some 0)])).waits = false := by
    decide +kernel
  obtain ⟨m, hm⟩ := (selection_protocol undecided).1.1 hwaits
  exact ⟨⟨m, hm, (selection_protocol undecided).2.1 m hm⟩,
    (selection_protocol undecided).2.2.2 5 (some 1) hended,
    (selection_protocol _).2.2.1 hchosen⟩

end Playthrough

end Parley.Play
