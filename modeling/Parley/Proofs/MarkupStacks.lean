import Mathlib.Data.List.DropRight
import Mathlib.Data.List.Sort
import Parley.Proofs.MarkupExtent
set_option autoImplicit false

/-!
Pairs of tags, found with a stack for each name.

The stacks know nothing of each other, and only the numbers of the openings tell in which order all of them
were opened. The one list of open marks is the stacks merged by these numbers, so both ways of pairing give
the same marks or fail at the same event.
-/

namespace Parley

namespace Table

variable {α : Type} {t : Table α}

theorem mem_of_get? {name : Text} {a : α} (h : t.get? name = some a) : (name, a) ∈ t := by
  induction t with
  | nil => simp [get?] at h
  | cons e t ih =>
    by_cases he : e.1 = name
    · simp only [get?, he, if_true, Option.some.injEq] at h
      simp [← he, ← h]
    · simp only [get?, he, if_false] at h
      exact List.mem_cons_of_mem _ (ih h)

theorem get?_of_mem (hnames : (t.map Prod.fst).Nodup) {name : Text} {a : α} (h : (name, a) ∈ t) :
    t.get? name = some a := by
  induction t with
  | nil => simp at h
  | cons e t ih =>
    rw [List.map_cons, List.nodup_cons] at hnames
    rcases List.mem_cons.1 h with rfl | h
    · simp [get?]
    · have hmem : name ∈ t.map Prod.fst := List.mem_map.2 ⟨_, h, rfl⟩
      have hne : e.1 ≠ name := fun he => hnames.1 (he ▸ hmem)
      simp only [get?, hne, if_false]
      exact ih hnames.2 h

theorem mem_names_put {name other : Text} {a : α} (h : other ∈ (t.put name a).map Prod.fst) :
    other = name ∨ other ∈ t.map Prod.fst := by
  induction t with
  | nil => simpa [put] using h
  | cons e t ih =>
    by_cases he : e.1 = name
    · simp only [put, he, if_true, List.map_cons, List.mem_cons] at h ⊢
      exact .inr h
    · simp only [put, he, if_false, List.map_cons, List.mem_cons] at h ⊢
      rcases h with h | h
      · exact .inr (.inl h)
      · exact (ih h).imp_right .inr

theorem nodup_put (h : (t.map Prod.fst).Nodup) (name : Text) (a : α) :
    ((t.put name a).map Prod.fst).Nodup := by
  induction t with
  | nil => simp [put]
  | cons e t ih =>
    rw [List.map_cons, List.nodup_cons] at h
    by_cases he : e.1 = name
    · simpa [put, he] using h
    · simp only [put, he, if_false, List.map_cons, List.nodup_cons]
      refine ⟨fun hmem => ?_, ih h.2⟩
      rcases mem_names_put hmem with hsame | hmem
      · exact he hsame
      · exact h.1 hmem

end Table

namespace Markup

/-! Stacks -/

structure Opening where
  number : Nat
  mark : Mark
  deriving DecidableEq, Repr

/-- A mark that is given, and the number of the opening that it comes from. Self-closing tags open nothing. -/
structure Issue where
  number : Option Nat
  mark : Mark
  deriving DecidableEq, Repr

def Opening.closeAt (o : Opening) (position : Nat) : Issue :=
  ⟨some o.number, o.mark.closeAt position⟩

/-- A stack of openings for each name, newest first, and how many openings there have been. -/
structure Stacks where
  opened : Nat
  byName : Table (List Opening)
  deriving DecidableEq, Repr

namespace Stacks

def empty : Stacks :=
  ⟨0, []⟩

def stack (s : Stacks) (name : Text) : List Opening :=
  (s.byName.get? name).getD []

def setStack (s : Stacks) (name : Text) (openings : List Opening) : Stacks :=
  { s with byName := s.byName.put name openings }

def push (s : Stacks) (m : Mark) : Stacks :=
  { s.setStack m.name (⟨s.opened, m⟩ :: s.stack m.name) with opened := s.opened + 1 }

/-- All openings that are on a stack, in reverse order of opening. -/
def remaining (s : Stacks) : List Opening :=
  (s.byName.flatMap Prod.snd).insertionSort fun a b => b.number ≤ a.number

def step (s : Stacks) (e : Event) : Except MarkupError (Stacks × List Issue) :=
  match e.tag with
  | .opening _ _ => .ok (s.push e.openMark, [])
  | .selfClosing _ _ => .ok (s, [⟨none, e.openMark⟩])
  | .closing name =>
    match s.stack name with
    | [] => .error ⟨.unmatchedClose name, e.origin⟩
    | o :: rest => .ok (s.setStack name rest, [o.closeAt e.position])
  | .closeAll => .ok ({ s with byName := [] }, s.remaining.map (·.closeAt e.position))

def run : Stacks → List Event → Except MarkupError (Stacks × List Issue)
  | s, [] => .ok (s, [])
  | s, e :: events => do
    let (s, issued) ← s.step e
    (run s events).map fun r => (r.1, issued ++ r.2)

theorem stack_setStack (s : Stacks) (name other : Text) (openings : List Opening) :
    (s.setStack name openings).stack other = if name = other then openings else s.stack other := by
  simp only [stack, setStack, Table.get?_put]
  split <;> rfl

variable {s t : Stacks} {e : Event} {issued : List Issue} {fault : MarkupError}

theorem step_eq_error_iff :
    s.step e = .error fault ↔
      ∃ name, e.tag = .closing name ∧ s.stack name = [] ∧ fault = ⟨.unmatchedClose name, e.origin⟩ := by
  unfold step
  cases e.tag with
  | opening name properties => simp
  | selfClosing name properties => simp
  | closing name =>
    cases hstack : s.stack name with
    | nil =>
      simp only [hstack]
      constructor
      · intro h
        cases h
        exact ⟨name, rfl, hstack, rfl⟩
      · rintro ⟨other, hother, -, rfl⟩
        cases hother
        rfl
    | cons o rest => simp [hstack]
  | closeAll => simp

theorem run_cons_of_error (h : s.step e = .error fault) (events : List Event) :
    s.run (e :: events) = .error fault := by
  simp [run, h, bind, Except.bind]

theorem run_cons_of_ok (h : s.step e = .ok (t, issued)) (events : List Event) :
    s.run (e :: events) = (t.run events).map fun r => (r.1, issued ++ r.2) := by
  simp [run, h, bind, Except.bind]

theorem run_append_of_ok {earlier : List Event} (h : s.run earlier = .ok (t, issued))
    (later : List Event) :
    s.run (earlier ++ later) = (t.run later).map fun r => (r.1, issued ++ r.2) := by
  induction earlier generalizing s issued with
  | nil =>
    cases h
    cases hrun : t.run later <;> simp [hrun, Except.map]
  | cons e earlier ih =>
    cases hstep : s.step e with
    | error other =>
      rw [run_cons_of_error hstep] at h
      cases h
    | ok r =>
      rw [run_cons_of_ok hstep] at h
      obtain ⟨⟨u, more⟩, hmore, hr⟩ := exists_of_map_eq_ok h
      cases hr
      rw [List.cons_append, run_cons_of_ok hstep, ih hmore]
      cases u.run later <;> simp [Except.map]

theorem run_eq_error_iff {events : List Event} :
    s.run events = .error fault ↔ ∃ earlier e later t issued, events = earlier ++ e :: later ∧
      s.run earlier = .ok (t, issued) ∧ t.step e = .error fault := by
  constructor
  · intro h
    induction events generalizing s with
    | nil => cases h
    | cons e events ih =>
      cases hstep : s.step e with
      | error other =>
        rw [run_cons_of_error hstep] at h
        cases h
        exact ⟨[], e, events, s, [], rfl, rfl, hstep⟩
      | ok r =>
        rw [run_cons_of_ok hstep] at h
        cases hrest : r.1.run events with
        | ok q => simp [hrest, Except.map] at h
        | error other =>
          rw [hrest] at h
          cases h
          obtain ⟨earlier, f, later, u, more, rfl, hrun, hfail⟩ := ih hrest
          refine ⟨e :: earlier, f, later, u, r.2 ++ more, rfl, ?_, hfail⟩
          rw [run_cons_of_ok hstep, hrun]
          rfl
  · rintro ⟨earlier, e, later, t, issued, rfl, hrun, hfail⟩
    rw [run_append_of_ok hrun, run_cons_of_error hfail]
    rfl

end Stacks

/-! Stacks merged into one list -/

/-- The stacks merged by the numbers of their openings into one list, newest first. -/
structure Merges (pending : List Opening) (s : Stacks) : Prop where
  names : (s.byName.map Prod.fst).Nodup
  stack_eq : ∀ name, s.stack name = pending.filter fun o => o.mark.name == name
  descending : pending.Pairwise fun a b => b.number < a.number
  below : ∀ o ∈ pending, o.number < s.opened

section Merging

variable {pending : List Opening} {s t : Stacks} {e : Event} {issued : List Issue}

theorem merges_clear (s : Stacks) : Merges [] { s with byName := [] } where
  names := List.nodup_nil
  stack_eq := fun _ => rfl
  descending := List.Pairwise.nil
  below := by simp

theorem Merges.mem_stack_iff (h : Merges pending s) {o : Opening} {name : Text} :
    o ∈ s.stack name ↔ o ∈ pending ∧ o.mark.name = name := by
  rw [h.stack_eq, List.mem_filter, beq_iff_eq]

theorem Merges.stack_of_mem (h : Merges pending s) {entry : Text × List Opening}
    (hentry : entry ∈ s.byName) : s.stack entry.1 = entry.2 := by
  rw [Stacks.stack, Table.get?_of_mem h.names hentry, Option.getD_some]

theorem Merges.nodup (h : Merges pending s) : pending.Nodup := by
  refine h.descending.imp ?_
  rintro a b hlt rfl
  exact Nat.lt_irrefl _ hlt

theorem Merges.mem_flatMap_iff (h : Merges pending s) {o : Opening} :
    o ∈ s.byName.flatMap Prod.snd ↔ o ∈ pending := by
  rw [List.mem_flatMap]
  constructor
  · rintro ⟨entry, hentry, ho⟩
    rw [← h.stack_of_mem hentry] at ho
    exact (h.mem_stack_iff.1 ho).1
  · intro ho
    have hstack : o ∈ s.stack o.mark.name := h.mem_stack_iff.2 ⟨ho, rfl⟩
    rw [Stacks.stack] at hstack
    cases hget : s.byName.get? o.mark.name with
    | none => simp [hget] at hstack
    | some openings => exact ⟨_, Table.mem_of_get? hget, by simpa [hget] using hstack⟩

theorem Merges.perm (h : Merges pending s) : (s.byName.flatMap Prod.snd).Perm pending := by
  refine (List.perm_ext_iff_of_nodup ?_ h.nodup).2 fun o => h.mem_flatMap_iff
  rw [List.nodup_flatMap]
  constructor
  · intro entry hentry
    rw [← h.stack_of_mem hentry, h.stack_eq]
    exact h.nodup.filter _
  · -- Openings on the stacks of two names have different names.
    refine (List.pairwise_map.1 h.names).imp_of_mem ?_
    intro entry other hentry hother hne o ho ho'
    rw [← h.stack_of_mem hentry] at ho
    rw [← h.stack_of_mem hother] at ho'
    exact hne ((h.mem_stack_iff.1 ho).2.symm.trans (h.mem_stack_iff.1 ho').2)

theorem Merges.remaining_eq (h : Merges pending s) : s.remaining = pending := by
  have htotal : Std.Total fun a b : Opening => b.number ≤ a.number := ⟨fun a b => Nat.le_total ..⟩
  have htrans : IsTrans Opening fun a b => b.number ≤ a.number := ⟨fun a b c hab hbc => Nat.le_trans hbc hab⟩
  have hsorted : s.remaining.Pairwise fun a b => b.number ≤ a.number := List.pairwise_insertionSort ..
  have hperm : s.remaining.Perm pending := (List.perm_insertionSort ..).trans h.perm
  -- Numbers are never used twice, so there is only one order of the openings that is sorted by them.
  have hnumbers : (pending.map Opening.number).Nodup := by
    rw [List.Nodup, List.pairwise_map]
    exact h.descending.imp fun hlt => (Nat.ne_of_lt hlt).symm
  refine hperm.eq_of_pairwise ?_ hsorted (h.descending.imp Nat.le_of_lt)
  intro a b ha hb hle hge
  exact List.inj_on_of_nodup_map hnumbers (hperm.subset ha) hb (Nat.le_antisymm hge hle)

theorem Merges.push (h : Merges pending s) (m : Mark) : Merges (⟨s.opened, m⟩ :: pending) (s.push m) where
  names := Table.nodup_put h.names ..
  stack_eq := by
    intro name
    have hstack : (s.push m).stack name = (s.setStack m.name (⟨s.opened, m⟩ :: s.stack m.name)).stack name :=
      rfl
    rw [hstack, Stacks.stack_setStack, List.filter_cons]
    by_cases hname : m.name = name
    · simp [hname, h.stack_eq]
    · simp [hname, h.stack_eq]
  descending := List.pairwise_cons.2 ⟨h.below, h.descending⟩
  below := by
    rw [List.forall_mem_cons]
    exact ⟨Nat.lt_succ_self _, fun o ho => Nat.lt_succ_of_lt (h.below o ho)⟩

/-- Popping the stack of a name takes the newest opening of this name out of the list. -/
theorem Merges.pop (h : Merges pending s) {name : Text} {o : Opening} {rest : List Opening}
    (hstack : s.stack name = o :: rest) :
    ∃ front back, pending = front ++ o :: back ∧ o.mark.name = name ∧
      (∀ x ∈ front, x.mark.name ≠ name) ∧ Merges (front ++ back) (s.setStack name rest) := by
  have hfilter := hstack
  rw [h.stack_eq, List.filter_eq_cons_iff] at hfilter
  obtain ⟨front, back, hpending, hfront, hname, hback⟩ := hfilter
  have hfront : ∀ x ∈ front, x.mark.name ≠ name := by simpa using hfront
  have hname : o.mark.name = name := by simpa using hname
  have hsublist : (front ++ back).Sublist pending := by
    rw [hpending]
    exact List.Sublist.append_left (List.sublist_cons_self o back) front
  refine ⟨front, back, hpending, hname, hfront, ?_, ?_, ?_, ?_⟩
  · exact Table.nodup_put h.names ..
  · intro other
    rw [Stacks.stack_setStack, List.filter_append]
    by_cases hother : name = other
    · subst hother
      have hnone : (front.filter fun x => x.mark.name == name) = [] := by
        simpa using hfront
      rw [if_pos rfl, hnone, List.nil_append, hback]
    · -- The other stacks do not see that the opening is gone from the middle of the list.
      have hskip : (o.mark.name == other) = false := by
        rw [hname]
        simpa using hother
      rw [if_neg hother, h.stack_eq, hpending, List.filter_append, List.filter_cons, hskip]
      rfl
  · exact h.descending.sublist hsublist
  · exact fun x hx => h.below x (hsublist.subset hx)

inductive Stepped (e : Event) (opened : Nat) : List Opening → Nat → List Opening → List Issue → Prop
  | opens {pending : List Opening} {name : Text} {properties : Properties}
    (htag : e.tag = .opening name properties) :
    Stepped e opened pending (opened + 1) (⟨opened, e.openMark⟩ :: pending) []
  | closesItself {pending : List Opening} {name : Text} {properties : Properties}
    (htag : e.tag = .selfClosing name properties) :
    Stepped e opened pending opened pending [⟨none, e.openMark⟩]
  | closes {front back : List Opening} {o : Opening} (htag : e.tag = .closing o.mark.name)
    (hfront : ∀ x ∈ front, x.mark.name ≠ o.mark.name) :
    Stepped e opened (front ++ o :: back) opened (front ++ back) [o.closeAt e.position]
  | closesAll {pending : List Opening} (htag : e.tag = .closeAll) :
    Stepped e opened pending opened [] (pending.map (·.closeAt e.position))

theorem Merges.step (h : Merges pending s) (hstep : s.step e = .ok (t, issued)) :
    ∃ after, Merges after t ∧ Stepped e s.opened pending t.opened after issued := by
  unfold Stacks.step at hstep
  cases htag : e.tag with
  | opening name properties =>
    simp only [htag, Except.ok.injEq, Prod.mk.injEq] at hstep
    obtain ⟨rfl, rfl⟩ := hstep
    exact ⟨_, h.push e.openMark, .opens htag⟩
  | selfClosing name properties =>
    simp only [htag, Except.ok.injEq, Prod.mk.injEq] at hstep
    obtain ⟨rfl, rfl⟩ := hstep
    exact ⟨_, h, .closesItself htag⟩
  | closing name =>
    cases hstack : s.stack name with
    | nil => simp [htag, hstack] at hstep
    | cons o rest =>
      simp only [htag, hstack, Except.ok.injEq, Prod.mk.injEq] at hstep
      obtain ⟨rfl, rfl⟩ := hstep
      obtain ⟨front, back, rfl, rfl, hfront, hmerges⟩ := h.pop hstack
      exact ⟨_, hmerges, .closes htag hfront⟩
  | closeAll =>
    simp only [htag, Except.ok.injEq, Prod.mk.injEq] at hstep
    obtain ⟨rfl, rfl⟩ := hstep
    rw [h.remaining_eq]
    exact ⟨_, merges_clear s, .closesAll htag⟩

end Merging

/-! Pairing -/

section Pairing

variable {pending after : List Opening} {s : Stacks} {e : Event} {issued : List Issue} {opened next : Nat}

theorem mark_eq_openMark {name : Text} {properties : Properties}
    (h : e.tag = .opening name properties ∨ e.tag = .selfClosing name properties) :
    (⟨name, e.position, 0, properties⟩ : Mark) = e.openMark := by
  rcases h with h | h <;> simp [Event.openMark, h, Tag.name, Tag.properties]

theorem find?_newest {front back : List Opening} {o : Opening}
    (h : ∀ x ∈ front, x.mark.name ≠ o.mark.name) :
    ((front ++ o :: back).map Opening.mark).find? (fun m => m.name == o.mark.name) = some o.mark := by
  rw [List.map_append, List.map_cons, List.find?_append, List.find?_eq_none.2]
  · simp
  · rw [List.forall_mem_map]
    simpa using h

theorem eraseP_newest {front back : List Opening} {o : Opening}
    (h : ∀ x ∈ front, x.mark.name ≠ o.mark.name) :
    ((front ++ o :: back).map Opening.mark).eraseP (fun m => m.name == o.mark.name) =
      (front ++ back).map Opening.mark := by
  rw [List.map_append, List.map_cons, List.eraseP_append_right, List.eraseP_cons_of_pos (by simp),
    List.map_append]
  rw [List.forall_mem_map]
  simpa using h

theorem Stepped.pairFrom_eq (h : Stepped e opened pending next after issued) (events : List Event) :
    pairFrom (pending.map Opening.mark) (e :: events) =
      (pairFrom (after.map Opening.mark) events).map (issued.map Issue.mark ++ ·) := by
  cases h with
  | opens htag =>
    simp only [pairFrom, htag, mark_eq_openMark (.inl htag)]
    exact (congrFun Except.map_id _).symm
  | closesItself htag =>
    simp only [pairFrom, htag, mark_eq_openMark (.inr htag)]
    rfl
  | closes htag hfront =>
    simp only [pairFrom, htag, find?_newest hfront, eraseP_newest hfront]
    rfl
  | closesAll htag =>
    simp only [pairFrom, htag, List.map_map, List.map_nil]
    rfl

theorem pairFrom_of_error {fault : MarkupError} (h : Merges pending s) (hstep : s.step e = .error fault)
    (events : List Event) : pairFrom (pending.map Opening.mark) (e :: events) = .error fault := by
  obtain ⟨name, htag, hstack, rfl⟩ := Stacks.step_eq_error_iff.1 hstep
  have hnone : (pending.map Opening.mark).find? (fun m => m.name == name) = none := by
    rw [h.stack_eq, List.filter_eq_nil_iff] at hstack
    rw [List.find?_eq_none, List.forall_mem_map]
    exact hstack
  simp only [pairFrom, htag, hnone]

theorem pairFrom_eq_run (h : Merges pending s) (events : List Event) :
    pairFrom (pending.map Opening.mark) events = (s.run events).map fun r => r.2.map Issue.mark := by
  induction events generalizing pending s with
  | nil => rfl
  | cons e events ih =>
    cases hstep : s.step e with
    | error fault => rw [pairFrom_of_error h hstep, Stacks.run_cons_of_error hstep, Except.map]
    | ok r =>
      obtain ⟨after, hafter, hstepped⟩ := h.step hstep
      rw [hstepped.pairFrom_eq, ih hafter, Stacks.run_cons_of_ok hstep]
      cases r.1.run events <;> simp [Except.map]

end Pairing

/-! Tags since the last that closed all -/

namespace Tag

def isOpening : Tag → Bool
  | .opening _ _ => true
  | _ => false

def isCloseAll : Tag → Bool
  | .closeAll => true
  | _ => false

def opens (name : Text) : Tag → Bool
  | .opening other _ => other == name
  | _ => false

def closes (name : Text) : Tag → Bool
  | .closing other => other == name
  | _ => false

end Tag

def sinceCloseAll (tags : List Tag) : List Tag :=
  tags.rtakeWhile fun tag => !tag.isCloseAll

def openedSince (name : Text) (tags : List Tag) : Nat :=
  (sinceCloseAll tags).countP (Tag.opens name)

def closedSince (name : Text) (tags : List Tag) : Nat :=
  (sinceCloseAll tags).countP (Tag.closes name)

theorem openedSince_snoc (name : Text) (tags : List Tag) (tag : Tag) :
    openedSince name (tags ++ [tag]) =
      if tag.isCloseAll then 0 else openedSince name tags + (tag.opens name).toNat := by
  rw [openedSince, sinceCloseAll, List.rtakeWhile_concat]
  cases tag.isCloseAll with
  | true => rfl
  | false => cases hopens : tag.opens name <;> simp [openedSince, sinceCloseAll, hopens]

theorem closedSince_snoc (name : Text) (tags : List Tag) (tag : Tag) :
    closedSince name (tags ++ [tag]) =
      if tag.isCloseAll then 0 else closedSince name tags + (tag.closes name).toNat := by
  rw [closedSince, sinceCloseAll, List.rtakeWhile_concat]
  cases tag.isCloseAll with
  | true => rfl
  | false => cases hcloses : tag.closes name <;> simp [closedSince, sinceCloseAll, hcloses]

/-! Accounts -/

def openMarks (events : List Event) : List Mark :=
  (events.filter fun e => e.tag.isOpening).map Event.openMark

/-- A mark comes from the opening with its number and the event that closes it, or from a self-closing
tag. -/
def Issue.ComesFrom (events : List Event) (issue : Issue) : Prop :=
  match issue.number with
  | some number => ∃ m, (openMarks events)[number]? = some m ∧
    ∃ e ∈ events, (e.tag = .closing m.name ∨ e.tag = .closeAll) ∧ issue.mark = m.closeAt e.position
  | none => ∃ e ∈ events, ∃ name properties, e.tag = .selfClosing name properties ∧
    issue.mark = e.openMark

/-- The accounts behind some events: the marks that were given, and the openings that are on the merged list.
Every opening is in one of them, once. -/
structure Ledger (before : List Event) (given : List Issue) (opened : Nat) (pending : List Opening) :
    Prop where
  opened_eq : opened = (openMarks before).length
  accounts : (given.filterMap Issue.number ++ pending.map Opening.number).Perm (List.range opened)
  marks_eq : ∀ o ∈ pending, (openMarks before)[o.number]? = some o.mark
  sources : ∀ issue ∈ given, issue.ComesFrom before
  counts : ∀ name, (pending.countP fun o => o.mark.name == name) +
    closedSince name (before.map Event.tag) = openedSince name (before.map Event.tag)

section Accounts

variable {before : List Event} {given issued : List Issue} {opened next : Nat} {e : Event}
  {pending after : List Opening} {s t : Stacks}

@[simp] theorem ledger_nil : Ledger [] [] 0 [] where
  opened_eq := rfl
  accounts := List.Perm.refl _
  marks_eq := by simp
  sources := by simp
  counts := fun _ => rfl

theorem openMarks_snoc (before : List Event) (e : Event) :
    openMarks (before ++ [e]) = openMarks before ++ if e.tag.isOpening then [e.openMark] else [] := by
  rw [openMarks, List.filter_append, List.map_append, List.filter_singleton]
  cases e.tag.isOpening <;> rfl

theorem getElem?_openMarks_snoc {number : Nat} {m : Mark} (h : (openMarks before)[number]? = some m)
    (e : Event) : (openMarks (before ++ [e]))[number]? = some m := by
  obtain ⟨hlt, -⟩ := List.getElem?_eq_some_iff.1 h
  rw [openMarks_snoc, List.getElem?_append_left hlt, h]

theorem Issue.ComesFrom.snoc {issue : Issue} (h : issue.ComesFrom before) (e : Event) :
    issue.ComesFrom (before ++ [e]) := by
  unfold ComesFrom at h ⊢
  split at h
  · obtain ⟨m, hm, f, hf, hrest⟩ := h
    exact ⟨m, getElem?_openMarks_snoc hm e, f, List.mem_append_left _ hf, hrest⟩
  · obtain ⟨f, hf, hrest⟩ := h
    exact ⟨f, List.mem_append_left _ hf, hrest⟩

theorem Stepped.opened_eq (h : Stepped e opened pending next after issued)
    (hopened : opened = (openMarks before).length) : next = (openMarks (before ++ [e])).length := by
  rw [openMarks_snoc, List.length_append, ← hopened]
  cases h with
  | opens htag | closesItself htag | closes htag _ | closesAll htag => simp [htag, Tag.isOpening]

theorem Stepped.accounts (h : Stepped e opened pending next after issued)
    (haccounts : (given.filterMap Issue.number ++ pending.map Opening.number).Perm (List.range opened)) :
    ((given ++ issued).filterMap Issue.number ++ after.map Opening.number).Perm (List.range next) := by
  rw [List.filterMap_append, List.append_assoc]
  cases h with
  | opens htag =>
    rw [List.range_succ]
    exact (List.perm_middle.trans (List.Perm.cons _ haccounts)).trans
      (List.perm_append_singleton _ _).symm
  | closesItself htag => exact haccounts
  | @closes front back o htag hfront =>
    refine List.Perm.trans (List.Perm.append_left _ ?_) haccounts
    simpa [Opening.closeAt] using List.perm_middle.symm
  | closesAll htag =>
    have hnumbers : (pending.map (·.closeAt e.position)).filterMap Issue.number =
        pending.map Opening.number := by
      rw [List.filterMap_map]
      exact congrFun List.filterMap_eq_map pending
    rwa [hnumbers, List.map_nil, List.append_nil]

theorem Stepped.marks_eq (h : Stepped e opened pending next after issued)
    (hopened : opened = (openMarks before).length)
    (hmarks : ∀ o ∈ pending, (openMarks before)[o.number]? = some o.mark) :
    ∀ o ∈ after, (openMarks (before ++ [e]))[o.number]? = some o.mark := by
  have hkept : ∀ o ∈ pending, (openMarks (before ++ [e]))[o.number]? = some o.mark :=
    fun o ho => getElem?_openMarks_snoc (hmarks o ho) e
  cases h with
  | opens htag =>
    rw [List.forall_mem_cons]
    refine ⟨?_, hkept⟩
    rw [openMarks_snoc, hopened]
    simp [htag, Tag.isOpening]
  | closesItself htag => exact hkept
  | closes htag hfront =>
    intro o ho
    apply hkept
    rw [List.mem_append] at ho ⊢
    exact ho.imp_right (List.mem_cons_of_mem _)
  | closesAll htag => simp

theorem Stepped.sources (h : Stepped e opened pending next after issued)
    (hmarks : ∀ o ∈ pending, (openMarks before)[o.number]? = some o.mark) :
    ∀ issue ∈ issued, issue.ComesFrom (before ++ [e]) := by
  have hlast : e ∈ before ++ [e] := by simp
  have hclosed : ∀ o ∈ pending, (e.tag = .closing o.mark.name ∨ e.tag = .closeAll) →
      (o.closeAt e.position).ComesFrom (before ++ [e]) := fun o ho htag =>
    ⟨o.mark, getElem?_openMarks_snoc (hmarks o ho) e, e, hlast, htag, rfl⟩
  cases h with
  | opens htag => simp
  | closesItself htag =>
    rw [List.forall_mem_singleton]
    exact ⟨e, hlast, _, _, htag, rfl⟩
  | @closes front back o htag hfront =>
    rw [List.forall_mem_singleton]
    exact hclosed o (by simp) (.inl htag)
  | closesAll htag =>
    rw [List.forall_mem_map]
    exact fun o ho => hclosed o ho (.inr htag)

theorem Stepped.counts (h : Stepped e opened pending next after issued) {tags : List Tag} {name : Text}
    (hcounts : (pending.countP fun o => o.mark.name == name) + closedSince name tags =
      openedSince name tags) :
    (after.countP fun o => o.mark.name == name) + closedSince name (tags ++ [e.tag]) =
      openedSince name (tags ++ [e.tag]) := by
  rw [openedSince_snoc, closedSince_snoc]
  cases h with
  | @opens _ other properties htag =>
    have hname : e.openMark.name = other := by simp [Event.openMark, htag, Tag.name]
    rw [htag, List.countP_cons, hname]
    simp only [Tag.isCloseAll, Tag.opens, Tag.closes]
    cases other == name <;> simp <;> omega
  | closesItself htag =>
    rw [htag]
    exact hcounts
  | @closes front back o htag hfront =>
    rw [List.countP_append, List.countP_cons] at hcounts
    rw [htag, List.countP_append]
    simp only [Tag.isCloseAll, Tag.opens, Tag.closes]
    cases hname : o.mark.name == name <;> simp [hname] at hcounts ⊢ <;> omega
  | closesAll htag =>
    rw [htag]
    rfl

theorem Ledger.step (h : Ledger before given opened pending)
    (hstep : Stepped e opened pending next after issued) :
    Ledger (before ++ [e]) (given ++ issued) next after where
  opened_eq := hstep.opened_eq h.opened_eq
  accounts := hstep.accounts h.accounts
  marks_eq := hstep.marks_eq h.opened_eq h.marks_eq
  sources := List.forall_mem_append.2
    ⟨fun issue hissue => (h.sources issue hissue).snoc e, hstep.sources h.marks_eq⟩
  counts := by
    intro name
    rw [List.map_append]
    exact hstep.counts (h.counts name)

theorem Ledger.run (h : Ledger before given s.opened pending) (hmerges : Merges pending s)
    {events : List Event} (hrun : s.run events = .ok (t, issued)) :
    ∃ after, Merges after t ∧ Ledger (before ++ events) (given ++ issued) t.opened after := by
  induction events generalizing before given pending s issued with
  | nil =>
    cases hrun
    exact ⟨pending, hmerges, by simpa using h⟩
  | cons e events ih =>
    cases hstep : s.step e with
    | error fault =>
      rw [Stacks.run_cons_of_error hstep] at hrun
      cases hrun
    | ok r =>
      rw [Stacks.run_cons_of_ok hstep] at hrun
      obtain ⟨⟨u, more⟩, hmore, hr⟩ := exists_of_map_eq_ok hrun
      cases hr
      obtain ⟨after, hafter, hstepped⟩ := hmerges.step hstep
      obtain ⟨last, hlast, hledger⟩ := ih (h.step hstepped) hafter hmore
      exact ⟨last, hlast, by simpa using hledger⟩

/-- A stack is empty just if its name has been closed as often as opened since all was closed. -/
theorem Ledger.stack_eq_nil_iff (h : Ledger before given opened pending) (hmerges : Merges pending s)
    (name : Text) : s.stack name = [] ↔
      closedSince name (before.map Event.tag) = openedSince name (before.map Event.tag) := by
  have hcounts := h.counts name
  rw [← List.length_eq_zero_iff, hmerges.stack_eq, ← List.countP_eq_length_filter]
  omega

theorem Ledger.of_run {events : List Event} (hrun : Stacks.empty.run events = .ok (s, issued)) :
    ∃ pending, Merges pending s ∧ Ledger events issued s.opened pending := by
  have hstart : Ledger [] [] Stacks.empty.opened [] := ledger_nil
  exact hstart.run (merges_clear .empty) hrun

end Accounts

theorem pair_eq_run (events : List Event) :
    pair events = (Stacks.empty.run events).map fun r => r.2.map Issue.mark :=
  pairFrom_eq_run (merges_clear .empty) events

theorem exists_run_of_pair {events : List Event} {marks : List Mark} (h : pair events = .ok marks) :
    ∃ s issued, Stacks.empty.run events = .ok (s, issued) := by
  rw [pair_eq_run] at h
  obtain ⟨⟨s, issued⟩, hrun, -⟩ := exists_of_map_eq_ok h
  exact ⟨s, issued, hrun⟩

theorem pair_eq_error_iff {events : List Event} {fault : MarkupError} :
    pair events = .error fault ↔ Stacks.empty.run events = .error fault := by
  rw [pair_eq_run]
  cases Stacks.empty.run events <;> simp [Except.map]

/-- Pairing fails at the first event that closes a name which, since all was closed, has been closed as often
as opened. -/
theorem pair_fails_iff {events : List Event} {fault : MarkupError} :
    pair events = .error fault ↔ ∃ earlier e later name, events = earlier ++ e :: later ∧
      e.tag = .closing name ∧ fault = ⟨.unmatchedClose name, e.origin⟩ ∧
      (∃ marks, pair earlier = .ok marks) ∧
      closedSince name (earlier.map Event.tag) = openedSince name (earlier.map Event.tag) := by
  rw [pair_eq_error_iff, Stacks.run_eq_error_iff]
  constructor
  · rintro ⟨earlier, e, later, s, issued, rfl, hrun, hstep⟩
    obtain ⟨name, htag, hstack, rfl⟩ := Stacks.step_eq_error_iff.1 hstep
    obtain ⟨pending, hmerges, hledger⟩ := Ledger.of_run hrun
    have hmarks : pair earlier = .ok (issued.map Issue.mark) := by
      rw [pair_eq_run, hrun]
      rfl
    have hcounts := (hledger.stack_eq_nil_iff hmerges name).1 hstack
    exact ⟨earlier, e, later, name, rfl, htag, rfl, ⟨_, hmarks⟩, hcounts⟩
  · rintro ⟨earlier, e, later, name, rfl, htag, rfl, ⟨marks, hmarks⟩, hcounts⟩
    obtain ⟨s, issued, hrun⟩ := exists_run_of_pair hmarks
    obtain ⟨pending, hmerges, hledger⟩ := Ledger.of_run hrun
    have hstack := (hledger.stack_eq_nil_iff hmerges name).2 hcounts
    exact ⟨earlier, e, later, s, issued, rfl, hrun, Stacks.step_eq_error_iff.2 ⟨name, htag, hstack, rfl⟩⟩

/-- Pairing with one list of open marks gives the marks, or fails at the event, that pairing with a stack for
each name does. The openings that marks come from and those that are left on the stacks are all openings of
the events, each of them once. -/
theorem pair_by_stacks (events : List Event) :
    pair events = (Stacks.empty.run events).map (fun r => r.2.map Issue.mark) ∧
      (∀ fault, pair events = .error fault ↔ ∃ earlier e later name, events = earlier ++ e :: later ∧
        e.tag = .closing name ∧ fault = ⟨.unmatchedClose name, e.origin⟩ ∧
        (∃ marks, pair earlier = .ok marks) ∧
        closedSince name (earlier.map Event.tag) = openedSince name (earlier.map Event.tag)) ∧
      ∀ s issued, Stacks.empty.run events = .ok (s, issued) →
        (∀ name, s.stack name = [] ↔
          closedSince name (events.map Event.tag) = openedSince name (events.map Event.tag)) ∧
        (issued.filterMap Issue.number ++ s.remaining.map Opening.number).Perm
          (List.range (openMarks events).length) ∧
        (∀ issue ∈ issued, issue.ComesFrom events) := by
  refine ⟨pair_eq_run events, fun fault => pair_fails_iff, fun s issued hrun => ?_⟩
  obtain ⟨pending, hmerges, hledger⟩ := Ledger.of_run hrun
  refine ⟨hledger.stack_eq_nil_iff hmerges, ?_, hledger.sources⟩
  rw [hmerges.remaining_eq, ← hledger.opened_eq]
  exact hledger.accounts

/-- Tags of one name within each other and of several names across each other. All is closed once, and the
last tag is never closed. -/
def crossed : List Event :=
  [⟨.opening "a".toList [], 0, 0⟩, ⟨.opening "b".toList [], 1, 3⟩, ⟨.opening "a".toList [], 2, 7⟩,
    ⟨.closing "b".toList, 3, 11⟩, ⟨.selfClosing "fx".toList [], 4, 16⟩, ⟨.closing "a".toList, 5, 22⟩,
    ⟨.opening "b".toList [], 6, 27⟩, ⟨.closeAll, 8, 32⟩, ⟨.opening "b".toList [], 8, 35⟩,
    ⟨.closing "b".toList, 9, 39⟩, ⟨.opening "c".toList [], 9, 43⟩]

def crossedIssued : List Issue :=
  [⟨some 1, ⟨"b".toList, 1, 2, []⟩⟩, ⟨none, ⟨"fx".toList, 4, 0, []⟩⟩, ⟨some 2, ⟨"a".toList, 2, 3, []⟩⟩,
    ⟨some 3, ⟨"b".toList, 6, 2, []⟩⟩, ⟨some 0, ⟨"a".toList, 0, 8, []⟩⟩, ⟨some 4, ⟨"b".toList, 8, 1, []⟩⟩]

/-- The last tag is left over, and one more tag that closes the name `b` finds nothing open. -/
theorem pair_by_stacks_crossed :
    let left : Stacks := ⟨6, [("b".toList, []), ("c".toList, [⟨5, ⟨"c".toList, 9, 0, []⟩⟩])]⟩
    let unopened : Event := ⟨.closing "b".toList, 9, 46⟩
    Stacks.empty.run crossed = .ok (left, crossedIssued) ∧
      pair crossed = .ok (crossedIssued.map Issue.mark) ∧
      (crossedIssued.filterMap Issue.number ++ left.remaining.map Opening.number).Perm (List.range 6) ∧
      pair (crossed ++ [unopened]) = .error ⟨.unmatchedClose "b".toList, 46⟩ := by
  intro left unopened
  have hrun : Stacks.empty.run crossed = .ok (left, crossedIssued) := by decide
  obtain ⟨hpair, -, hthrough⟩ := pair_by_stacks crossed
  rw [hrun] at hpair
  have hcounts : closedSince "b".toList (crossed.map Event.tag) =
      openedSince "b".toList (crossed.map Event.tag) := by
    decide
  have hfails := ((pair_by_stacks (crossed ++ [unopened])).2.1 ⟨.unmatchedClose "b".toList, 46⟩).2
    ⟨crossed, unopened, [], "b".toList, rfl, rfl, rfl, ⟨_, hpair⟩, hcounts⟩
  exact ⟨hrun, hpair, (hthrough left crossedIssued hrun).2.1, hfails⟩

end Markup

end Parley
