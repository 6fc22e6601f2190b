import Parley.Proofs.MarkupScan
set_option autoImplicit false

/-!
Marks lie within the text of their line.

The events of a scan come in the order of the scanned text. The second pass moves them by numbers that
depend on the text alone, wherever between two characters they stand, and keeps their order. So what is
closed was not opened behind the place where it closes.
-/

namespace Parley.Markup

/-! Positions behind the second pass -/

/-- Positions keep their order, also one between a backslash and the character behind it. -/
theorem shiftFrom_mono (t : Text) (resolved : Nat) {a b : Nat} (h : a ≤ b) :
    shiftFrom t resolved a ≤ shiftFrom t resolved b := by
  fun_induction shiftFrom t resolved a generalizing b with
  | case1 => exact h
  | case2 => exact h
  | case3 d t resolved a ih =>
    rw [shiftFrom, if_pos rfl]
    apply ih
    split <;> split <;> omega
  | case4 c d t resolved a hc ih =>
    rw [shiftFrom, if_neg hc]
    exact ih h

theorem shift_mono (t : Text) {a b : Nat} (h : a ≤ b) : shift t a ≤ shift t b :=
  shiftFrom_mono t 0 h

theorem shiftFrom_le (t : Text) (resolved : Nat) {position : Nat} (h : position ≤ resolved + t.length) :
    shiftFrom t resolved position ≤ resolved + (Text.unescape t).length := by
  fun_induction shiftFrom t resolved position with
  | case1 => exact h
  | case2 => exact h
  | case3 d t resolved position ih =>
    simp only [List.length_cons] at h
    have hih := ih (by split <;> omega)
    simp only [Text.unescape, if_true, List.length_cons]
    omega
  | case4 c d t resolved position hc ih =>
    simp only [List.length_cons] at h ih
    have hih := ih (by omega)
    simp only [Text.unescape, if_neg hc, List.length_cons]
    omega

theorem shift_le (t : Text) {position : Nat} (h : position ≤ t.length) :
    shift t position ≤ (Text.unescape t).length := by
  simpa [shift] using shiftFrom_le t 0 (by simpa using h)

/-! Pairs of events -/

namespace Tag

def name : Tag → Text
  | .opening name _ => name
  | .selfClosing name _ => name
  | .closing name => name
  | .closeAll => []

def properties : Tag → Properties
  | .opening _ properties => properties
  | .selfClosing _ properties => properties
  | _ => []

end Tag

def Event.openMark (e : Event) : Mark :=
  ⟨e.tag.name, e.position, 0, e.tag.properties⟩

/-- The event that opens a mark and the one that closes it. A self-closing tag is both. -/
structure Stretch where
  first : Event
  last : Event
  deriving DecidableEq, Repr

def Stretch.mark (s : Stretch) : Mark :=
  s.first.openMark.closeAt s.last.position

/-- The pairs of events, in the order in which they close. The events that are open are kept newest
first. -/
def stretchesFrom : List Event → List Event → Except MarkupError (List Stretch)
  | _, [] => .ok []
  | pending, e :: events =>
    match e.tag with
    | .opening _ _ => stretchesFrom (e :: pending) events
    | .selfClosing _ _ => (stretchesFrom pending events).map (⟨e, e⟩ :: ·)
    | .closing name =>
      match pending.find? fun o => o.tag.name == name with
      | none => .error ⟨.unmatchedClose name, e.origin⟩
      | some o =>
        (stretchesFrom (pending.eraseP fun o => o.tag.name == name) events).map (⟨o, e⟩ :: ·)
    | .closeAll => (stretchesFrom [] events).map (pending.map (Stretch.mk · e) ++ ·)

theorem pairFrom_eq_stretches (pending events : List Event) :
    pairFrom (pending.map Event.openMark) events =
      (stretchesFrom pending events).map (List.map Stretch.mark) := by
  induction events generalizing pending with
  | nil => rfl
  | cons e events ih =>
    rw [pairFrom, stretchesFrom]
    cases htag : e.tag with
    | opening name properties =>
      have hmark : (⟨name, e.position, 0, properties⟩ : Mark) = e.openMark := by
        simp [Event.openMark, htag, Tag.name, Tag.properties]
      simp only [hmark, ← List.map_cons, ih]
    | selfClosing name properties =>
      have hmark : (⟨name, e.position, 0, properties⟩ : Mark) = (Stretch.mk e e).mark := by
        simp [Stretch.mark, Mark.closeAt, Event.openMark, htag, Tag.name, Tag.properties]
      simp only [hmark, ih]
      cases stretchesFrom pending events <;> rfl
    | closing name =>
      simp only [List.find?_map, List.eraseP_map, ih, Function.comp_def, Event.openMark]
      cases pending.find? fun o => o.tag.name == name with
      | none => rfl
      | some o => cases stretchesFrom (pending.eraseP fun o => o.tag.name == name) events <;> rfl
    | closeAll =>
      have hnone := ih []
      rw [List.map_nil] at hnone
      simp only [hnone]
      cases stretchesFrom [] events with
      | error cause => rfl
      | ok found => simp [Except.map, Stretch.mark, Function.comp_def]

theorem exists_of_map_eq_ok {α β : Type} {x : Except MarkupError α} {f : α → β} {b : β}
    (h : x.map f = .ok b) : ∃ a, x = .ok a ∧ f a = b := by
  cases x with
  | error e => cases h
  | ok a => exact ⟨a, rfl, Except.ok.inj h⟩

/-- Where the events come in the order of their positions, nothing closes in front of the place where it
was opened, or behind the last position. -/
theorem stretchesFrom_ordered {pending events : List Event} {found : List Stretch} {bound : Nat}
    (h : stretchesFrom pending events = .ok found)
    (hordered : events.Pairwise fun e f => e.position ≤ f.position)
    (hpending : ∀ o ∈ pending, ∀ e ∈ events, o.position ≤ e.position)
    (hbound : ∀ e ∈ events, e.position ≤ bound) :
    ∀ s ∈ found, s.first.position ≤ s.last.position ∧ s.last.position ≤ bound := by
  induction events generalizing pending found with
  | nil =>
    cases h
    simp
  | cons e events ih =>
    rw [List.pairwise_cons] at hordered
    rw [List.forall_mem_cons] at hbound
    have hhead : ∀ o ∈ pending, o.position ≤ e.position :=
      fun o ho => hpending o ho e (List.mem_cons_self ..)
    have htail : ∀ o ∈ pending, ∀ f ∈ events, o.position ≤ f.position :=
      fun o ho f hf => hpending o ho f (List.mem_cons_of_mem _ hf)
    rw [stretchesFrom] at h
    cases htag : e.tag with
    | opening name properties =>
      simp only [htag] at h
      exact ih h hordered.2 (List.forall_mem_cons.2 ⟨hordered.1, htail⟩) hbound.2
    | selfClosing name properties =>
      simp only [htag] at h
      obtain ⟨rest, hrest, rfl⟩ := exists_of_map_eq_ok h
      exact List.forall_mem_cons.2 ⟨⟨Nat.le_refl _, hbound.1⟩, ih hrest hordered.2 htail hbound.2⟩
    | closing name =>
      simp only [htag] at h
      cases hfind : pending.find? fun o => o.tag.name == name with
      | none => simp [hfind] at h
      | some o =>
        simp only [hfind] at h
        obtain ⟨rest, hrest, rfl⟩ := exists_of_map_eq_ok h
        have hopen : o.position ≤ e.position := hhead o (List.mem_of_find?_eq_some hfind)
        have hleft : ∀ o ∈ pending.eraseP fun o => o.tag.name == name, ∀ f ∈ events,
            o.position ≤ f.position := fun o ho => htail o (List.mem_of_mem_eraseP ho)
        exact List.forall_mem_cons.2 ⟨⟨hopen, hbound.1⟩, ih hrest hordered.2 hleft hbound.2⟩
    | closeAll =>
      simp only [htag] at h
      obtain ⟨rest, hrest, rfl⟩ := exists_of_map_eq_ok h
      rw [List.forall_mem_append, List.forall_mem_map]
      exact ⟨fun o ho => ⟨hhead o ho, hbound.1⟩, ih hrest hordered.2 (by simp) hbound.2⟩

/-! Lines -/

theorem resolveEscapes_ordered {locale : Locale} {line : Text} {s : Scanned} (h : scan locale line = .ok s) :
    (s.resolveEscapes.events.Pairwise fun e f => e.position ≤ f.position) ∧
      ∀ e ∈ s.resolveEscapes.events, e.position ≤ s.resolveEscapes.text.length := by
  rcases scanFrom_reaches locale .start (Piece.cut line) with
    ⟨q, t, hreaches, hscan⟩ | ⟨_, _, _, q, _, cause, -, -, -, hscan⟩
  · rw [scan, hscan] at h
    cases h
    have htallies := hreaches.tallies
    have hlength : q.length = s.text.length := by simpa [Place.start] using htallies.length_eq
    constructor
    · rw [Scanned.resolveEscapes, List.pairwise_map]
      exact htallies.ordered.imp (shift_mono s.text)
    · rw [Scanned.resolveEscapes, List.forall_mem_map]
      intro e he
      have hwithin := (htallies.within e he).2
      rw [hlength] at hwithin
      exact shift_le s.text hwithin
  · rw [scan, hscan] at h
    cases h

theorem readBody_eq_ok {locale : Locale} {body : Text} {marked : MarkedLine}
    (h : readBody locale body = .ok marked) :
    ∃ s found, scan locale body = .ok s ∧ stretchesFrom [] s.resolveEscapes.events = .ok found ∧
      marked = ⟨s.resolveEscapes.text, found.map Stretch.mark⟩ := by
  cases hscan : scan locale body with
  | error e =>
    rw [readBody_of_scan_error hscan] at h
    cases h
  | ok s =>
    have hpair := pairFrom_eq_stretches [] s.resolveEscapes.events
    rw [List.map_nil] at hpair
    rw [readBody_of_scan hscan, hpair] at h
    obtain ⟨marks, hmarks, rfl⟩ := exists_of_map_eq_ok h
    obtain ⟨found, hfound, rfl⟩ := exists_of_map_eq_ok hmarks
    exact ⟨s, found, rfl, hfound, rfl⟩

/-- The marks of a line lie within its text, and every pair of tags closes no earlier than it opens. -/
theorem marks_within {locale : Locale} {line : Text} {marked : MarkedLine}
    (h : readLine locale line = .ok marked) :
    (∀ m ∈ marked.marks, m.position + m.length ≤ marked.text.length) ∧
      ∃ s found, scan locale (unlabelled line) = .ok s ∧
        stretchesFrom [] s.resolveEscapes.events = .ok found ∧
        marked.marks =
          ((speaker? line).map fun s => speakerMark s.1).toList ++ found.map Stretch.mark ∧
        ∀ pair ∈ found, pair.first.position ≤ pair.last.position := by
  rw [readLine_eq] at h
  obtain ⟨body, hbody, rfl⟩ := exists_of_map_eq_ok h
  obtain ⟨s, found, hscan, hfound, rfl⟩ := readBody_eq_ok hbody
  obtain ⟨hordered, hwithin⟩ := resolveEscapes_ordered hscan
  have hpairs := stretchesFrom_ordered hfound hordered (by simp) hwithin
  refine ⟨?_, s, found, hscan, hfound, rfl, fun pair hpair => (hpairs pair hpair).1⟩
  rw [List.forall_mem_append, List.forall_mem_map]
  constructor
  · cases speaker? line with
    | none => simp
    | some speaker => exact List.forall_mem_singleton.2 (Nat.zero_le _)
  · intro pair hpair
    have := hpairs pair hpair
    simp only [Stretch.mark, Mark.closeAt, Event.openMark]
    omega

/-- A tag between a backslash that was put in and the character behind it, tags that overlap, a region
without markup, a blank that is swallowed and a backslash at the end. -/
def entangled : Text :=
  "Bo: \\[[a][plural value=1 one=\\/][b]y[nomarkup][b][/nomarkup][/a]z[/b] [fx/] \\".toList

def entangledMarked : MarkedLine :=
  ⟨"[y[b]z \\".toList,
    [speakerMark "Bo".toList, ⟨"a".toList, 1, 4, []⟩, ⟨"b".toList, 1, 5, []⟩, ⟨"fx".toList, 7, 0, []⟩]⟩

theorem marks_within_entangled :
    readLine english entangled = .ok entangledMarked ∧
      ∀ m ∈ entangledMarked.marks, m.position + m.length ≤ entangledMarked.text.length := by
  have hread : readLine english entangled = .ok entangledMarked := by decide +kernel
  exact ⟨hread, (marks_within hread).1⟩

end Parley.Markup
