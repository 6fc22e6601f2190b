import Parley.Proofs.MarkupRoundTrip
set_option autoImplicit false

/-!
The scan of a line, taken one step after the other.

A step takes a piece, or a tag together with the blank that it swallows. What holds of every scan is
proved of a step first. Which tags of a line become events, and which can be read at all, is said without
the places and positions that a scan keeps.
-/

namespace Parley.Markup

/-! Tags in force -/

/-- Whether a tag is plain text, between `nomarkup` tags or outside of them. -/
def isHidden (raw : Bool) (contents : Text) : Bool :=
  raw && Tag.name? contents != some noMarkup

namespace Tag

def rawAfter (raw : Bool) : Tag → Bool
  | .opening name _ => if name = noMarkup then true else raw
  | .closing name => if name = noMarkup then false else raw
  | _ => raw

def event? : Tag → Option Tag
  | .opening name properties =>
    if name ∈ reservedNames then none else some (.opening name (properties.erase trimProperty))
  | .selfClosing name properties =>
    if name ∈ reservedNames then none else some (.selfClosing name (properties.erase trimProperty))
  | .closing name => if name ∈ reservedNames then none else some (.closing name)
  | .closeAll => some .closeAll

theorem eq_closing_of_event? {tag : Tag} {name : Text} (h : tag.event? = some (.closing name)) :
    tag = .closing name ∧ name ∉ reservedNames := by
  cases tag with
  | opening m properties =>
    simp only [event?] at h
    split at h <;> simp at h
  | selfClosing m properties =>
    simp only [event?] at h
    split at h <;> simp at h
  | closing m =>
    simp only [event?] at h
    split at h
    · cases h
    · cases h
      exact ⟨rfl, by assumption⟩
  | closeAll => simp [event?] at h

end Tag

namespace Piece

def tag? (raw : Bool) : Piece → Option Tag
  | .tag contents => if isHidden raw contents then none else (Tag.read contents).toOption
  | _ => none

def rawAfter (raw : Bool) (piece : Piece) : Bool :=
  ((piece.tag? raw).map (Tag.rawAfter raw)).getD raw

def isReadable (locale : Locale) (raw : Bool) : Piece → Bool
  | .tag contents => isHidden raw contents || ((Tag.read contents).bind (Tag.effect locale)).isOk
  | _ => true

end Piece

def rawBehind (raw : Bool) (pieces : List Piece) : Bool :=
  pieces.foldl Piece.rawAfter raw

/-- The tags that become events, in the order of the line. -/
def tagsFrom : Bool → List Piece → List Tag
  | _, [] => []
  | raw, piece :: rest =>
    ((piece.tag? raw).bind Tag.event?).toList ++ tagsFrom (piece.rawAfter raw) rest

def areReadable (locale : Locale) : Bool → List Piece → Bool
  | _, [] => true
  | raw, piece :: rest => piece.isReadable locale raw && areReadable locale (piece.rawAfter raw) rest

theorem rawBehind_append (raw : Bool) (pieces more : List Piece) :
    rawBehind raw (pieces ++ more) = rawBehind (rawBehind raw pieces) more :=
  List.foldl_append

theorem tagsFrom_append (raw : Bool) (pieces more : List Piece) :
    tagsFrom raw (pieces ++ more) = tagsFrom raw pieces ++ tagsFrom (rawBehind raw pieces) more := by
  induction pieces generalizing raw with
  | nil => rfl
  | cons piece pieces ih =>
    rw [List.cons_append, tagsFrom, tagsFrom, ih, List.append_assoc]
    rfl

theorem areReadable_append (locale : Locale) (raw : Bool) (pieces more : List Piece) :
    areReadable locale raw (pieces ++ more) =
      (areReadable locale raw pieces && areReadable locale (rawBehind raw pieces) more) := by
  induction pieces generalizing raw with
  | nil => rfl
  | cons piece pieces ih =>
    rw [List.cons_append, areReadable, areReadable, ih, Bool.and_assoc]
    rfl

/-! Effects -/

namespace Effect

def text : Effect → Text
  | .insert t => t
  | _ => []

def rawAfter (raw : Bool) : Effect → Bool
  | .keepRaw => true
  | .endRaw => false
  | _ => raw

def event? : Effect → Option Tag
  | .emit tag _ => some tag
  | _ => none

end Effect

theorem mem_reservedNames_iff {name : Text} :
    name ∈ reservedNames ↔ name = noMarkup ∨ (Replacement.ofName? name).isSome = true := by
  have hmem : name ∈ reservedNames ↔ name = "select".toList ∨ name = "plural".toList ∨
      name = "ordinal".toList ∨ name = noMarkup := by
    unfold reservedNames noMarkup
    simp only [List.mem_cons, List.not_mem_nil, or_false]
  rw [hmem]
  unfold Replacement.ofName?
  split_ifs with hselect hplural hordinal
  · exact ⟨fun _ => .inr rfl, fun _ => .inl hselect⟩
  · exact ⟨fun _ => .inr rfl, fun _ => .inr (.inl hplural)⟩
  · exact ⟨fun _ => .inr rfl, fun _ => .inr (.inr (.inl hordinal))⟩
  · simp only [hselect, hplural, hordinal, false_or, Option.isSome_none, Bool.false_eq_true, or_false]

/-- What a tag with properties can do: it has to do with `nomarkup`, it is replaced, or it becomes an event. -/
theorem effectOf_cases {name : Text} {properties : Properties} {locale : Locale} {effect : Effect}
    {selfClosing : Bool} (h : effectOf name properties selfClosing locale = .ok effect) :
    (name = noMarkup ∧ effect = if selfClosing then .nothing else .keepRaw) ∨
    (∃ r t, name ≠ noMarkup ∧ Replacement.ofName? name = some r ∧ r.text properties locale = .ok t ∧
      effect = .insert t) ∨
    (name ∉ reservedNames ∧ effect = if selfClosing then
      .emit (.selfClosing name (properties.erase trimProperty))
        (!decide (properties.get? trimProperty = some (.bool false)))
      else .emit (.opening name (properties.erase trimProperty)) false) := by
  unfold effectOf at h
  by_cases hraw : name = noMarkup
  · rw [if_pos hraw] at h
    cases h
    exact .inl ⟨hraw, rfl⟩
  · rw [if_neg hraw] at h
    right
    cases hr : Replacement.ofName? name with
    | some r =>
      rw [hr] at h
      cases ht : r.text properties locale with
      | error cause => simp [ht, Except.map] at h
      | ok t =>
        simp only [ht, Except.map, Except.ok.injEq] at h
        exact .inl ⟨r, t, hraw, rfl, ht, h.symm⟩
    | none =>
      have hreserved : name ∉ reservedNames := by simp [mem_reservedNames_iff, hraw, hr]
      rw [hr] at h
      cases selfClosing <;> cases h <;> exact .inr ⟨hreserved, rfl⟩

/-- An opening or self-closing tag does what it says of itself, unless it cannot be replaced. -/
theorem effectOf_agrees {name : Text} {properties : Properties} {locale : Locale} {effect : Effect}
    (selfClosing : Bool) (h : effectOf name properties selfClosing locale = .ok effect) :
    effect.event? = (if selfClosing then Tag.selfClosing name properties
        else Tag.opening name properties).event? ∧
      ∀ raw, effect.rawAfter raw =
        (if selfClosing then Tag.selfClosing name properties else Tag.opening name properties).rawAfter
          raw := by
  rcases effectOf_cases h with ⟨rfl, rfl⟩ | ⟨r, t, hraw, hr, -, rfl⟩ | ⟨hreserved, rfl⟩
  · have hreserved : noMarkup ∈ reservedNames := mem_reservedNames_iff.2 (.inl rfl)
    cases selfClosing <;>
      simp [Effect.event?, Tag.event?, Effect.rawAfter, Tag.rawAfter, hreserved]
  · have hreserved : name ∈ reservedNames := mem_reservedNames_iff.2 (.inr (by simp [hr]))
    cases selfClosing <;>
      simp [Effect.event?, Tag.event?, Effect.rawAfter, Tag.rawAfter, hraw, hreserved]
  · have hraw : name ≠ noMarkup := fun hname => hreserved (mem_reservedNames_iff.2 (.inl hname))
    cases selfClosing <;>
      simp [Effect.event?, Tag.event?, Effect.rawAfter, Tag.rawAfter, hraw, hreserved]

theorem effect_agrees {locale : Locale} {tag : Tag} {effect : Effect}
    (h : tag.effect locale = .ok effect) :
    effect.event? = tag.event? ∧ ∀ raw, effect.rawAfter raw = tag.rawAfter raw := by
  cases tag with
  | opening name properties => exact effectOf_agrees false h
  | selfClosing name properties => exact effectOf_agrees true h
  | closing name =>
    simp only [Tag.effect, Except.ok.injEq] at h
    subst h
    by_cases hraw : name = noMarkup
    · have hreserved : name ∈ reservedNames := mem_reservedNames_iff.2 (.inl hraw)
      subst hraw
      simp [Effect.event?, Tag.event?, Effect.rawAfter, Tag.rawAfter, hreserved]
    · by_cases hr : (Replacement.ofName? name).isSome = true
      · have hreserved : name ∈ reservedNames := mem_reservedNames_iff.2 (.inr hr)
        simp [Effect.event?, Tag.event?, Effect.rawAfter, Tag.rawAfter, hraw, hr, hreserved]
      · have hreserved : name ∉ reservedNames := by simp [mem_reservedNames_iff, hraw, hr]
        simp [Effect.event?, Tag.event?, Effect.rawAfter, Tag.rawAfter, hraw, hr, hreserved]
  | closeAll =>
    cases h
    exact ⟨rfl, fun _ => rfl⟩

/-! Steps -/

def Place.behindTag (p : Place) (contents : Text) (effect : Effect) : Place :=
  { p.past (.tag contents) effect.text.length with raw := effect.rawAfter p.raw }

/-- A step of a scan: the pieces that are taken, the place behind them, and the text and the events that
they give. -/
inductive Takes (locale : Locale) (p : Place) : List Piece → Place → Scanned → Prop
  | plain (c : Char) : Takes locale p [.plain c] (p.past (.plain c) 1) ⟨[c], []⟩
  | escaped (c : Char) : Takes locale p [.escaped c] (p.past (.escaped c) 2) ⟨['\\', c], []⟩
  | hidden {contents : Text} (h : isHidden p.raw contents = true) :
    Takes locale p [.tag contents] (p.past (.tag contents) (Piece.tag contents).length)
      ⟨(Piece.tag contents).source, []⟩
  | acts {contents : Text} {effect : Effect} (h : isHidden p.raw contents = false)
    (heffect : (Tag.read contents).bind (Tag.effect locale) = .ok effect) :
    Takes locale p [.tag contents] (p.behindTag contents effect)
      ⟨effect.text, effect.event?.toList.map fun tag => ⟨tag, p.length, p.index⟩⟩
  | trims {contents : Text} {tag : Tag} {next : Piece} (h : isHidden p.raw contents = false)
    (heffect : (Tag.read contents).bind (Tag.effect locale) = .ok (.emit tag true))
    (hbefore : p.afterBlank = true) (hnext : next.isBlank = true) :
    Takes locale p [.tag contents, next] ((p.past (.tag contents) 0).past next 0)
      ⟨[], [⟨tag, p.length, p.index⟩]⟩

structure Stops (locale : Locale) (p : Place) (contents : Text) (cause : Cause) : Prop where
  shown : isHidden p.raw contents = false
  refused : (Tag.read contents).bind (Tag.effect locale) = .error cause

theorem scanFrom_hidden {locale : Locale} {p : Place} {contents : Text}
    (h : isHidden p.raw contents = true) (rest : List Piece) :
    scanFrom locale p (.tag contents :: rest) =
      (scanFrom locale (p.past (.tag contents) (Piece.tag contents).length) rest).map
        (.behind (Piece.tag contents).source []) := by
  rw [scanFrom]
  exact if_pos h

theorem scanFrom_stops {locale : Locale} {p : Place} {contents : Text} {cause : Cause}
    (h : Stops locale p contents cause) (rest : List Piece) :
    scanFrom locale p (.tag contents :: rest) = .error ⟨cause, p.index⟩ := by
  have hshown := h.shown
  unfold isHidden at hshown
  simp only [scanFrom, hshown, Bool.false_eq_true, if_false, h.refused]

@[simp] theorem map_behind_nil (x : Except MarkupError Scanned) : x.map (Scanned.behind [] []) = x := by
  cases x <;> rfl

/-- A tag with an effect takes one step, with or without the piece behind it. -/
theorem scanFrom_acts {locale : Locale} {p : Place} {contents : Text} {effect : Effect}
    (h : isHidden p.raw contents = false)
    (heffect : (Tag.read contents).bind (Tag.effect locale) = .ok effect) (pieces : List Piece) :
    ∃ used rest q s, .tag contents :: pieces = used ++ rest ∧ used ≠ [] ∧ Takes locale p used q s ∧
      scanFrom locale p (.tag contents :: pieces) =
        (scanFrom locale q rest).map (.behind s.text s.events) := by
  have hshown := h
  unfold isHidden at hshown
  have hstep := Takes.acts h heffect
  cases effect with
  | keepRaw | endRaw | nothing =>
    refine ⟨_, pieces, _, _, rfl, by simp, hstep, ?_⟩
    simp only [scanFrom, hshown, Bool.false_eq_true, if_false, heffect]
    exact (map_behind_nil _).symm
  | insert t =>
    refine ⟨_, pieces, _, _, rfl, by simp, hstep, ?_⟩
    simp only [scanFrom, hshown, Bool.false_eq_true, if_false, heffect]
    rfl
  | emit tag trims =>
    cases pieces with
    | nil =>
      refine ⟨_, [], _, _, rfl, by simp, hstep, ?_⟩
      simp only [scanFrom, hshown, Bool.false_eq_true, if_false, heffect]
      rfl
    | cons next rest =>
      cases htrims : trims && p.afterBlank && next.isBlank with
      | true =>
        have hguard := htrims
        simp only [Bool.and_eq_true] at hguard
        obtain ⟨⟨rfl, hbefore⟩, hnext⟩ := hguard
        refine ⟨[.tag contents, next], rest, _, _, rfl, by simp, .trims h heffect hbefore hnext, ?_⟩
        simp only [scanFrom, hshown, Bool.false_eq_true, if_false, heffect, htrims, if_true]
        rfl
      | false =>
        refine ⟨_, next :: rest, _, _, rfl, by simp, hstep, ?_⟩
        simp only [scanFrom, hshown, Bool.false_eq_true, if_false, heffect, htrims]
        rfl

theorem scanFrom_cons (locale : Locale) (p : Place) (piece : Piece) (pieces : List Piece) :
    (∃ used rest q s, piece :: pieces = used ++ rest ∧ used ≠ [] ∧ Takes locale p used q s ∧
      scanFrom locale p (piece :: pieces) = (scanFrom locale q rest).map (.behind s.text s.events)) ∨
    ∃ contents cause, piece = .tag contents ∧ Stops locale p contents cause ∧
      scanFrom locale p (piece :: pieces) = .error ⟨cause, p.index⟩ := by
  cases piece with
  | plain c => exact .inl ⟨_, pieces, _, _, rfl, by simp, .plain c, rfl⟩
  | escaped c => exact .inl ⟨_, pieces, _, _, rfl, by simp, .escaped c, rfl⟩
  | tag contents =>
    cases h : isHidden p.raw contents with
    | true => exact .inl ⟨_, pieces, _, _, rfl, by simp, .hidden h, scanFrom_hidden h pieces⟩
    | false =>
      cases heffect : (Tag.read contents).bind (Tag.effect locale) with
      | ok effect => exact .inl (scanFrom_acts h heffect pieces)
      | error cause =>
        have hstops : Stops locale p contents cause := ⟨h, heffect⟩
        exact .inr ⟨contents, cause, rfl, hstops, scanFrom_stops hstops pieces⟩

inductive Reaches (locale : Locale) : Place → List Piece → Place → Scanned → Prop
  | done (p : Place) : Reaches locale p [] p ⟨[], []⟩
  | step {p q r : Place} {used rest : List Piece} {s t : Scanned} (h : Takes locale p used q s)
    (hrest : Reaches locale q rest r t) : Reaches locale p (used ++ rest) r (t.behind s.text s.events)

/-- A scan goes on to the end, or to a tag at which it stops. -/
theorem scanFrom_reaches (locale : Locale) (p : Place) (pieces : List Piece) :
    (∃ q s, Reaches locale p pieces q s ∧ scanFrom locale p pieces = .ok s) ∨
    ∃ before contents after q s cause, pieces = before ++ .tag contents :: after ∧
      Reaches locale p before q s ∧ Stops locale q contents cause ∧
      scanFrom locale p pieces = .error ⟨cause, q.index⟩ := by
  -- A step may take two pieces, so the induction is on how many there are.
  induction hn : pieces.length using Nat.strong_induction_on generalizing p pieces with
  | _ n ih =>
    cases pieces with
    | nil => exact .inl ⟨p, _, .done p, rfl⟩
    | cons piece pieces =>
      rcases scanFrom_cons locale p piece pieces with
        ⟨used, rest, q, s, hsplit, hused, htakes, hscan⟩ | ⟨contents, cause, rfl, hstops, hscan⟩
      · have hlength := congrArg List.length hsplit
        have hpos := List.length_pos_iff.2 hused
        rw [List.length_append] at hlength
        rw [hscan, hsplit]
        rcases ih rest.length (by omega) q rest rfl with
          ⟨r, t, hreaches, hrest⟩ | ⟨before, contents, after, r, t, cause, rfl, hreaches, hstops, hrest⟩
        · exact .inl ⟨r, _, .step htakes hreaches, by rw [hrest]; rfl⟩
        · refine .inr ⟨used ++ before, contents, after, r, _, cause, by simp, .step htakes hreaches,
            hstops, ?_⟩
          rw [hrest]
          rfl
      · exact .inr ⟨[], contents, pieces, p, _, cause, rfl, .done p, hstops, hscan⟩

/-! What every scan keeps -/

structure Tallies (locale : Locale) (p : Place) (pieces : List Piece) (q : Place) (s : Scanned) : Prop where
  index_eq : q.index = p.index + (pieces.flatMap Piece.source).length
  length_eq : q.length = p.length + s.text.length
  raw_eq : q.raw = rawBehind p.raw pieces
  tags_eq : s.events.map Event.tag = tagsFrom p.raw pieces
  readable : areReadable locale p.raw pieces = true
  within : ∀ e ∈ s.events, p.length ≤ e.position ∧ e.position ≤ q.length
  ordered : s.events.Pairwise fun e f => e.position ≤ f.position

variable {locale : Locale} {p q r : Place} {contents : Text} {pieces more : List Piece} {s t : Scanned}

theorem Tallies.append (h : Tallies locale p pieces q s) (ht : Tallies locale q more r t) :
    Tallies locale p (pieces ++ more) r (t.behind s.text s.events) where
  index_eq := by
    rw [ht.index_eq, h.index_eq, List.flatMap_append, List.length_append, Nat.add_assoc]
  length_eq := by
    rw [ht.length_eq, h.length_eq, Scanned.behind, List.length_append, Nat.add_assoc]
  raw_eq := by rw [ht.raw_eq, h.raw_eq, rawBehind_append]
  tags_eq := by
    rw [Scanned.behind, List.map_append, h.tags_eq, ht.tags_eq, h.raw_eq, tagsFrom_append]
  readable := by rw [areReadable_append, h.readable, ← h.raw_eq, ht.readable, Bool.and_self]
  within := by
    intro e he
    have hs := h.length_eq
    have ht' := ht.length_eq
    rcases List.mem_append.1 he with he | he
    · have := h.within e he
      omega
    · have := ht.within e he
      omega
  ordered := by
    refine List.pairwise_append.2 ⟨h.ordered, ht.ordered, ?_⟩
    intro e he f hf
    exact Nat.le_trans (h.within e he).2 (ht.within f hf).1

theorem exists_tag_of_bind {effect : Effect}
    (h : (Tag.read contents).bind (Tag.effect locale) = .ok effect) :
    ∃ tag, Tag.read contents = .ok tag ∧ tag.effect locale = .ok effect := by
  cases hread : Tag.read contents with
  | error cause => simp [hread, Except.bind] at h
  | ok tag => exact ⟨tag, rfl, by simpa [hread, Except.bind] using h⟩

theorem tag?_eq {raw : Bool} {tag : Tag} (h : isHidden raw contents = false)
    (hread : Tag.read contents = .ok tag) : (Piece.tag contents).tag? raw = some tag := by
  simp [Piece.tag?, h, hread, Except.toOption]

theorem Tallies.of_tag {effect : Effect} (h : isHidden p.raw contents = false)
    (heffect : (Tag.read contents).bind (Tag.effect locale) = .ok effect) :
    Tallies locale p [.tag contents] (p.behindTag contents effect)
      ⟨effect.text, effect.event?.toList.map fun tag => ⟨tag, p.length, p.index⟩⟩ := by
  obtain ⟨tag, hread, hdo⟩ := exists_tag_of_bind heffect
  obtain ⟨hevent, hraw⟩ := effect_agrees hdo
  have htag := tag?_eq h hread
  refine ⟨?_, ?_, ?_, ?_, ?_, ?_, ?_⟩
  · simp [Place.behindTag, Place.past]
  · simp [Place.behindTag, Place.past]
  · simp [Place.behindTag, rawBehind, Piece.rawAfter, htag, hraw]
  · simp [tagsFrom, htag, hevent, List.map_map, Function.comp_def]
  · simp [areReadable, Piece.isReadable, heffect, Except.isOk, Except.toBool]
  · intro e he
    obtain ⟨tag, -, rfl⟩ := List.mem_map.1 he
    simp [Place.behindTag, Place.past]
  · cases effect.event? <;> simp

theorem Tallies.of_blank (locale : Locale) (p : Place) {next : Piece} (h : next.isBlank = true) :
    Tallies locale p [next] (p.past next 0) ⟨[], []⟩ := by
  cases next with
  | plain c => exact ⟨rfl, rfl, rfl, rfl, rfl, by simp, by simp⟩
  | escaped c => cases h
  | tag contents => cases h

theorem Takes.tallies {used : List Piece} (h : Takes locale p used q s) :
    Tallies locale p used q s := by
  cases h with
  | plain c => exact ⟨rfl, rfl, rfl, rfl, rfl, by simp, by simp⟩
  | escaped c => exact ⟨rfl, rfl, rfl, rfl, rfl, by simp, by simp⟩
  | @hidden contents h =>
    have htag : (Piece.tag contents).tag? p.raw = none := by simp [Piece.tag?, h]
    refine ⟨?_, ?_, ?_, ?_, ?_, by simp, by simp⟩
    · simp [Place.past]
    · simp [Place.past]
    · simp [Place.past, rawBehind, Piece.rawAfter, htag]
    · simp [tagsFrom, htag]
    · simp [areReadable, Piece.isReadable, h]
  | acts h heffect => exact .of_tag h heffect
  | trims h heffect hbefore hnext =>
    exact (Tallies.of_tag h heffect).append (.of_blank locale _ hnext)

theorem Reaches.tallies (h : Reaches locale p pieces q s) : Tallies locale p pieces q s := by
  induction h with
  | done p => exact ⟨rfl, rfl, rfl, rfl, rfl, by simp, by simp⟩
  | step htakes _ ih => exact htakes.tallies.append ih

theorem Reaches.index_eq (h : Reaches locale .start pieces q s) :
    q.index = (pieces.flatMap Piece.source).length := by
  rw [h.tallies.index_eq, Place.start, Nat.zero_add]

theorem Takes.event_cases {used : List Piece} (h : Takes locale p used q s) :
    s.events = [] ∨ ∃ contents rest tag trims, used = .tag contents :: rest ∧
      isHidden p.raw contents = false ∧
      (Tag.read contents).bind (Tag.effect locale) = .ok (.emit tag trims) ∧
      s.events = [⟨tag, p.length, p.index⟩] := by
  cases h with
  | plain c => exact .inl rfl
  | escaped c => exact .inl rfl
  | hidden h => exact .inl rfl
  | @acts contents effect h heffect =>
    cases effect with
    | emit tag trims => exact .inr ⟨contents, [], tag, trims, rfl, h, heffect, rfl⟩
    | keepRaw | endRaw | nothing | insert => exact .inl rfl
  | @trims contents tag next h heffect hbefore hnext =>
    exact .inr ⟨contents, [next], tag, true, rfl, h, heffect, rfl⟩

/-- An event comes from a tag of the line, and what was scanned in front of that tag gave the events
before it. -/
theorem Reaches.exists_of_event (h : Reaches locale p pieces q s) {earlier later : List Event}
    {e : Event} (hevents : s.events = earlier ++ e :: later) :
    ∃ before contents after r t trims, pieces = before ++ .tag contents :: after ∧
      Reaches locale p before r t ∧ t.events = earlier ∧ isHidden r.raw contents = false ∧
      (Tag.read contents).bind (Tag.effect locale) = .ok (.emit e.tag trims) ∧ e.origin = r.index := by
  induction h generalizing earlier with
  | done p => simp at hevents
  | @step p q _ used rest s t htakes _ ih =>
    simp only [Scanned.behind] at hevents
    rcases htakes.event_cases with hnone | ⟨contents, behind, tag, trims, rfl, hshown, heffect, hone⟩
    · rw [hnone, List.nil_append] at hevents
      obtain ⟨before, contents, after, r, u, trims, rfl, hreaches, hu, hrest⟩ := ih hevents
      exact ⟨used ++ before, contents, after, r, _, trims, by simp, .step htakes hreaches,
        by simp [Scanned.behind, hnone, hu], hrest⟩
    · rw [hone, List.singleton_append] at hevents
      cases earlier with
      | nil =>
        simp only [List.nil_append, List.cons.injEq] at hevents
        obtain ⟨rfl, -⟩ := hevents
        exact ⟨[], contents, behind ++ rest, p, _, trims, by simp, .done p, rfl, hshown, heffect, rfl⟩
      | cons first earlier =>
        simp only [List.cons_append, List.cons.injEq] at hevents
        obtain ⟨rfl, hevents⟩ := hevents
        obtain ⟨before, contents', after, r, u, trims', rfl, hreaches, hu, hrest⟩ := ih hevents
        exact ⟨.tag contents :: behind ++ before, contents', after, r, _, trims', by simp,
          .step htakes hreaches, by simp [Scanned.behind, hone, hu], hrest⟩

/-! Bodies and labels -/

theorem readBody_of_scan_error {locale : Locale} {body : Text} {e : MarkupError} (h : scan locale body = .error e) :
    readBody locale body = .error e := by
  simp [readBody, h, bind, Except.bind]

theorem readBody_of_scan {locale : Locale} {body : Text} {s : Scanned} (h : scan locale body = .ok s) :
    readBody locale body =
      (pairFrom [] s.resolveEscapes.events).map (MarkedLine.mk s.resolveEscapes.text) := by
  simp only [readBody, h, bind, Except.bind, pair]
  cases pairFrom [] s.resolveEscapes.events <;> rfl

theorem speaker?_eq_some {line name body : Text} (h : speaker? line = some (name, body)) :
    ∃ blanks, blanks ≠ [] ∧ (∀ c ∈ blanks, Text.isBlank c = true) ∧
      line = name ++ ':' :: blanks ++ body := by
  unfold speaker? at h
  dsimp only at h
  split at h
  · rename_i hs
    obtain ⟨hcolon, -, hrest⟩ := hs
    obtain ⟨front, hword⟩ := List.getLast?_eq_some_iff.1 hcolon
    simp only [Option.some.injEq, Prod.mk.injEq, hword, List.dropLast_concat] at h
    obtain ⟨rfl, rfl⟩ := h
    have hline := List.takeWhile_append_dropWhile (p := fun c => !Text.isBlank c) (l := line)
    rw [hword] at hline
    have hfirst := List.head?_dropWhile_not (fun c => !Text.isBlank c) line
    generalize line.dropWhile (fun c => !Text.isBlank c) = rest at hrest hline hfirst
    refine ⟨rest.takeWhile Text.isBlank, ?_, fun c hc => List.mem_takeWhile_imp hc, ?_⟩
    · cases rest with
      | nil => exact absurd rfl hrest
      | cons c rest =>
        have hc : Text.isBlank c = true := by simpa using hfirst
        simp [hc]
    · rw [← hline, List.append_assoc, Text.trimStart, List.append_assoc]
      simp [List.takeWhile_append_dropWhile]
  · cases h

def unlabelled (line : Text) : Text :=
  ((speaker? line).map Prod.snd).getD line

def label (line : Text) : Text :=
  line.take (line.length - (unlabelled line).length)

theorem label_cases (line : Text) :
    (speaker? line = none ∧ label line = [] ∧ unlabelled line = line) ∨
      ∃ name blanks, blanks ≠ [] ∧ (∀ c ∈ blanks, Text.isBlank c = true) ∧
        speaker? line = some (name, unlabelled line) ∧ label line = name ++ ':' :: blanks ∧
        line = label line ++ unlabelled line := by
  cases h : speaker? line with
  | none =>
    left
    simp [label, unlabelled, h]
  | some speaker =>
    right
    obtain ⟨name, body⟩ := speaker
    obtain ⟨blanks, hne, hblank, hline⟩ := speaker?_eq_some h
    have hbody : unlabelled line = body := by simp [unlabelled, h]
    have hlabel : label line = name ++ ':' :: blanks := by
      rw [label, hbody, hline, List.length_append, Nat.add_sub_cancel]
      exact List.take_left
    exact ⟨name, blanks, hne, hblank, by rw [hbody], hlabel, by rw [hlabel, hbody, hline]⟩

@[simp] theorem label_append (line : Text) : label line ++ unlabelled line = line := by
  rcases label_cases line with ⟨-, hlabel, hbody⟩ | ⟨_, _, _, _, _, _, hline⟩
  · rw [hlabel, hbody, List.nil_append]
  · exact hline.symm

@[simp] theorem label_eq_nil_iff {line : Text} : label line = [] ↔ speaker? line = none := by
  rcases label_cases line with ⟨hspeaker, hlabel, -⟩ | ⟨name, blanks, -, -, hspeaker, hlabel, -⟩
  · simp [hspeaker, hlabel]
  · simp [hspeaker, hlabel]

theorem readLine_eq (locale : Locale) (line : Text) :
    readLine locale line = (readBody locale (unlabelled line)).map fun m =>
      { m with marks := ((speaker? line).map fun s => speakerMark s.1).toList ++ m.marks } := by
  unfold readLine unlabelled
  cases speaker? line with
  | none => cases h : readBody locale line <;> simp [Except.map, h]
  | some speaker => rfl

end Parley.Markup
