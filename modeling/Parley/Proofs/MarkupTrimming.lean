import Parley.Proofs.MarkupExtent
set_option autoImplicit false

/-!
Blanks that self-closing tags swallow.

Whether a tag swallows the blank behind it is decided by the character of the line in front of it. That
character may be gone itself, swallowed by the tag before; then what was written so far has stayed the
same since that tag, and so is empty or ends in a blank.
-/

namespace Parley.Markup

/-! Fates -/

/-- What becomes of a part of a line. A piece is copied, or a tag is taken out; then some text may come in
its place, and one character behind it may go along. -/
inductive Fate where
  | copied (piece : Piece)
  | taken (contents inserted : Text) (swallowed : Option Char)
  deriving DecidableEq, Repr

namespace Fate

def pieces : Fate → List Piece
  | .copied piece => [piece]
  | .taken contents _ swallowed => .tag contents :: swallowed.toList.map .plain

def source (fate : Fate) : Text :=
  fate.pieces.flatMap Piece.source

def text : Fate → Text
  | .copied piece => piece.source
  | .taken _ inserted _ => inserted

end Fate

def endsBlank (t : Text) : Bool :=
  t.getLast?.all Text.isBlank

def startsBlank (t : Text) : Bool :=
  t.head?.any Text.isBlank

namespace Tag

def inserted (locale : Locale) : Tag → Except Cause Text
  | .opening name properties | .selfClosing name properties =>
    match Replacement.ofName? name with
    | some r => r.text properties locale
    | none => .ok []
  | _ => .ok []

/-- Whether a tag may swallow a blank: it closes itself, has no meaning of its own, and does not ask to be
left alone. -/
def trims : Tag → Bool
  | .selfClosing name properties =>
    !reservedNames.contains name && !decide (properties.get? trimProperty = some (.bool false))
  | _ => false

end Tag

/-- A tag that is taken out between some fates: it is in force, its text is inserted, and it swallows the
next character just if it may, if that is a blank and if it stands behind a blank of the line or at the
start. A tag that swallows inserts nothing, and what is written up to there is empty or ends in a blank. -/
structure Taken (locale : Locale) (before : List Fate) (contents inserted : Text) (swallowed : Option Char)
    (after : List Fate) (tag : Tag) : Prop where
  shown : isHidden (rawBehind false (before.flatMap Fate.pieces)) contents = false
  read : Tag.read contents = .ok tag
  inserts : tag.inserted locale = .ok inserted
  swallows : swallowed.isSome = (tag.trims && endsBlank (before.flatMap Fate.source) &&
    startsBlank (swallowed.toList ++ after.flatMap Fate.source))
  blank : ∀ c ∈ swallowed, Text.isBlank c = true
  apart : swallowed.isSome = true → inserted = [] ∧ endsBlank (before.flatMap Fate.text) = true

def Fate.Fits (locale : Locale) (before : List Fate) (fate : Fate) (after : List Fate) : Prop :=
  match fate with
  | .copied (.tag contents) => isHidden (rawBehind false (before.flatMap Fate.pieces)) contents = true
  | .copied _ => True
  | .taken contents inserted swallowed => ∃ tag, Taken locale before contents inserted swallowed after tag

/-- The fates of some pieces behind others, and the text that they give. -/
structure Fated (locale : Locale) (before : List Fate) (pieces : List Piece) (text : Text)
    (fates : List Fate) : Prop where
  pieces_eq : fates.flatMap Fate.pieces = pieces
  text_eq : fates.flatMap Fate.text = text
  fits : ∀ earlier fate later, fates = earlier ++ fate :: later → fate.Fits locale (before ++ earlier) later

section Fates

variable {locale : Locale} {text : Text} {before fates : List Fate} {fate : Fate} {pieces : List Piece}

@[simp] theorem fated_nil (locale : Locale) (before : List Fate) : Fated locale before [] [] [] where
  pieces_eq := rfl
  text_eq := rfl
  fits := by
    intro earlier fate later h
    simp at h

theorem Fated.cons (h : Fated locale (before ++ [fate]) pieces text fates)
    (hfits : fate.Fits locale before fates) :
    Fated locale before (fate.pieces ++ pieces) (fate.text ++ text) (fate :: fates) where
  pieces_eq := by rw [List.flatMap_cons, h.pieces_eq]
  text_eq := by rw [List.flatMap_cons, h.text_eq]
  fits := by
    intro earlier other later hfates
    cases earlier with
    | nil =>
      simp only [List.nil_append, List.cons.injEq] at hfates
      obtain ⟨rfl, rfl⟩ := hfates
      simpa using hfits
    | cons first earlier =>
      simp only [List.cons_append, List.cons.injEq] at hfates
      obtain ⟨rfl, hfates⟩ := hfates
      simpa using h.fits earlier other later hfates

theorem Fated.source_eq (h : Fated locale before pieces text fates) :
    fates.flatMap Fate.source = pieces.flatMap Piece.source := by
  rw [← h.pieces_eq, List.flatMap_assoc]
  rfl

end Fates

/-! Blanks at either end -/

@[simp] theorem endsBlank_source (t : Text) (piece : Piece) :
    endsBlank (t ++ piece.source) = piece.endsBlank := by
  cases piece with
  | plain c => simp [endsBlank, Piece.source, Piece.endsBlank]
  | escaped c => simp [endsBlank, Piece.source, Piece.endsBlank]
  | tag contents =>
    have hsource : t ++ (Piece.tag contents).source = (t ++ '[' :: contents) ++ [']'] := by
      simp [Piece.source]
    rw [hsource, endsBlank, List.getLast?_concat]
    rfl

@[simp] theorem startsBlank_source (piece : Piece) (t : Text) :
    startsBlank (piece.source ++ t) = piece.isBlank := by
  cases piece with
  | plain c => simp [startsBlank, Piece.source, Piece.isBlank]
  | escaped c => simp [startsBlank, Piece.source, Piece.isBlank, show Text.isBlank '\\' = false by decide]
  | tag contents => simp [startsBlank, Piece.source, Piece.isBlank, show Text.isBlank '[' = false by decide]

/-! Effects -/

def Effect.trims : Effect → Bool
  | .emit _ trims => trims
  | _ => false

theorem effectOf_inserts {name : Text} {properties : Properties} {locale : Locale} {effect : Effect}
    (selfClosing : Bool) (h : effectOf name properties selfClosing locale = .ok effect) :
    (if selfClosing then Tag.selfClosing name properties else Tag.opening name properties).inserted
        locale = .ok effect.text ∧
      (if selfClosing then Tag.selfClosing name properties else Tag.opening name properties).trims =
        effect.trims := by
  rcases effectOf_cases h with ⟨rfl, rfl⟩ | ⟨r, t, -, hr, ht, rfl⟩ | ⟨hreserved, rfl⟩
  · have hreserved : noMarkup ∈ reservedNames := mem_reservedNames_iff.2 (.inl rfl)
    have hr : Replacement.ofName? noMarkup = none := by decide
    cases selfClosing <;> simp [Tag.inserted, Tag.trims, Effect.text, Effect.trims, hr, hreserved]
  · have hreserved : name ∈ reservedNames := mem_reservedNames_iff.2 (.inr (by simp [hr]))
    cases selfClosing <;> simp [Tag.inserted, Tag.trims, Effect.text, Effect.trims, hr, ht, hreserved]
  · have hr : Replacement.ofName? name = none := by
      simpa using fun hr => hreserved (mem_reservedNames_iff.2 (.inr hr))
    cases selfClosing <;> simp [Tag.inserted, Tag.trims, Effect.text, Effect.trims, hr, hreserved]

theorem effect_inserts {locale : Locale} {tag : Tag} {effect : Effect} (h : tag.effect locale = .ok effect) :
    tag.inserted locale = .ok effect.text ∧ tag.trims = effect.trims := by
  cases tag with
  | opening name properties => exact effectOf_inserts false h
  | selfClosing name properties => exact effectOf_inserts true h
  | closing name =>
    simp only [Tag.effect, Except.ok.injEq] at h
    subst h
    split_ifs <;> exact ⟨rfl, rfl⟩
  | closeAll =>
    cases h
    exact ⟨rfl, rfl⟩

/-! Steps -/

/-- A place behind some fates. Where the last character of the line is a blank, what was written is empty
or ends in a blank. -/
structure Place.Behind (p : Place) (before : List Fate) : Prop where
  raw_eq : p.raw = rawBehind false (before.flatMap Fate.pieces)
  afterBlank_eq : p.afterBlank = endsBlank (before.flatMap Fate.source)
  apart : p.afterBlank = true → endsBlank (before.flatMap Fate.text) = true

theorem behind_start : Place.start.Behind [] where
  raw_eq := rfl
  afterBlank_eq := rfl
  apart := fun _ => rfl

section Steps

variable {locale : Locale} {p : Place} {before after : List Fate} {contents : Text}

theorem Place.Behind.copied (h : p.Behind before) {piece : Piece} (htag : piece.tag? p.raw = none)
    (added : Nat) : (p.past piece added).Behind (before ++ [.copied piece]) := by
  have hraw : rawBehind p.raw [piece] = p.raw := by
    simp [rawBehind, Piece.rawAfter, htag]
  refine ⟨?_, ?_, fun hblank => ?_⟩
  · rw [List.flatMap_append, rawBehind_append, ← h.raw_eq]
    exact hraw.symm
  · simp [Fate.source, Fate.pieces, Place.past]
  · simpa [Fate.text, Place.past] using hblank

theorem Place.Behind.taken (h : p.Behind before) {effect : Effect}
    (hshown : isHidden p.raw contents = false)
    (heffect : (Tag.read contents).bind (Tag.effect locale) = .ok effect) :
    (p.behindTag contents effect).Behind (before ++ [.taken contents effect.text none]) := by
  have hraw := (Tallies.of_tag (p := p) hshown heffect).raw_eq
  refine ⟨?_, ?_, fun hblank => ?_⟩
  · rw [List.flatMap_append, rawBehind_append, ← h.raw_eq, hraw]
    rfl
  · simp [Fate.source, Fate.pieces, Place.behindTag, Place.past]
  · cases hblank

theorem Place.Behind.swallowed (h : p.Behind before) {tag : Tag} {c : Char}
    (hshown : isHidden p.raw contents = false)
    (heffect : (Tag.read contents).bind (Tag.effect locale) = .ok (.emit tag true))
    (hbefore : p.afterBlank = true) (hc : Text.isBlank c = true) :
    ((p.past (.tag contents) 0).past (.plain c) 0).Behind (before ++ [.taken contents [] (some c)]) := by
  have htakes : Takes locale p [.tag contents, .plain c] _ _ := .trims hshown heffect hbefore hc
  have hraw := htakes.tallies.raw_eq
  refine ⟨?_, ?_, fun _ => ?_⟩
  · rw [List.flatMap_append, rawBehind_append, ← h.raw_eq, hraw]
    rfl
  · have hsource : (before ++ [Fate.taken contents [] (some c)]).flatMap Fate.source =
        (before.flatMap Fate.source ++ (Piece.tag contents).source) ++ (Piece.plain c).source := by
      simp [Fate.source, Fate.pieces]
    rw [hsource, endsBlank_source]
    rfl
  · -- The blank is not written, but nothing was written either since the blank in front of the tag.
    simpa [Fate.text] using h.apart hbefore

/-- A tag that swallows nothing fits if it may not, or if there is no blank on one of its sides. -/
theorem Place.Behind.fits_taken (h : p.Behind before) {effect : Effect}
    (hshown : isHidden p.raw contents = false)
    (heffect : (Tag.read contents).bind (Tag.effect locale) = .ok effect)
    (hnone : (effect.trims && p.afterBlank && startsBlank (after.flatMap Fate.source)) = false) :
    (Fate.taken contents effect.text none).Fits locale before after := by
  obtain ⟨tag, hread, hdo⟩ := exists_tag_of_bind heffect
  obtain ⟨hinserts, htrims⟩ := effect_inserts hdo
  refine ⟨tag, ⟨?_, hread, hinserts, ?_, by simp, by simp⟩⟩
  · rwa [← h.raw_eq]
  · rw [htrims, ← h.afterBlank_eq]
    exact hnone.symm

theorem Place.Behind.fits_swallowed (h : p.Behind before) {tag : Tag} {c : Char}
    (hshown : isHidden p.raw contents = false)
    (heffect : (Tag.read contents).bind (Tag.effect locale) = .ok (.emit tag true))
    (hbefore : p.afterBlank = true) (hc : Text.isBlank c = true) :
    (Fate.taken contents [] (some c)).Fits locale before after := by
  obtain ⟨read, hread, hdo⟩ := exists_tag_of_bind heffect
  obtain ⟨hinserts, htrims⟩ := effect_inserts hdo
  refine ⟨read, ⟨?_, hread, hinserts, ?_, by simpa using hc, fun _ => ⟨rfl, h.apart hbefore⟩⟩⟩
  · rwa [← h.raw_eq]
  · rw [htrims, ← h.afterBlank_eq, hbefore]
    simp [startsBlank, Effect.trims, hc]

end Steps

/-! Scans -/

section Scans

variable {locale : Locale} {p : Place} {before : List Fate} {pieces : List Piece} {contents text : Text}

theorem exists_fated_tag {effect : Effect} (hp : p.Behind before) (hshown : isHidden p.raw contents = false)
    (heffect : (Tag.read contents).bind (Tag.effect locale) = .ok effect)
    (hnone : (effect.trims && p.afterBlank && startsBlank (pieces.flatMap Piece.source)) = false)
    (hrest : ∃ fates, Fated locale (before ++ [.taken contents effect.text none]) pieces text fates) :
    ∃ fates, Fated locale before (.tag contents :: pieces) (effect.text ++ text) fates := by
  obtain ⟨fates, hfates⟩ := hrest
  rw [← hfates.source_eq] at hnone
  exact ⟨_, hfates.cons (hp.fits_taken hshown heffect hnone)⟩

theorem scanFrom_fated {s : Scanned} (h : scanFrom locale p pieces = .ok s) (hp : p.Behind before) :
    ∃ fates, Fated locale before pieces s.text fates := by
  fun_induction scanFrom locale p pieces generalizing before s with
  | case1 p =>
    cases h
    exact ⟨[], fated_nil locale before⟩
  | case2 p c rest ih =>
    obtain ⟨s, hs, rfl⟩ := exists_of_map_eq_ok h
    obtain ⟨fates, hfates⟩ := ih hs (hp.copied rfl 1)
    exact ⟨_, hfates.cons trivial⟩
  | case3 p c rest ih =>
    obtain ⟨s, hs, rfl⟩ := exists_of_map_eq_ok h
    obtain ⟨fates, hfates⟩ := ih hs (hp.copied rfl 2)
    exact ⟨_, hfates.cons trivial⟩
  | case4 p contents rest piece hhidden =>
    rename_i ih
    obtain ⟨s, hs, rfl⟩ := exists_of_map_eq_ok h
    have hhidden : isHidden p.raw contents = true := hhidden
    have htag : (Piece.tag contents).tag? p.raw = none := by simp [Piece.tag?, hhidden]
    obtain ⟨fates, hfates⟩ := ih hs (hp.copied htag _)
    rw [hp.raw_eq] at hhidden
    exact ⟨_, hfates.cons hhidden⟩
  | case5 => cases h
  | case6 p contents rest piece hshown heffect
  | case7 p contents rest piece hshown heffect
  | case8 p contents rest piece hshown heffect =>
    rename_i ih
    have hshown : isHidden p.raw contents = false := eq_false_of_ne_true hshown
    exact exists_fated_tag hp hshown heffect rfl (ih h (hp.taken hshown heffect))
  | case9 p contents rest piece hshown t heffect =>
    rename_i ih
    have hshown : isHidden p.raw contents = false := eq_false_of_ne_true hshown
    obtain ⟨s, hs, rfl⟩ := exists_of_map_eq_ok h
    exact exists_fated_tag hp hshown heffect rfl (ih hs (hp.taken hshown heffect))
  | case10 p contents hshown tag trims heffect =>
    have hshown : isHidden p.raw contents = false := eq_false_of_ne_true hshown
    cases h
    exact exists_fated_tag hp hshown heffect (by simp [startsBlank]) ⟨[], fated_nil locale _⟩
  | case11 p contents piece hshown tag trims heffect event next rest =>
    rename_i hguard ih
    have hshown : isHidden p.raw contents = false := eq_false_of_ne_true hshown
    obtain ⟨s, hs, rfl⟩ := exists_of_map_eq_ok h
    simp only [Bool.and_eq_true] at hguard
    obtain ⟨⟨rfl, hbefore⟩, hnext⟩ := hguard
    -- An escaped blank begins with its backslash, so it is never swallowed.
    cases next with
    | plain c =>
      obtain ⟨fates, hfates⟩ := ih hs (hp.swallowed hshown heffect hbefore hnext)
      exact ⟨_, hfates.cons (hp.fits_swallowed hshown heffect hbefore hnext)⟩
    | escaped c => cases hnext
    | tag contents => cases hnext
  | case12 p contents piece hshown tag trims heffect event next rest =>
    rename_i hguard ih
    have hshown : isHidden p.raw contents = false := eq_false_of_ne_true hshown
    obtain ⟨s, hs, rfl⟩ := exists_of_map_eq_ok h
    have hnone : (trims && p.afterBlank && startsBlank ((next :: rest).flatMap Piece.source)) = false := by
      rw [List.flatMap_cons, startsBlank_source]
      exact eq_false_of_ne_true hguard
    exact exists_fated_tag hp hshown heffect hnone (ih hs (hp.taken hshown heffect))

/-- A line that is scanned has fates, one for each piece or for a tag together with the blank that it
swallows. A tag swallows one character at most; this is a blank right behind it, and what was written up to
there is empty or ends in a blank. All else but tags in force is copied in the order of the line. -/
theorem scan_swallows_apart {locale : Locale} {line : Text} {s : Scanned} (h : scan locale line = .ok s) :
    ∃ fates : List Fate, fates.flatMap Fate.pieces = Piece.cut line ∧
      fates.flatMap Fate.source = line ∧ fates.flatMap Fate.text = s.text ∧
      ∀ before fate after, fates = before ++ fate :: after → fate.Fits locale before after := by
  obtain ⟨fates, hfates⟩ := scanFrom_fated h behind_start
  refine ⟨fates, hfates.pieces_eq, ?_, hfates.text_eq, hfates.fits⟩
  rw [hfates.source_eq, Piece.flatMap_source_cut]

end Scans

/-- Tags that swallow blanks one behind the other at the start, behind an escaped blank, behind a
replacement and at the end. The others have no blank in front, ask to be left alone or are not in force. -/
def chained : Text :=
  ("[a/] [b/]  Oh\\ [c/] [d trimwhitespace=false/] [plural value=1 one=so/] [e/] no[f/] [nomarkup][g/] " ++
    "[/nomarkup] [h/] ").toList

theorem scan_swallows_apart_chained :
    ∃ s, scan english chained = .ok s ∧ s.text = " Oh\\  so no [g/]  ".toList ∧
      ∃ fates : List Fate, fates.flatMap Fate.source = chained ∧ fates.flatMap Fate.text = s.text ∧
        ∀ before fate after, fates = before ++ fate :: after → fate.Fits english before after := by
  have hscan : (scan english chained).map Scanned.text = .ok " Oh\\  so no [g/]  ".toList := by
    decide +kernel
  obtain ⟨s, hs, htext⟩ := exists_of_map_eq_ok hscan
  obtain ⟨fates, -, hfates⟩ := scan_swallows_apart hs
  exact ⟨s, hs, htext, fates, hfates⟩

end Parley.Markup
