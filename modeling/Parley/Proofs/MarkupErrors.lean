import Parley.Proofs.MarkupScan
import Parley.Proofs.Turns
set_option autoImplicit false

/-!
Lines that are refused for their markup, and the tags that are to blame.

A line is refused for a tag that cannot be read or replaced, or else for a tag that closes what is not
open. Both are told for the part of the line behind its label. The position of an error counts from there,
and a tag that begins within the label is none.
-/

namespace Parley.Markup

/-! Balance -/

/-- How many tags of a name are open behind a tag, if some were in front of it. -/
def Tag.leavesOpen (name : Text) (count : Nat) : Tag → Nat
  | .opening other _ => if other = name then count + 1 else count
  | .selfClosing _ _ => count
  | .closing other => if other = name then count - 1 else count
  | .closeAll => 0

def openCount (name : Text) (tags : List Tag) : Nat :=
  tags.foldl (Tag.leavesOpen name) 0

@[simp] theorem openCount_snoc (name : Text) (tags : List Tag) (tag : Tag) :
    openCount name (tags ++ [tag]) = tag.leavesOpen name (openCount name tags) := by
  rw [openCount, List.foldl_append]
  rfl

/-- Behind some tags, every tag that closes a name finds a tag of that name open. -/
def BalancedBehind (before tags : List Tag) : Prop :=
  ∀ between name after, tags = between ++ .closing name :: after →
    0 < openCount name (before ++ between)

def Balanced (tags : List Tag) : Prop :=
  BalancedBehind [] tags

@[simp] theorem balancedBehind_nil (before : List Tag) : BalancedBehind before [] := by
  intro between name after h
  simp at h

theorem balancedBehind_cons {before tags : List Tag} {tag : Tag} :
    BalancedBehind before (tag :: tags) ↔
      (∀ name, tag = .closing name → 0 < openCount name before) ∧
        BalancedBehind (before ++ [tag]) tags := by
  constructor
  · intro h
    constructor
    · rintro name rfl
      simpa using h [] name tags rfl
    · intro between name after htags
      simpa using h (tag :: between) name after (by rw [htags, List.cons_append])
  · rintro ⟨hhead, htail⟩ between name after htags
    cases between with
    | nil =>
      simp only [List.nil_append, List.cons.injEq] at htags
      simpa using hhead name htags.1
    | cons first between =>
      simp only [List.cons_append, List.cons.injEq] at htags
      obtain ⟨rfl, htags⟩ := htags
      simpa using htail between name after htags

def isBalancedBehind (before : List Tag) : List Tag → Bool
  | [] => true
  | .closing name :: tags =>
    decide (0 < openCount name before) && isBalancedBehind (before ++ [.closing name]) tags
  | tag :: tags => isBalancedBehind (before ++ [tag]) tags

theorem isBalancedBehind_iff {before tags : List Tag} :
    isBalancedBehind before tags = true ↔ BalancedBehind before tags := by
  induction tags generalizing before with
  | nil => simp [isBalancedBehind]
  | cons tag tags ih => cases tag <;> simp [isBalancedBehind, balancedBehind_cons, ih]

instance (tags : List Tag) : Decidable (Balanced tags) :=
  decidable_of_iff _ isBalancedBehind_iff

/-! Pairing -/

def Agrees (pending : List Mark) (tags : List Tag) : Prop :=
  ∀ name, (pending.countP fun m => m.name == name) = openCount name tags

@[simp] theorem agrees_nil : Agrees [] [] := fun _ => rfl

theorem Agrees.opening {pending : List Mark} {before : List Tag} (h : Agrees pending before) (m : Mark)
    (properties : Properties) : Agrees (m :: pending) (before ++ [.opening m.name properties]) := by
  intro name
  rw [List.countP_cons, h name, openCount_snoc]
  by_cases hname : m.name = name
  · simp [Tag.leavesOpen, hname]
  · simp [Tag.leavesOpen, hname]

theorem Agrees.closing {pending : List Mark} {before : List Tag} {name : Text}
    (h : Agrees pending before) (hopen : ∃ m ∈ pending, m.name = name) :
    Agrees (pending.eraseP fun m => m.name == name) (before ++ [.closing name]) := by
  obtain ⟨m, hm, hname⟩ := hopen
  obtain ⟨found, front, back, -, hfound, hpending, hleft⟩ :=
    List.exists_of_eraseP (p := fun m : Mark => m.name == name) hm (by simp [hname])
  intro other
  have hcount := h other
  rw [hpending, List.countP_append, List.countP_cons] at hcount
  rw [hleft, openCount_snoc, ← hcount, List.countP_append]
  have hfound : found.name = name := by simpa using hfound
  by_cases hother : name = other
  · simp [Tag.leavesOpen, hfound, hother]
  · simp [Tag.leavesOpen, hfound, hother]

/-- How the pairing of events ends, behind some tags: all closing events find a tag of their name open,
or else the first that does not is reported. -/
inductive Paired (before : List Tag) (events : List Event) : Except MarkupError (List Mark) → Prop
  | balanced {marks : List Mark} (h : BalancedBehind before (events.map Event.tag)) :
    Paired before events (.ok marks)
  | unopened {earlier later : List Event} {e : Event} {name : Text}
    (hevents : events = earlier ++ e :: later) (htag : e.tag = .closing name)
    (hearlier : BalancedBehind before (earlier.map Event.tag))
    (hnone : openCount name (before ++ earlier.map Event.tag) = 0) :
    Paired before events (.error ⟨.unmatchedClose name, e.origin⟩)

theorem Paired.cons {before : List Tag} {e : Event} {events : List Event}
    {result : Except MarkupError (List Mark)} (h : Paired (before ++ [e.tag]) events result)
    (hopen : ∀ name, e.tag = .closing name → 0 < openCount name before) (f : List Mark → List Mark) :
    Paired before (e :: events) (result.map f) := by
  cases h with
  | balanced h => exact .balanced (balancedBehind_cons.2 ⟨hopen, h⟩)
  | @unopened earlier later e' name hevents htag hearlier hnone =>
    have hcons : e :: events = (e :: earlier) ++ e' :: later := by rw [hevents, List.cons_append]
    exact .unopened hcons htag (balancedBehind_cons.2 ⟨hopen, hearlier⟩) (by simpa using hnone)

theorem paired_pairFrom {pending : List Mark} {before : List Tag} (h : Agrees pending before)
    (events : List Event) : Paired before events (pairFrom pending events) := by
  induction events generalizing pending before with
  | nil => exact .balanced (balancedBehind_nil before)
  | cons e events ih =>
    rw [pairFrom]
    cases htag : e.tag with
    | opening name properties =>
      have hrest := ih (h.opening ⟨name, e.position, 0, properties⟩ properties)
      rw [← htag] at hrest
      have hpaired := hrest.cons (by simp [htag]) id
      rwa [Except.map_id] at hpaired
    | selfClosing name properties =>
      have hsame : Agrees pending (before ++ [e.tag]) := by
        intro other
        rw [openCount_snoc, htag]
        exact h other
      exact (ih hsame).cons (by simp [htag]) _
    | closing name =>
      cases hfind : pending.find? fun m => m.name == name with
      | none =>
        have hcount : openCount name before = 0 := by
          rw [← h name, List.countP_eq_zero]
          exact List.find?_eq_none.1 hfind
        have hnone : openCount name (before ++ [].map Event.tag) = 0 := by simpa using hcount
        simp only [hfind]
        exact .unopened (List.nil_append _).symm htag (balancedBehind_nil before) hnone
      | some m =>
        have hm := List.mem_of_find?_eq_some hfind
        have hname : m.name = name := by simpa using List.find?_some hfind
        have hrest := ih (h.closing ⟨m, hm, hname⟩)
        rw [← htag] at hrest
        simp only [hfind]
        refine hrest.cons ?_ _
        intro other hother
        cases htag.symm.trans hother
        rw [← h name, List.countP_pos_iff]
        exact ⟨m, hm, by simp [hname]⟩
    | closeAll =>
      have hnone : Agrees [] (before ++ [e.tag]) := by
        intro other
        rw [openCount_snoc, htag]
        rfl
      exact (ih hnone).cons (by simp [htag]) _

/-! Blame -/

def tagsIn (t : Text) : List Tag :=
  tagsFrom false (Piece.cut t)

def isReadable (locale : Locale) (t : Text) : Bool :=
  areReadable locale false (Piece.cut t)

/-- The tag that a line is refused for, between the pieces in front of it and those behind it. It is the
first that cannot be read or replaced; where there is none, the first that closes what is not open. -/
inductive Blames (locale : Locale) (before : List Piece) (contents : Text) (after : List Piece) :
    Cause → Prop
  | refused {cause : Cause} (hbefore : areReadable locale false before = true)
    (hshown : isHidden (rawBehind false before) contents = false)
    (h : (Tag.read contents).bind (Tag.effect locale) = .error cause) :
    Blames locale before contents after cause
  | unopened {name : Text} (hall : areReadable locale false (before ++ .tag contents :: after) = true)
    (hshown : isHidden (rawBehind false before) contents = false)
    (hread : Tag.read contents = .ok (.closing name)) (hname : name ∉ reservedNames)
    (hbefore : Balanced (tagsFrom false before)) (hnone : openCount name (tagsFrom false before) = 0) :
    Blames locale before contents after (.unmatchedClose name)

/-- A closing event that finds nothing open comes from a tag that is to blame. -/
theorem Reaches.blames {locale : Locale} {pieces : List Piece} {q : Place} {s : Scanned}
    (h : Reaches locale .start pieces q s) {earlier later : List Event} {e : Event} {name : Text}
    (hevents : s.events = earlier ++ e :: later) (htag : e.tag = .closing name)
    (hearlier : Balanced (earlier.map Event.tag)) (hnone : openCount name (earlier.map Event.tag) = 0) :
    ∃ before contents after, pieces = before ++ .tag contents :: after ∧
      Blames locale before contents after (.unmatchedClose name) ∧
      e.origin = (before.flatMap Piece.source).length := by
  obtain ⟨before, contents, after, r, t, trims, rfl, hreaches, rfl, hshown, heffect, horigin⟩ :=
    h.exists_of_event hevents
  have htallies := hreaches.tallies
  obtain ⟨tag, hread, hdo⟩ := exists_tag_of_bind heffect
  have hevent := (effect_agrees hdo).1
  rw [Effect.event?, htag] at hevent
  obtain ⟨rfl, hname⟩ := Tag.eq_closing_of_event? hevent.symm
  rw [htallies.tags_eq] at hearlier hnone
  rw [htallies.raw_eq] at hshown
  refine ⟨before, contents, after, rfl,
    .unopened h.tallies.readable hshown hread hname hearlier hnone, ?_⟩
  rw [horigin, hreaches.index_eq]

/-- A line without a label is read if its tags can be read and are balanced; otherwise it is refused for
the tag that is to blame, at the place of its bracket. -/
theorem readBody_cases (locale : Locale) (body : Text) :
    (isReadable locale body = true ∧ Balanced (tagsIn body) ∧
      ∃ marked, readBody locale body = .ok marked) ∨
    ∃ before contents after cause, Piece.cut body = before ++ .tag contents :: after ∧
      Blames locale before contents after cause ∧
      readBody locale body = .error ⟨cause, (before.flatMap Piece.source).length⟩ := by
  rcases scanFrom_reaches locale .start (Piece.cut body) with
    ⟨q, s, hreaches, hscan⟩ | ⟨before, contents, after, q, s, cause, hcut, hreaches, hstops, hscan⟩
  · rw [readBody_of_scan hscan]
    have htallies := hreaches.tallies
    have hpaired := paired_pairFrom agrees_nil s.resolveEscapes.events
    generalize hresult : pairFrom [] s.resolveEscapes.events = result at hpaired ⊢
    cases hpaired with
    | @balanced marks hbalanced =>
      left
      refine ⟨htallies.readable, ?_, _, rfl⟩
      have htags : s.resolveEscapes.events.map Event.tag = tagsIn body := by
        rw [Scanned.resolveEscapes, List.map_map]
        exact htallies.tags_eq
      rwa [htags] at hbalanced
    | @unopened earlier later e name hevents htag hearlier hnone =>
      right
      -- The second pass changes neither the tags nor their origins.
      rw [Scanned.resolveEscapes, List.map_eq_append_iff] at hevents
      obtain ⟨earlier, rest, hevents, rfl, hrest⟩ := hevents
      rw [List.map_eq_cons_iff] at hrest
      obtain ⟨e, later, rfl, rfl, rfl⟩ := hrest
      rw [List.map_map] at hearlier hnone
      obtain ⟨before, contents, after, hcut, hblames, horigin⟩ :=
        hreaches.blames hevents htag hearlier hnone
      exact ⟨before, contents, after, _, hcut, hblames, by rw [← horigin]; rfl⟩
  · right
    have htallies := hreaches.tallies
    have hshown := hstops.shown
    rw [htallies.raw_eq] at hshown
    refine ⟨before, contents, after, cause, hcut, .refused htallies.readable hshown hstops.refused, ?_⟩
    rw [← hreaches.index_eq]
    exact readBody_of_scan_error hscan

/-! Positions -/

/-- Where a tag begins in a line that has some pieces between its label and the tag. -/
def tagIndex (line : Text) (before : List Piece) : Nat :=
  (label line ++ before.flatMap Piece.source).length

theorem drop_tagIndex {line contents : Text} {before after : List Piece}
    (h : Piece.cut (unlabelled line) = before ++ .tag contents :: after) :
    line.drop (tagIndex line before) = '[' :: contents ++ ']' :: after.flatMap Piece.source := by
  have hline : line = (label line ++ before.flatMap Piece.source) ++
      ('[' :: contents ++ ']' :: after.flatMap Piece.source) := by
    have hbody := Piece.flatMap_source_cut (unlabelled line)
    rw [h] at hbody
    conv_lhs => rw [← label_append line, ← hbody]
    simp [Piece.source]
  rw [tagIndex]
  generalize label line ++ before.flatMap Piece.source = front at hline ⊢
  rw [hline]
  exact List.drop_left

theorem readLine_eq_error {locale : Locale} {line : Text} {e : MarkupError} :
    readLine locale line = .error e ↔ readBody locale (unlabelled line) = .error e := by
  rw [readLine_eq]
  cases readBody locale (unlabelled line) <;> simp [Except.map]

/-- An error is about a tag of the line, and gives the place where this tag begins, counted from behind
the label. So it points at the tag in the line just if there is no label. -/
theorem error_position {locale : Locale} {line : Text} {e : MarkupError}
    (h : readLine locale line = .error e) :
    ∃ before contents after, Piece.cut (unlabelled line) = before ++ .tag contents :: after ∧
      Blames locale before contents after e.cause ∧
      line.drop (tagIndex line before) = '[' :: contents ++ ']' :: after.flatMap Piece.source ∧
      tagIndex line before = (label line).length + e.position ∧
      (e.position = tagIndex line before ↔ speaker? line = none) ∧
      (speaker? line = none → (line.drop e.position).head? = some '[') := by
  rw [readLine_eq_error] at h
  rcases readBody_cases locale (unlabelled line) with
    ⟨-, -, marked, hmarked⟩ | ⟨before, contents, after, cause, hcut, hblames, herror⟩
  · rw [hmarked] at h
    cases h
  · rw [herror] at h
    cases h
    have hdrop := drop_tagIndex hcut
    have hindex : tagIndex line before =
        (label line).length + (before.flatMap Piece.source).length := List.length_append
    have hpoints : (before.flatMap Piece.source).length = tagIndex line before ↔
        speaker? line = none := by
      rw [← label_eq_nil_iff, ← List.length_eq_zero_iff, hindex]
      omega
    refine ⟨before, contents, after, hcut, hblames, hdrop, hindex, hpoints, ?_⟩
    intro hnone
    rw [hpoints.2 hnone, hdrop]
    rfl

theorem error_position_labelled :
    readLine english "Ada: Hi [/b] there".toList = .error ⟨.unmatchedClose "b".toList, 3⟩ ∧
      ∃ before, tagIndex "Ada: Hi [/b] there".toList before = 8 ∧
        "Ada: Hi [/b] there".toList.drop 8 = "[/b] there".toList := by
  have hread : readLine english "Ada: Hi [/b] there".toList =
      .error ⟨.unmatchedClose "b".toList, 3⟩ := by
    decide +kernel
  have hlabel : (label "Ada: Hi [/b] there".toList).length = 5 := by decide
  obtain ⟨before, contents, after, -, -, -, hindex, -⟩ := error_position hread
  exact ⟨hread, before, hindex.trans (congrArg (· + 3) hlabel), by decide⟩

/-! Lines in balance -/

theorem readProperty_ne_unmatchedClose {word name : Text} :
    Tag.readProperty word ≠ .error (.unmatchedClose name) := by
  unfold Tag.readProperty
  split
  · simp
  · split <;> simp

theorem read_ne_unmatchedClose (contents name : Text) : Tag.read contents ≠ .error (.unmatchedClose name) := by
  intro h
  unfold Tag.read at h
  split at h
  · cases h
  · split at h
    · split at h <;> cases h
    · rcases Play.error_of_bind_eq_error h with h | ⟨entries, -, h⟩
      · obtain ⟨word, -, hword⟩ := Play.error_of_mapM_eq_error h
        exact readProperty_ne_unmatchedClose hword
      · split at h
        · cases h
        · split at h <;> cases h

theorem replacement_ne_unmatchedClose (r : Replacement) (properties : Properties) (locale : Locale)
    (name : Text) :
    r.text properties locale ≠ .error (.unmatchedClose name) := by
  intro h
  unfold Replacement.text at h
  split at h
  · cases h
  · rename_i value _
    rcases Play.error_of_bind_eq_error h with h | ⟨⟨case, number⟩, -, h⟩
    · unfold Replacement.choose at h
      split at h <;> cases h
    · dsimp only at h
      split at h <;> cases h

theorem effectOf_ne_unmatchedClose (other : Text) (properties : Properties) (selfClosing : Bool)
    (locale : Locale) (name : Text) :
    effectOf other properties selfClosing locale ≠ .error (.unmatchedClose name) := by
  intro h
  unfold effectOf at h
  split at h
  · cases h
  · split at h
    · rename_i r _
      cases hr : r.text properties locale with
      | error cause =>
        rw [hr] at h
        cases h
        exact replacement_ne_unmatchedClose r properties locale name hr
      | ok t => simp [hr, Except.map] at h
    · dsimp only at h
      split at h <;> cases h

theorem refused_ne_unmatchedClose (locale : Locale) (contents name : Text) :
    (Tag.read contents).bind (Tag.effect locale) ≠ .error (.unmatchedClose name) := by
  intro h
  rcases Play.error_of_bind_eq_error h with h | ⟨tag, -, h⟩
  · exact read_ne_unmatchedClose contents name h
  · cases tag with
    | opening other properties => exact effectOf_ne_unmatchedClose other properties false locale name h
    | selfClosing other properties => exact effectOf_ne_unmatchedClose other properties true locale name h
    | closing other => cases h
    | closeAll => cases h

/-- A line that is refused since a tag in it closes what is not open. -/
def Unmatched (locale : Locale) (line : Text) : Prop :=
  ∃ name position, readLine locale line = .error ⟨.unmatchedClose name, position⟩

theorem Blames.not_balanced {locale : Locale} {contents name : Text} {before after : List Piece}
    (h : Blames locale before contents after (.unmatchedClose name)) :
    areReadable locale false (before ++ .tag contents :: after) = true ∧
      ¬ Balanced (tagsFrom false (before ++ .tag contents :: after)) := by
  cases h with
  | refused _ _ h => exact absurd h (refused_ne_unmatchedClose locale contents name)
  | unopened hall hshown hread hname _ hnone =>
    refine ⟨hall, fun hbalanced => ?_⟩
    have htags : tagsFrom false (before ++ .tag contents :: after) =
        tagsFrom false before ++ .closing name ::
          tagsFrom ((Piece.tag contents).rawAfter (rawBehind false before)) after := by
      rw [tagsFrom_append, tagsFrom, tag?_eq hshown hread]
      simp [Tag.event?, hname]
    have hopen := hbalanced _ name _ htags
    rw [List.nil_append, hnone] at hopen
    exact absurd hopen (Nat.lt_irrefl 0)

theorem Blames.unmatched_of_readable {locale : Locale} {contents : Text} {before after : List Piece}
    {cause : Cause} (h : Blames locale before contents after cause)
    (hall : areReadable locale false (before ++ .tag contents :: after) = true) :
    ∃ name, cause = .unmatchedClose name := by
  cases h with
  | refused _ hshown h =>
    rw [areReadable_append, areReadable, Piece.isReadable, hshown, h] at hall
    simp [Except.isOk, Except.toBool] at hall
  | @unopened name => exact ⟨name, rfl⟩

theorem unmatched_iff {locale : Locale} {line : Text} :
    Unmatched locale line ↔
      isReadable locale (unlabelled line) = true ∧ ¬ Balanced (tagsIn (unlabelled line)) := by
  unfold Unmatched isReadable tagsIn
  simp only [readLine_eq_error]
  rcases readBody_cases locale (unlabelled line) with
    ⟨-, hbalanced, marked, hmarked⟩ | ⟨before, contents, after, cause, hcut, hblames, herror⟩
  · simp only [hmarked, reduceCtorEq, exists_false, false_iff, not_and, not_not]
    exact fun _ => hbalanced
  · rw [hcut, herror]
    constructor
    · rintro ⟨name, position, he⟩
      cases he
      exact hblames.not_balanced
    · rintro ⟨hall, -⟩
      obtain ⟨name, rfl⟩ := hblames.unmatched_of_readable hall
      exact ⟨name, _, rfl⟩

/-! Labels without tags -/

def Piece.isTag : Piece → Bool
  | .tag _ => true
  | _ => false

def piecesWithin : Nat → List Piece → List Piece
  | 0, _ => []
  | _, [] => []
  | n + 1, piece :: rest => piece :: piecesWithin (n + 1 - piece.length) rest

/-- Whether no tag begins within the label of a line. -/
def hasPlainLabel (line : Text) : Bool :=
  (piecesWithin (label line).length (Piece.cut line)).all fun piece => !piece.isTag

theorem piecesWithin_cons {n : Nat} (h : 0 < n) (piece : Piece) (rest : List Piece) :
    piecesWithin n (piece :: rest) = piece :: piecesWithin (n - piece.length) rest := by
  cases n with
  | zero => omega
  | succ n => rfl

@[simp] theorem cut_escaped (c : Char) (t : Text) :
    Piece.cut ('\\' :: c :: t) = .escaped c :: Piece.cut t := by
  rw [Piece.cut.eq_def]
  rfl

theorem cut_cons_cases {c : Char} (hc : c ≠ '\\') (t : Text) :
    Piece.cut (c :: t) = .plain c :: Piece.cut t ∨
      ∃ contents rest, Piece.cut (c :: t) = .tag contents :: Piece.cut rest := by
  rw [Piece.cut.eq_def]
  dsimp only
  by_cases hbracket : c = '['
  · rw [if_pos hbracket]
    split
    · exact .inr ⟨_, _, rfl⟩
    · exact .inl rfl
  · rw [if_neg hbracket, if_neg hc]
    exact .inl rfl

/-- Where no tag begins and no escape is cut in two, a line can be cut into pieces from there on. -/
theorem exists_cut_append {t : Text} (hlast : t.getLast? ≠ some '\\') (rest : Text)
    (h : ∀ piece ∈ piecesWithin t.length (Piece.cut (t ++ rest)), piece.isTag = false) :
    ∃ front, Piece.cut (t ++ rest) = front ++ Piece.cut rest ∧ ∀ piece ∈ front, piece.isTag = false := by
  -- An escape takes two characters, so the induction is on how many there are.
  induction hn : t.length using Nat.strong_induction_on generalizing t with
  | _ n ih =>
    have htag : ∀ contents more, t ≠ [] → Piece.cut (t ++ rest) ≠ .tag contents :: more := by
      intro contents more hne hcut
      rw [hcut, piecesWithin_cons (List.length_pos_iff.2 hne), List.forall_mem_cons] at h
      cases h.1
    have hpiece : ∀ (u : Text) (piece : Piece), u.length + piece.length = n → 0 < piece.length →
        u.getLast? ≠ some '\\' → Piece.cut (t ++ rest) = piece :: Piece.cut (u ++ rest) →
        ∃ front, Piece.cut (t ++ rest) = front ++ Piece.cut rest ∧
          ∀ piece ∈ front, piece.isTag = false := by
      intro u piece hlength hpos hu hcut
      have hrest : t.length - piece.length = u.length := by omega
      rw [hcut, piecesWithin_cons (by omega), hrest, List.forall_mem_cons] at h
      obtain ⟨front, hfront, hplain⟩ := ih u.length (by omega) hu h.2 rfl
      exact ⟨piece :: front, by rw [hcut, hfront, List.cons_append],
        List.forall_mem_cons.2 ⟨h.1, hplain⟩⟩
    match t with
    | [] => exact ⟨[], rfl, by simp⟩
    | [c] =>
      have hc : c ≠ '\\' := fun hc => hlast (by rw [hc]; rfl)
      rcases cut_cons_cases hc rest with hcut | ⟨contents, more, hcut⟩
      · exact hpiece [] (.plain c) hn Nat.one_pos (by simp) hcut
      · exact absurd hcut (htag contents _ (by simp))
    | c :: d :: t =>
      rw [List.getLast?_cons_cons] at hlast
      by_cases hc : c = '\\'
      · subst hc
        refine hpiece t (.escaped d) hn Nat.two_pos ?_ (cut_escaped d (t ++ rest))
        cases t with
        | nil => simp
        | cons e t => rwa [List.getLast?_cons_cons] at hlast
      · rcases cut_cons_cases hc (d :: t ++ rest) with hcut | ⟨contents, more, hcut⟩
        · exact hpiece (d :: t) (.plain c) hn Nat.one_pos hlast hcut
        · exact absurd hcut (htag contents _ (by simp))

theorem tag?_of_isTag {piece : Piece} (h : piece.isTag = false) (raw : Bool) : piece.tag? raw = none := by
  cases piece with
  | plain c => rfl
  | escaped c => rfl
  | tag contents => cases h

theorem tagsFrom_behind {front : List Piece} (h : ∀ piece ∈ front, piece.isTag = false) (raw : Bool)
    (pieces : List Piece) : tagsFrom raw (front ++ pieces) = tagsFrom raw pieces := by
  induction front with
  | nil => rfl
  | cons piece front ih =>
    rw [List.forall_mem_cons] at h
    have htag := tag?_of_isTag h.1 raw
    rw [List.cons_append, tagsFrom, Piece.rawAfter, htag]
    exact ih h.2

theorem getLast?_label (line : Text) : (label line).getLast? ≠ some '\\' := by
  rcases label_cases line with ⟨-, hlabel, -⟩ | ⟨name, blanks, hne, hblank, -, hlabel, -⟩
  · simp [hlabel]
  · intro hlast
    have hmem : (':' :: blanks).getLast? = some '\\' := by
      rwa [hlabel, List.getLast?_append_of_ne_nil _ (by simp)] at hlast
    obtain ⟨c, blanks, rfl⟩ := List.exists_cons_of_ne_nil hne
    rw [List.getLast?_cons_cons] at hmem
    exact absurd (hblank _ (List.mem_of_getLast? hmem)) (by decide)

theorem tagsIn_unlabelled {line : Text} (h : hasPlainLabel line = true) :
    tagsIn (unlabelled line) = tagsIn line := by
  have hplain : ∀ piece ∈ piecesWithin (label line).length (Piece.cut (label line ++ unlabelled line)),
      piece.isTag = false := by
    rw [label_append]
    simpa [hasPlainLabel] using h
  obtain ⟨front, hcut, hfront⟩ := exists_cut_append (getLast?_label line) (unlabelled line) hplain
  rw [label_append] at hcut
  rw [tagsIn, tagsIn, hcut, tagsFrom_behind hfront]

/-- A balanced line is not refused as unmatched unless a tag begins within its label. With such a tag, it is
refused just if the tags behind the label can all be read and are not balanced any more. -/
theorem balanced_unmatched_iff {line : Text} (h : Balanced (tagsIn line)) (locale : Locale) :
    (hasPlainLabel line = true → ¬ Unmatched locale line) ∧
      (Unmatched locale line ↔
        isReadable locale (unlabelled line) = true ∧ ¬ Balanced (tagsIn (unlabelled line))) := by
  refine ⟨fun hplain hunmatched => ?_, unmatched_iff⟩
  have hbalanced := (unmatched_iff.1 hunmatched).2
  rw [tagsIn_unlabelled hplain] at hbalanced
  exact hbalanced h

/-- Korean, with a library that knows no other language. All numbers are counted alike. -/
def korean : Locale :=
  ⟨"ko".toList, fun _ name => if name = "ko".toList then some fun _ => some .other else none⟩

/-- In the first line colons stand behind the label, in a tag that is plain text and behind an escaped
bracket. The other lines lose their opening tag to the label. A replacement in the last one has no text
for the number in English, and this is what the line is refused for. -/
theorem balanced_unmatched_labels :
    let kept := "Ada: [b]No: [nomarkup][/i: [/nomarkup]\\[/i] x[/b]".toList
    let lost := "[b]Ada: hi[/b]".toList
    let counted := "[b]Ada: [plural value=1 other=x/] hi[/b]".toList
    (Balanced (tagsIn kept) ∧ hasPlainLabel kept = true ∧ ¬ Unmatched english kept) ∧
      (Balanced (tagsIn lost) ∧ Unmatched english lost) ∧
      Balanced (tagsIn counted) ∧ Unmatched korean counted ∧ ¬ Unmatched english counted := by
  intro kept lost counted
  have hkept : Balanced (tagsIn kept) := by decide +kernel
  have hplain : hasPlainLabel kept = true := by decide +kernel
  have hlost : Balanced (tagsIn lost) := by decide +kernel
  have hbehind : isReadable english (unlabelled lost) = true ∧
      ¬ Balanced (tagsIn (unlabelled lost)) := by
    decide +kernel
  have hcounted : Balanced (tagsIn counted) := by decide +kernel
  have hkorean : isReadable korean (unlabelled counted) = true ∧
      ¬ Balanced (tagsIn (unlabelled counted)) := by
    decide +kernel
  have henglish : ¬ isReadable english (unlabelled counted) = true := by decide +kernel
  exact ⟨⟨hkept, hplain, (balanced_unmatched_iff hkept _).1 hplain⟩,
    ⟨hlost, (balanced_unmatched_iff hlost _).2.2 hbehind⟩, hcounted,
    (balanced_unmatched_iff hcounted _).2.2 hkorean,
    fun h => henglish ((balanced_unmatched_iff hcounted _).2.1 h).1⟩

end Parley.Markup
