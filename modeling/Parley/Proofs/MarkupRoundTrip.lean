import Mathlib.Data.List.Basic
import Mathlib.Data.List.TakeWhile
import Parley.Markup.Line
set_option autoImplicit false

/-!
Documents with nested spans, written as lines with markup and read back.

In the scanned text an escape takes two characters and in the final text one, so the events of a
document are stated for any way of measuring text. The second pass takes one measure to the other, and
the third pairs what the document has nested.
-/

namespace Parley.Markup

/-- English, with a library that knows no more than its rule for amounts. -/
def english : Locale :=
  ⟨"en".toList, fun counting name =>
    if counting = .cardinal ∧ name = "en".toList then
      some fun x => some (if x.abs == 1 then .one else .other)
    else none⟩

/-! Documents -/

/-- The characters that stand for themselves in a line only behind a backslash. -/
def isSpecial (c : Char) : Bool :=
  c == '\\' || c == '[' || c == ']'

def escapeChar (c : Char) : Text :=
  if isSpecial c then ['\\', c] else [c]

def escape (t : Text) : Text :=
  t.flatMap escapeChar

def reservedNames : List Text :=
  ["select".toList, "plural".toList, "ordinal".toList, "nomarkup".toList]

structure SpanName where
  text : Text
  nonempty : text ≠ []
  plain : ∀ c ∈ text, Text.isBlank c = false ∧ c ∉ ['=', '/', '[', ']', '\\']
  unreserved : text ∉ reservedNames

inductive Document where
  | done
  | text (t : Text) (rest : Document)
  | span (name : SpanName) (contents rest : Document)

namespace Document

def print : Document → Text
  | .done => []
  | .text t rest => escape t ++ rest.print
  | .span name contents rest =>
    '[' :: name.text ++ ']' :: contents.print ++ '[' :: '/' :: name.text ++ ']' :: rest.print

def spoken : Document → Text
  | .done => []
  | .text t rest => t ++ rest.spoken
  | .span _ contents rest => contents.spoken ++ rest.spoken

/-- The spans of a document that starts at a position, in the order in which they close. -/
def marks (position : Nat) : Document → List Mark
  | .done => []
  | .text t rest => rest.marks (position + t.length)
  | .span name contents rest =>
    contents.marks position ++ ⟨name.text, position, contents.spoken.length, []⟩ ::
      rest.marks (position + contents.spoken.length)

end Document

/-- A line that begins with a label: a word, a colon behind it and then a blank. -/
def Labelled (line : Text) : Prop :=
  ∃ word blank rest, word ≠ [] ∧ (∀ c ∈ word, Text.isBlank c = false) ∧ Text.isBlank blank = true ∧
    line = word ++ ':' :: blank :: rest

theorem speaker?_eq_none_iff {line : Text} : speaker? line = none ↔ ¬ Labelled line := by
  constructor
  · rintro h ⟨word, blank, rest, hne, hword, hblank, rfl⟩
    have hword' : ∀ c ∈ word, (!Text.isBlank c) = true := by simpa using hword
    have htake : (word ++ ':' :: blank :: rest).takeWhile (fun c => !Text.isBlank c) = word ++ [':'] := by
      rw [List.takeWhile_append_of_pos hword']
      simp [hblank, show Text.isBlank ':' = false by decide]
    have hdrop : (word ++ ':' :: blank :: rest).dropWhile (fun c => !Text.isBlank c) =
        blank :: rest := by
      rw [List.dropWhile_append_of_pos hword']
      simp [hblank, show Text.isBlank ':' = false by decide]
    have hlength : 0 < word.length := List.length_pos_iff.2 hne
    simp only [speaker?, htake, hdrop, List.getLast?_concat, List.length_append, List.length_cons,
      List.length_nil] at h
    rw [if_pos ⟨trivial, by omega, by simp⟩] at h
    cases h
  · intro h
    unfold speaker?
    dsimp only
    split
    · rename_i hs
      obtain ⟨hcolon, hlength, hrest⟩ := hs
      obtain ⟨front, hword⟩ := List.getLast?_eq_some_iff.1 hcolon
      obtain ⟨blank, rest, hdrop⟩ := List.exists_cons_of_ne_nil hrest
      have hline := List.takeWhile_append_dropWhile (p := fun c => !Text.isBlank c) (l := line)
      have hblank := List.head?_dropWhile_not (fun c => !Text.isBlank c) line
      have hfront : ∀ c ∈ front ++ [':'], Text.isBlank c = false := by
        intro c hc
        rw [← hword] at hc
        simpa using List.mem_takeWhile_imp hc
      rw [hword, hdrop, List.append_assoc] at hline
      rw [hword] at hlength
      refine absurd ⟨front, blank, rest, ?_, ?_, ?_, hline.symm⟩ h
      · rintro rfl
        simp at hlength
      · exact fun c hc => hfront c (List.mem_append_left _ hc)
      · simpa [hdrop] using hblank
    · rfl

/-! Escapes -/

theorem escape_cons (c : Char) (t : Text) : escape (c :: t) = escapeChar c ++ escape t := rfl

@[simp] theorem escape_append (t u : Text) : escape (t ++ u) = escape t ++ escape u :=
  List.flatMap_append

theorem ne_backslash {c : Char} (h : isSpecial c = false) : c ≠ '\\' := by
  rintro rfl
  simp [isSpecial] at h

@[simp] theorem unescape_escape (t : Text) : Text.unescape (escape t) = t := by
  induction t with
  | nil => rfl
  | cons c t ih =>
    rw [escape_cons, escapeChar]
    cases hc : isSpecial c with
    | true => simp [Text.unescape, ih]
    | false => simp [Text.unescape_plain (ne_backslash hc), ih]

theorem shiftFrom_plain {c : Char} (h : c ≠ '\\') (t : Text) (resolved position : Nat) :
    shiftFrom (c :: t) resolved position = shiftFrom t (resolved + 1) position := by
  cases t <;> simp [shiftFrom, h]

theorem shiftFrom_of_le (t : Text) {resolved position : Nat} (h : position ≤ resolved) :
    shiftFrom t resolved position = position := by
  fun_induction shiftFrom t resolved position with
  | case1 => rfl
  | case2 => rfl
  | case3 d t resolved position ih =>
    rw [if_neg (by omega)] at ih ⊢
    exact ih (by omega)
  | case4 c d t resolved position hc ih => exact ih (by omega)

theorem shiftFrom_escape (t after : Text) (resolved : Nat) :
    shiftFrom (escape (t ++ after)) resolved (resolved + (escape t).length) =
      resolved + t.length := by
  induction t generalizing resolved with
  | nil => exact shiftFrom_of_le _ (by simp [escape])
  | cons c t ih =>
    have hih := ih (resolved + 1)
    rw [List.cons_append, escape_cons, escape_cons, escapeChar]
    cases hc : isSpecial c with
    | true =>
      have hposition : resolved + ((escape t).length + 1 + 1) - 1 =
          resolved + 1 + (escape t).length := by
        omega
      simp only [if_true, List.cons_append, List.nil_append, List.length_cons, shiftFrom]
      rw [if_pos (by omega), hposition, hih]
      omega
    | false =>
      simp only [Bool.false_eq_true, if_false, List.cons_append, List.nil_append, List.length_cons]
      rw [shiftFrom_plain (ne_backslash hc), ← Nat.add_assoc, Nat.add_right_comm, hih]
      omega

@[simp] theorem shift_escape (t after : Text) :
    shift (escape (t ++ after)) (escape t).length = t.length := by
  simpa [shift] using shiftFrom_escape t after 0

/-! Pieces -/

def pieceOf (c : Char) : Piece :=
  if isSpecial c then .escaped c else .plain c

@[simp] theorem length_pieceOf (c : Char) : (pieceOf c).length = (escapeChar c).length := by
  unfold pieceOf escapeChar
  split <;> rfl

@[simp] theorem cut_char (c : Char) (rest : Text) :
    Piece.cut (escapeChar c ++ rest) = pieceOf c :: Piece.cut rest := by
  unfold escapeChar pieceOf
  cases hc : isSpecial c with
  | true => simp [Piece.cut]
  | false =>
    have hbracket : c ≠ '[' := by
      rintro rfl
      simp [isSpecial] at hc
    rw [Piece.cut.eq_def]
    simp [hbracket, ne_backslash hc]

@[simp] theorem cut_escape (t rest : Text) :
    Piece.cut (escape t ++ rest) = t.map pieceOf ++ Piece.cut rest := by
  induction t with
  | nil => rfl
  | cons c t ih =>
    rw [escape_cons, List.append_assoc, cut_char, ih, List.map_cons, List.cons_append]

theorem untilBracket?_plain {t : Text} (h : ∀ c ∈ t, c ≠ ']' ∧ c ≠ '\\') (rest : Text) :
    Piece.untilBracket? (t ++ ']' :: rest) = some (t, rest) := by
  induction t with
  | nil => cases rest <;> simp [Piece.untilBracket?]
  | cons c t ih =>
    rw [List.forall_mem_cons] at h
    have hrest := ih h.2
    cases ht : t ++ ']' :: rest with
    | nil => simp at ht
    | cons d u =>
      rw [ht] at hrest
      simp [ht, Piece.untilBracket?, h.1, hrest]

theorem cut_tag {contents : Text} (hne : contents ≠ []) (h : ∀ c ∈ contents, c ≠ ']' ∧ c ≠ '\\')
    (rest : Text) :
    Piece.cut ('[' :: contents ++ ']' :: rest) = .tag contents :: Piece.cut rest := by
  obtain ⟨c, t, rfl⟩ := List.exists_cons_of_ne_nil hne
  have hcontents : Piece.tagContents? (c :: t ++ ']' :: rest) = some (c :: t, rest) := by
    rw [← untilBracket?_plain h rest]
    have hc : c ≠ ']' := (h c (by simp)).1
    unfold Piece.tagContents?
    split
    · rename_i heq
      simp at heq
      exact absurd heq.1 hc
    · rfl
  rw [List.cons_append, Piece.cut.eq_def]
  simp only [if_true]
  split
  · rename_i heq
    rw [hcontents] at heq
    cases heq
    rfl
  · rename_i heq
    rw [hcontents] at heq
    cases heq

/-! Tags -/

namespace SpanName

variable (name : SpanName)

theorem not_bracket : ∀ c ∈ name.text, c ≠ ']' ∧ c ≠ '\\' := by
  intro c hc
  have := (name.plain c hc).2
  simp only [List.mem_cons, not_or] at this
  exact ⟨this.2.2.2.1, this.2.2.2.2.1⟩

theorem isNameChar : ∀ c ∈ name.text, Tag.isNameChar c = true := by
  intro c hc
  obtain ⟨hblank, hplain⟩ := name.plain c hc
  simp only [List.mem_cons, not_or] at hplain
  simp [Tag.isNameChar, hblank, hplain]

theorem ne_slash : ∀ c ∈ name.text, c ≠ '/' := by
  intro c hc
  have := (name.plain c hc).2
  simp only [List.mem_cons, not_or] at this
  exact this.2.1

theorem leadingName? : Tag.leadingName? name.text = some (name.text, []) := by
  have htake : name.text.takeWhile Tag.isNameChar = name.text :=
    List.takeWhile_eq_self_iff.2 name.isNameChar
  have hdrop : name.text.dropWhile Tag.isNameChar = [] :=
    List.dropWhile_eq_nil_iff.2 name.isNameChar
  simp [Tag.leadingName?, htake, hdrop, name.nonempty]

theorem name? : Tag.name? name.text = some name.text := by
  unfold Tag.name?
  split
  · rename_i t heq
    exact absurd rfl (name.ne_slash '/' (by simp [heq]))
  · rw [name.leadingName?]
    rfl

@[simp] theorem read_opening : Tag.read name.text = .ok (.opening name.text []) := by
  have hall : name.text ≠ ['/'] := by
    intro h
    exact name.ne_slash '/' (by simp [h]) rfl
  have hhead : name.text.head? ≠ some '/' := fun h =>
    name.ne_slash '/' (List.mem_of_head? h) rfl
  have hlast : name.text.getLast? ≠ some '/' := fun h =>
    name.ne_slash '/' (List.mem_of_getLast? h) rfl
  simp [Tag.read, hall, hhead, hlast, name.leadingName?, name.name?, Tag.propertyWords, Table.ofList,
    bind, Except.bind, pure, Except.pure]

@[simp] theorem read_closing : Tag.read ('/' :: name.text) = .ok (.closing name.text) := by
  have hname : Tag.name? ('/' :: name.text) = some name.text := by
    simp [Tag.name?, name.leadingName?]
  simp [Tag.read, hname, name.nonempty]

theorem ne_noMarkup : name.text ≠ noMarkup := by
  intro h
  apply name.unreserved
  rw [h]
  exact .tail _ (.tail _ (.tail _ (.head _)))

theorem ofName? : Replacement.ofName? name.text = none := by
  have := name.unreserved
  unfold reservedNames at this
  rw [List.mem_cons, List.mem_cons, List.mem_cons, not_or, not_or, not_or] at this
  obtain ⟨hselect, hplural, hordinal, -⟩ := this
  rw [Replacement.ofName?, if_neg hselect, if_neg hplural, if_neg hordinal]

@[simp] theorem effect_opening (locale : Locale) :
    Tag.effect locale (.opening name.text []) = .ok (.emit (.opening name.text []) false) := by
  rw [Tag.effect, effectOf, if_neg name.ne_noMarkup, name.ofName?]
  rfl

@[simp] theorem effect_closing (locale : Locale) :
    Tag.effect locale (.closing name.text) = .ok (.emit (.closing name.text) false) := by
  rw [Tag.effect, if_neg name.ne_noMarkup, name.ofName?]
  rfl

end SpanName

namespace Document

def pieces : Document → List Piece
  | .done => []
  | .text t rest => t.map pieceOf ++ rest.pieces
  | .span name contents rest =>
    .tag name.text :: contents.pieces ++ .tag ('/' :: name.text) :: rest.pieces

/-- The tags of a document in the order of the line, with their origins. Positions count text by the
given measure. -/
def events (size : Text → Nat) (origin position : Nat) : Document → List Event
  | .done => []
  | .text t rest => rest.events size (origin + (escape t).length) (position + size t)
  | .span name contents rest =>
    let inside := origin + name.text.length + 2
    let closing := inside + contents.print.length
    let behind := position + size contents.spoken
    ⟨.opening name.text [], position, origin⟩ :: contents.events size inside position ++
      ⟨.closing name.text, behind, closing⟩ :: rest.events size (closing + name.text.length + 3) behind

theorem length_print_span (name : SpanName) (contents rest : Document) :
    (span name contents rest).print.length =
      name.text.length + 2 + contents.print.length + name.text.length + 3 + rest.print.length := by
  simp only [print, List.length_append, List.length_cons]
  omega

@[simp] theorem cut_print (d : Document) (rest : Text) :
    Piece.cut (d.print ++ rest) = d.pieces ++ Piece.cut rest := by
  induction d generalizing rest with
  | done => rfl
  | text t more ih => simp [print, pieces, ih]
  | span name contents more ihc ihm =>
    have hopen := cut_tag name.nonempty name.not_bracket
    have hslash : ∀ c ∈ '/' :: name.text, c ≠ ']' ∧ c ≠ '\\' := by
      rw [List.forall_mem_cons]
      exact ⟨by decide, name.not_bracket⟩
    have hclose := cut_tag (by simp) hslash
    simp only [print, pieces, List.cons_append, List.append_assoc] at hopen hclose ⊢
    rw [hopen, ihc, hclose, ihm]

end Document

def Scanned.behind (t : Text) (events : List Event) (s : Scanned) : Scanned :=
  ⟨t ++ s.text, events ++ s.events⟩

theorem map_behind_behind (x : Except MarkupError Scanned) (t u : Text) (es fs : List Event) :
    (x.map (Scanned.behind u fs)).map (Scanned.behind t es) =
      x.map (Scanned.behind (t ++ u) (es ++ fs)) := by
  cases x with
  | error e => rfl
  | ok s => simp [Except.map, Scanned.behind]

section Scanning

variable (locale : Locale)

theorem scanFrom_char (p : Place) (c : Char) (rest : List Piece) :
    scanFrom locale p (pieceOf c :: rest) =
      (scanFrom locale (p.past (pieceOf c) (escapeChar c).length) rest).map
        (.behind (escapeChar c) []) := by
  unfold pieceOf escapeChar
  cases isSpecial c <;> rfl

theorem scanFrom_text (t : Text) (rest : List Piece) (p : Place) :
    ∃ blank, scanFrom locale p (t.map pieceOf ++ rest) =
      (scanFrom locale ⟨p.index + (escape t).length, p.length + (escape t).length, p.raw, blank⟩
        rest).map (.behind (escape t) []) := by
  induction t generalizing p with
  | nil =>
    refine ⟨p.afterBlank, ?_⟩
    cases h : scanFrom locale p rest <;> simp [escape, Except.map, Scanned.behind, h]
  | cons c t ih =>
    obtain ⟨blank, h⟩ := ih (p.past (pieceOf c) (escapeChar c).length)
    refine ⟨blank, ?_⟩
    rw [List.map_cons, List.cons_append, scanFrom_char, h, map_behind_behind]
    simp [Place.past, escape_cons, Nat.add_assoc]

theorem scanFrom_tag {contents : Text} {tag : Tag} (hread : Tag.read contents = .ok tag)
    (heffect : Tag.effect locale tag = .ok (.emit tag false)) (rest : List Piece) (p : Place)
    (hraw : p.raw = false) :
    scanFrom locale p (.tag contents :: rest) =
      (scanFrom locale ⟨p.index + contents.length + 2, p.length, false, false⟩ rest).map
        (.behind [] [⟨tag, p.length, p.index⟩]) := by
  have hpast : p.past (.tag contents) 0 = ⟨p.index + contents.length + 2, p.length, false, false⟩ := by
    simp [Place.past, Piece.length, Piece.endsBlank, hraw, Nat.add_assoc]
  simp only [scanFrom, hraw, Bool.false_and, Bool.false_eq_true, if_false, hread, Except.bind,
    heffect, hpast]
  cases rest with
  | nil => rfl
  | cons next rest => rfl

theorem scanFrom_pieces (d : Document) (rest : List Piece) (p : Place) (hraw : p.raw = false) :
    ∃ blank, scanFrom locale p (d.pieces ++ rest) =
      (scanFrom locale
        ⟨p.index + d.print.length, p.length + (escape d.spoken).length, false, blank⟩ rest).map
        (.behind (escape d.spoken) (d.events (fun t => (escape t).length) p.index p.length)) := by
  induction d generalizing p rest with
  | done =>
    refine ⟨p.afterBlank, ?_⟩
    obtain ⟨index, length, raw, blank⟩ := p
    cases hraw
    cases h : scanFrom locale ⟨index, length, false, blank⟩ rest <;>
      simp [Document.pieces, Document.print, Document.spoken, Document.events, escape, Except.map,
        Scanned.behind, h]
  | text t more ih =>
    obtain ⟨blank, ht⟩ := scanFrom_text locale t (more.pieces ++ rest) p
    obtain ⟨blank', hm⟩ := ih rest
      ⟨p.index + (escape t).length, p.length + (escape t).length, p.raw, blank⟩ hraw
    refine ⟨blank', ?_⟩
    rw [Document.pieces, List.append_assoc, ht, hm, map_behind_behind]
    simp [Document.print, Document.spoken, Document.events, Nat.add_assoc]
  | span name contents more ihc ihm =>
    have hopen := scanFrom_tag locale name.read_opening (name.effect_opening locale)
    have hclose := scanFrom_tag locale name.read_closing (name.effect_closing locale)
    simp only [Document.pieces, List.cons_append, List.append_assoc]
    rw [hopen _ p hraw]
    obtain ⟨blank, hc⟩ := ihc (.tag ('/' :: name.text) :: (more.pieces ++ rest))
      ⟨p.index + name.text.length + 2, p.length, false, false⟩ rfl
    rw [hc, hclose _ _ rfl]
    obtain ⟨blank', hm⟩ := ihm rest
      ⟨p.index + name.text.length + 2 + contents.print.length + (name.text.length + 1) + 2,
        p.length + (escape contents.spoken).length, false, false⟩ rfl
    refine ⟨blank', ?_⟩
    rw [List.length_cons, hm, map_behind_behind, map_behind_behind, map_behind_behind,
      Document.length_print_span]
    simp [Document.spoken, Document.events, Nat.add_assoc]

end Scanning

/-- The second pass takes the events to the positions of the text without escapes. -/
theorem shift_events (d : Document) (before after : Text) (origin : Nat) :
    (d.events (fun t => (escape t).length) origin (escape before).length).map
        (fun e => { e with position := shift (escape (before ++ d.spoken ++ after)) e.position }) =
      d.events List.length origin before.length := by
  induction d generalizing before after origin with
  | done => rfl
  | text t rest ih =>
    have h := ih (before ++ t) after (origin + (escape t).length)
    simpa [Document.events, Document.spoken, List.append_assoc] using h
  | span name contents rest ihc ihr =>
    have hc := ihc before (rest.spoken ++ after) (origin + name.text.length + 2)
    have hr := ihr (before ++ contents.spoken) after
      (origin + name.text.length + 2 + contents.print.length + name.text.length + 3)
    have hopen := shift_escape before (contents.spoken ++ rest.spoken ++ after)
    have hclose := shift_escape (before ++ contents.spoken) (rest.spoken ++ after)
    simp only [escape_append, List.length_append, List.append_assoc] at hc hr hopen hclose
    simp [Document.events, Document.spoken, hc, hr, hopen, hclose]

/-- The third pass closes each span where it ends, and leaves what was open around the document. -/
theorem pairFrom_events (d : Document) (pending : List Mark) (origin position : Nat)
    (more : List Event) :
    pairFrom pending (d.events List.length origin position ++ more) =
      (pairFrom pending more).map (d.marks position ++ ·) := by
  induction d generalizing pending origin position more with
  | done => cases h : pairFrom pending more <;> simp [Document.events, Document.marks, Except.map, h]
  | text t rest ih => exact ih pending _ _ more
  | span name contents rest ihc ihr =>
    simp only [Document.events, Document.marks, List.cons_append, List.append_assoc, pairFrom, ihc,
      List.find?_cons_of_pos, List.eraseP_cons_of_pos, BEq.rfl, ihr]
    cases pairFrom pending more with
    | error e => rfl
    | ok found => simp [Except.map, Mark.closeAt]

theorem scan_print (locale : Locale) (d : Document) :
    scan locale d.print = .ok ⟨escape d.spoken, d.events (fun t => (escape t).length) 0 0⟩ := by
  have hcut : Piece.cut d.print = d.pieces := by
    have h := d.cut_print []
    rwa [List.append_nil, Piece.cut.eq_def [], List.append_nil] at h
  obtain ⟨blank, h⟩ := scanFrom_pieces locale d [] .start rfl
  rw [List.append_nil] at h
  rw [scan, hcut, h]
  simp [scanFrom, Except.map, Scanned.behind, Place.start]

/-- A document that is written as a line without a label is read back: the text of the line is the text
of the document, and the marks are its spans. -/
theorem readLine_print (locale : Locale) (d : Document) (h : ¬ Labelled d.print) :
    readLine locale d.print = .ok ⟨d.spoken, d.marks 0⟩ := by
  have hevents := shift_events d [] [] 0
  rw [List.nil_append, List.append_nil] at hevents
  have hresolve : Scanned.resolveEscapes ⟨escape d.spoken, d.events (fun t => (escape t).length) 0 0⟩ =
      ⟨d.spoken, d.events List.length 0 0⟩ := by
    rw [Scanned.resolveEscapes, unescape_escape]
    exact congrArg _ hevents
  have hpair : pair (d.events List.length 0 0) = .ok (d.marks 0) := by
    have hpair := pairFrom_events d [] 0 0 []
    rwa [List.append_nil, pairFrom, Except.map, List.append_nil] at hpair
  simp only [readLine, speaker?_eq_none_iff.2 h, readBody, scan_print, bind, Except.bind, hresolve,
    hpair]
  rfl

/-- Spans of one name within each other, an empty span, and escapes in front of, within and at the end
of spans. -/
def nested : Document :=
  let bold : SpanName := ⟨"b".toList, by decide, List.forall_iff_forall_mem.1 (by decide), by decide⟩
  let pause : SpanName := ⟨"pause".toList, by decide, List.forall_iff_forall_mem.1 (by decide), by decide⟩
  .text "é [".toList
    (.span bold
      (.text "\\".toList (.span bold (.text "x]".toList .done) (.span pause .done .done)))
      (.text " fin".toList .done))

theorem readLine_print_nested :
    ¬ Labelled nested.print ∧
      readLine english "é \\[[b]\\\\[b]x\\][/b][pause][/pause][/b] fin".toList =
        .ok ⟨"é [\\x] fin".toList,
          [⟨"b".toList, 4, 2, []⟩, ⟨"pause".toList, 6, 0, []⟩, ⟨"b".toList, 3, 3, []⟩]⟩ := by
  have hlabel : ¬ Labelled nested.print := speaker?_eq_none_iff.1 (by decide)
  have hprint : nested.print =
      "é \\[[b]\\\\[b]x\\][/b][pause][/pause][/b] fin".toList := by decide
  rw [← hprint]
  exact ⟨hlabel, readLine_print english nested hlabel⟩

end Parley.Markup
