import Parley.Proofs.Derivation
import Parley.Proofs.LastBeat
import Parley.Proofs.MarkupRoundTrip
import Parley.Proofs.ScriptRoundTrip
set_option autoImplicit false

/-!
A line in which every character is escaped.

A playthrough resolves the escapes itself, or leaves them for markup to resolve. In both cases blanks at
the end of the line are dropped from what is rendered: from the text in the first case, and from the
escapes in the second, where the backslash of a blank stays behind.
-/

namespace Parley.Text

def escapeAll (s : Text) : Text :=
  s.flatMap fun c => ['\\', c]

@[simp] theorem escapeAll_cons (c : Char) (s : Text) :
    escapeAll (c :: s) = '\\' :: c :: escapeAll s := rfl

@[simp] theorem escapeAll_snoc (s : Text) (c : Char) :
    escapeAll (s ++ [c]) = escapeAll s ++ '\\' :: [c] := by
  simp [escapeAll]

theorem escapeAll_full {s : Text} (h : s ≠ []) : (escapeAll s).StartsFull := by
  cases s with
  | nil => exact absurd rfl h
  | cons c s => rfl

theorem escapeAll_oneLine {s : Text} (h : s.OneLine) : (escapeAll s).OneLine := by
  rw [oneLine_iff] at h ⊢
  constructor <;> simp [escapeAll, h]

@[simp] theorem unescape_escapeAll (s rest : Text) :
    unescape (escapeAll s ++ rest) = s ++ unescape rest := by
  induction s with
  | nil => rfl
  | cons c s ih => simp [unescape, ih]

/-- The text of a line of escapes, if blanks at its end are dropped before the escapes are resolved. -/
def cropped (s : Text) : Text :=
  if s.getLast?.any isBlank then s.dropLast ++ ['\\'] else s

theorem trimEnd_snoc_blank {c : Char} (h : isBlank c = true) (s : Text) :
    trimEnd (s ++ [c]) = trimEnd s := by
  simp [trimEnd, h]

theorem cropped_eq_trimEnd_iff {s : Text} (h : s ≠ []) :
    cropped s = trimEnd s ↔ s.getLast?.any isBlank = false := by
  obtain ⟨init, c, rfl⟩ := (List.eq_nil_or_concat s).resolve_left h
  rw [List.concat_eq_append]
  cases hc : isBlank c with
  | true =>
    -- Blanks are dropped from the text, so that it gets shorter.
    have hshort := length_trimEnd_le init
    simp only [cropped, List.getLast?_concat, Option.any_some, hc, if_true, List.dropLast_concat,
      trimEnd_snoc_blank hc, Bool.true_eq_false, iff_false]
    intro heq
    rw [← heq, List.length_append] at hshort
    exact absurd hshort (by simp)
  | false =>
    have hkept : trimEnd (init ++ [c]) = init ++ [c] := trimEnd_append_full init hc []
    simp [cropped, hc, hkept]

end Parley.Text

namespace Parley.Markup

theorem scanFrom_of_no_tag {pieces : List Piece} (h : ∀ t, Piece.tag t ∉ pieces) (locale : Locale)
    (p : Place) : scanFrom locale p pieces = .ok ⟨pieces.flatMap Piece.source, []⟩ := by
  induction pieces generalizing p with
  | nil => rfl
  | cons piece pieces ih =>
    have ih := ih fun t ht => h t (List.mem_cons_of_mem _ ht)
    cases piece with
    | plain c => simp [scanFrom, ih, Except.map, Scanned.addText, Piece.source]
    | escaped c => simp [scanFrom, ih, Except.map, Scanned.addText, Piece.source]
    | tag t => exact absurd (List.mem_cons_self ..) (h t)

theorem readLine_of_no_tag {line : Text} (hlabel : ¬ Labelled line)
    (h : ∀ t, Piece.tag t ∉ Piece.cut line) (locale : Locale) :
    readLine locale line = .ok ⟨Text.unescape line, []⟩ := by
  have hscan : scan locale line = .ok ⟨line, []⟩ := by
    rw [scan, scanFrom_of_no_tag h, Piece.flatMap_source_cut]
  simp only [readLine, speaker?_eq_none_iff.2 hlabel, readBody, hscan, bind, Except.bind]
  rfl

@[simp] theorem cut_escapeAll (s rest : Text) :
    Piece.cut (s.escapeAll ++ rest) = s.map .escaped ++ Piece.cut rest := by
  induction s with
  | nil => rfl
  | cons c s ih =>
    rw [Text.escapeAll_cons, List.cons_append, List.cons_append, Piece.cut.eq_def]
    simp [ih]

/-- In front of a blank there is its backslash and no colon, so that no label ends there. -/
theorem not_labelled_escapeAll {rest : Text} (h : ∀ c ∈ rest, Text.isBlank c = false) (s : Text) :
    ¬ Labelled (s.escapeAll ++ rest) := by
  rintro ⟨word, blank, more, -, -, hblank, heq⟩
  induction s generalizing word with
  | nil =>
    have hfull := h blank (by rw [show rest = _ from heq]; simp)
    rw [hblank] at hfull
    cases hfull
  | cons c s ih =>
    rw [Text.escapeAll_cons] at heq
    match word with
    | [] => simp at heq
    | [w] =>
      -- A colon is escaped, and what follows it is a backslash or the rest.
      simp only [List.cons_append, List.nil_append, List.cons.injEq] at heq
      have hfull : Text.isBlank blank = false := by
        cases s with
        | nil => exact h blank (by rw [show rest = _ from heq.2.2]; simp)
        | cons d s =>
          rw [Text.escapeAll_cons, List.cons_append, List.cons.injEq] at heq
          rw [← heq.2.2.1]
          decide
      rw [hblank] at hfull
      cases hfull
    | w :: v :: word =>
      simp only [List.cons_append, List.cons.injEq] at heq
      exact ih word heq.2.2

theorem readLine_escapeAll {rest : Text} (hrest : ∀ c ∈ rest, Text.isBlank c = false)
    (hcut : ∀ t, Piece.tag t ∉ Piece.cut rest) (locale : Locale) (s : Text) :
    readLine locale (s.escapeAll ++ rest) = .ok ⟨s ++ Text.unescape rest, []⟩ := by
  rw [readLine_of_no_tag (not_labelled_escapeAll hrest s), Text.unescape_escapeAll]
  intro t
  simp [hcut t]

theorem readLine_trimEnd_escapeAll {s : Text} (h : s ≠ []) (locale : Locale) :
    readLine locale (Text.trimEnd s.escapeAll) = .ok ⟨s.cropped, []⟩ := by
  obtain ⟨init, c, rfl⟩ := (List.eq_nil_or_concat s).resolve_left h
  rw [List.concat_eq_append, Text.escapeAll_snoc, Text.trimEnd_append_full _ (by decide)]
  cases hc : Text.isBlank c with
  | true =>
    have hend : Text.trimEnd [c] = [] := Text.trimEnd_snoc_blank hc []
    have hcut : Piece.cut ['\\'] = [.plain '\\'] := by
      rw [Piece.cut.eq_def]
      rfl
    rw [hend, readLine_escapeAll (List.forall_mem_singleton.2 (by decide)) (by simp [hcut])]
    simp [Text.cropped, hc, Text.unescape]
  | false =>
    have hend : Text.trimEnd [c] = [c] := Text.trimEnd_append_full [] hc []
    have hline : Text.escapeAll init ++ '\\' :: [c] = Text.escapeAll (init ++ [c]) ++ [] := by
      rw [List.append_nil, Text.escapeAll_snoc]
    have hcut : Piece.cut [] = [] := by rw [Piece.cut.eq_def]
    rw [hend, hline, readLine_escapeAll (by simp) (by simp [hcut])]
    simp [Text.cropped, hc, Text.unescape]

end Parley.Markup

namespace Parley.Body

def escapeLexeme (c : Char) : Lexeme :=
  (.escape, ['\\', c])

namespace Lexer

variable {l : Lexer} {below : List Text} {levels : List Level} {tracking : Bool}

theorem scans_escapeAll (s : Text) (h : Within l s.escapeAll .base below levels tracking) :
    ∃ l', Scans l (s.map escapeLexeme) l' ∧ Within l' [] .base below levels tracking := by
  induction s generalizing l with
  | nil => exact ⟨l, rfl, h⟩
  | cons c s ih =>
    have htext : l.line.drop l.cursor = '\\' :: c :: Text.escapeAll s := h.text_eq
    have hread : l.read = .ok (l.accept ⟨.escape, 2, none⟩) := by
      rw [read, h.mode_eq, htext]
      rfl
    have hmoved : Within (l.accept ⟨.escape, 2, none⟩).2 (Text.escapeAll s) .base below levels
        tracking := by
      have hrest : l.line.drop (l.cursor + 2 + 0) = Text.escapeAll s := by
        rw [Nat.add_zero, ← List.drop_drop, htext]
        rfl
      exact ⟨hrest, h.mode_eq, h.below_eq, h.levels_eq, h.tracking_eq, h.level⟩
    obtain ⟨l', hscans, hwithin⟩ := ih hmoved
    refine ⟨l', ⟨_, _, hread, ?_, hscans⟩, hwithin⟩
    simp [Token.lexeme, htext, textOf_eq, escapeLexeme]

end Lexer

theorem bodyLines_escapeAll {s : Text} (hne : s ≠ []) (h : s.OneLine) :
    bodyLines s.escapeAll = [s.escapeAll] := by
  have hwritten : ∀ line ∈ [s.escapeAll], IsWritten line := by
    intro line hline
    exact ⟨0, s.escapeAll, List.mem_singleton.1 hline, Text.escapeAll_full hne,
      Text.escapeAll_oneLine h⟩
  exact bodyLines_join (by simp) hwritten

theorem spells_escapeAll {s : Text} (hne : s ≠ []) (h : s.OneLine) :
    (Lexer.ofBody s.escapeAll).Spells (s.map escapeLexeme) := by
  have hbefore : (Lexer.ofBody s.escapeAll).Before [written 0 s.escapeAll] [⟨0, false⟩] false := by
    rw [Lexer.ofBody, bodyLines_escapeAll hne h]
    exact ⟨rfl, rfl, rfl, rfl, rfl, rfl, by simp⟩
  obtain ⟨l, hleads, hlevels, hbelow, hend⟩ := Lexer.leads_line hbefore (Text.escapeAll_full hne)
    (by simpa using hne) (fun m => Lexer.scans_escapeAll s)
  have hinner : ∀ x ∈ s.map escapeLexeme, x.1.isInner = true := by
    intro x hx
    obtain ⟨c, -, rfl⟩ := List.mem_map.1 hx
    rfl
  rw [show breakIf (!([] : List Text).isEmpty) = [] from rfl, List.append_nil] at hleads
  refine ⟨hinner, { l with levels := [] }, hleads.append ?_⟩
  refine ⟨l.unwritten .endOfInput, { l with levels := [] }, ?_, rfl, rfl⟩
  show l.next = _
  simp [Lexer.next, hend, hbelow, Lexer.atEnd, hlevels, Lexer.closeOne]

def escapedParts (s : Text) : List Part :=
  s.map fun c => .escaped [c]

theorem readsParts_escapeAll (s : Text) :
    ReadsParts (escapedParts s) (s.map escapeLexeme ++ [inputEnd]) [inputEnd] := by
  induction s with
  | nil => exact .stop rfl
  | cons c s ih => exact .escape (t := ['\\', c]) ih

theorem derives_escapeAll {s : Text} (hne : s ≠ []) :
    Derives (s.map escapeLexeme) [.line (escapedParts s) 0 []] [] :=
  .line (by simpa [escapedParts] using hne) (readsParts_escapeAll s)
    (.stop (by decide) (by decide) (by decide)) .inputEnd

theorem parse_escapeAll {s : Text} (hne : s ≠ []) (h : s.OneLine) (declared : Declarations) :
    ∃ number, parse s.escapeAll declared = (.ok [.line (escapedParts s) number []], declared) := by
  obtain ⟨found, declared', hparse, hfound, hgrows⟩ :=
    parseSource_of_derives (spells_escapeAll hne h) (derives_escapeAll hne) declared.admits_nil
  cases hgrows.eq_of_nil
  match found, hfound with
  | [.line parts number hashtags], hfound =>
    simp only [unnumberedAll, Statement.unnumbered, List.cons.injEq, Statement.line.injEq] at hfound
    obtain ⟨⟨rfl, -, rfl⟩, -⟩ := hfound
    exact ⟨number, hparse⟩

end Parley.Body

namespace Parley.Play

open Body Script Markup

@[simp] theorem renderParts_escapeAll (env : Env) (keep : Bool) (s : Text) :
    render env keep (escapedParts s) = .ok (if keep then s.escapeAll else s) := by
  induction s with
  | nil => cases keep <;> rfl
  | cons c s ih =>
    rw [escapedParts, List.map_cons, render, ← escapedParts, ih]
    cases keep <;> rfl

def escapedNode (tags : List Text) (s : Text) : Node :=
  ⟨"Start".toList, tags, s.escapeAll⟩

variable {s : Text} {tags : List Text}

theorem declarationLines_escapeAll (hne : s ≠ []) (h : s.OneLine) :
    declarationLines [escapedNode tags s] = [] := by
  have hlines : Text.lines s.escapeAll = [s.escapeAll] := by
    rw [Text.lines, Text.splitOn_of_not_mem (Text.oneLine_iff.1 (Text.escapeAll_oneLine h)).1]
    simp [Text.linesOfPieces, (Text.escapeAll_full hne).ne_nil]
  have hplain : isDeclarationLine s.escapeAll = false := by
    unfold isDeclarationLine
    rw [(Text.escapeAll_full hne).trimStart_eq]
    cases s with
    | nil => exact absurd rfl hne
    | cons c s => rfl
  simp [declarationLines, escapedNode, hlines, hplain]

namespace Playthrough

def told (origin : Origin) : Run :=
  ⟨origin, [⟨[], []⟩], none⟩

theorem load_escapeAll {p : Playthrough} (tags : List Text) (hp : p.nodes = []) (hne : s ≠ [])
    (h : s.OneLine) :
    p.load [escapedNode tags s] =
      (.ok (), { p with nodes := [escapedNode tags s], declared := .sealed }) := by
  have hbody : (escapedNode tags s).body ≠ [] := (Text.escapeAll_full hne).ne_nil
  have hcheck : checkNodes [] [escapedNode tags s] = .ok () := by
    have hnode : checkNode [] (escapedNode tags s) = .ok () := by
      unfold checkNode
      rw [if_neg (by simp [escapedNode]), if_neg (by simp [escapedNode]), if_neg hbody]
      rfl
    rw [checkNodes, hnode]
    rfl
  have hseed : (seed [escapedNode tags s] .empty p.store p.functions).1 = .ok [] := by
    rw [seed, declarationLines_escapeAll hne h]
  unfold load
  simp only [hp, List.map_nil, hcheck, hseed]
  rfl

theorem start_escapeAll {p : Playthrough} (hp : p.nodes = [escapedNode tags s]) (hne : s ≠ [])
    (h : s.OneLine) :
    ∃ q number, p.start "Start".toList = (.ok (), q) ∧ q.keepEscapes = p.keepEscapes ∧
      q.run = some (opened (escapedNode tags s) [.line (escapedParts s) number []]) := by
  have hnode : p.node? "Start".toList = some (escapedNode tags s) := by
    simp [node?, hp, escapedNode]
  obtain ⟨number, hparse⟩ := parse_escapeAll hne h p.declared
  rcases start_cases p "Start".toList with ⟨e, he, -⟩ | ⟨node, statements, declared, hn, hs, hstart⟩
  · rcases enter_eq_error he with hn | ⟨hn, hs⟩
    · rw [hnode] at hn
      cases hn
    · rw [hnode] at hn
      cases hn
      rw [show (escapedNode tags s).body = s.escapeAll from rfl, hparse] at hs
      cases hs
  · rw [hnode] at hn
    cases hn
    rw [show (escapedNode tags s).body = s.escapeAll from rfl, hparse] at hs
    cases hs
    exact ⟨_, number, hstart, rfl, rfl⟩

theorem begins_escapeAll (p : Playthrough) (tags : List Text) (hp : p.nodes = []) (hne : s ≠ [])
    (h : s.OneLine) :
    ∃ loaded q number, p.load [escapedNode tags s] = (.ok (), loaded) ∧
      loaded.start "Start".toList = (.ok (), q) ∧ q.keepEscapes = p.keepEscapes ∧
      q.run = some (opened (escapedNode tags s) [.line (escapedParts s) number []]) := by
  obtain ⟨q, number, hstart, hkeep, hrun⟩ := start_escapeAll
    (p := { p with nodes := [escapedNode tags s], declared := .sealed }) rfl hne h
  exact ⟨_, q, number, load_escapeAll tags hp hne h, hstart, hkeep, hrun⟩

def escapedLine (tags : List Text) (text : Text) : Line :=
  ⟨text, [], ⟨"Start".toList, tags⟩, [], false⟩

theorem advance_escapeAll {p : Playthrough} {number : Nat} {keep : Bool}
    (hrun : p.run = some (opened (escapedNode tags s) [.line (escapedParts s) number []]))
    (hkeep : p.keepEscapes = keep) (fuel : Nat) (selection : Option Nat) :
    p.advance (fuel + 1) selection =
      (.beat (.line (escapedLine tags (Text.trimEnd (if keep then s.escapeAll else s)))),
        { p with run := some (told ⟨"Start".toList, tags⟩) }) := by
  have hrender : p.render (escapedParts s) = .ok (if keep then s.escapeAll else s) := by
    rw [render, renderParts_escapeAll, hkeep]
    rfl
  have hstep : p.step (opened (escapedNode tags s) [.line (escapedParts s) number []]) =
      .ok (.beat (.line (escapedLine tags (Text.trimEnd (if keep then s.escapeAll else s)))) p
        (told ⟨"Start".toList, tags⟩)) := by
    simp [step, opened, perform, hrender, collect, bind, Except.bind, pure, Except.pure, escapedNode,
      escapedLine, told]
  rw [advance_of_walking hrun rfl, walk, hstep]

theorem advance_told (p : Playthrough) (origin : Origin) (fuel : Nat) (selection : Option Nat) :
    ({ p with run := some (told origin) } : Playthrough).advance (fuel + 2) selection =
      (.ended, { p with run := none }) := rfl

/-- Played on its own, a node gives one line of text, and nothing else. -/
def GivesOnly (fuel : Nat) (node : Node) (text : Text) : Prop :=
  ∃ loaded p q, empty.load [node] = (.ok (), loaded) ∧ loaded.start node.title = (.ok (), p) ∧
    p.asks fuel [none, none] =
      ([.beat (.line ⟨text, [], ⟨node.title, node.tags⟩, [], false⟩), .ended], q)

theorem givesOnly_escapeAll (hne : s ≠ []) (h : s.OneLine) (fuel : Nat) :
    GivesOnly (fuel + 2) (escapedNode tags s) s.trimEnd := by
  obtain ⟨loaded, q, number, hload, hstart, hkeep, hrun⟩ := begins_escapeAll empty tags rfl hne h
  have hline := advance_escapeAll hrun hkeep (fuel + 1) none
  have hended := advance_told q ⟨"Start".toList, tags⟩ fuel none
  refine ⟨loaded, q, { q with run := none }, hload, hstart, ?_⟩
  rw [asks, hline, asks, hended]
  rfl

end Playthrough

namespace Conversation

theorem advance_of_only_line {c : Conversation} {fuel : Nat} {selection : Option Nat} {l : Line}
    {p q : Playthrough} {marked : MarkedLine} (hah : c.ahead = none) (hroutes : c.routesCues = false)
    (hline : c.play.advance fuel (c.passed selection) = (.beat (.line l), p))
    (hended : p.advance fuel none = (.ended, q)) (hmarked : readLine c.locale l.text = .ok marked) :
    c.advance fuel selection = (.ok, present
      (some (.line { l with text := marked.text, marks := marked.marks, last := true }))
      { c with play := q }) := by
  have hpull : c.pull fuel (c.passed selection) = (.beat (.line l), { c with play := p }) := by
    simp [pull, hah, hline, hroutes]
  have hresolve : Beat.resolveMarkup c.locale (.line { l with last := true }) =
      .ok (.line { l with text := marked.text, marks := marked.marks, last := true }) := by
    simp [Beat.resolveMarkup, Line.resolveMarkup, hmarked, bind, Except.bind, pure, Except.pure,
      Except.map]
  rw [advance_of_pull hpull]
  simp [lookAhead, Beat.isMenu, hended, settle, Beat.markLast, reveal, hresolve]

/-- A conversation about a node shows one line of text, and nothing else. -/
def ShowsOnly (rules : Plural.Library) (fuel : Nat) (node : Node) (text : Text) : Prop :=
  ∃ c, begin fuel { rules := rules } [node] = (.ok, c) ∧
    c.current = some (.line ⟨text, [], ⟨node.title, node.tags⟩, [], true⟩) ∧
    c.history = [] ∧ c.routed = [] ∧ ∀ selection, c.Concludes fuel selection

theorem showsOnly_escapeAll (hne : s ≠ []) (h : s.OneLine) (rules : Plural.Library) (fuel : Nat) :
    ShowsOnly rules (fuel + 2) (escapedNode tags s) s.cropped := by
  let settings : Settings := { rules := rules }
  obtain ⟨loaded, q, number, hload, hstart, hkeep, hrun⟩ :=
    Playthrough.begins_escapeAll (prepare settings) tags rfl hne h
  have hline := Playthrough.advance_escapeAll hrun hkeep (fuel + 1) ((ofPlay settings q).passed none)
  have hended := Playthrough.advance_told q ⟨"Start".toList, tags⟩ fuel none
  have hadv := advance_of_only_line (c := ofPlay settings q) rfl rfl hline hended
    (readLine_trimEnd_escapeAll hne _)
  have hbegin : begin (fuel + 2) settings [escapedNode tags s] =
      (ofPlay settings q).advance (fuel + 2) none := by
    unfold begin
    rw [hload]
    dsimp only
    rw [hstart]
  refine ⟨_, hbegin.trans hadv, rfl, rfl, rfl, ?_⟩
  exact concludes_of_not_running rfl rfl (fuel + 2)

end Conversation

/-- A line of escapes tells the same with and without markup unless it ends in an escaped blank. -/
theorem escapes_told (hne : s ≠ []) (h : s.OneLine) (tags : List Text) (rules : Plural.Library)
    (fuel : Nat) :
    Playthrough.GivesOnly (fuel + 2) (escapedNode tags s) s.trimEnd ∧
      Conversation.ShowsOnly rules (fuel + 2) (escapedNode tags s) s.cropped ∧
      (s.cropped = s.trimEnd ↔ s.getLast?.any Text.isBlank = false) :=
  ⟨Playthrough.givesOnly_escapeAll hne h fuel, Conversation.showsOnly_escapeAll hne h rules fuel,
    Text.cropped_eq_trimEnd_iff hne⟩

/-- A blank at the end: without markup it is dropped, and with markup its backslash is shown. -/
theorem escapes_told_blank :
    ("a ".toList ≠ [] ∧ Text.OneLine "a ".toList) ∧
      Playthrough.GivesOnly 2 ⟨"Start".toList, [], "\\a\\ ".toList⟩ "a".toList ∧
      Conversation.ShowsOnly english.rules 2 ⟨"Start".toList, [], "\\a\\ ".toList⟩ "a\\".toList := by
  have htold := escapes_told (s := "a ".toList) (by decide) (by decide) [] english.rules 0
  have hnode : escapedNode [] "a ".toList = ⟨"Start".toList, [], "\\a\\ ".toList⟩ := by decide
  have htrimmed : Text.trimEnd "a ".toList = "a".toList := by decide
  have hcropped : Text.cropped "a ".toList = "a\\".toList := by decide
  rw [hnode, htrimmed, hcropped] at htold
  exact ⟨by decide, htold.1, htold.2.1⟩

end Parley.Play
