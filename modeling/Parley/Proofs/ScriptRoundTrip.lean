import Parley.Proofs.Lines
import Parley.Proofs.OutlineRoundTrip
import Parley.Script.Split
set_option autoImplicit false

/-!
A script that is written down is split into the nodes it was written from.
-/

namespace Parley.Text

theorem trimEnd_append {u : Text} (h : trimEnd u ≠ []) (t : Text) :
    trimEnd (t ++ u) = t ++ trimEnd u := by
  have hdrop : (u.reverse.dropWhile isBlank).isEmpty = false := by
    simpa [trimEnd] using h
  simp [trimEnd, List.dropWhile_append, hdrop]

theorem trimEnd_append_full (t : Text) {c : Char} (h : isBlank c = false) (u : Text) :
    trimEnd (t ++ c :: u) = t ++ c :: trimEnd u := by
  cases hu : u.reverse.dropWhile isBlank with
  | nil => simp [trimEnd, List.dropWhile_append, hu, h]
  | cons d r => simp [trimEnd, List.dropWhile_append, hu]

theorem trimEnd_of_full {t : Text} (h : ∀ c ∈ t, isBlank c = false) : trimEnd t = t := by
  have hdrop : t.reverse.dropWhile isBlank = t.reverse := by
    cases hr : t.reverse with
    | nil => rfl
    | cons c r =>
      have hc : isBlank c = false := h c (List.mem_reverse.1 (by simp [hr]))
      simp [hc]
  rw [trimEnd, hdrop, List.reverse_reverse]

theorem length_trimEnd_le (t : Text) : (trimEnd t).length ≤ t.length := by
  simpa [trimEnd] using (List.dropWhile_suffix isBlank (l := t.reverse)).length_le

theorem trimStart_eq_of_trim {t : Text} (h : trim t = t) : trimStart t = t := by
  refine (List.dropWhile_suffix isBlank).eq_of_length_le ?_
  have hlength : (trim t).length ≤ (trimStart t).length := length_trimEnd_le (trimStart t)
  rwa [h] at hlength

theorem trim_trimEnd_space {t : Text} (h : trim t = t) : trim (trimEnd (' ' :: t)) = t := by
  have hstart := trimStart_eq_of_trim h
  have hend : trimEnd t = t := by rwa [trim, hstart] at h
  cases t with
  | nil => decide
  | cons c t =>
    have happend : trimEnd ([' '] ++ c :: t) = [' '] ++ c :: t := by
      rw [trimEnd_append (by rw [hend]; simp), hend]
    rw [List.singleton_append] at happend
    rw [happend]
    exact h

theorem trim_header {key : Text} (h : key.StartsFull) (value : Text) :
    trim (key ++ ':' :: value) = key ++ ':' :: trimEnd value := by
  rw [trim, (h.append _).trimStart_eq, trimEnd_append_full _ (by decide)]

theorem trim_header_ne (key value : Text) {mark : Text} (h : key.StartsFull) (hmark : ':' ∉ mark) :
    trim (key ++ ':' :: value) ≠ mark := by
  rw [trim_header h]
  rintro rfl
  simp at hmark

theorem cut_append {sep : Char} {w : Text} (h : sep ∉ w) (t : Text) :
    cut sep (w ++ sep :: t) = some (w, t) := by
  induction w with
  | nil => simp [cut]
  | cons c w ih =>
    simp only [List.mem_cons, not_or] at h
    have hc : c ≠ sep := fun hc => h.1 hc.symm
    simp [cut, hc, ih h.2]

structure Unbroken (w : Text) : Prop where
  ne_nil : w ≠ []
  full : ∀ c ∈ w, isBlank c = false

instance (w : Text) : Decidable (Unbroken w) :=
  decidable_of_iff (w ≠ [] ∧ w.all (fun c => !isBlank c) = true)
    ⟨fun h => ⟨h.1, by simpa using h.2⟩, fun h => ⟨h.ne_nil, by simpa using h.full⟩⟩

def pieces (t : Text) : List Text :=
  t.foldr
    (fun c ws => if isBlank c then [] :: ws
      else match ws with
        | [] => [[c]]
        | w :: ws => (c :: w) :: ws)
    [[]]

theorem words_eq (t : Text) : words t = (pieces t).filter fun w => !w.isEmpty := rfl

theorem pieces_append {w : Text} (h : ∀ c ∈ w, isBlank c = false) (rest : Text) :
    pieces (w ++ ' ' :: rest) = w :: pieces rest := by
  induction w with
  | nil =>
    have hspace : isBlank ' ' = true := by decide
    simp [pieces, hspace]
  | cons c w ih =>
    rw [List.forall_mem_cons] at h
    have ih := ih h.2
    simp only [pieces] at ih
    simp [pieces, h.1, ih]

theorem pieces_of_full {w : Text} (h : ∀ c ∈ w, isBlank c = false) : pieces w = [w] := by
  induction w with
  | nil => rfl
  | cons c w ih =>
    rw [List.forall_mem_cons] at h
    have ih := ih h.2
    simp only [pieces] at ih
    simp [pieces, h.1, ih]

theorem pieces_join {ws : List Text} (hne : ws ≠ []) (h : ∀ w ∈ ws, Unbroken w) :
    pieces (join [' '] ws) = ws := by
  induction ws with
  | nil => exact absurd rfl hne
  | cons w ws ih =>
    rw [List.forall_mem_cons] at h
    cases ws with
    | nil => exact pieces_of_full h.1.full
    | cons v vs =>
      simp only [join, List.append_assoc, List.singleton_append]
      rw [pieces_append h.1.full, ih (by simp) h.2]

theorem trimEnd_join {ws : List Text} (h : ∀ w ∈ ws, Unbroken w) :
    trimEnd (join [' '] ws) = join [' '] ws := by
  induction ws with
  | nil => rfl
  | cons w ws ih =>
    rw [List.forall_mem_cons] at h
    cases ws with
    | nil => exact trimEnd_of_full h.1.full
    | cons v vs =>
      have ih := ih h.2
      have hne : join [' '] (v :: vs) ≠ [] := by
        have hv := (h.2 v (by simp)).ne_nil
        cases vs <;> simp [join, hv]
      simp only [join]
      rw [trimEnd_append (by rwa [ih]), ih]

theorem words_trimEnd_space {ws : List Text} (h : ∀ w ∈ ws, Unbroken w) :
    words (trimEnd (' ' :: join [' '] ws)) = ws := by
  cases ws with
  | nil => decide
  | cons w ws =>
    have hne : join [' '] (w :: ws) ≠ [] := by
      have hw := (h w (by simp)).ne_nil
      cases ws <;> simp [join, hw]
    have hjoin := trimEnd_join h
    have happend : trimEnd ([' '] ++ join [' '] (w :: ws)) = [] ++ ' ' :: join [' '] (w :: ws) := by
      rw [trimEnd_append (by rwa [hjoin]), hjoin]
      rfl
    rw [← List.singleton_append, happend, words_eq, pieces_append (by simp),
      pieces_join (by simp) h]
    have hfull : (w :: ws).filter (fun w => !w.isEmpty) = w :: ws := by
      rw [List.filter_eq_self]
      intro v hv
      simp [(h v hv).ne_nil]
    rw [List.filter_cons, hfull]
    rfl

theorem oneLine_join {ws : List Text} (h : ∀ w ∈ ws, Unbroken w) : OneLine (join [' '] ws) := by
  induction ws with
  | nil => decide
  | cons w ws ih =>
    rw [List.forall_mem_cons] at h
    have hw : OneLine w := by
      rw [oneLine_iff]
      exact ⟨fun hc => absurd (h.1.full _ hc) (by decide), fun hc => absurd (h.1.full _ hc) (by decide)⟩
    cases ws with
    | nil => exact hw
    | cons v vs => exact (hw.append (by decide)).append (ih h.2)

theorem mem_of_mem_splitOn {sep c : Char} {t w : Text} (hw : w ∈ splitOn sep t) (hc : c ∈ w) :
    c ∈ t ∧ c ≠ sep := by
  induction t generalizing w with
  | nil =>
    rw [splitOn, List.mem_singleton] at hw
    simp [hw] at hc
  | cons d t ih =>
    cases hs : splitOn sep t with
    | nil => exact absurd hs (splitOn_ne_nil sep t)
    | cons v vs =>
      rw [hs] at ih
      by_cases hd : d = sep
      · simp only [splitOn, hd, if_true, hs, List.mem_cons] at hw
        rcases hw with rfl | hw
        · cases hc
        · exact (ih (List.mem_cons.2 hw) hc).imp_left (List.mem_cons_of_mem _)
      · simp only [splitOn, hd, if_false, hs, List.mem_cons] at hw
        rcases hw with rfl | hw
        · rcases List.mem_cons.1 hc with rfl | hc
          · exact ⟨List.mem_cons_self .., hd⟩
          · exact (ih (List.mem_cons_self ..) hc).imp_left (List.mem_cons_of_mem _)
        · exact (ih (List.mem_cons_of_mem _ hw) hc).imp_left (List.mem_cons_of_mem _)

@[simp] theorem dropIndent_zero (t : Text) : dropIndent 0 t = t := by
  cases t with
  | nil => rfl
  | cons c t =>
    have hsize := Char.utf8Size_pos c
    simp [dropIndent, Nat.ne_of_gt hsize]

theorem dropReturn_of_not_mem {t : Text} (h : '\r' ∉ t) : dropReturn t = t := by
  unfold dropReturn
  rw [if_neg fun hlast => h (List.mem_of_getLast? hlast)]

theorem linesOfPieces_snoc {ws : List Text} (h : ∀ w ∈ ws, '\r' ∉ w) (v : Text) :
    linesOfPieces (ws ++ [v]) = ws ++ if v.isEmpty then [] else [v] := by
  induction ws with
  | nil => rfl
  | cons w ws ih =>
    rw [List.forall_mem_cons] at h
    have hcons : linesOfPieces (w :: (ws ++ [v])) = dropReturn w :: linesOfPieces (ws ++ [v]) := by
      cases ws <;> rfl
    rw [List.cons_append, hcons, dropReturn_of_not_mem h.1, ih h.2, List.cons_append]

end Parley.Text

namespace Parley.Script

/-- What a node can be written down with, and read again. -/
structure Node.Writable (node : Node) : Prop where
  title : node.title.OneLine ∧ Text.trim node.title = node.title
  tags : ∀ tag ∈ node.tags, tag.Unbroken
  body : '\r' ∉ node.body ∧ ∀ line ∈ Text.splitOn '\n' node.body, Text.trim line ≠ endMark

instance (node : Node) : Decidable node.Writable :=
  decidable_of_iff
    ((node.title.OneLine ∧ Text.trim node.title = node.title) ∧
      (∀ tag ∈ node.tags, tag.Unbroken) ∧
      '\r' ∉ node.body ∧ ∀ line ∈ Text.splitOn '\n' node.body, Text.trim line ≠ endMark)
    ⟨fun h => ⟨h.1, h.2.1, h.2.2⟩, fun h => ⟨h.title, h.tags, h.body⟩⟩

def Node.lines (node : Node) : List Text :=
  ["title: ".toList ++ node.title, "tags: ".toList ++ Text.join [' '] node.tags, bodyMark] ++
    Text.splitOn '\n' node.body ++ [endMark]

def write (nodes : List Node) : Text :=
  Text.join ['\n'] (nodes.flatMap Node.lines)

namespace Splitter

theorem readAll_append (s : Splitter) (number : Nat) (lines more : List Text) :
    s.readAll number (lines ++ more) =
      (s.readAll number lines).bind fun t => t.readAll (number + lines.length) more := by
  induction lines generalizing s number with
  | nil => rfl
  | cons line lines ih =>
    rw [List.cons_append, readAll, readAll]
    cases s.read line with
    | error cause => rfl
    | ok t =>
      dsimp only
      rw [ih, List.length_cons, Nat.add_right_comm, Nat.add_assoc]

/-- Some lines are read, wherever in a script they stand. -/
def Reads (s : Splitter) (lines : List Text) (t : Splitter) : Prop :=
  ∀ number, s.readAll number lines = .ok t

variable {s t u : Splitter} {line : Text} {lines more : List Text}

theorem Reads.nil : Reads s [] s := fun _ => rfl

theorem Reads.cons (h : s.read line = .ok t) (ht : Reads t lines u) : Reads s (line :: lines) u := by
  intro number
  rw [readAll, h]
  exact ht (number + 1)

theorem Reads.append (h : Reads s lines t) (ht : Reads t more u) : Reads s (lines ++ more) u := by
  intro number
  rw [readAll_append, h number]
  exact ht (number + lines.length)

variable {nodes : List Node} {draft : Draft}

theorem read_header {key : Text} (hkey : key.StartsFull) (hhash : key.head? ≠ some '#')
    (value : Text) :
    read ⟨nodes, draft, false⟩ (key ++ ':' :: value) =
      (draft.addHeader (key ++ ':' :: Text.trimEnd value)).map fun d => ⟨nodes, d, false⟩ := by
  have hne : ∀ mark, ':' ∉ mark → Text.trim (key ++ ':' :: value) ≠ mark :=
    fun _ => Text.trim_header_ne key value hkey
  have hhead : (Text.trim (key ++ ':' :: value)).head? ≠ some '#' := by
    rw [Text.trim_header hkey]
    cases key with
    | nil => exact absurd rfl hkey.ne_nil
    | cons c key => simpa using hhash
  rw [← Text.trim_header hkey]
  simp [read, hne [] (by simp), hne bodyMark (by decide), hne endMark (by decide), hhead]

theorem read_title {title : Text} (h : Text.trim title = title) :
    read ⟨nodes, .empty, false⟩ ("title: ".toList ++ title) =
      .ok ⟨nodes, ⟨some title, [], [], ["title".toList]⟩, false⟩ := by
  have hline : "title: ".toList ++ title = "title".toList ++ ':' :: ' ' :: title := rfl
  rw [hline, read_header (by decide) (by decide)]
  unfold Draft.addHeader
  rw [Text.cut_append (by decide)]
  simp only [Text.trim_trimEnd_space h]
  rfl

theorem read_tags {title : Text} {tags : List Text} (h : ∀ tag ∈ tags, tag.Unbroken) :
    read ⟨nodes, ⟨some title, [], [], ["title".toList]⟩, false⟩
        ("tags: ".toList ++ Text.join [' '] tags) =
      .ok ⟨nodes, ⟨some title, tags, [], ["title".toList, "tags".toList]⟩, false⟩ := by
  have hline : "tags: ".toList ++ Text.join [' '] tags =
      "tags".toList ++ ':' :: ' ' :: Text.join [' '] tags := rfl
  rw [hline, read_header (by decide) (by decide)]
  unfold Draft.addHeader
  rw [Text.cut_append (by decide)]
  simp only [Text.words_trimEnd_space h]
  rfl

theorem reads_body (draft : Draft) (h : ∀ line ∈ lines, Text.trim line ≠ endMark) :
    Reads ⟨nodes, draft, true⟩ lines ⟨nodes, { draft with body := draft.body ++ lines }, true⟩ := by
  induction lines generalizing draft with
  | nil => simpa using Reads.nil
  | cons line lines ih =>
    rw [List.forall_mem_cons] at h
    have hread : read ⟨nodes, draft, true⟩ line = .ok ⟨nodes, draft.addLine line, true⟩ := by
      simp [read, h.1]
    exact .cons hread (by simpa [Draft.addLine] using ih (draft.addLine line) h.2)

theorem reads_node {node : Node} (h : node.Writable) :
    Reads ⟨nodes, .empty, false⟩ node.lines ⟨nodes ++ [node], .empty, false⟩ := by
  let headers : Draft := ⟨some node.title, node.tags, [], ["title".toList, "tags".toList]⟩
  let written : Draft := { headers with body := Text.splitOn '\n' node.body }
  have hheaders : Reads ⟨nodes, .empty, false⟩
      ["title: ".toList ++ node.title, "tags: ".toList ++ Text.join [' '] node.tags, bodyMark]
      ⟨nodes, headers, true⟩ :=
    .cons (read_title h.title.2) (.cons (read_tags h.tags) (.cons rfl .nil))
  have hbody : Reads ⟨nodes, headers, true⟩ (Text.splitOn '\n' node.body) ⟨nodes, written, true⟩ :=
    reads_body headers h.body.2
  have hend : Reads ⟨nodes, written, true⟩ [endMark] ⟨nodes ++ [node], .empty, false⟩ := by
    refine .cons ?_ .nil
    have hfinish : written.finish = node := by
      simp [written, headers, Draft.finish]
    have hclose : close ⟨nodes, written, true⟩ = ⟨nodes ++ [node], .empty, false⟩ := by
      rw [close, hfinish]
    rw [← hclose]
    rfl
  exact (hheaders.append hbody).append hend

theorem reads_nodes (nodes : List Node) {more : List Node} (h : ∀ node ∈ more, node.Writable) :
    Reads ⟨nodes, .empty, false⟩ (more.flatMap Node.lines) ⟨nodes ++ more, .empty, false⟩ := by
  induction more generalizing nodes with
  | nil => simpa using Reads.nil
  | cons node more ih =>
    rw [List.forall_mem_cons] at h
    simpa using (reads_node h.1).append (ih _ h.2)

end Splitter

@[simp] theorem baseline_lines (nodes : List Node) : baseline (nodes.flatMap Node.lines) = 0 := by
  cases nodes with
  | nil => rfl
  | cons node nodes =>
    have htitle : Text.trim ("title: ".toList ++ node.title) ≠ bodyMark :=
      Text.trim_header_ne "title".toList (' ' :: node.title) (by decide) (by decide)
    have htags : Text.trim ("tags: ".toList ++ Text.join [' '] node.tags) ≠ bodyMark :=
      Text.trim_header_ne "tags".toList (' ' :: Text.join [' '] node.tags) (by decide) (by decide)
    have hmark : Text.trim bodyMark = bodyMark := by decide
    unfold baseline
    rw [List.flatMap_cons, Node.lines]
    simp only [List.cons_append, List.find?_cons, beq_eq_false_iff_ne.2 htitle,
      beq_eq_false_iff_ne.2 htags, hmark, beq_self_eq_true]
    rfl

theorem Node.oneLine_lines {node : Node} (h : node.Writable) : ∀ line ∈ node.lines, line.OneLine := by
  intro line hline
  simp only [Node.lines, List.mem_append, List.mem_cons, List.not_mem_nil, or_false] at hline
  rcases hline with ((rfl | rfl | rfl) | hline) | rfl
  · exact Text.OneLine.append (by decide) h.title.1
  · exact Text.OneLine.append (by decide) (Text.oneLine_join h.tags)
  · decide
  · rw [Text.oneLine_iff]
    exact ⟨fun hc => (Text.mem_of_mem_splitOn hline hc).2 rfl,
      fun hc => h.body.1 (Text.mem_of_mem_splitOn hline hc).1⟩
  · decide

theorem split_of_lines {script : Text} {nodes : List Node} (h : ∀ node ∈ nodes, node.Writable)
    (hlines : Text.lines (Text.unifyBreaks script) = nodes.flatMap Node.lines) :
    split script = .ok nodes := by
  have hreads := Splitter.reads_nodes [] h 1
  have hmap : (nodes.flatMap Node.lines).map (Text.dropIndent 0) = nodes.flatMap Node.lines := by
    rw [List.map_congr_left fun line _ => Text.dropIndent_zero line, List.map_id']
  unfold split
  simp only [hlines, baseline_lines, hmap]
  rw [Splitter.start, hreads]
  rfl

theorem exists_snoc_endMark {nodes : List Node} (h : nodes ≠ []) :
    ∃ init, nodes.flatMap Node.lines = init ++ [endMark] := by
  obtain ⟨init, node, rfl⟩ := (List.eq_nil_or_concat nodes).resolve_left h
  rw [List.concat_eq_append, List.flatMap_append, List.flatMap_singleton]
  exact ⟨_, (List.append_assoc ..).symm⟩

/-- Splitting undoes writing, whether or not the last line is ended by a line feed. -/
theorem split_write {nodes : List Node} (h : ∀ node ∈ nodes, node.Writable) :
    split (write nodes) = .ok nodes ∧ split (write nodes ++ ['\n']) = .ok nodes := by
  by_cases hne : nodes = []
  · subst hne
    exact ⟨rfl, rfl⟩
  · have hone : ∀ line ∈ nodes.flatMap Node.lines, line.OneLine := by
      intro line hline
      obtain ⟨node, hnode, hline⟩ := List.mem_flatMap.1 hline
      exact Node.oneLine_lines (h node hnode) line hline
    have hreturn : '\r' ∉ write nodes := Text.not_mem_join hone
    obtain ⟨init, hinit⟩ := exists_snoc_endMark hne
    have hsplit : Text.splitOn '\n' (write nodes) = nodes.flatMap Node.lines :=
      Text.splitOn_join (by simp [hinit]) fun line hline => (Text.oneLine_iff.1 (hone line hline)).1
    constructor
    · refine split_of_lines h ?_
      rw [Text.unifyBreaks_of_no_return _ hreturn, Text.lines, hsplit, hinit,
        Text.linesOfPieces_snoc]
      · rfl
      · intro line hline
        exact (Text.oneLine_iff.1 (hone line (by simp [hinit, hline]))).2
    · refine split_of_lines h ?_
      rw [Text.unifyBreaks_of_no_return _ (by simp [hreturn]), Text.lines, Text.splitOn_snoc_sep,
        hsplit, Text.linesOfPieces_snoc]
      · simp
      · intro line hline
        exact (Text.oneLine_iff.1 (hone line hline)).2

/-- The body of the first node looks like nodes itself; the second node is empty. -/
def lookalikes : List Node :=
  [⟨"A: b".toList, ["#x".toList, "y:1".toList],
      "\n   ---\n title: B\n title: C\n#z\n---\n\t== =\n\n".toList⟩,
    ⟨[], [], []⟩]

theorem split_write_lookalikes :
    (∀ node ∈ lookalikes, node.Writable) ∧ split (write lookalikes) = .ok lookalikes ∧
      split (write lookalikes ++ ['\n']) = .ok lookalikes := by
  have hwritable : ∀ node ∈ lookalikes, node.Writable := by decide +kernel
  exact ⟨hwritable, split_write hwritable⟩

end Parley.Script
