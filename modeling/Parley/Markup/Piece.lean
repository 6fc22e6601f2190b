import Parley.Text
set_option autoImplicit false

/-!
A line cut into pieces: plain characters, escaped characters and bracketed tags.

Where the pieces end depends on the line alone, whatever the tags mean.
-/

namespace Parley.Markup

inductive Piece where
  | plain (c : Char)
  | escaped (c : Char)
  | tag (contents : Text)
  deriving DecidableEq, Repr

namespace Piece

def source : Piece → Text
  | .plain c => [c]
  | .escaped c => ['\\', c]
  | .tag contents => '[' :: contents ++ [']']

def length : Piece → Nat
  | .plain _ => 1
  | .escaped _ => 2
  | .tag contents => contents.length + 2

@[simp] theorem length_source (p : Piece) : p.source.length = p.length := by
  cases p <;> simp [source, length]

def endsBlank : Piece → Bool
  | .plain c => Text.isBlank c
  | .escaped c => Text.isBlank c
  | .tag _ => false

/-- Whether the piece is a blank, and not an escaped one. -/
def isBlank : Piece → Bool
  | .plain c => Text.isBlank c
  | _ => false

/-- The text up to the next bracket that closes; a backslash hides the character after it. -/
def untilBracket? : Text → Option (Text × Text)
  | [] => none
  | [c] => if c = ']' then some ([], []) else none
  | c :: d :: t =>
    if c = ']' then some ([], d :: t)
    else if c = '\\' then (untilBracket? t).map fun p => (c :: d :: p.1, p.2)
    else (untilBracket? (d :: t)).map fun p => (c :: p.1, p.2)

/-- The contents of the tag whose opening bracket was just passed, and the text after the tag. The
contents hold one character at least, so a bracket that closes at once is part of them. -/
def tagContents? : Text → Option (Text × Text)
  | ']' :: t => (untilBracket? t).map fun p => (']' :: p.1, p.2)
  | t => untilBracket? t

theorem eq_of_untilBracket? {t contents rest : Text}
    (h : untilBracket? t = some (contents, rest)) : t = contents ++ ']' :: rest := by
  fun_induction untilBracket? t generalizing contents with
  | case1 => simp at h
  | case2 => simp_all
  | case3 c hc => simp at h
  | case4 d t => simp_all
  | case5 d t hc ih =>
    obtain ⟨⟨u, v⟩, hp, he⟩ := Option.map_eq_some_iff.1 h
    obtain ⟨rfl, rfl⟩ := Prod.mk.injEq .. ▸ he
    simp [ih hp]
  | case6 c d t hc hb ih =>
    obtain ⟨⟨u, v⟩, hp, he⟩ := Option.map_eq_some_iff.1 h
    obtain ⟨rfl, rfl⟩ := Prod.mk.injEq .. ▸ he
    simp [ih hp]

theorem eq_of_tagContents? {t contents rest : Text}
    (h : tagContents? t = some (contents, rest)) : t = contents ++ ']' :: rest := by
  unfold tagContents? at h
  split at h
  · obtain ⟨p, hp, he⟩ := Option.map_eq_some_iff.1 h
    simp only [Prod.mk.injEq] at he
    rw [← he.1, ← he.2, eq_of_untilBracket? hp, List.cons_append]
  · exact eq_of_untilBracket? h

theorem tagContents?_length {t contents rest : Text}
    (h : tagContents? t = some (contents, rest)) : rest.length < t.length := by
  rw [eq_of_tagContents? h]
  simp
  omega

/-- The pieces of a line. A backslash at the very end and an opening bracket without a closing one
are plain characters. -/
def cut (t : Text) : List Piece :=
  match t with
  | [] => []
  | c :: t =>
    if c = '[' then
      match _h : tagContents? t with
      | some (contents, rest) => .tag contents :: cut rest
      | none => .plain c :: cut t
    else if c = '\\' then
      match t with
      | [] => [.plain c]
      | d :: t => .escaped d :: cut t
    else .plain c :: cut t
termination_by t.length
decreasing_by
  · have := tagContents?_length _h
    simp only [List.length_cons]
    omega
  · simp
  · simp only [List.length_cons]
    omega
  · simp

/-- Nothing of the line is lost in the cutting. -/
@[simp] theorem flatMap_source_cut (t : Text) : (cut t).flatMap source = t := by
  fun_induction cut t with
  | case1 => rfl
  | case2 t contents rest h ih => simp [source, ih, eq_of_tagContents? h]
  | case3 t h ih => simp [source, ih]
  | case4 => simp [source]
  | case5 d t h ih => simp [source, ih]
  | case6 c t hc hb ih => simp [source, ih]

end Piece

end Parley.Markup
