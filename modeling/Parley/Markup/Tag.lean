import Parley.Markup.Property
set_option autoImplicit false

/-!
Markup tags, as written between brackets.

A tag is a name followed by properties `key=value`. A slash in front of the name closes the tag of
that name, a slash at the end makes the tag close itself, and a slash alone closes all that is open.
Without a name the tag is called by its first property.
-/

namespace Parley.Markup

inductive Cause where
  | unmatchedClose (name : Text)
  | missingTagName (contents : Text)
  | invalidProperty (property : Text)
  | missingValue (tag : Text)
  | missingReplacement (tag : Text) (case : Text)
  deriving DecidableEq, Repr

def Cause.message : Cause → String
  | .unmatchedClose name =>
    "encountered closing " ++ String.ofList name ++ " tag before opening tag"
  | .missingTagName contents => "tag has no name: [" ++ String.ofList contents ++ "]"
  | .invalidProperty property =>
    "invalid markup property assignment: " ++ String.ofList property
  | .missingValue tag => String.ofList tag ++ " tag needs a value property"
  | .missingReplacement tag case =>
    String.ofList tag ++ " tag has no replacement for '" ++ String.ofList case ++ "'"

structure MarkupError where
  cause : Cause
  position : Nat
  deriving DecidableEq, Repr

def MarkupError.message (e : MarkupError) : String :=
  e.cause.message ++ " at position " ++ toString e.position

inductive Tag where
  | opening (name : Text) (properties : Properties)
  | selfClosing (name : Text) (properties : Properties)
  | closing (name : Text)
  | closeAll
  deriving DecidableEq, Repr

namespace Tag

def isNameChar (c : Char) : Bool :=
  !Text.isBlank c && c != '=' && c != '/'

/-- The leading name of a tag, and what follows the slash or blank behind it. A run of characters
that an equals sign follows is a key and no name. -/
def leadingName? (t : Text) : Option (Text × Text) :=
  let name := t.takeWhile isNameChar
  if name.isEmpty then none
  else match t.dropWhile isNameChar with
    | [] => some (name, [])
    | c :: rest => if c = '=' then none else some (name, rest)

def name? : Text → Option Text
  | '/' :: t => (leadingName? t).map Prod.fst
  | t => (leadingName? t).map Prod.fst

/-- A property whose value is quoted: characters up to a quotation mark on the same word, then
everything up to the next quotation mark on the same line. -/
def quoted? (t : Text) : Option (Text × Text) :=
  match t with
  | [] => none
  | c :: t =>
    let key := t.takeWhile fun d => !Text.isBlank d && d != '"'
    match t.dropWhile fun d => !Text.isBlank d && d != '"' with
    | '"' :: t =>
      let value := t.takeWhile fun d => d != '"' && d != '\n'
      match t.dropWhile fun d => d != '"' && d != '\n' with
      | '"' :: rest => some (c :: key ++ '"' :: value ++ ['"'], rest)
      | _ => none
    | _ => none

theorem length_dropWhile_le {α : Type} (p : α → Bool) (l : List α) :
    (l.dropWhile p).length ≤ l.length :=
  (List.dropWhile_sublist p).length_le

theorem quoted?_length {t word rest : Text} (h : quoted? t = some (word, rest)) :
    rest.length < t.length := by
  cases t with
  | nil => simp [quoted?] at h
  | cons c t =>
    simp only [quoted?] at h
    split at h
    · rename_i u hu
      have h1 := length_dropWhile_le (fun d => !Text.isBlank d && d != '"') t
      rw [hu] at h1
      split at h
      · rename_i r hr
        have h2 := length_dropWhile_le (fun d => d != '"' && d != '\n') u
        rw [hr] at h2
        simp only [Option.some.injEq, Prod.mk.injEq] at h
        simp only [List.length_cons] at h1 h2 ⊢
        rw [← h.2]
        omega
      · simp at h
    · simp at h

def isPropertyChar (c : Char) : Bool :=
  !Text.isBlank c && c != '/'

/-- The words of a tag that ought to be properties: quoted ones may hold blanks and slashes, others
end at them. -/
def propertyWords : Text → List Text
  | [] => []
  | c :: t =>
    if Text.isBlank c then propertyWords t
    else match _h : quoted? (c :: t) with
      | some (word, rest) => word :: propertyWords rest
      | none =>
        if c = '/' then propertyWords t
        else (c :: t.takeWhile isPropertyChar) :: propertyWords (t.dropWhile isPropertyChar)
termination_by t => t.length
decreasing_by
  · simp
  · exact quoted?_length _h
  · simp
  · have := length_dropWhile_le isPropertyChar t
    simp only [List.length_cons]
    omega

def readProperty (word : Text) : Except Cause (Text × PropertyValue) :=
  match Text.cut '=' word with
  | none => .error (.invalidProperty word)
  | some (key, value) =>
    if key.isEmpty || value.isEmpty then .error (.invalidProperty word)
    else .ok (key, .ofText value)

def read (contents : Text) : Except Cause Tag :=
  if contents = ['/'] then .ok .closeAll
  else if contents.head? = some '/' then
    match name? contents with
    | none => .error (.missingTagName contents)
    | some name => .ok (.closing name)
  else do
    let rest := match leadingName? contents with
      | some (_, rest) => rest
      | none => contents
    let entries ← (propertyWords rest).mapM readProperty
    match (name? contents).or (entries.head?.map Prod.fst) with
    | none => .error (.missingTagName contents)
    | some name =>
      let properties := Table.ofList entries
      if contents.getLast? = some '/' then .ok (.selfClosing name properties)
      else .ok (.opening name properties)

end Tag

end Parley.Markup
