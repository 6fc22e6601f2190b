import Parley.Text
set_option autoImplicit false

/-!
Tables from names to entries, in the order in which the names were first written.

A table is read through `get?`; writing a name again replaces its entry.
-/

namespace Parley

abbrev Table (α : Type) := List (Text × α)

namespace Table

variable {α : Type}

def get? : Table α → Text → Option α
  | [], _ => none
  | (k, a) :: t, name => if k = name then some a else get? t name

def put : Table α → Text → α → Table α
  | [], name, a => [(name, a)]
  | (k, b) :: t, name, a => if k = name then (k, a) :: t else (k, b) :: put t name a

def erase : Table α → Text → Table α
  | [], _ => []
  | (k, a) :: t, name => if k = name then erase t name else (k, a) :: erase t name

def contains (t : Table α) (name : Text) : Bool :=
  (t.get? name).isSome

def ofList (entries : List (Text × α)) : Table α :=
  entries.foldl (fun t e => t.put e.1 e.2) []

@[simp] theorem get?_put_self (t : Table α) (name : Text) (a : α) :
    (t.put name a).get? name = some a := by
  induction t with
  | nil => simp [put, get?]
  | cons e t ih =>
    by_cases h : e.1 = name
    · simp [put, get?, h]
    · simp [put, get?, h, ih]

@[simp] theorem get?_put_ne (t : Table α) {name other : Text} (a : α) (h : name ≠ other) :
    (t.put name a).get? other = t.get? other := by
  induction t with
  | nil => simp [put, get?, h]
  | cons e t ih =>
    by_cases he : e.1 = name
    · subst he
      simp [put, get?, h]
    · simp [put, get?, he, ih]

theorem get?_put (t : Table α) (name other : Text) (a : α) :
    (t.put name a).get? other = if name = other then some a else t.get? other := by
  by_cases h : name = other
  · rw [h, get?_put_self, if_pos rfl]
  · rw [get?_put_ne t a h, if_neg h]

@[simp] theorem get?_erase_self (t : Table α) (name : Text) : (t.erase name).get? name = none := by
  induction t with
  | nil => rfl
  | cons e t ih =>
    by_cases h : e.1 = name
    · simp [erase, h, ih]
    · simp [erase, get?, h, ih]

@[simp] theorem get?_erase_ne (t : Table α) {name other : Text} (h : name ≠ other) :
    (t.erase name).get? other = t.get? other := by
  induction t with
  | nil => rfl
  | cons e t ih =>
    by_cases he : e.1 = name
    · subst he
      simp [erase, get?, h, ih]
    · simp [erase, get?, he, ih]

end Table

end Parley
