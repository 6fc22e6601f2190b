import Parley.Proofs.Asking
import Parley.Proofs.Spans
set_option autoImplicit false

/-!
Parsing depends on the record of declarations only where a declaration repeats a variable.

A record that takes no declarations is empty, and in one that takes them no variable occurs twice.
What a body declares are the declarations that parsing comes to in a record that takes none, in the
order of the text. The first declaration of a variable that the record has by then ends the parsing;
without one, parsing gives what it gives in a record that takes no declarations.
-/

namespace Parley.Body

/-! The order of the text. -/

def Span.Before (s t : Span) : Prop :=
  s.line < t.line ∨ s.line = t.line ∧ s.endColumn ≤ t.column

namespace Lexer

variable {lines : List Text} {tokens : List Token} {token : Token} {l l' : Lexer}

theorem path_of_pulls (h : Pulls l tokens l') : Path l tokens l' := by
  induction h with
  | nil => exact .nil
  | cons head _ ih => exact .cons (step_of_next head) ih

theorem Accounts.before (h : Accounts lines tokens l) (hstep : Step l token l')
    (hkind : token.kind.isWritten = true) :
    ∀ t ∈ tokens, t.kind.isWritten = true → t.span.Before token.span := by
  have hafter := h.step hstep
  cases hstep with
  | @reads m found hmore hready hfind =>
    intro t ht hwritten
    have hnumber : (m.accept found).2.number = (m.accept found).1.span.line := by
      rw [accept_snd]
      rfl
    have hline : (m.accept found).1.span.line = l.number := hready.number_eq
    have hhere := hafter.here.ordered
    rw [hnumber, writtenOn_snoc hkind, List.pairwise_append] at hhere
    rcases Nat.lt_or_eq_of_le (h.numbers t ht hwritten).2 with hlt | heq
    · exact .inl (hline ▸ hlt)
    · have hon : t ∈ writtenOn (m.accept found).1.span.line tokens := by
        simp [writtenOn, ht, hwritten, heq, hready.number_eq]
      exact .inr ⟨heq.trans hline.symm, hhere.2.2 t hon _ (List.mem_singleton_self _)⟩
  | _ => cases hkind

/-- Written tokens come in the order of the text. -/
theorem Accounts.ordered (h : Accounts lines tokens l) {more : List Token} (hpath : Path l more l')
    (htokens : (tokens.filter fun t => t.kind.isWritten).Pairwise fun t u => t.span.Before u.span) :
    ((tokens ++ more).filter fun t => t.kind.isWritten).Pairwise fun t u => t.span.Before u.span := by
  induction hpath generalizing tokens with
  | nil => simpa using htokens
  | @cons l m l' token more head tail ih =>
    have hnext : ((tokens ++ [token]).filter fun t => t.kind.isWritten).Pairwise
        fun t u => t.span.Before u.span := by
      rw [List.filter_append, List.pairwise_append]
      refine ⟨htokens, ?_, ?_⟩
      · by_cases hkind : token.kind.isWritten = true <;> simp [hkind]
      · intro t ht u hu
        obtain ⟨hu, hkind⟩ := List.mem_filter.1 hu
        obtain rfl := List.mem_singleton.1 hu
        exact h.before head hkind t (List.mem_filter.1 ht).1 (List.mem_filter.1 ht).2
    have hall := ih (h.step head) hnext
    rwa [List.append_assoc, List.singleton_append] at hall

end Lexer

/-- The variables are among the tokens, each behind the word in front of it. -/
theorem declaredNames_sublist (word : Token) (tokens : List Token) :
    (declaredNames (word :: tokens)).Sublist tokens := by
  induction tokens generalizing word with
  | nil => simp [declaredNames]
  | cons name tokens ih =>
    rw [declaredNames]
    split
    · exact (ih name).cons_cons name
    · exact (ih name).cons name

theorem spans_of_names {log : List Registration} {names : List Token}
    (h : List.Forall₂ Registration.Names log names) :
    log.map Registration.span = names.map Token.span := by
  induction h with
  | nil => rfl
  | cons hname _ ih => rw [List.map_cons, List.map_cons, hname.2.2, ih]

theorem written_of_names {log : List Registration} {names : List Token}
    (h : List.Forall₂ Registration.Names log names) : ∀ t ∈ names, t.kind.isWritten = true := by
  induction h with
  | nil => simp
  | cons hname _ ih =>
    refine List.forall_mem_cons.2 ⟨?_, ih⟩
    rw [hname.1]
    rfl

/-- Declarations are registered in the order of the text. -/
theorem ordered_of_names {body : Text} {log : List Registration}
    (h : List.Forall₂ Registration.Names log (declaredNames (reached body))) :
    (log.map Registration.span).Pairwise Span.Before := by
  obtain ⟨l, hpulls⟩ := exists_pulls_reached body
  have hall := (Lexer.accounts_ofBody body).ordered (Lexer.path_of_pulls hpulls) .nil
  rw [List.nil_append] at hall
  have hsublist : (declaredNames (reached body)).Sublist
      ((reached body).filter fun t => t.kind.isWritten) := by
    rw [← List.filter_eq_self.2 (written_of_names h)]
    refine List.Sublist.filter _ ?_
    cases reached body with
    | nil => exact .slnil
    | cons word tokens => exact (declaredNames_sublist word tokens).cons word
  rw [spans_of_names h]
  exact List.pairwise_map.2 (hall.sublist hsublist)

/-! Records with and without repetitions. -/

namespace Declarations

def names (d : Declarations) : List Text :=
  d.entries.map Declaration.name

def extend (d : Declarations) (log : List Registration) : Declarations :=
  { d with entries := d.entries ++ log.map Registration.new }

@[simp] theorem extend_nil (d : Declarations) : d.extend [] = d := by
  simp [extend]

theorem extend_cons (d : Declarations) (r : Registration) (log : List Registration) :
    d.extend (r :: log) = (d.extend [r]).extend log := by
  simp [extend]

theorem register_unlocked {d : Declarations} (h : d.locked = false) (r : Registration) :
    d.register r.new r.span = if r.new.name ∈ d.names then
      .error ⟨.duplicateDeclaration r.new.name, r.span⟩ else .ok (d.extend [r]) := by
  have hany : (d.entries.any fun e => e.name == r.new.name) = true ↔ r.new.name ∈ d.names := by
    simp [names]
  by_cases hr : r.new.name ∈ d.names
  · simp [register, h, hany.2 hr, hr]
  · simp [register, h, mt hany.1 hr, hr, extend]

theorem nodup_extend {d : Declarations} (h : d.names.Nodup) {r : Registration}
    (hr : r.new.name ∉ d.names) : (d.extend [r]).names.Nodup := by
  have hnew : (d.extend [r]).names = d.names ++ [r.new.name] := by simp [names, extend]
  rw [hnew, List.nodup_append]
  refine ⟨h, by simp, ?_⟩
  intro x hx y hy
  rw [List.mem_singleton.1 hy]
  exact fun heq => hr (heq ▸ hx)

theorem registerAll_unlocked {d : Declarations} (h : d.locked = false) (hnames : d.names.Nodup)
    (log : List Registration) :
    (d.extend log).names.Nodup ∧ d.registerAll log = (none, d.extend log) ∨
      ∃ before r after, log = before ++ r :: after ∧ (d.extend before).names.Nodup ∧
        r.new.name ∈ (d.extend before).names ∧
        d.registerAll log = (some ⟨.duplicateDeclaration r.new.name, r.span⟩, d.extend before) := by
  induction log generalizing d with
  | nil => exact .inl ⟨by rwa [extend_nil], by rw [extend_nil]; rfl⟩
  | cons r log ih =>
    by_cases hr : r.new.name ∈ d.names
    · refine .inr ⟨[], r, log, rfl, by rwa [extend_nil], by rwa [extend_nil], ?_⟩
      simp [registerAll, register_unlocked h, hr]
    · have hregister : d.registerAll (r :: log) = (d.extend [r]).registerAll log := by
        simp [registerAll, register_unlocked h, hr]
      rw [hregister, extend_cons]
      rcases ih (d := d.extend [r]) h (nodup_extend hnames hr) with hall | ⟨before, s, after, rfl, hbefore⟩
      · exact .inl hall
      · refine .inr ⟨r :: before, s, after, rfl, ?_⟩
        rwa [extend_cons]

end Declarations

/-! The records that come about. -/

inductive RecordUse where
  | parse (body : Text)
  | reset
  | lock

namespace Declarations

def use (d : Declarations) : RecordUse → Declarations
  | .parse body => (parse body d).2
  | .reset => .empty
  | .lock => .sealed

inductive Reached : Declarations → Prop where
  | empty : Reached .empty
  | sealed : Reached .sealed
  | use {d : Declarations} (h : Reached d) (u : RecordUse) : Reached (d.use u)

def Tidy (d : Declarations) : Prop :=
  (d.locked = true → d.entries = []) ∧ (d.locked = false → d.names.Nodup)

@[simp] theorem tidy_empty : empty.Tidy :=
  ⟨by simp [empty], by simp [empty, names]⟩

theorem tidy_sealed : sealed.Tidy :=
  ⟨by simp [sealed], by simp [sealed]⟩

theorem respected_tidy : Respected fun d d' => d.Tidy → d'.Tidy where
  refl := fun _ h => h
  trans := fun hfirst hsecond h => hsecond (hfirst h)
  register := by
    intro d d' new span hregister h
    cases hlocked : d.locked with
    | true =>
      rw [respected_locked.register hregister hlocked]
      exact h
    | false =>
      rw [register_unlocked hlocked ⟨new, span⟩] at hregister
      split at hregister
      · cases hregister
      · rename_i hnew
        cases hregister
        refine ⟨fun hd => absurd hd (by simp [extend, hlocked]), fun _ => ?_⟩
        exact nodup_extend (h.2 hlocked) hnew

theorem Reached.tidy {d : Declarations} (h : d.Reached) : d.Tidy := by
  induction h with
  | empty => exact tidy_empty
  | sealed => exact tidy_sealed
  | @use d h u ih =>
    cases u with
    | parse body => exact parse_respects respected_tidy body d ih
    | reset => exact tidy_empty
    | lock => exact tidy_sealed

end Declarations

/-- Records that take no declarations are empty, and in those that take them no variable occurs twice.
Every body declares a list of variables: those whose declarations parsing comes to in a record that
takes none, in the order of the text. There parsing leaves the record as it is. In a record that takes
declarations, parsing ends in the same way and adds the list, unless a variable occurs twice by then:
the first such declaration is refused, and what stands in front of it is added. -/
theorem parse_differs_by_repetition :
    (∀ d : Declarations, d.Reached →
      (d.locked = true → d.entries = []) ∧ (d.locked = false → d.names.Nodup)) ∧
    ∀ body : Text, ((parse body .sealed).1.isOk = true → tokenize body = .ok (reached body)) ∧
      ∃ log : List Registration, List.Forall₂ Registration.Names log (declaredNames (reached body)) ∧
        (log.map Registration.span).Pairwise Span.Before ∧
        ∀ d : Declarations, d.Reached →
          (d.locked = true → parse body d = ((parse body .sealed).1, d)) ∧
          (d.locked = false →
            (d.extend log).names.Nodup ∧ parse body d = ((parse body .sealed).1, d.extend log) ∨
            ∃ before r after, log = before ++ r :: after ∧ (d.extend before).names.Nodup ∧
              r.new.name ∈ (d.extend before).names ∧
              parse body d = (.error ⟨.duplicateDeclaration r.new.name, r.span⟩, d.extend before)) := by
  refine ⟨fun d hd => hd.tidy, fun body => ⟨tokens_eq_reached, ?_⟩⟩
  obtain ⟨log, outcome, hlog, hparse⟩ := exists_registered body
  have hlocked {d : Declarations} (hd : d.locked = true) : parse body d = (outcome, d) := by
    rw [hparse, Declarations.conclude, Declarations.registerAll_locked hd]
  have houtcome : (parse body .sealed).1 = outcome := by rw [hlocked rfl]
  rw [houtcome]
  refine ⟨log, hlog, ordered_of_names hlog, fun d hd => ⟨hlocked, fun hunlocked => ?_⟩⟩
  rw [hparse, Declarations.conclude]
  rcases Declarations.registerAll_unlocked hunlocked (hd.tidy.2 hunlocked) log with
    ⟨hnames, hlog⟩ | ⟨before, r, after, hsplit, hnames, hr, hlog⟩
  · exact .inl ⟨hnames, by rw [hlog]⟩
  · exact .inr ⟨before, r, after, hsplit, hnames, hr, by rw [hlog]⟩

def declaredTwice : Text :=
  "<<declare $a = true>>\n<<declare $a = null>>".toList

/-- A body that would declare a variable twice, but cannot be parsed so far. -/
def declaredLate : Text :=
  "<<declare $a = true>>\n<<endif>>\n<<declare $a = null>>".toList

theorem parse_differs_by_repetition_twice :
    (parse declaredTwice .empty).1 = .error ⟨.duplicateDeclaration ['a'], ⟨2, 11, 13⟩⟩ ∧
    (parse declaredLate .empty).1 = (parse declaredLate .sealed).1 := by
  constructor
  · obtain ⟨-, log, hlog, -, hrecords⟩ := parse_differs_by_repetition.2 declaredTwice
    have hnames : declaredNames (reached declaredTwice) =
        [⟨.variableName, ['$', 'a'], ⟨1, 11, 13⟩⟩, ⟨.variableName, ['$', 'a'], ⟨2, 11, 13⟩⟩] := by
      decide +kernel
    rw [hnames] at hlog
    obtain ⟨r, r', rfl, hr, hr', hspan⟩ : ∃ r r', log = [r, r'] ∧ r.new.name = ['a'] ∧
        r'.new.name = ['a'] ∧ r'.span = ⟨2, 11, 13⟩ := by
      rcases hlog with _ | ⟨⟨-, hr, -⟩, _ | ⟨⟨-, hr', hspan⟩, ⟨⟩⟩⟩
      exact ⟨_, _, rfl, hr, hr', hspan⟩
    rcases (hrecords .empty .empty).2 rfl with ⟨hnodup, -⟩ | ⟨before, s, after, hsplit, -, hs, hparse⟩
    · rw [Declarations.names, Declarations.extend, Declarations.empty] at hnodup
      simp [hr, hr'] at hnodup
    · -- The one that is refused is not the first.
      rcases before with _ | ⟨first, _ | ⟨second, before⟩⟩
      · simp [Declarations.names, Declarations.extend, Declarations.empty] at hs
      · cases hsplit
        rw [hparse, hr', hspan]
      · simp at hsplit
  · obtain ⟨-, log, hlog, -, hrecords⟩ := parse_differs_by_repetition.2 declaredLate
    have hnames : declaredNames (reached declaredLate) = [⟨.variableName, ['$', 'a'], ⟨1, 11, 13⟩⟩] := by
      decide +kernel
    rw [hnames] at hlog
    rcases hlog with _ | @⟨r, -, -, -, -, ⟨⟩⟩
    rcases (hrecords .empty .empty).2 rfl with ⟨-, hparse⟩ | ⟨before, s, after, hsplit, -, hs, -⟩
    · rw [hparse]
    · rcases before with _ | ⟨first, before⟩
      · simp [Declarations.names, Declarations.extend, Declarations.empty] at hs
      · simp at hsplit

end Parley.Body
