import Parley.Proofs.GrammarComplete
set_option autoImplicit false

/-!
Whole bodies: the lexemes up to the end of the input, and what the grammar derives from them.
-/

namespace Parley.Body

namespace Lexer

variable {l l' m : Lexer}

theorem Path.leads {tokens : List Token} (h : Path l tokens l') :
    Leads l (tokens.map Token.lexeme) l' := by
  induction h with
  | nil => rfl
  | cons head tail ih => exact ⟨_, _, next_of_step head, rfl, ih⟩

theorem path_of_leads {xs : List Lexeme} (h : Leads l xs l') :
    ∃ tokens, tokens.map Token.lexeme = xs ∧ Path l tokens l' := by
  induction xs generalizing l with
  | nil =>
    cases h
    exact ⟨[], rfl, .nil⟩
  | cons x xs ih =>
    obtain ⟨token, rest, hpull, rfl, hrest⟩ := h
    obtain ⟨tokens, rfl, hpath⟩ := ih hrest
    exact ⟨token :: tokens, rfl, .cons (step_of_next hpull) hpath⟩

theorem leads_of_tokens {xs : List Lexeme} (h : l.tokens.map (·.map Token.lexeme) = .ok xs) :
    ∃ l', Leads l xs l' := by
  cases htokens : l.tokens with
  | error e => simp [htokens, Except.map] at h
  | ok tokens =>
    simp only [htokens, Except.map, Except.ok.injEq] at h
    obtain ⟨_, _, l', -, hpath, -⟩ := path_of_tokens htokens
    exact ⟨l', h ▸ hpath.leads⟩

theorem Step.text_of_unwritten {token : Token} (h : Step l token l')
    (hkind : token.kind.isWritten = false) : token.text = [] := by
  cases h with
  | reads _ _ hfind =>
    have hwritten := Mode.find?_isWritten hfind
    rw [accept_kind, hwritten] at hkind
    cases hkind
  | _ => rfl

end Lexer

def inputEnd : Lexeme := (.endOfInput, [])

def Lexer.Spells (l : Lexer) (xs : List Lexeme) : Prop :=
  (∀ x ∈ xs, x.1.isInner = true) ∧ ∃ l', Leads l (xs ++ [inputEnd]) l'

theorem Lexer.Spells.unique {l : Lexer} {xs ys : List Lexeme} (hxs : l.Spells xs)
    (hys : l.Spells ys) : xs = ys := by
  obtain ⟨hxs, l₁, h₁⟩ := hxs
  obtain ⟨hys, l₂, h₂⟩ := hys
  induction xs generalizing l ys with
  | nil =>
    obtain ⟨token, rest, hpull, htoken, -⟩ := h₁
    cases ys with
    | nil => rfl
    | cons y ys =>
      obtain ⟨token', rest', hpull', rfl, -⟩ := h₂
      rw [hpull] at hpull'
      cases hpull'
      have hinner := hys _ (List.mem_cons_self ..)
      rw [htoken] at hinner
      cases hinner
  | cons x xs ih =>
    obtain ⟨token, rest, hpull, rfl, hrest⟩ := h₁
    cases ys with
    | nil =>
      obtain ⟨token', rest', hpull', htoken, -⟩ := h₂
      rw [hpull] at hpull'
      cases hpull'
      have hinner := hxs _ (List.mem_cons_self ..)
      rw [htoken] at hinner
      cases hinner
    | cons y ys =>
      obtain ⟨token', rest', hpull', rfl, hrest'⟩ := h₂
      rw [hpull] at hpull'
      cases hpull'
      rw [ih (fun x hx => hxs x (List.mem_cons_of_mem _ hx)) hrest
        (fun y hy => hys y (List.mem_cons_of_mem _ hy)) hrest']

theorem Lexer.tokens_of_next {l rest : Lexer} {token : Token} (h : l.next = .ok (token, rest)) :
    l.tokens = if token.kind = .endOfInput then .ok [token] else rest.tokens.map (token :: ·) := by
  rw [Lexer.tokens]
  split
  · rename_i e he
    rw [h] at he
    cases he
  · rename_i token' rest' he
    rw [h] at he
    cases he
    rfl

theorem Lexer.Spells.tokens {l : Lexer} {xs : List Lexeme} (h : l.Spells xs) :
    ∃ tokens, l.tokens = .ok tokens ∧ tokens.map Token.lexeme = xs ++ [inputEnd] := by
  obtain ⟨hxs, l', hleads⟩ := h
  induction xs generalizing l with
  | nil =>
    obtain ⟨token, rest, hpull, htoken, -⟩ := hleads
    have hkind : token.kind = .endOfInput := congrArg Prod.fst htoken
    exact ⟨[token], by rw [Lexer.tokens_of_next hpull, if_pos hkind], by rw [← htoken]; rfl⟩
  | cons x xs ih =>
    obtain ⟨token, rest, hpull, rfl, hleads⟩ := hleads
    obtain ⟨tokens, htokens, hlexemes⟩ := ih (fun y hy => hxs y (List.mem_cons_of_mem _ hy)) hleads
    have hkind : token.kind ≠ .endOfInput :=
      TokenKind.isInner_iff.1 (hxs token.lexeme (List.mem_cons_self ..))
    refine ⟨token :: tokens, ?_, by simp [hlexemes]⟩
    rw [Lexer.tokens_of_next hpull, if_neg hkind, htokens]
    rfl

/-- There are not more lexemes than the weight of a lexer allows. -/
theorem Lexer.Spells.length_le {l : Lexer} {xs : List Lexeme} (h : l.Spells xs) :
    xs.length ≤ l.weight := by
  obtain ⟨hinner, l', h⟩ := h
  induction xs generalizing l with
  | nil => exact Nat.zero_le _
  | cons x xs ih =>
    obtain ⟨token, rest, hpull, rfl, hrest⟩ := h
    have hrest := ih (fun x hx => hinner x (List.mem_cons_of_mem _ hx)) hrest
    have hkind : token.kind ≠ .endOfInput :=
      TokenKind.isInner_iff.1 (hinner token.lexeme (List.mem_cons_self ..))
    have hweight := Lexer.weight_next hpull hkind
    simp only [List.length_cons]
    omega

/-- The statements and declarations that the grammar derives from lexemes. -/
abbrev Derives (xs : List Lexeme) (ss : List Statement) (ds : List Declaration) : Prop :=
  (Passage.block ss .endOfInput).Reads ds (xs ++ [inputEnd]) [inputEnd]

theorem derives_of_parseSource {l : Lexer} {declared declared' : Declarations} {ss : List Statement}
    (h : parseSource l declared = (.ok ss, declared')) :
    ∃ xs ds, l.Spells xs ∧ Derives xs (unnumberedAll ss) ds ∧ declared.Admits ds ∧
      declared.Grows ds declared' := by
  unfold parseSource at h
  split at h
  · rename_i found c hbody
    cases h
    obtain ⟨ds, hadmits, hgrows, hahead⟩ := Parse.body_passes hbody
    obtain ⟨ys, s, hys, hshort⟩ : ∃ ys s, c.Ahead ys s ∧ ys.length ≤ 1 := by
      cases hpeeked : c.peeked with
      | none => exact ⟨[], c.source, by simp [Cursor.Ahead, hpeeked, Leads], by simp⟩
      | some token =>
        exact ⟨[token.lexeme], c.source, by simp [Cursor.Ahead, hpeeked, Leads], by simp⟩
    obtain ⟨xs, hxs, hreads⟩ := hahead ys s hys
    obtain ⟨t, zs, rfl⟩ := hreads.inputEnd_of_block
    obtain rfl : zs = [] := List.eq_nil_of_length_eq_zero (by simpa using hshort)
    obtain ⟨front, rfl, -, hfront⟩ := hreads.uses
    -- The end of the input comes from the lexer, so that nothing is written for it.
    obtain rfl : t = [] := by
      obtain ⟨tokens, htokens, hpath⟩ := Lexer.path_of_leads hxs
      obtain ⟨before, last, rfl⟩ : ∃ before last, tokens = before ++ [last] := by
        refine ⟨tokens.dropLast, tokens.getLast ?_, (List.dropLast_concat_getLast _).symm⟩
        rintro rfl
        simp at htokens
      rw [List.map_append] at htokens
      have hlast : last.lexeme = (.endOfInput, t) := by
        simpa using (List.append_inj' htokens rfl).2
      obtain ⟨m, -, hend⟩ := hpath.split
      cases hend with
      | cons head _ =>
        have htext := head.text_of_unwritten (by rw [show last.kind = _ from congrArg Prod.fst hlast]; rfl)
        exact (congrArg Prod.snd hlast).symm.trans htext
    exact ⟨front, ds, ⟨hfront, s, hxs⟩, hreads, hadmits, hgrows⟩
  · cases h

theorem parseSource_of_derives {l : Lexer} {declared : Declarations} {xs : List Lexeme}
    {ss : List Statement} {ds : List Declaration} (hxs : l.Spells xs) (h : Derives xs ss ds)
    (hadmits : declared.Admits ds) :
    ∃ found declared', parseSource l declared = (.ok found, declared') ∧
      unnumberedAll found = ss ∧ declared.Grows ds declared' := by
  have hlength := hxs.length_le
  obtain ⟨-, l', hleads⟩ := hxs
  have hbound : 4 * (xs ++ [inputEnd]).length + 2 ≤
      4 * TokenSource.weight l + 8 + 4 * [inputEnd].length := by
    simp only [List.length_append, List.length_singleton]
    show _ ≤ 4 * l.weight + 8 + _
    omega
  obtain ⟨found, d, hbody, hfound, -, hgrows⟩ :=
    Parse.reaches_body h hbound ⟨l, none, declared⟩ l' hleads hadmits
  refine ⟨found, d.declared, ?_, hfound, hgrows⟩
  unfold parseSource
  rw [show Parse.body _ _ = _ from hbody]

end Parley.Body
