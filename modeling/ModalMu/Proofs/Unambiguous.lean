import ModalMu.Proofs.Grammar
import ModalMu.Proofs.Numbering

/-!
# The grammar is unambiguous

A text spells at most one formula, whatever its names (`Spells.alike`). The first character of an operand
decides its production, and what the production then asks for is `Opened`. An operand that is not compact
ends where no junction follows, so two derivations of one text also end at the same place, and neither can
take a junction for its own that the other leaves behind.
-/

namespace ModalMu

namespace Grammar

open ModalMu.Parser

variable {c c' : Category} {f g : Formula} {s s₁ rest rest' : List Char} {x : Char}

/-- What stands behind a keyword, as the keyword asks for it. -/
def Worded (c : Category) (f : Formula) (rest word behind : List Char) : Prop :=
  word = ['t', 'r', 'u', 'e'] ∧ c = .compact ∧ f = .top ∧ rest = behind ∨
  word = ['f', 'a', 'l', 's', 'e'] ∧ c = .compact ∧ f = .bot ∧ rest = behind ∨
  ∃ k x i g s₁ s₂, word = (FixKind.keyword k).toList ∧ c = .reaching ∧ f = .fix k x i g ∧
    x.isUpper = true ∧ Token [x] behind s₁ ∧ Token ['.'] s₁ s₂ ∧ Derives .formula s₂ g rest

/-- What stands behind the first character of an operand, as this character asks for it. -/
def Opened (c : Category) (f : Formula) (rest : List Char) : List Char → Prop
  | [] => False
  | x :: s =>
    if x = '(' then c = .compact ∧ ∃ s₁, Derives .formula s f s₁ ∧ Token [')'] s₁ rest
    else if x = '<' then c = .reaching ∧ ∃ a g s₁, f = .diamond a g ∧ label '<' '>' s = .ok (a, s₁) ∧
      Derives .formula s₁ g rest
    else if x = '[' then c = .reaching ∧ ∃ a g s₁, f = .box a g ∧ label '[' ']' s = .ok (a, s₁) ∧
      Derives .formula s₁ g rest
    else if x = '!' then ∃ g, f = .not g ∧ Derives c s g rest
    else if x.isUpper then c = .compact ∧ rest = s ∧ ∃ i, f = .var x i
    else Worded c f rest ((x :: s).takeWhile isWordChar) ((x :: s).dropWhile isWordChar)

theorem opened_of_isUpper (hx : x.isUpper = true) :
    Opened c f rest (x :: s) ↔ c = .compact ∧ rest = s ∧ ∃ i, f = .var x i := by
  obtain ⟨h₁, h₂, h₃, h₄⟩ := ne_of_isUpper_or_isLower (.inl hx)
  rw [Opened, if_neg h₁, if_neg h₂, if_neg h₃, if_neg h₄, if_pos hx]

theorem opened_of_keyword {w behind : List Char} (hx : x.isLower = true)
    (hw : (x :: w).all isWordChar = true) (h : Keyword (x :: w) s behind) :
    Opened c f rest (skipTrivia s) ↔ Worded c f rest (x :: w) behind := by
  obtain ⟨htake, hdrop⟩ := (keyword_iff hw).1 h
  have hskip : skipTrivia s = x :: (w ++ behind) :=
    (token_iff_of_isWordChar (List.all_eq_true.1 hw x List.mem_cons_self)).1 h.1
  obtain ⟨h₁, h₂, h₃, h₄⟩ := ne_of_isUpper_or_isLower (.inr hx)
  rw [hskip] at htake hdrop ⊢
  rw [Opened, if_neg h₁, if_neg h₂, if_neg h₃, if_neg h₄, if_neg (not_isUpper_of_isLower hx), htake, hdrop]

theorem opened_of_top (h : Keyword ['t', 'r', 'u', 'e'] s s₁) :
    Opened c f rest (skipTrivia s) ↔ Worded c f rest ['t', 'r', 'u', 'e'] s₁ :=
  opened_of_keyword rfl rfl h

theorem opened_of_bot (h : Keyword ['f', 'a', 'l', 's', 'e'] s s₁) :
    Opened c f rest (skipTrivia s) ↔ Worded c f rest ['f', 'a', 'l', 's', 'e'] s₁ :=
  opened_of_keyword rfl rfl h

theorem opened_of_kind {k : FixKind} (h : Keyword k.keyword.toList s s₁) :
    Opened c f rest (skipTrivia s) ↔ Worded c f rest k.keyword.toList s₁ := by
  cases k with
  | least => exact opened_of_keyword (w := ['u']) rfl rfl h
  | greatest => exact opened_of_keyword (w := ['u']) rfl rfl h

theorem keyword_injective {k k' : FixKind} (h : k.keyword.toList = k'.keyword.toList) : k = k' := by
  cases k with
  | least =>
    cases k' with
    | least => rfl
    | greatest => cases h
  | greatest =>
    cases k' with
    | least => cases h
    | greatest => rfl

/-- The first character of an operand decides how it goes on. -/
theorem Derives.opened (h : Derives c s f rest) (hc : c ≠ .formula) : Opened c f rest (skipTrivia s) := by
  cases h with
  | top h => exact (opened_of_top h).2 (.inl ⟨rfl, rfl, rfl, rfl⟩)
  | bot h => exact (opened_of_bot h).2 (.inr (.inl ⟨rfl, rfl, rfl, rfl⟩))
  | var hx h =>
    rw [(token_iff_of_isUpper hx).1 h]
    exact (opened_of_isUpper hx).2 ⟨rfl, rfl, _, rfl⟩
  | parens h hf h' =>
    rw [token_open_iff.1 h]
    exact ⟨rfl, _, hf, h'⟩
  | not _ h hf =>
    rw [token_bang_iff.1 h]
    exact ⟨_, rfl, hf⟩
  | diamond h hf | box h hf =>
    obtain ⟨t, hskip, hlabel⟩ := (bracketed_iff rfl rfl).1 h
    rw [hskip]
    exact ⟨rfl, _, _, _, rfl, hlabel, hf⟩
  | fix h hx h₁ h₂ hf =>
    exact (opened_of_kind h).2 (.inr (.inr ⟨_, _, _, _, _, _, rfl, rfl, rfl, hx, h₁, h₂, hf⟩))
  | ofCompact | ofReaching | junction => exact (hc rfl).elim

/-- Two derivations of one text, both for operands or both for formulas, are alike and end at the same
place, if each of them ends where its category lets it. -/
theorem Derives.unique (h : Derives c s f rest) (h' : Derives c' s g rest')
    (hformula : c = .formula ↔ c' = .formula) (hend : c.Ends rest) (hend' : c'.Ends rest') :
    c = c' ∧ rest = rest' ∧ f.Alike g := by
  induction h generalizing c' g rest' with
  | top h =>
    have hopened := (opened_of_top h).1 (h'.opened (by simpa using hformula))
    rcases hopened with ⟨-, rfl, rfl, rfl⟩ | ⟨hword, -⟩ | ⟨k, -, -, -, -, -, hword, -⟩
    · exact ⟨rfl, rfl, fun _ _ => rfl⟩
    · cases hword
    · cases k <;> cases hword
  | bot h =>
    have hopened := (opened_of_bot h).1 (h'.opened (by simpa using hformula))
    rcases hopened with ⟨hword, -⟩ | ⟨-, rfl, rfl, rfl⟩ | ⟨k, -, -, -, -, -, hword, -⟩
    · cases hword
    · exact ⟨rfl, rfl, fun _ _ => rfl⟩
    · cases k <;> cases hword
  | var hx h =>
    have hopened := h'.opened (by simpa using hformula)
    rw [(token_iff_of_isUpper hx).1 h] at hopened
    obtain ⟨rfl, rfl, j, rfl⟩ := (opened_of_isUpper hx).1 hopened
    exact ⟨rfl, rfl, fun _ _ => rfl⟩
  | parens h hf hclose ih =>
    have hopened := h'.opened (by simpa using hformula)
    rw [token_open_iff.1 h] at hopened
    obtain ⟨rfl, s₂, hg, hclose'⟩ := hopened
    obtain ⟨-, rfl, halike⟩ := ih hg Iff.rfl (stops_of_close hclose) (stops_of_close hclose')
    have hrest := (token_close_iff.1 hclose).symm.trans (token_close_iff.1 hclose')
    exact ⟨rfl, List.tail_eq_of_cons_eq hrest, halike⟩
  | not hc h hf ih =>
    have hopened := h'.opened (mt hformula.2 hc)
    rw [token_bang_iff.1 h] at hopened
    obtain ⟨g, rfl, hg⟩ := hopened
    obtain ⟨rfl, rfl, halike⟩ := ih hg hformula hend hend'
    exact ⟨rfl, rfl, fun scope next => by rw [Formula.renumber, Formula.renumber, halike]⟩
  | diamond h hf ih | box h hf ih =>
    obtain ⟨t, hskip, hlabel⟩ := (bracketed_iff rfl rfl).1 h
    have hopened := h'.opened (by simpa using hformula)
    rw [hskip] at hopened
    obtain ⟨rfl, a, g, s₁, rfl, hlabel', hg⟩ := hopened
    obtain ⟨rfl, rfl⟩ := Prod.mk.inj (Except.ok.inj (hlabel.symm.trans hlabel'))
    obtain ⟨-, rfl, halike⟩ := ih hg Iff.rfl hend hend'
    exact ⟨rfl, rfl, fun scope next => by rw [Formula.renumber, Formula.renumber, halike]⟩
  | @fix k x _ _ _ _ _ _ _ h hx h₁ h₂ hf ih =>
    have hopened := (opened_of_kind h).1 (h'.opened (by simpa using hformula))
    rcases hopened with ⟨hword, -⟩ | ⟨hword, -⟩ | ⟨k', x', j, g, t₁, t₂, hword, rfl, rfl, hx', h₁', h₂', hg⟩
    · cases k <;> cases hword
    · cases k <;> cases hword
    · have hname := ((token_iff_of_isUpper hx).1 h₁).symm.trans ((token_iff_of_isUpper hx').1 h₁')
      obtain ⟨rfl, rfl⟩ := List.cons.inj hname
      obtain rfl := List.tail_eq_of_cons_eq ((token_dot_iff.1 h₂).symm.trans (token_dot_iff.1 h₂'))
      obtain ⟨-, rfl, halike⟩ := ih hg Iff.rfl hend hend'
      rw [keyword_injective hword]
      exact ⟨rfl, rfl, halike.fix k' x _ j⟩
  | ofCompact hf ih =>
    obtain rfl : c' = .formula := hformula.1 rfl
    cases h' with
    | ofCompact hg => exact ⟨rfl, (ih hg (by simp) trivial trivial).2⟩
    | ofReaching hg => cases (ih hg (by simp) trivial hend').1
    | junction j hl' h' hr' =>
      -- The left side of the other derivation is all of this one, which has to end before a junction.
      obtain ⟨-, rfl, -⟩ := ih hl' (by simp) trivial trivial
      exact (not_stops_of_token h' hend).elim
    | not hc => exact (hc rfl).elim
  | ofReaching hf ih =>
    obtain rfl : c' = .formula := hformula.1 rfl
    cases h' with
    | ofCompact hg => cases (ih hg (by simp) hend trivial).1
    | ofReaching hg => exact ⟨rfl, (ih hg (by simp) hend hend').2⟩
    | junction j hl' h' hr' => cases (ih hl' (by simp) hend trivial).1
    | not hc => exact (hc rfl).elim
  | junction j hl h hr ihl ihr =>
    obtain rfl : c' = .formula := hformula.1 rfl
    cases h' with
    | ofCompact hg =>
      obtain ⟨-, rfl, -⟩ := ihl hg (by simp) trivial trivial
      exact (not_stops_of_token h hend').elim
    | ofReaching hg => cases (ihl hg (by simp) trivial hend').1
    | junction j' hl' h' hr' =>
      obtain ⟨-, rfl, hleft⟩ := ihl hl' (by simp) trivial trivial
      have hsymbol := (token_symbol_iff.1 h).symm.trans (token_symbol_iff.1 h')
      obtain ⟨rfl, rfl⟩ := Prod.mk.inj (Option.some.inj hsymbol)
      obtain ⟨-, rfl, hright⟩ := ihr hr' Iff.rfl hend hend'
      exact ⟨rfl, rfl, hleft.join j hright⟩
    | not hc => exact (hc rfl).elim

theorem Spells.alike (h : Spells s f) (h' : Spells s g) : f.Alike g := by
  obtain ⟨rest, hf, hclosing⟩ := h
  obtain ⟨rest', hg, hclosing'⟩ := h'
  obtain ⟨-, -, halike⟩ := hf.unique hg Iff.rfl hclosing.stops hclosing'.stops
  exact halike

end Grammar

end ModalMu
