import ModalMu.Proofs.Unambiguous

/-!
# What is read

The reader accepts exactly the texts of the grammar whose names are well scoped, and gives the formula that
they spell (`parse_iff_spells`).

A text does not say the slots of a formula, so `Formula.renumber` gives them out in the order in which the
reader does. Completeness is one equation for each phrase (`Derives.understood`): reading it gives its
renumbered formula and what follows it, or nothing if the names are not well scoped. In this form the
induction over the derivation passes through both outcomes at once. A phrase is read as such only if it
ends where its category lets it (`Category.Ends`), because behind any but a compact phrase the reader would
go on with a junction.

Soundness is an induction on the bound of the reader (`formula_grammatical`). A reaching phrase comes with
the fact that no junction follows it, so whatever stands before a junction is compact.
-/

namespace ModalMu

namespace Grammar

open ModalMu.Parser

variable {f l r : Formula} {scope : Scope} {next bound : Nat} {s s₁ s₂ rest : List Char}

/-! ## Phrases that are read -/

/-- What becomes of a phrase: nothing if its names are not well scoped, else its formula with numbers and
with its table. -/
def numbered (scope : Scope) (next : Nat) (f : Formula) (rest : List Char) : Option Piece :=
  if f.WellScoped (scope.map (·.1)) then
    some ⟨f.renumber scope next, (f.renumber scope next).table, (f.renumber scope next).occurrences, rest⟩
  else
    none

/-- How far the reader has to go for a phrase of the category. -/
def Category.reach : Category → Reach
  | .formula => .junction
  | .compact | .reaching => .operand

theorem toOption_bind {ε α β : Type} (x : Except ε α) (g : α → Except ε β) :
    (x >>= g).toOption = x.toOption.bind fun a => (g a).toOption := by
  cases x <;> rfl

/-! ### The tree -/

/-- An operator that binds nothing changes the formula of a piece only. -/
theorem toOption_unary {read : Except Failure Piece} {g : Formula → Formula}
    (h : read.toOption = numbered scope next f rest)
    (hscoped : ∀ names, (g f).WellScoped names ↔ f.WellScoped names)
    (hrenumber : (g f).renumber scope next = g (f.renumber scope next))
    (htable : (g (f.renumber scope next)).table = (f.renumber scope next).table)
    (hoccurrences : (g (f.renumber scope next)).occurrences = (f.renumber scope next).occurrences) :
    Except.toOption (read >>= fun p => .ok { p with formula := g p.formula }) =
      numbered scope next (g f) rest := by
  rw [toOption_bind, h]
  unfold numbered
  by_cases hf : f.WellScoped (scope.map (·.1))
  · rw [if_pos hf, if_pos ((hscoped _).2 hf), hrenumber, htable, hoccurrences]
    rfl
  · rw [if_neg hf, if_neg fun hg => hf ((hscoped _).1 hg)]
    rfl

theorem numbered_fix {k : FixKind} {x : Char} {i : Nat} : numbered scope next (.fix k x i f) rest =
    if (scope.lookup x).isSome then none
    else (numbered ((x, next) :: scope) (next + 1) f rest).map fun body =>
      ⟨.fix k x next body.formula,
        ⟨x, k, next, body.binders.map (·.slot), body.occurrences⟩ :: body.binders,
        body.occurrences, body.rest⟩ := by
  unfold numbered
  by_cases hx : x ∈ scope.map (·.1)
  · have hsome : (scope.lookup x).isSome := by
      rw [Formula.lookup_getD hx]
      rfl
    rw [if_neg fun h => h.1 hx, if_pos hsome]
  · have hnone : ¬(scope.lookup x).isSome := by
      rw [Formula.lookup_eq_none_iff.2 hx]
      nofun
    rw [if_neg hnone]
    by_cases hf : f.WellScoped (x :: scope.map (·.1))
    · rw [if_pos ⟨hx, hf⟩, List.map_cons, if_pos hf]
      simp only [Formula.renumber, Formula.table, Formula.occurrences, Option.map_some,
        Formula.map_slot_table]
    · rw [if_neg fun h => hf h.2, List.map_cons, if_neg hf]
      rfl

theorem numbered_join (j : Junction) : numbered scope next (j.join l r) rest =
    (numbered scope next l s).bind fun left =>
      (numbered scope (next + left.binders.length) r rest).map fun right =>
        ⟨j.join left.formula right.formula, left.binders ++ right.binders,
          left.occurrences ++ right.occurrences, right.rest⟩ := by
  have hjoin : (j.join l r).WellScoped (scope.map (·.1)) ↔
      l.WellScoped (scope.map (·.1)) ∧ r.WellScoped (scope.map (·.1)) := by
    cases j <;> exact Iff.rfl
  have hlength : (l.renumber scope next).table.length = l.slots.length := by
    rw [← List.length_map (·.slot), Formula.map_slot_table, Formula.slots_renumber, List.length_range']
  unfold numbered
  by_cases hl : l.WellScoped (scope.map (·.1))
  · by_cases hr : r.WellScoped (scope.map (·.1))
    · rw [if_pos (hjoin.2 ⟨hl, hr⟩), if_pos hl]
      simp only [Option.bind_some, if_pos hr, hlength, Option.map_some]
      cases j <;> rfl
    · rw [if_neg fun h => hr (hjoin.1 h).2, if_pos hl]
      simp only [Option.bind_some, if_neg hr, Option.map_none]
  · rw [if_neg fun h => hl (hjoin.1 h).1, if_neg hl]
    rfl

/-! ### The reader -/

theorem expect_eq_ok_iff {c : Char} {expected : Expectation} :
    expect c expected s = .ok rest ↔ skipTrivia s = c :: rest := by
  unfold expect
  split
  · next h => simp [h]
  · next d t h =>
    by_cases hd : d = c
    · simp [hd, h]
    · simp [hd, h]

section Operand

variable {read : Reading}

theorem operand_parens (h : skipTrivia s = '(' :: s₁) : operand read scope next s = (do
    let inside ← read .junction scope next s₁
    let behind ← expect ')' .closing inside.rest
    .ok { inside with rest := behind }) := by
  rw [operand, h]
  rfl

theorem operand_not (h : skipTrivia s = '!' :: s₁) : operand read scope next s = (do
    let body ← read .operand scope next s₁
    .ok { body with formula := .not body.formula }) := by
  rw [operand, h]
  rfl

theorem operand_diamond {a : Label} {t : List Char} (h : skipTrivia s = '<' :: t)
    (ha : label '<' '>' t = .ok (a, s₁)) : operand read scope next s = (do
    let body ← read .junction scope next s₁
    .ok { body with formula := .diamond a body.formula }) := by
  rw [operand, h]
  show (label '<' '>' t >>= _) = _
  rw [ha]
  rfl

theorem operand_box {a : Label} {t : List Char} (h : skipTrivia s = '[' :: t)
    (ha : label '[' ']' t = .ok (a, s₁)) : operand read scope next s = (do
    let body ← read .junction scope next s₁
    .ok { body with formula := .box a body.formula }) := by
  rw [operand, h]
  show (label '[' ']' t >>= _) = _
  rw [ha]
  rfl

theorem operand_var {x : Char} (hx : x.isUpper = true) (h : skipTrivia s = x :: rest) :
    operand read scope next s = occurrence scope x rest := by
  obtain ⟨h₁, h₂, h₃, h₄⟩ := ne_of_isUpper_or_isLower (.inl hx)
  rw [operand, h]
  simp only [if_neg h₁, if_neg h₂, if_neg h₃, if_neg h₄, if_pos hx]

theorem toOption_occurrence {x : Char} (i : Nat) :
    (occurrence scope x rest).toOption = numbered scope next (.var x i) rest := by
  unfold occurrence numbered
  by_cases hx : x ∈ scope.map (·.1)
  · rw [if_pos (show (Formula.var x i).WellScoped _ from hx), Formula.lookup_getD hx]
    rfl
  · rw [if_neg (show ¬(Formula.var x i).WellScoped _ from hx), Formula.lookup_eq_none_iff.2 hx]
    rfl

theorem operand_keyword {c : Char} {w : List Char} (hc : c.isLower = true)
    (hw : (c :: w).all isWordChar = true) (h : Keyword (c :: w) s rest) :
    ∃ t, operand read scope next s = keyword read scope next t ∧
      t.takeWhile isWordChar = c :: w ∧ t.dropWhile isWordChar = rest := by
  obtain ⟨htake, hdrop⟩ := (keyword_iff hw).1 h
  have hskip : skipTrivia s = c :: (w ++ rest) :=
    (token_iff_of_isWordChar (List.all_eq_true.1 hw c List.mem_cons_self)).1 h.1
  refine ⟨skipTrivia s, ?_, htake, hdrop⟩
  obtain ⟨h₁, h₂, h₃, h₄⟩ := ne_of_isUpper_or_isLower (.inr hc)
  rw [operand, hskip]
  simp only [if_neg h₁, if_neg h₂, if_neg h₃, if_neg h₄, if_neg (not_isUpper_of_isLower hc), if_pos hc]

theorem operand_top (h : Keyword ['t', 'r', 'u', 'e'] s rest) :
    operand read scope next s = .ok ⟨.top, [], [], rest⟩ := by
  obtain ⟨t, heq, htake, hdrop⟩ := operand_keyword rfl rfl h
  rw [heq, keyword, htake, hdrop]
  rfl

theorem operand_bot (h : Keyword ['f', 'a', 'l', 's', 'e'] s rest) :
    operand read scope next s = .ok ⟨.bot, [], [], rest⟩ := by
  obtain ⟨t, heq, htake, hdrop⟩ := operand_keyword rfl rfl h
  rw [heq, keyword, htake, hdrop]
  rfl

theorem operand_fix {k : FixKind} (h : Keyword k.keyword.toList s rest) :
    operand read scope next s = fixedPoint read k scope next rest := by
  cases k with
  | least =>
    obtain ⟨t, heq, htake, hdrop⟩ := operand_keyword (w := ['u']) rfl rfl h
    rw [heq, keyword, htake, hdrop]
    rfl
  | greatest =>
    obtain ⟨t, heq, htake, hdrop⟩ := operand_keyword (w := ['u']) rfl rfl h
    rw [heq, keyword, htake, hdrop]
    rfl

theorem fixedPoint_eq {k : FixKind} {x : Char} (hx : x.isUpper = true) (hname : Token [x] s s₁)
    (hdot : Token ['.'] s₁ s₂) : fixedPoint read k scope next s =
      if (scope.lookup x).isSome then .error ⟨.duplicateBinder x, x :: s₁⟩
      else (do
        let body ← read .junction ((x, next) :: scope) (next + 1) s₂
        .ok ⟨.fix k x next body.formula,
          ⟨x, k, next, body.binders.map (·.slot), body.occurrences⟩ :: body.binders,
          body.occurrences, body.rest⟩) := by
  have hname' : skipTrivia s = x :: s₁ := (token_iff_of_isUpper hx).1 hname
  have hexpect : expect '.' .dot s₁ = .ok s₂ := expect_eq_ok_iff.2 (token_dot_iff.1 hdot)
  rw [fixedPoint, hname']
  show (if x.isUpper then (expect '.' .dot s₁ >>= _) else _) = _
  rw [if_pos hx, hexpect]
  rfl

end Operand

theorem formula_operand (bound : Nat) (scope : Scope) (next : Nat) (s : List Char) :
    formula (bound + 1) .operand scope next s = operand (formula bound) scope next s := by
  rw [formula]
  cases operand (formula bound) scope next s <;> rfl

/-- A formula that reaches over junctions begins with an operand. -/
theorem formula_junction (bound : Nat) (scope : Scope) (next : Nat) (s : List Char) :
    formula (bound + 1) .junction scope next s = (do
      let left ← formula (bound + 1) .operand scope next s
      match junction? (skipTrivia left.rest) with
      | none => .ok left
      | some (j, rest) =>
        let right ← formula bound .junction scope (next + left.binders.length) rest
        .ok ⟨j.join left.formula right.formula, left.binders ++ right.binders,
          left.occurrences ++ right.occurrences, right.rest⟩) := by
  exact (formula_operand bound scope next s).symm ▸ rfl

/-! ### Completeness -/

theorem Token.length_lt {c : Char} {w : List Char} (h : Token (c :: w) s rest) :
    rest.length < s.length := by
  obtain ⟨gap, -, rfl⟩ := h
  simp only [List.length_append, List.length_cons]
  omega

theorem Token.symbol_length_lt {j : Junction} (h : Token (symbol j) s rest) : rest.length < s.length := by
  cases j <;> exact Token.length_lt h

theorem Keyword.kind_length_lt {k : FixKind} (h : Keyword k.keyword.toList s rest) :
    rest.length < s.length := by
  cases k <;> exact Token.length_lt h.1

theorem Bracketed.length_lt {opening closing : Char} {a : Label} (h : Bracketed opening closing a s rest) :
    rest.length < s.length := by
  obtain ⟨-, before, behind, -, h⟩ := h
  exact h.length_lt

/-- A phrase is never empty. -/
theorem Derives.length_lt {c : Category} (h : Derives c s f rest) : rest.length < s.length := by
  induction h with
  | top h | bot h => exact h.1.length_lt
  | var _ h => exact h.length_lt
  | parens h _ h' ih =>
    have hopen := h.length_lt
    have hclose := h'.length_lt
    omega
  | not _ h _ ih => exact Nat.lt_trans ih h.length_lt
  | diamond h _ ih | box h _ ih => exact Nat.lt_trans ih h.length_lt
  | fix h _ h₁ h₂ _ ih =>
    have hword := h.kind_length_lt
    have hname := h₁.length_lt
    have hdot := h₂.length_lt
    omega
  | ofCompact _ ih | ofReaching _ ih => exact ih
  | junction j _ h _ ihl ihr =>
    have hsymbol := h.symbol_length_lt
    omega

theorem numbered_bind_congr {α : Type} {g g' : Piece → Option α} (h : ∀ p, p.rest = rest → g p = g' p) :
    (numbered scope next f rest).bind g = (numbered scope next f rest).bind g' := by
  unfold numbered
  split
  · exact h _ rfl
  · rfl

/-- What only moves on in the text leaves the formula alone. -/
theorem numbered_bind_eq {g : Piece → Option Piece}
    (h : ∀ p, p.rest = s → g p = some { p with rest := rest }) :
    (numbered scope next f s).bind g = numbered scope next f rest := by
  unfold numbered
  split
  · exact h _ rfl
  · rfl

/-- The reader makes of a phrase what is to become of it, if the text is not too long for it. -/
def Understood (c : Category) (s : List Char) (f : Formula) (rest : List Char) : Prop :=
  c.Ends rest → ∀ bound scope next, s.length ≤ bound →
    (formula bound c.reach scope next s).toOption = numbered scope next f rest

theorem Derives.understood_of_succ {c : Category} (h : Derives c s f rest)
    (hread : c.Ends rest → ∀ bound scope next, s.length ≤ bound + 1 →
      (formula (bound + 1) c.reach scope next s).toOption = numbered scope next f rest) :
    Understood c s f rest := by
  intro hend bound scope next hbound
  have hpos := h.length_lt
  obtain ⟨bound, rfl⟩ : ∃ n, bound = n + 1 := ⟨bound - 1, by omega⟩
  exact hread hend bound scope next hbound

/-- An operand that no junction follows is a whole formula. -/
theorem Understood.ofOperand {c : Category} (h : Understood c s f rest) (hreach : c.reach = .operand)
    (hf : Derives .formula s f rest) : Understood .formula s f rest := by
  refine hf.understood_of_succ fun hstops bound scope next hbound => ?_
  have hleft := h (c.ends_of_stops hstops) (bound + 1) scope next hbound
  rw [hreach] at hleft
  rw [Category.reach, formula_junction, toOption_bind, hleft]
  refine numbered_bind_eq fun p hp => ?_
  rw [hp, show junction? (skipTrivia rest) = none from hstops, ← hp]
  rfl

/-- Whatever the grammar derives is read as such. -/
theorem Derives.understood {c : Category} (h : Derives c s f rest) : Understood c s f rest := by
  induction h with
  | top h =>
    refine Derives.understood_of_succ (.top h) fun _ bound scope next _ => ?_
    rw [Category.reach, formula_operand, operand_top h]
    rfl
  | bot h =>
    refine Derives.understood_of_succ (.bot h) fun _ bound scope next _ => ?_
    rw [Category.reach, formula_operand, operand_bot h]
    rfl
  | @var x i _ _ hx h =>
    refine Derives.understood_of_succ (.var hx h) fun _ bound scope next _ => ?_
    rw [Category.reach, formula_operand, operand_var hx ((token_iff_of_isUpper hx).1 h)]
    exact toOption_occurrence i
  | @parens f s s₁ s₂ rest h hf h' ih =>
    refine Derives.understood_of_succ (.parens h hf h') fun _ bound scope next hbound => ?_
    have hlt := h.length_lt
    have hexpect : expect ')' .closing s₂ = .ok rest := expect_eq_ok_iff.2 (token_close_iff.1 h')
    have hinside : (formula bound .junction scope next s₁).toOption = numbered scope next f s₂ :=
      ih (stops_of_close h') bound scope next (by omega)
    rw [Category.reach, formula_operand, operand_parens (token_open_iff.1 h), toOption_bind, hinside]
    refine numbered_bind_eq fun p hp => ?_
    rw [hp, hexpect]
    rfl
  | @not c f s s₁ rest hc h hf ih =>
    refine Derives.understood_of_succ (.not hc h hf) fun hend bound scope next hbound => ?_
    have hlt := h.length_lt
    have hbody := ih hend bound scope next (by omega)
    have hreach : c.reach = .operand := by
      cases c with
      | formula => exact (hc rfl).elim
      | compact | reaching => rfl
    rw [hreach] at hbody ⊢
    rw [formula_operand, operand_not (token_bang_iff.1 h)]
    exact toOption_unary (g := .not) hbody (fun _ => Iff.rfl) rfl rfl rfl
  | @diamond a f s s₁ rest h hf ih =>
    refine Derives.understood_of_succ (.diamond h hf) fun hend bound scope next hbound => ?_
    have hlt := h.length_lt
    have hbody := ih hend bound scope next (by omega)
    obtain ⟨t, hskip, hlabel⟩ := (bracketed_iff rfl rfl).1 h
    rw [Category.reach, formula_operand, operand_diamond hskip hlabel]
    exact toOption_unary (g := .diamond a) hbody (fun _ => Iff.rfl) rfl rfl rfl
  | @box a f s s₁ rest h hf ih =>
    refine Derives.understood_of_succ (.box h hf) fun hend bound scope next hbound => ?_
    have hlt := h.length_lt
    have hbody := ih hend bound scope next (by omega)
    obtain ⟨t, hskip, hlabel⟩ := (bracketed_iff rfl rfl).1 h
    rw [Category.reach, formula_operand, operand_box hskip hlabel]
    exact toOption_unary (g := .box a) hbody (fun _ => Iff.rfl) rfl rfl rfl
  | @fix k x i f s s₁ s₂ s₃ rest h hx h₁ h₂ hf ih =>
    refine Derives.understood_of_succ (.fix h hx h₁ h₂ hf) fun hend bound scope next hbound => ?_
    have hword := h.kind_length_lt
    have hname := h₁.length_lt
    have hdot := h₂.length_lt
    have hbody := ih hend bound ((x, next) :: scope) (next + 1) (by omega)
    rw [Category.reach, formula_operand, operand_fix h, fixedPoint_eq hx h₁ h₂, numbered_fix]
    split
    · rfl
    · rw [toOption_bind, ← hbody, Option.map_eq_bind]
      rfl
  | ofCompact hf ih => exact ih.ofOperand rfl (.ofCompact hf)
  | ofReaching hf ih => exact ih.ofOperand rfl (.ofReaching hf)
  | @junction l r s s₁ s₂ rest j hl h hr ihl ihr =>
    refine Derives.understood_of_succ (.junction j hl h hr) fun hend bound scope next hbound => ?_
    have hlt := hl.length_lt
    have hsymbol := h.symbol_length_lt
    have hleft : (formula (bound + 1) .operand scope next s).toOption = numbered scope next l s₁ :=
      ihl trivial (bound + 1) scope next hbound
    rw [Category.reach, formula_junction, toOption_bind, hleft, numbered_join j]
    refine numbered_bind_congr fun p hp => ?_
    have hright := ihr hend bound scope (next + p.binders.length) (by omega)
    rw [hp, token_symbol_iff.1 h, ← hright, Option.map_eq_bind]
    exact toOption_bind _ _

/-! ### Soundness -/

/-- What was read is what the grammar derives; no junction is left behind that could have been read. -/
def Grammatical (reach : Reach) (s : List Char) (p : Piece) : Prop :=
  match reach with
  | .operand => Derives .compact s p.formula p.rest ∨ Derives .reaching s p.formula p.rest ∧ Stops p.rest
  | .junction => Derives .formula s p.formula p.rest ∧ Stops p.rest

/-- All that is read is grammatical. -/
def Sound (read : Reading) : Prop :=
  ∀ {reach scope next s p}, read reach scope next s = .ok p → Grammatical reach s p

section Sound

variable {read : Reading} {p : Piece}

theorem fixedPoint_grammatical (hread : Sound read) {k : FixKind} {s₀ : List Char}
    (hk : Keyword k.keyword.toList s₀ s) (h : fixedPoint read k scope next s = .ok p) :
    Grammatical .operand s₀ p := by
  unfold fixedPoint at h
  split at h
  · cases h
  · next x t hskip =>
    split at h
    · next hx =>
      obtain ⟨inside, hdot, h⟩ := bind_eq_ok_iff.1 h
      split at h
      · cases h
      · obtain ⟨body, hbody, h⟩ := bind_eq_ok_iff.1 h
        injection h with h
        subst h
        obtain ⟨hf, hstops⟩ := hread hbody
        exact .inr ⟨.fix hk hx ((token_iff_of_isUpper hx).2 hskip)
          (token_dot_iff.2 (expect_eq_ok_iff.1 hdot)) hf, hstops⟩
    · cases h

theorem keyword_grammatical (hread : Sound read) (h : keyword read scope next (skipTrivia s) = .ok p) :
    Grammatical .operand s p := by
  simp only [keyword] at h
  split at h
  · next hword =>
    injection h with h
    subst h
    exact .inl (.top ((keyword_iff rfl).2 ⟨hword, rfl⟩))
  split at h
  · next hword =>
    injection h with h
    subst h
    exact .inl (.bot ((keyword_iff rfl).2 ⟨hword, rfl⟩))
  split at h
  · next hword =>
    exact fixedPoint_grammatical hread (k := .least) ((keyword_iff rfl).2 ⟨hword, rfl⟩) h
  split at h
  · next hword =>
    exact fixedPoint_grammatical hread (k := .greatest) ((keyword_iff rfl).2 ⟨hword, rfl⟩) h
  · cases h

theorem operand_grammatical (hread : Sound read) (h : operand read scope next s = .ok p) :
    Grammatical .operand s p := by
  unfold operand at h
  split at h
  · cases h
  · next c t hskip =>
    split at h
    · next hc =>
      obtain ⟨inside, hin, h⟩ := bind_eq_ok_iff.1 h
      obtain ⟨behind, hclose, h⟩ := bind_eq_ok_iff.1 h
      injection h with h
      subst h
      exact .inl (.parens (token_open_iff.2 (hc ▸ hskip)) (hread hin).1
        (token_close_iff.2 (expect_eq_ok_iff.1 hclose)))
    split at h
    · next hc =>
      obtain ⟨⟨a, behind⟩, hlabel, h⟩ := bind_eq_ok_iff.1 h
      obtain ⟨body, hbody, h⟩ := bind_eq_ok_iff.1 h
      injection h with h
      subst h
      obtain ⟨hf, hstops⟩ := hread hbody
      exact .inr ⟨.diamond ((bracketed_iff rfl rfl).2 ⟨t, hc ▸ hskip, hlabel⟩) hf, hstops⟩
    split at h
    · next hc =>
      obtain ⟨⟨a, behind⟩, hlabel, h⟩ := bind_eq_ok_iff.1 h
      obtain ⟨body, hbody, h⟩ := bind_eq_ok_iff.1 h
      injection h with h
      subst h
      obtain ⟨hf, hstops⟩ := hread hbody
      exact .inr ⟨.box ((bracketed_iff rfl rfl).2 ⟨t, hc ▸ hskip, hlabel⟩) hf, hstops⟩
    split at h
    · next hc =>
      obtain ⟨body, hbody, h⟩ := bind_eq_ok_iff.1 h
      injection h with h
      subst h
      have hbang : Token ['!'] s t := token_bang_iff.2 (hc ▸ hskip)
      rcases hread hbody with hf | ⟨hf, hstops⟩
      · exact .inl (.not nofun hbang hf)
      · exact .inr ⟨.not nofun hbang hf, hstops⟩
    split at h
    · next hx =>
      unfold occurrence at h
      split at h
      · cases h
      · injection h with h
        subst h
        exact .inl (.var hx ((token_iff_of_isUpper hx).2 hskip))
    split at h
    · rw [← hskip] at h
      exact keyword_grammatical hread h
    · cases h

theorem formula_grammatical (bound : Nat) : Sound (formula bound) := by
  induction bound with
  | zero => nofun
  | succ bound ih =>
    intro reach scope next s p h
    obtain ⟨left, hleft, h⟩ := bind_eq_ok_iff.1 h
    have hl := operand_grammatical ih hleft
    cases reach with
    | operand =>
      injection h with h
      subst h
      exact hl
    | junction =>
      simp only at h
      split at h
      · next hstops =>
        injection h with h
        subst h
        exact ⟨hl.elim .ofCompact fun hl => .ofReaching hl.1, hstops⟩
      · next j t hj =>
        obtain ⟨right, hright, h⟩ := bind_eq_ok_iff.1 h
        injection h with h
        subst h
        obtain ⟨hr, hstops⟩ := ih hright
        -- A reaching phrase would have taken the junction itself.
        rcases hl with hl | ⟨-, hl⟩
        · exact ⟨.junction j hl (token_symbol_iff.2 hj) hr, hstops⟩
        · rw [Stops, hj] at hl
          cases hl

end Sound

end Grammar

/-! ## Sentences -/

open Grammar

theorem toOption_mapError {ε ε' α : Type} (g : ε → ε') (x : Except ε α) :
    (x.mapError g).toOption = x.toOption := by
  cases x <;> rfl

theorem toOption_eq_some_iff {ε α : Type} {x : Except ε α} {a : α} : x.toOption = some a ↔ x = .ok a := by
  cases x with
  | error e => exact ⟨nofun, nofun⟩
  | ok b => exact ⟨fun h => congrArg _ (Option.some.inj h), fun h => congrArg _ (Except.ok.inj h)⟩

/-- A text that spells a formula is read as this formula with its numbers and its table, or not at all if
its names are not well scoped. -/
theorem Grammar.Spells.toOption_parse {src : String} {f : Formula} (h : Spells src.toList f) :
    (Sentence.parse src).toOption = if f.WellScoped [] then
      some ⟨f.renumber [] 0, (f.renumber [] 0).table.toArray⟩ else none := by
  obtain ⟨rest, hf, hclosing⟩ := h
  have hskip : Parser.skipTrivia rest = [] := hclosing.skipTrivia_eq_nil
  have hwhole : (Parser.formula src.toList.length .junction [] 0 src.toList).toOption =
      numbered [] 0 f rest :=
    hf.understood hclosing.stops _ [] 0 (Nat.le_refl _)
  rw [Sentence.parse, Sentence.ofChars, toOption_mapError, Parser.sentence, toOption_bind, hwhole]
  unfold numbered
  rw [List.map_nil]
  split
  · rw [Option.bind_some, hskip]
    rfl
  · rfl

theorem Grammar.Spells.parse_eq_ok_iff {src : String} {f : Formula} {p : Sentence}
    (h : Spells src.toList f) : Sentence.parse src = .ok p ↔
      f.WellScoped [] ∧ p = ⟨f.renumber [] 0, (f.renumber [] 0).table.toArray⟩ := by
  rw [← toOption_eq_some_iff, h.toOption_parse]
  split
  · next hf => rw [Option.some.injEq, eq_comm, and_iff_right hf]
  · next hf => exact ⟨nofun, fun h => absurd h.1 hf⟩

/-- A text that is read spells the formula of the sentence. -/
theorem Sentence.spells_of_parse {src : String} {p : Sentence} (h : Sentence.parse src = .ok p) :
    Spells src.toList p.root := by
  unfold Sentence.parse Sentence.ofChars at h
  cases hs : Parser.sentence src.toList with
  | error failure =>
    rw [hs] at h
    cases h
  | ok p' =>
    rw [hs] at h
    obtain rfl : p' = p := Except.ok.inj h
    obtain ⟨whole, hwhole, h⟩ := bind_eq_ok_iff.1 hs
    split at h
    · next hskip =>
      injection h with h
      subst h
      exact ⟨whole.rest, (formula_grammatical _ hwhole).1, skipTrivia_eq_nil_iff.1 hskip⟩
    · cases h

/-- A text is read exactly if it spells a formula that is well scoped, and then this formula is the result,
with its fixed points numbered from left to right and its variables bound to those around them. No text
spells two formulas, well scoped or not, that differ in more than their slots. -/
theorem parse_iff_spells (src : String) :
    (∀ f, (∃ p, Sentence.parse src = .ok p ∧ p.root = f) ↔
      Spells src.toList f ∧ f.Scoped [] ∧ f.slots = List.range f.slots.length) ∧
    ∀ f g, Spells src.toList f → Spells src.toList g → f.Alike g := by
  refine ⟨fun f => ⟨?_, ?_⟩, fun f g => Spells.alike⟩
  · rintro ⟨p, hp, rfl⟩
    have hwellFormed := Sentence.parse_wellFormed hp
    refine ⟨Sentence.spells_of_parse hp, hwellFormed.wellScoped, ?_⟩
    rw [hwellFormed.slots, List.length_range]
  · rintro ⟨hspells, hscoped, hslots⟩
    rw [List.range_eq_range'] at hslots
    exact ⟨_, hspells.parse_eq_ok_iff.2 ⟨hscoped.wellScoped, rfl⟩, hscoped.renumber_eq hslots⟩

end ModalMu
