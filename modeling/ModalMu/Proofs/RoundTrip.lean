import ModalMu.Proofs.Reading

/-!
# Printing and reading again

A printed formula spells itself (`Formula.Printable.spells`). The printer is told whether a formula stands
last, and the grammar whether a phrase is compact or reaching, so the induction carries both positions:
what stands in front of a junction is compact, and what stands last may reach. What reading makes of a
spelled formula is known, so `parse_render` needs nothing more about the reader.
-/

namespace ModalMu

open Grammar

/-! ## Tokens and what stands around them -/

namespace Grammar

variable {gap s rest w : List Char}

theorem token_self (w rest : List Char) : Token w (w ++ rest) rest := ⟨[], .nil, rfl⟩

theorem bracketed_self {a : Label} (h : PlainLabel a.text.toList) (opening closing : Char)
    (rest : List Char) :
    Bracketed opening closing a (opening :: (a.text.toList ++ closing :: rest)) rest := by
  refine ⟨h, [], [], nofun, [], .nil, ?_⟩
  simp

theorem wordEnds_cons {c : Char} (hc : Parser.isWordChar c = false) (rest : List Char) :
    WordEnds (c :: rest) := by
  intro d hd
  obtain rfl : c = d := Option.some.inj hd
  exact hc

theorem Token.trivia_append (h : Token w s rest) (hgap : Trivia gap) : Token w (gap ++ s) rest := by
  obtain ⟨gap', hgap', rfl⟩ := h
  exact ⟨gap ++ gap', hgap.append hgap', (List.append_assoc ..).symm⟩

theorem Keyword.trivia_append (h : Keyword w s rest) (hgap : Trivia gap) : Keyword w (gap ++ s) rest :=
  ⟨h.1.trivia_append hgap, h.2⟩

theorem Bracketed.trivia_append {opening closing : Char} {a : Label}
    (h : Bracketed opening closing a s rest) (hgap : Trivia gap) :
    Bracketed opening closing a (gap ++ s) rest := by
  obtain ⟨hplain, before, behind, hblank, htoken⟩ := h
  exact ⟨hplain, before, behind, hblank, htoken.trivia_append hgap⟩

/-- Trivia may be put before every phrase, because every phrase begins with a token. -/
theorem Derives.trivia_append {c : Category} {f : Formula} (h : Derives c s f rest) (hgap : Trivia gap) :
    Derives c (gap ++ s) f rest := by
  induction h with
  | top h => exact .top (h.trivia_append hgap)
  | bot h => exact .bot (h.trivia_append hgap)
  | var hx h => exact .var hx (h.trivia_append hgap)
  | parens h hf h' _ => exact .parens (h.trivia_append hgap) hf h'
  | not hc h hf _ => exact .not hc (h.trivia_append hgap) hf
  | diamond h hf _ => exact .diamond (h.trivia_append hgap) hf
  | box h hf _ => exact .box (h.trivia_append hgap) hf
  | fix h hx h₁ h₂ hf _ => exact .fix (h.trivia_append hgap) hx h₁ h₂ hf
  | ofCompact _ ih => exact .ofCompact ih
  | ofReaching _ ih => exact .ofReaching ih
  | junction j _ h hr ihl _ => exact .junction j ihl h hr

end Grammar

/-! ## Printable formulas -/

namespace Formula

variable {f l r : Formula} {rest : List Char}

/-- The labels can stand in brackets, and the names are capital letters. -/
def Printable : Formula → Prop
  | top | bot => True
  | and l r | or l r => l.Printable ∧ r.Printable
  | not f => f.Printable
  | diamond a f | box a f => PlainLabel a.text.toList ∧ f.Printable
  | fix _ x _ f => x.isUpper = true ∧ f.Printable
  | var x _ => x.isUpper = true

instance decidablePrintable : (f : Formula) → Decidable f.Printable
  | top | bot => inferInstanceAs (Decidable True)
  | and l r | or l r =>
    have := decidablePrintable l
    have := decidablePrintable r
    inferInstanceAs (Decidable (l.Printable ∧ r.Printable))
  | not f => decidablePrintable f
  | diamond a f | box a f =>
    have := decidablePrintable f
    inferInstanceAs (Decidable (PlainLabel a.text.toList ∧ f.Printable))
  | fix _ x _ f =>
    have := decidablePrintable f
    inferInstanceAs (Decidable (x.isUpper = true ∧ f.Printable))
  | var x _ => inferInstanceAs (Decidable (x.isUpper = true))

/-! ## A printed formula spells itself -/

/-- In front of `rest`, the formula is printed as a phrase that is compact, and that may reach if it stands
last. -/
structure Phrased (f : Formula) (rest : List Char) : Prop where
  inner : Derives .compact (f.write false rest) f rest
  last : Derives .compact (f.write true rest) f rest ∨ Derives .reaching (f.write true rest) f rest

namespace Phrased

theorem formula (h : f.Phrased rest) : Derives .formula (f.write true rest) f rest :=
  h.last.elim .ofCompact .ofReaching

/-- A formula that is printed the same in both positions. -/
theorem ofCompact (hwrite : f.write true rest = f.write false rest)
    (h : Derives .compact (f.write false rest) f rest) : f.Phrased rest :=
  ⟨h, .inl (hwrite ▸ h)⟩

/-- A reaching phrase is put in parentheses unless it stands last. -/
theorem ofReaching {inner : List Char → List Char}
    (hwrite : ∀ last, f.write last rest = wrap (!last) inner rest)
    (h : ∀ s, WordEnds s → Derives .reaching (inner s) f s) (hrest : WordEnds rest) :
    f.Phrased rest := by
  constructor
  · have hinside := h (')' :: rest) (wordEnds_cons (by decide) rest)
    rw [hwrite]
    exact .parens (token_self ['('] _) (.ofReaching hinside) (token_self [')'] rest)
  · rw [hwrite]
    exact .inr (h rest hrest)

/-- A junction is always in parentheses, its left side in front of the sign and its right side last. -/
theorem ofJunction (j : Parser.Junction) (hwrite : ∀ last, (j.join l r).write last rest =
      '(' :: l.write false (' ' :: (symbol j ++ ' ' :: r.write true (')' :: rest))))
    (hl : ∀ s, WordEnds s → l.Phrased s) (hr : ∀ s, WordEnds s → r.Phrased s) :
    (j.join l r).Phrased rest := by
  refine ofCompact (by rw [hwrite, hwrite]) ?_
  have hleft := (hl (' ' :: (symbol j ++ ' ' :: r.write true (')' :: rest)))
    (wordEnds_cons (by decide) _)).inner
  have hsign : Token (symbol j) (' ' :: (symbol j ++ ' ' :: r.write true (')' :: rest)))
      (' ' :: r.write true (')' :: rest)) := ⟨[' '], .blank rfl .nil, rfl⟩
  have hright : Derives .formula (' ' :: r.write true (')' :: rest)) r (')' :: rest) :=
    (hr _ (wordEnds_cons (by decide) _)).formula.trivia_append (.blank rfl .nil)
  rw [hwrite]
  exact .parens (token_self ['('] _) (.junction j hleft hsign hright) (token_self [')'] rest)

end Phrased

theorem Printable.phrased (h : f.Printable) (hrest : WordEnds rest) : f.Phrased rest := by
  induction f generalizing rest with
  | top => exact .ofCompact rfl (.top ⟨token_self ['t', 'r', 'u', 'e'] rest, hrest⟩)
  | bot => exact .ofCompact rfl (.bot ⟨token_self ['f', 'a', 'l', 's', 'e'] rest, hrest⟩)
  | var x i => exact .ofCompact rfl (.var h (token_self [x] rest))
  | and l r ihl ihr =>
    exact .ofJunction .and (fun _ => rfl) (fun _ => ihl h.1) (fun _ => ihr h.2)
  | or l r ihl ihr =>
    exact .ofJunction .or (fun _ => rfl) (fun _ => ihl h.1) (fun _ => ihr h.2)
  | not f ih =>
    obtain ⟨hinner, hlast⟩ := ih h hrest
    refine ⟨.not nofun (token_self ['!'] _) hinner, ?_⟩
    exact hlast.imp (.not nofun (token_self ['!'] _)) (.not nofun (token_self ['!'] _))
  | diamond a f ih =>
    refine .ofReaching (fun _ => rfl) (fun s hs => ?_) hrest
    exact .diamond (bracketed_self h.1 '<' '>' _) (ih h.2 hs).formula
  | box a f ih =>
    refine .ofReaching (fun _ => rfl) (fun s hs => ?_) hrest
    exact .box (bracketed_self h.1 '[' ']' _) (ih h.2 hs).formula
  | fix k x i f ih =>
    refine .ofReaching (fun _ => rfl) (fun s hs => ?_) hrest
    have hword : Keyword k.keyword.toList (k.keyword.toList ++ ' ' :: x :: '.' :: f.write true s)
        (' ' :: x :: '.' :: f.write true s) :=
      ⟨token_self _ _, wordEnds_cons (by decide) _⟩
    have hname : Token [x] (' ' :: x :: '.' :: f.write true s) ('.' :: f.write true s) :=
      ⟨[' '], .blank rfl .nil, rfl⟩
    exact .fix hword h.1 hname (token_self ['.'] _) (ih h.2 hs).formula

theorem Printable.spells (h : f.Printable) : Spells f.render.toList f := by
  have hend : WordEnds [] := nofun
  rw [render, String.toList_ofList]
  exact ⟨[], (h.phrased hend).formula, .trivia .nil⟩

end Formula

/-! ## What is spelled can be printed -/

theorem Grammar.Derives.printable {c : Category} {s rest : List Char} {f : Formula}
    (h : Derives c s f rest) : f.Printable := by
  induction h with
  | top | bot => trivial
  | var hx _ => exact hx
  | parens _ _ _ ih | not _ _ _ ih | ofCompact _ ih | ofReaching _ ih => exact ih
  | diamond h _ ih | box h _ ih => exact ⟨h.1, ih⟩
  | fix _ hx _ _ _ ih => exact ⟨hx, ih⟩
  | junction j _ _ _ ihl ihr => cases j <;> exact ⟨ihl, ihr⟩

theorem Grammar.Spells.printable {s : List Char} {f : Formula} (h : Spells s f) : f.Printable := by
  obtain ⟨rest, hf, -⟩ := h
  exact hf.printable

/-- A printed formula is read again exactly if its names are well scoped, and then only its slots are given
out anew. Whatever was read is read again from its print, with its table. -/
theorem parse_render :
    (∀ f : Formula, f.Printable → ∀ p, Sentence.parse f.render = .ok p ↔
      f.WellScoped [] ∧ p = ⟨f.renumber [] 0, (f.renumber [] 0).table.toArray⟩) ∧
    ∀ src p, Sentence.parse src = .ok p → Sentence.parse p.render = .ok p := by
  refine ⟨fun f hf p => hf.spells.parse_eq_ok_iff, fun src p hp => ?_⟩
  have hspells : Spells src.toList p.root := Sentence.spells_of_parse hp
  have hprinted : Spells p.render.toList p.root := hspells.printable.spells
  exact hprinted.parse_eq_ok_iff.2 (hspells.parse_eq_ok_iff.1 hp)

/-- Both sides of the disjunction reach, but only the left one is put in parentheses. -/
theorem parse_render_reaching :
    let f : Formula := .fix .least 'X' 7 (.or (.not (.diamond ⟨"a"⟩ (.var 'X' 3)))
      (.box ⟨"b"⟩ (.fix .greatest 'Y' 7 (.and (.var 'Y' 0) (.not (.var 'X' 1))))))
    f.Printable ∧ f.render = "mu X.(!(<a>X) || [b]nu Y.(Y && !X))" ∧ Sentence.parse f.render = .ok
      ⟨.fix .least 'X' 0 (.or (.not (.diamond ⟨"a"⟩ (.var 'X' 0)))
        (.box ⟨"b"⟩ (.fix .greatest 'Y' 1 (.and (.var 'Y' 1) (.not (.var 'X' 0)))))),
        #[⟨'X', .least, 0, [1], [0, 1, 0]⟩, ⟨'Y', .greatest, 1, [], [1, 0]⟩]⟩ := by
  intro f
  have hf : f.Printable := by decide
  exact ⟨hf, rfl, (parse_render.1 f hf _).2 ⟨by decide, rfl⟩⟩

end ModalMu
