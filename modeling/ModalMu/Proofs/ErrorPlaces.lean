import ModalMu.Proofs.OpenBinders

/-!
# Where errors are reported

An error in the text of a sentence carries a place. Main statement: the place lies between two characters of
the text, its line and column count what stands before it, a text is said to end too early only at its end,
and to go on too long only behind a part that is itself a sentence (`Sentence.parse_error_placed`).

For the last of these, the grammar does the work. What was read before the rest is a phrase followed by the
rest, and a phrase stays one when the rest is taken away (`Derives.truncate`), which only brings the end of
the text nearer to its last token.
-/

namespace ModalMu

namespace Grammar

open ModalMu.Parser

variable {s s₁ s₂ rest tail w : List Char} {f : Formula}

/-! ## Phrases without what follows them -/

theorem Token.truncate (h : Token w s (rest ++ tail)) : ∃ s', s = s' ++ tail ∧ Token w s' rest := by
  obtain ⟨gap, hgap, rfl⟩ := h
  exact ⟨gap ++ (w ++ rest), by simp only [List.append_assoc], gap, hgap, rfl⟩

theorem Keyword.truncate (h : Keyword w s (rest ++ tail)) : ∃ s', s = s' ++ tail ∧ Keyword w s' rest := by
  obtain ⟨s', hs, htoken⟩ := h.1.truncate
  refine ⟨s', hs, htoken, fun c hc => h.2 c ?_⟩
  rw [List.head?_append, hc]
  rfl

theorem Bracketed.truncate {opening closing : Char} {a : Label}
    (h : Bracketed opening closing a s (rest ++ tail)) :
    ∃ s', s = s' ++ tail ∧ Bracketed opening closing a s' rest := by
  obtain ⟨hplain, before, behind, hblank, htoken⟩ := h
  obtain ⟨s', hs, htoken⟩ := htoken.truncate
  exact ⟨s', hs, hplain, before, behind, hblank, htoken⟩

/-- Whatever follows a phrase can be taken away from the end. -/
theorem Derives.truncate {c : Category} {r : List Char} (h : Derives c s f r) (hr : r = rest ++ tail) :
    ∃ s', s = s' ++ tail ∧ Derives c s' f rest := by
  induction h generalizing rest with
  | top h =>
    subst hr
    obtain ⟨s', hs, h⟩ := h.truncate
    exact ⟨s', hs, .top h⟩
  | bot h =>
    subst hr
    obtain ⟨s', hs, h⟩ := h.truncate
    exact ⟨s', hs, .bot h⟩
  | var hx h =>
    subst hr
    obtain ⟨s', hs, h⟩ := h.truncate
    exact ⟨s', hs, .var hx h⟩
  | parens h _ h' ih =>
    subst hr
    obtain ⟨s₂', hs₂, h'⟩ := h'.truncate
    obtain ⟨s₁', rfl, hf⟩ := ih hs₂
    obtain ⟨s', hs, h⟩ := h.truncate
    exact ⟨s', hs, .parens h hf h'⟩
  | not hc h _ ih =>
    obtain ⟨s₁', rfl, hf⟩ := ih hr
    obtain ⟨s', hs, h⟩ := h.truncate
    exact ⟨s', hs, .not hc h hf⟩
  | diamond h _ ih =>
    obtain ⟨s₁', rfl, hf⟩ := ih hr
    obtain ⟨s', hs, h⟩ := h.truncate
    exact ⟨s', hs, .diamond h hf⟩
  | box h _ ih =>
    obtain ⟨s₁', rfl, hf⟩ := ih hr
    obtain ⟨s', hs, h⟩ := h.truncate
    exact ⟨s', hs, .box h hf⟩
  | fix h hx h₁ h₂ _ ih =>
    obtain ⟨s₃', rfl, hf⟩ := ih hr
    obtain ⟨s₂', rfl, hdot⟩ := h₂.truncate
    obtain ⟨s₁', rfl, hname⟩ := h₁.truncate
    obtain ⟨s', hs, hword⟩ := h.truncate
    exact ⟨s', hs, .fix hword hx hname hdot hf⟩
  | ofCompact _ ih =>
    obtain ⟨s', hs, hf⟩ := ih hr
    exact ⟨s', hs, .ofCompact hf⟩
  | ofReaching _ ih =>
    obtain ⟨s', hs, hf⟩ := ih hr
    exact ⟨s', hs, .ofReaching hf⟩
  | junction j _ h _ ihl ihr =>
    obtain ⟨s₂', rfl, hright⟩ := ihr hr
    obtain ⟨s₁', rfl, hsymbol⟩ := h.truncate
    obtain ⟨s', hs, hleft⟩ := ihl rfl
    exact ⟨s', hs, .junction j hleft hsymbol hright⟩

end Grammar

open Grammar Text

/-! ## Failures -/

namespace Parser

variable {src t : List Char} {c : Char}

/-- A text is refused while a formula is read, or because it goes on behind one. -/
theorem sentence_eq_error {failure : Failure} (h : sentence src = .error failure) :
    failure.rest <:+ src ∧ Offset.Inner failure ∨
      ∃ whole c t, formula src.length .junction [] 0 src = .ok whole ∧ skipTrivia whole.rest = c :: t ∧
        failure = ⟨.trailingInput (String.ofList (trimEnd (c :: t))), c :: t⟩ := by
  have hagrees := Offset.agrees_whole src
  unfold sentence at h
  cases hwhole : formula src.length .junction [] 0 src with
  | error failure' =>
    rw [hwhole] at h hagrees
    obtain rfl : failure' = failure := Except.error.inj h
    generalize Offset.formula src src.length .whole ⟨0, #[], []⟩ = x at hagrees
    cases hagrees with
    | refused hsuffix hinner => exact .inl ⟨hsuffix, hinner⟩
  | ok whole =>
    rw [hwhole, Offset.ok_bind] at h
    split at h
    · cases h
    · next c t hskip => exact .inr ⟨whole, c, t, rfl, hskip, (Except.error.inj h).symm⟩

/-- What stands before more text is a sentence of its own. -/
theorem exists_parse_before {whole : Piece} (hwhole : formula src.length .junction [] 0 src = .ok whole)
    (hskip : skipTrivia whole.rest = c :: t) :
    ∃ before, src = before ++ c :: t ∧ ∃ p, Sentence.parse (String.ofList before) = .ok p := by
  obtain ⟨hderives, hstops⟩ := formula_grammatical _ hwhole
  rcases closing_or_exists_trivia whole.rest with hclosing | ⟨gap, d, u, hgap, hrest, hskip'⟩
  · rw [hclosing.skipTrivia_eq_nil] at hskip
    cases hskip
  rw [hskip] at hskip'
  rw [← hskip'] at hrest
  -- The trivia behind the phrase stay with it, what the reader stopped at goes.
  obtain ⟨before, hsrc, hbefore⟩ := hderives.truncate hrest
  have hspells : Spells (String.ofList before).toList whole.formula := by
    rw [String.toList_ofList]
    exact ⟨gap, hbefore, .trivia hgap⟩
  -- The names were looked up when the whole text was read.
  have hscoped : whole.formula.WellScoped [] := by
    have hnumbered := hderives.understood hstops src.length [] 0 (Nat.le_refl _)
    rw [Category.reach, hwhole] at hnumbered
    unfold numbered at hnumbered
    split at hnumbered
    · next h => exact h
    · cases hnumbered
  exact ⟨before, hsrc, _, hspells.parse_eq_ok_iff.2 ⟨hscoped, rfl⟩⟩

end Parser

/-! ## Places -/

namespace Text

theorem byteLength_eq (s : List Char) : byteLength s = (String.ofList s).utf8ByteSize := by
  induction s with
  | nil => rfl
  | cons c s ih =>
    rw [byteLength, ih, ← List.singleton_append, String.ofList_append, String.utf8ByteSize_append]
    simp

theorem byteLength_toList (s : String) : byteLength s.toList = s.utf8ByteSize := by
  rw [byteLength_eq, String.ofList_toList]

/-- The place behind a text: the bytes of the text, one plus its line feeds, and one plus the characters of
its last line. -/
structure Position.Marks (p : Position) (before : String) : Prop where
  offset : p.offset = before.utf8ByteSize
  line : p.line = 1 + before.toList.count '\n'
  column : ∃ earlier current : String, before = earlier ++ current ∧ '\n' ∉ current.toList ∧
    (∀ c ∈ earlier.toList.getLast?, c = '\n') ∧ p.column = 1 + current.length

theorem Position.marks_after (before : String) : (Position.after before.toList).Marks before where
  offset := byteLength_toList before
  line := rfl
  column := by
    refine ⟨.ofList (before.toList.reverse.dropWhile (· != '\n')).reverse,
      .ofList (before.toList.reverse.takeWhile (· != '\n')).reverse, ?_, ?_, ?_, ?_⟩
    · rw [← String.ofList_append, ← Offset.eq_earlier_append_current, String.ofList_toList]
    · rw [String.toList_ofList, List.mem_reverse]
      exact fun h => absurd (List.all_eq_true.1 List.all_takeWhile _ h) (by decide)
    · rw [String.toList_ofList, List.getLast?_reverse]
      intro c hc
      have hnot := List.head?_dropWhile_not (· != '\n') before.toList.reverse
      rw [hc] at hnot
      simpa using hnot
    · rw [String.length_ofList, List.length_reverse]
      rfl

/-- What is left of a text is reported without the white space behind it, and begins with nothing that could
still belong to the sentence before it. -/
structure LeftOver (rest text : String) : Prop where
  trimmed : ∃ blanks : String, rest = text ++ blanks ∧ ∀ c ∈ blanks.toList, isBlank c = true
  last : ∀ c ∈ text.toList.getLast?, isBlank c = false
  ne_empty : text ≠ ""
  first : ∀ c ∈ text.toList.head?, isBlank c = false ∧ c ≠ '%'
  no_and : ¬['&', '&'] <+: text.toList
  no_or : ¬['|', '|'] <+: text.toList

theorem leftOver_trimEnd {c : Char} {t : List Char} (hblank : isBlank c = false) (hpercent : c ≠ '%')
    (hjunction : Parser.junction? (c :: t) = none) :
    LeftOver (.ofList (c :: t)) (.ofList (trimEnd (c :: t))) := by
  obtain ⟨blanks, hblanks, htrim⟩ := exists_trimEnd_append_blank (c :: t)
  have hlast : ∀ d ∈ (trimEnd (c :: t)).getLast?, isBlank d = false := by
    intro d hd
    have hnot := List.head?_dropWhile_not isBlank (c :: t).reverse
    rw [trimEnd, List.getLast?_reverse] at hd
    rw [hd] at hnot
    exact hnot
  have hnone : ∀ j, ¬symbol j <+: trimEnd (c :: t) := by
    rintro j ⟨u, hu⟩
    rw [← hu, List.append_assoc] at htrim
    rw [junction?_eq_some_iff.2 htrim] at hjunction
    cases hjunction
  cases hw : trimEnd (c :: t) with
  | nil =>
    rw [hw, List.nil_append] at htrim
    rw [hblanks c (htrim ▸ List.mem_cons_self)] at hblank
    cases hblank
  | cons d u =>
    rw [hw] at htrim hlast hnone
    obtain ⟨rfl, -⟩ := List.cons.inj htrim
    exact {
      trimmed := ⟨.ofList blanks, by rw [htrim, String.ofList_append], by rwa [String.toList_ofList]⟩
      last := by rwa [String.toList_ofList]
      ne_empty := fun h => by simpa using congrArg String.toList h
      first := by
        rw [String.toList_ofList]
        intro d hd
        obtain rfl := Option.some.inj hd
        exact ⟨hblank, hpercent⟩
      no_and := by
        rw [String.toList_ofList]
        exact hnone .and
      no_or := by
        rw [String.toList_ofList]
        exact hnone .or }

/-- A remainder of a text begins at a place between two characters. -/
theorem Position.marks_locate {src : String} {before rest : List Char} (h : src.toList = before ++ rest) :
    src = .ofList before ++ .ofList rest ∧ (locate src.toList rest).Marks (.ofList before) ∧
      (locate src.toList rest).offset ≤ src.utf8ByteSize ∧
      String.Pos.Raw.IsValid src ⟨(locate src.toList rest).offset⟩ := by
  have hsrc : src = .ofList before ++ .ofList rest := by
    rw [← String.ofList_append, ← h, String.ofList_toList]
  have hmarks : (locate src.toList rest).Marks (.ofList before) := by
    rw [h, locate_append]
    have hafter := marks_after (.ofList before)
    rwa [String.toList_ofList] at hafter
  refine ⟨hsrc, hmarks, ?_, String.Pos.Raw.isValid_iff_exists_append.2 ⟨_, _, hsrc, ?_⟩⟩
  · rw [hmarks.offset, hsrc, String.utf8ByteSize_append]
    exact Nat.le_add_right _ _
  · rw [hmarks.offset]
    rfl

end Text

/-- Errors point at the right place. No cut of the text that reading by offsets makes goes through a
character. The text is reported to end too early only at its end, and to go on only behind a sentence. -/
theorem Sentence.parse_error_placed {src : String} {e : SyntaxError} (h : Sentence.parse src = .error e) :
    Offset.sentence src.toList = .error (.refused e) ∧
      ∃ before rest : String, src = before ++ rest ∧ e.position.Marks before ∧
        e.position.offset ≤ src.utf8ByteSize ∧ String.Pos.Raw.IsValid src ⟨e.position.offset⟩ ∧
        (∀ expected, e.cause = .unexpectedEnd expected → e.position.offset = src.utf8ByteSize) ∧
        ∀ text, e.cause = .trailingInput text →
          (∃ p, Sentence.parse before = .ok p) ∧ Text.LeftOver rest text := by
  have hread : Offset.sentence src.toList = .error (.refused e) := by
    rw [Offset.sentence_eq, ← Sentence.parse, h]
    rfl
  refine ⟨hread, ?_⟩
  unfold Sentence.parse Sentence.ofChars at h
  cases hs : Parser.sentence src.toList with
  | ok p =>
    rw [hs] at h
    cases h
  | error failure =>
    rw [hs] at h
    obtain rfl := Except.error.inj h
    rcases Parser.sentence_eq_error hs with ⟨⟨before, hsrc⟩, hinner⟩ |
      ⟨whole, c, t, hwhole, hskip, rfl⟩
    · obtain ⟨hsplit, hmarks, hle, hvalid⟩ := Position.marks_locate hsrc.symm
      refine ⟨_, _, hsplit, hmarks, hle, hvalid, fun expected hcause => ?_, fun text hcause =>
        absurd hcause (hinner.cause_ne text)⟩
      have hwhole : src = .ofList before := by
        rw [hinner.rest_eq_nil hcause] at hsplit
        simpa using hsplit
      rw [hmarks.offset, ← hwhole]
    · obtain ⟨before, hsrc, hparse⟩ := Parser.exists_parse_before hwhole hskip
      obtain ⟨hsplit, hmarks, hle, hvalid⟩ := Position.marks_locate hsrc
      obtain ⟨hblank, hpercent⟩ := skipTrivia_eq_cons hskip
      have hjunction : Parser.junction? (c :: t) = none := hskip ▸ (formula_grammatical _ hwhole).2
      refine ⟨_, _, hsplit, hmarks, hle, hvalid, by simp, fun text hcause => ⟨hparse, ?_⟩⟩
      obtain rfl := SyntaxError.Cause.trailingInput.inj hcause
      exact Text.leftOver_trimEnd hblank hpercent hjunction

/-- Behind a comment with a character of two bytes and a sentence. -/
theorem Sentence.parse_error_placed_trailing :
    Sentence.parse "% é\n(true) é " = .error ⟨.trailingInput "é", ⟨12, 2, 8⟩⟩ ∧
      Offset.sentence "% é\n(true) é ".toList = .error (.refused ⟨.trailingInput "é", ⟨12, 2, 8⟩⟩) ∧
      ∃ before rest : String, "% é\n(true) é " = before ++ rest ∧ before.utf8ByteSize = 12 ∧
        (∃ p, Sentence.parse before = .ok p) ∧ Text.LeftOver rest "é" := by
  have h : Sentence.parse "% é\n(true) é " = .error ⟨.trailingInput "é", ⟨12, 2, 8⟩⟩ := by
    rfl
  obtain ⟨hread, before, rest, hsplit, hmarks, -, -, -, htrailing⟩ := Sentence.parse_error_placed h
  obtain ⟨hparse, hleft⟩ := htrailing "é" rfl
  exact ⟨h, hread, before, rest, hsplit, hmarks.offset.symm, hparse, hleft⟩

end ModalMu
