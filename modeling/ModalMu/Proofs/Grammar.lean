import ModalMu.Proofs.Binding

/-!
# The grammar of sentences

The texts that spell a formula, said without the reader. A category is given by its productions:

    formula  ::=  compact  |  reaching  |  compact && formula  |  compact || formula
    compact  ::=  true  |  false  |  X  |  ( formula )  |  !compact
    reaching ::=  <a>formula  |  [a]formula  |  mu X.formula  |  nu X.formula  |  !reaching

A reaching phrase ends where the formula inside it ends, so no junction can follow it directly.
`Derives c s f rest` says that `s` is a phrase of category `c` for the formula `f`, and then `rest`. White
space and comments may stand before every token (`Token`) and behind the last one (`Closing`). The slots of
a formula are not spelled, so the grammar leaves them open.

The second half ties the tokens to the functions of the reader that look for them.
-/

namespace ModalMu

namespace Grammar

open Text ModalMu.Parser

/-! ## Tokens -/

/-- White space and comments; a comment goes on to the end of its line. -/
inductive Trivia : List Char → Prop
  | nil : Trivia []
  | blank {c : Char} {s : List Char} : isBlank c = true → Trivia s → Trivia (c :: s)
  | comment {text s : List Char} : '\n' ∉ text → Trivia s → Trivia ('%' :: (text ++ '\n' :: s))

/-- What may stand behind the last token: trivia, also with a comment that the whole text ends in. -/
inductive Closing : List Char → Prop
  | trivia {s : List Char} : Trivia s → Closing s
  | comment {s text : List Char} : Trivia s → '\n' ∉ text → Closing (s ++ '%' :: text)

/-- The text is the token `w`, with trivia before it, and then `rest`. -/
def Token (w s rest : List Char) : Prop := ∃ gap, Trivia gap ∧ s = gap ++ (w ++ rest)

/-- No letter, digit or underscore follows. -/
def WordEnds (rest : List Char) : Prop := ∀ c ∈ rest.head?, isWordChar c = false

/-- A keyword is a token that is not the beginning of a longer word. -/
def Keyword (w s rest : List Char) : Prop := Token w s rest ∧ WordEnds rest

/-- The texts of labels: not empty, without white space and without brackets. -/
def PlainLabel (s : List Char) : Prop := s ≠ [] ∧ ∀ c ∈ s, isBlank c = false ∧ isBracket c = false

/-- A label in brackets, with white space around it. There is no other closing bracket before the one that
ends the token, because neither a label nor white space holds any. -/
def Bracketed (opening closing : Char) (a : Label) (s rest : List Char) : Prop :=
  PlainLabel a.text.toList ∧ ∃ before behind, (∀ c ∈ before ++ behind, isBlank c = true) ∧
    Token (opening :: (before ++ (a.text.toList ++ (behind ++ [closing])))) s rest

def symbol : Junction → List Char
  | .and => ['&', '&']
  | .or => ['|', '|']

/-! ## Phrases -/

inductive Category where
  | formula
  | compact
  | reaching
deriving DecidableEq, Repr

/-- The text is a phrase of the category for the formula, and then `rest`. -/
inductive Derives : Category → List Char → Formula → List Char → Prop
  | top {s rest} : Keyword ['t', 'r', 'u', 'e'] s rest → Derives .compact s .top rest
  | bot {s rest} : Keyword ['f', 'a', 'l', 's', 'e'] s rest → Derives .compact s .bot rest
  | var {x i s rest} : x.isUpper = true → Token [x] s rest → Derives .compact s (.var x i) rest
  | parens {f s s₁ s₂ rest} : Token ['('] s s₁ → Derives .formula s₁ f s₂ → Token [')'] s₂ rest →
      Derives .compact s f rest
  | not {c f s s₁ rest} : c ≠ .formula → Token ['!'] s s₁ → Derives c s₁ f rest →
      Derives c s (.not f) rest
  | diamond {a f s s₁ rest} : Bracketed '<' '>' a s s₁ → Derives .formula s₁ f rest →
      Derives .reaching s (.diamond a f) rest
  | box {a f s s₁ rest} : Bracketed '[' ']' a s s₁ → Derives .formula s₁ f rest →
      Derives .reaching s (.box a f) rest
  | fix {k x i f s s₁ s₂ s₃ rest} : Keyword (FixKind.keyword k).toList s s₁ → x.isUpper = true →
      Token [x] s₁ s₂ → Token ['.'] s₂ s₃ → Derives .formula s₃ f rest →
      Derives .reaching s (.fix k x i f) rest
  | ofCompact {f s rest} : Derives .compact s f rest → Derives .formula s f rest
  | ofReaching {f s rest} : Derives .reaching s f rest → Derives .formula s f rest
  | junction {l r s s₁ s₂ rest} (j : Junction) : Derives .compact s l s₁ → Token (symbol j) s₁ s₂ →
      Derives .formula s₂ r rest → Derives .formula s (j.join l r) rest

/-- The whole text spells the formula. -/
def Spells (s : List Char) (f : Formula) : Prop := ∃ rest, Derives .formula s f rest ∧ Closing rest

variable {s s₁ s₂ rest w gap text : List Char} {c : Char}

/-! ## Trivia and the reader -/

theorem skipComment_of_notMem (h : '\n' ∉ text) : skipComment text = [] := by
  induction text with
  | nil => rw [skipComment]
  | cons c text ih =>
    obtain ⟨hc, htext⟩ := List.ne_and_not_mem_of_not_mem_cons h
    rw [skipComment, if_neg (Ne.symm hc), ih htext]

theorem skipComment_append (h : '\n' ∉ text) (s : List Char) :
    skipComment (text ++ '\n' :: s) = skipTrivia s := by
  induction text with
  | nil => rw [List.nil_append, skipComment, if_pos rfl]
  | cons c text ih =>
    obtain ⟨hc, htext⟩ := List.ne_and_not_mem_of_not_mem_cons h
    rw [List.cons_append, skipComment, if_neg (Ne.symm hc), ih htext]

theorem skipTrivia_percent (s : List Char) : skipTrivia ('%' :: s) = skipComment s := by
  rw [skipTrivia, if_neg (by decide), if_pos rfl]

theorem skipTrivia_cons (hblank : isBlank c = false) (hpercent : c ≠ '%') (s : List Char) :
    skipTrivia (c :: s) = c :: s := by
  rw [skipTrivia, if_neg (by simp [hblank]), if_neg hpercent]

/-- The reader passes over all trivia. -/
theorem Trivia.skipTrivia_append (h : Trivia gap) (s : List Char) :
    skipTrivia (gap ++ s) = skipTrivia s := by
  induction h with
  | nil => rfl
  | blank hc _ ih => rw [List.cons_append, skipTrivia, if_pos hc, ih]
  | comment htext _ ih =>
    rw [List.cons_append, skipTrivia_percent, List.append_assoc, List.cons_append,
      skipComment_append htext, ih]

theorem Closing.skipTrivia_eq_nil (h : Closing s) : skipTrivia s = [] := by
  cases h with
  | trivia h =>
    have hskip := h.skipTrivia_append []
    rwa [List.append_nil] at hskip
  | comment h htext => rw [h.skipTrivia_append, skipTrivia_percent, skipComment_of_notMem htext]

theorem Trivia.append (hgap : Trivia gap) (h : Trivia s) : Trivia (gap ++ s) := by
  induction hgap with
  | nil => exact h
  | blank hc _ ih => exact .blank hc ih
  | comment htext _ ih =>
    rw [List.cons_append, List.append_assoc, List.cons_append]
    exact .comment htext ih

theorem Trivia.append_closing (hgap : Trivia gap) (h : Closing s) : Closing (gap ++ s) := by
  cases h with
  | trivia h => exact .trivia (hgap.append h)
  | comment h htext =>
    rw [← List.append_assoc]
    exact .comment (hgap.append h) htext

/-- What the reader passes over is trivia, and what it stops at is not. -/
theorem closing_or_exists_trivia (s : List Char) :
    Closing s ∨ ∃ gap c rest, Trivia gap ∧ s = gap ++ c :: rest ∧ skipTrivia s = c :: rest := by
  -- A comment is passed over with its line feed in one step, so the induction is on the length.
  induction hn : s.length using Nat.strongRecOn generalizing s with
  | ind n ih =>
    have hstep : ∀ gap t, Trivia gap → s = gap ++ t → t.length < n →
        Closing s ∨ ∃ gap c rest, Trivia gap ∧ s = gap ++ c :: rest ∧ skipTrivia s = c :: rest := by
      rintro gap t hgap rfl hlt
      rcases ih t.length hlt t rfl with h | ⟨gap', c, rest, hgap', rfl, hskip⟩
      · exact .inl (hgap.append_closing h)
      · refine .inr ⟨gap ++ gap', c, rest, hgap.append hgap', by rw [List.append_assoc], ?_⟩
        rw [hgap.skipTrivia_append, hskip]
    cases s with
    | nil => exact .inl (.trivia .nil)
    | cons c t =>
      rw [List.length_cons] at hn
      by_cases hblank : isBlank c = true
      · exact hstep [c] t (.blank hblank .nil) rfl (by omega)
      by_cases hpercent : c = '%'
      · subst hpercent
        by_cases hline : '\n' ∈ t
        · obtain ⟨text, u, rfl, htext⟩ := List.eq_append_cons_of_mem hline
          refine hstep ('%' :: (text ++ ['\n'])) u (.comment htext .nil) (by simp) ?_
          rw [List.length_append, List.length_cons] at hn
          omega
        · exact .inl (.comment (s := []) .nil hline)
      · exact .inr ⟨[], c, t, .nil, rfl, skipTrivia_cons (by simpa using hblank) hpercent t⟩

theorem skipTrivia_eq_nil_iff : skipTrivia s = [] ↔ Closing s := by
  refine ⟨fun h => ?_, Closing.skipTrivia_eq_nil⟩
  rcases closing_or_exists_trivia s with hclosing | ⟨gap, c, rest, -, -, hskip⟩
  · exact hclosing
  · rw [h] at hskip
    cases hskip

theorem length_skipTrivia_le (s : List Char) : (skipTrivia s).length ≤ s.length := by
  rcases closing_or_exists_trivia s with h | ⟨gap, c, rest, -, rfl, hskip⟩
  · rw [h.skipTrivia_eq_nil]
    exact Nat.zero_le _
  · rw [hskip, List.length_append]
    omega

/-- White space in front does not matter to the trivia. -/
theorem skipTrivia_trimStart (s : List Char) : skipTrivia (trimStart s) = skipTrivia s := by
  induction s with
  | nil => rfl
  | cons c s ih =>
    cases hc : isBlank c with
    | true => rw [trimStart_cons_of_blank hc, ih, skipTrivia, if_pos hc]
    | false => rw [trimStart_cons_of_not_blank hc]

/-- A comment goes on to the end of its line. -/
theorem skipTrivia_dropWhile (s : List Char) : skipTrivia (s.dropWhile (· != '\n')) = skipComment s := by
  induction s with
  | nil => rw [skipComment, List.dropWhile_nil, skipTrivia]
  | cons c s ih =>
    rw [skipComment]
    by_cases hc : c = '\n'
    · subst hc
      rw [if_pos rfl, List.dropWhile_cons_of_neg (by simp), skipTrivia, if_pos (by decide)]
    · rw [if_neg hc, List.dropWhile_cons_of_pos (by simpa using hc), ih]

theorem skipTrivia_skipTrivia (s : List Char) : skipTrivia (skipTrivia s) = skipTrivia s := by
  rcases closing_or_exists_trivia s with hclosing | ⟨gap, d, t, hgap, rfl, hskip⟩
  · rw [hclosing.skipTrivia_eq_nil, skipTrivia]
  · rw [hskip, ← hgap.skipTrivia_append, hskip]

/-- The reader stops at a character that is no trivia. -/
theorem skipTrivia_eq_cons (h : skipTrivia s = c :: rest) : isBlank c = false ∧ c ≠ '%' := by
  have hself : skipTrivia (c :: rest) = c :: rest := by
    have hskip := skipTrivia_skipTrivia s
    rwa [h] at hskip
  -- Trivia would be passed over, and then less than the whole text would be left.
  refine ⟨?_, ?_⟩
  · cases hblank : isBlank c with
    | false => rfl
    | true =>
      rw [skipTrivia, if_pos hblank] at hself
      have hle := length_skipTrivia_le rest
      rw [hself] at hle
      exact absurd hle (Nat.not_succ_le_self _)
  · rintro rfl
    rw [skipTrivia_percent, ← skipTrivia_dropWhile] at hself
    have hle := length_skipTrivia_le (rest.dropWhile (· != '\n'))
    rw [hself] at hle
    exact Nat.not_succ_le_self _ (Nat.le_trans hle (List.dropWhile_suffix _).length_le)

/-! ## Tokens and the reader -/

/-- A token that begins with no trivia is what the reader finds behind the trivia. -/
theorem token_iff (hblank : isBlank c = false) (hpercent : c ≠ '%') :
    Token (c :: w) s rest ↔ skipTrivia s = c :: (w ++ rest) := by
  constructor
  · rintro ⟨gap, hgap, rfl⟩
    rw [hgap.skipTrivia_append, List.cons_append, skipTrivia_cons hblank hpercent]
  · intro h
    rcases closing_or_exists_trivia s with hclosing | ⟨gap, d, t, hgap, rfl, hskip⟩
    · rw [hclosing.skipTrivia_eq_nil] at h
      cases h
    · rw [hskip] at h
      exact ⟨gap, hgap, by rw [h, List.cons_append]⟩

theorem token_open_iff : Token ['('] s rest ↔ skipTrivia s = '(' :: rest := token_iff rfl (by decide)

theorem token_close_iff : Token [')'] s rest ↔ skipTrivia s = ')' :: rest := token_iff rfl (by decide)

theorem token_bang_iff : Token ['!'] s rest ↔ skipTrivia s = '!' :: rest := token_iff rfl (by decide)

theorem token_dot_iff : Token ['.'] s rest ↔ skipTrivia s = '.' :: rest := token_iff rfl (by decide)

theorem isUpper_iff : c.isUpper = true ↔ 65 ≤ c.toNat ∧ c.toNat ≤ 90 := decide_eq_true_iff

theorem isLower_iff : c.isLower = true ↔ 97 ≤ c.toNat ∧ c.toNat ≤ 122 :=
  Bool.and_eq_true_iff.trans (and_congr decide_eq_true_iff decide_eq_true_iff)

theorem isDigit_iff : c.isDigit = true ↔ 48 ≤ c.toNat ∧ c.toNat ≤ 57 :=
  Bool.and_eq_true_iff.trans (and_congr decide_eq_true_iff decide_eq_true_iff)

theorem isWordChar_iff : isWordChar c = true ↔
    ((c.isUpper = true ∨ c.isLower = true) ∨ c.isDigit = true) ∨ c = '_' := by
  show (((c.isUpper || c.isLower) || c.isDigit) || c == '_') = true ↔ _
  rw [Bool.or_eq_true, Bool.or_eq_true, Bool.or_eq_true, beq_iff_eq]

theorem toNat_of_isWordChar (h : isWordChar c = true) : 48 ≤ c.toNat ∧ c.toNat ≤ 122 := by
  rw [isWordChar_iff, isUpper_iff, isLower_iff, isDigit_iff] at h
  rcases h with h | rfl
  · omega
  · decide

theorem token_iff_of_isWordChar (hc : isWordChar c = true) :
    Token (c :: w) s rest ↔ skipTrivia s = c :: (w ++ rest) := by
  have hrange := toNat_of_isWordChar hc
  refine token_iff ?_ ?_
  · simp [isBlank]
    omega
  · rintro rfl
    exact absurd hrange (by decide)

/-- A variable is the first character behind the trivia. -/
theorem token_iff_of_isUpper (hc : c.isUpper = true) : Token [c] s rest ↔ skipTrivia s = c :: rest :=
  token_iff_of_isWordChar (isWordChar_iff.2 (.inl (.inl (.inl hc))))

/-- No letter is one of the signs that open an operand. -/
theorem ne_of_isUpper_or_isLower (hc : c.isUpper = true ∨ c.isLower = true) :
    c ≠ '(' ∧ c ≠ '<' ∧ c ≠ '[' ∧ c ≠ '!' := by
  refine ⟨?_, ?_, ?_, ?_⟩ <;> rintro rfl <;> exact absurd hc (by decide)

theorem not_isUpper_of_isLower (hc : c.isLower = true) : ¬c.isUpper = true := by
  rw [isLower_iff] at hc
  rw [isUpper_iff]
  omega

/-- A keyword is the longest word that the reader finds behind the trivia. -/
theorem keyword_iff (hw : (c :: w).all isWordChar = true) :
    Keyword (c :: w) s rest ↔ (skipTrivia s).takeWhile isWordChar = c :: w ∧
      (skipTrivia s).dropWhile isWordChar = rest := by
  rw [List.all_eq_true] at hw
  rw [Keyword, token_iff_of_isWordChar (hw c List.mem_cons_self), ← List.cons_append]
  constructor
  · rintro ⟨htext, hend⟩
    have hrest : rest.takeWhile isWordChar = [] ∧ rest.dropWhile isWordChar = rest := by
      cases rest with
      | nil => exact ⟨rfl, rfl⟩
      | cons d t =>
        have hd : isWordChar d = false := hend d rfl
        simp [hd]
    rw [htext, List.takeWhile_append_of_pos hw, List.dropWhile_append_of_pos hw, hrest.1, hrest.2,
      List.append_nil]
    exact ⟨rfl, rfl⟩
  · rintro ⟨htake, rfl⟩
    refine ⟨by rw [← htake, List.takeWhile_append_dropWhile], fun d hd => ?_⟩
    have hnot := List.head?_dropWhile_not isWordChar (skipTrivia s)
    rw [hd] at hnot
    exact hnot

theorem junction?_eq_some_iff {j : Junction} : junction? s = some (j, rest) ↔ s = symbol j ++ rest := by
  unfold junction?
  split
  · cases j <;> simp [symbol, eq_comm]
  · cases j <;> simp [symbol, eq_comm]
  · next hand hor =>
    cases j with
    | and => simpa [symbol] using fun h => hand rest h
    | or => simpa [symbol] using fun h => hor rest h

/-- No junction follows. -/
def Stops (rest : List Char) : Prop := junction? (skipTrivia rest) = none

theorem token_symbol_iff {j : Junction} :
    Token (symbol j) s rest ↔ junction? (skipTrivia s) = some (j, rest) := by
  rw [junction?_eq_some_iff]
  cases j with
  | and => exact token_iff rfl (by decide)
  | or => exact token_iff rfl (by decide)

theorem not_stops_of_token {j : Junction} (h : Token (symbol j) s rest) : ¬Stops s := by
  rw [Stops, token_symbol_iff.1 h]
  nofun

theorem stops_of_close (h : Token [')'] s rest) : Stops s := by
  rw [Stops, token_close_iff.1 h]
  rfl

theorem Closing.stops (h : Closing s) : Stops s := by
  rw [Stops, h.skipTrivia_eq_nil]
  rfl

/-- A compact phrase may end anywhere, any other phrase only where no junction follows. -/
def Category.Ends : Category → List Char → Prop
  | .compact, _ => True
  | .reaching, rest | .formula, rest => Stops rest

theorem Category.ends_of_stops (category : Category) (h : Stops rest) : category.Ends rest := by
  cases category with
  | compact => trivial
  | reaching | formula => exact h

theorem isLabelText_iff : isLabelText s = true ↔ PlainLabel s := by
  simp [isLabelText, PlainLabel]

instance (s : List Char) : Decidable (PlainLabel s) := decidable_of_iff _ isLabelText_iff

theorem isBlank_eq_false_of_isBracket (h : isBracket c = true) : isBlank c = false := by
  simp only [isBracket, Bool.or_eq_true, beq_iff_eq] at h
  rcases h with ((rfl | rfl) | rfl) | rfl <;> decide

/-- The reader finds a label up to the first closing bracket. -/
theorem label_eq_ok_iff {opening closing : Char} (hclosing : isBracket closing = true) {a : Label} :
    label opening closing s = .ok (a, rest) ↔ PlainLabel a.text.toList ∧ ∃ before behind,
      (∀ c ∈ before ++ behind, isBlank c = true) ∧
        s = before ++ (a.text.toList ++ (behind ++ closing :: rest)) := by
  unfold label
  constructor
  · intro h
    split at h
    · cases h
    · next inside t hsplit =>
      split at h
      · next hlabel =>
        obtain ⟨rfl, rfl⟩ : (⟨String.ofList (trim inside)⟩ : Label) = a ∧ t = rest := by
          simpa using h
        obtain ⟨before, behind, hblank, hinside⟩ := exists_blank_append_trim inside
        rw [String.toList_ofList]
        refine ⟨isLabelText_iff.1 hlabel, before, behind, hblank, ?_⟩
        calc s = inside ++ closing :: t := (splitFirst?_eq_some_iff.1 hsplit).1
          _ = before ++ (trim inside ++ behind) ++ closing :: t :=
            congrArg (· ++ closing :: t) hinside
          _ = before ++ (trim inside ++ (behind ++ closing :: t)) := by
            simp only [List.append_assoc]
      · cases h
  · rintro ⟨hplain, before, behind, hblank, rfl⟩
    have hsplit : splitFirst? closing (before ++ (a.text.toList ++ (behind ++ closing :: rest))) =
        some (before ++ (a.text.toList ++ behind), rest) := by
      refine splitFirst?_eq_some_iff.2 ⟨by simp only [List.append_assoc], fun hmem => ?_⟩
      have hnot : isBlank closing = false := isBlank_eq_false_of_isBracket hclosing
      simp only [List.mem_append] at hmem hblank
      rcases hmem with hmem | hmem | hmem
      · simp [hblank closing (.inl hmem)] at hnot
      · simp [(hplain.2 closing hmem).2] at hclosing
      · simp [hblank closing (.inr hmem)] at hnot
    rw [hsplit]
    simp only [trim_append hblank hplain.1 fun c hc => (hplain.2 c hc).1]
    rw [if_pos (isLabelText_iff.2 hplain), String.ofList_toList]

theorem bracketed_iff {opening closing : Char} (hopening : isBracket opening = true)
    (hclosing : isBracket closing = true) {a : Label} :
    Bracketed opening closing a s rest ↔
      ∃ t, skipTrivia s = opening :: t ∧ label opening closing t = .ok (a, rest) := by
  have hpercent : opening ≠ '%' := by
    rintro rfl
    exact absurd hopening (by decide)
  have htoken : ∀ w, Token (opening :: w) s rest ↔ skipTrivia s = opening :: (w ++ rest) := fun w =>
    token_iff (isBlank_eq_false_of_isBracket hopening) hpercent
  constructor
  · rintro ⟨hplain, before, behind, hblank, h⟩
    refine ⟨_, (htoken _).1 h, (label_eq_ok_iff hclosing).2 ⟨hplain, before, behind, hblank, ?_⟩⟩
    simp only [List.append_assoc, List.singleton_append]
  · rintro ⟨t, hskip, hlabel⟩
    obtain ⟨hplain, before, behind, hblank, rfl⟩ := (label_eq_ok_iff hclosing).1 hlabel
    refine ⟨hplain, before, behind, hblank, (htoken _).2 ?_⟩
    simp only [hskip, List.append_assoc, List.singleton_append]

end Grammar

end ModalMu
