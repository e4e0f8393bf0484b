/-!
# White space

The characters that separate tokens, `isBlank`, and the three ways of trimming a text.
-/

namespace ModalMu.Text

/-- The characters with the Unicode property `White_Space`. -/
def isBlank (c : Char) : Bool :=
  let n := c.toNat
  (0x9 ≤ n && n ≤ 0xd) || n == 0x20 || n == 0x85 || n == 0xa0 || n == 0x1680 ||
    (0x2000 ≤ n && n ≤ 0x200a) || n == 0x2028 || n == 0x2029 || n == 0x202f || n == 0x205f ||
    n == 0x3000

/-- The text without the white space in front of it. -/
def trimStart (s : List Char) : List Char := s.dropWhile isBlank

/-- The text without the white space behind it. -/
def trimEnd (s : List Char) : List Char := (s.reverse.dropWhile isBlank).reverse

/-- The text without the white space around it. -/
def trim (s : List Char) : List Char := trimEnd (trimStart s)

@[simp] theorem trimStart_nil : trimStart [] = [] := rfl

@[simp] theorem trimEnd_nil : trimEnd [] = [] := rfl

@[simp] theorem trim_nil : trim [] = [] := rfl

theorem trimStart_cons_of_blank {c : Char} {s : List Char} (h : isBlank c = true) :
    trimStart (c :: s) = trimStart s := by
  simp [trimStart, h]

theorem trimStart_cons_of_not_blank {c : Char} {s : List Char} (h : isBlank c = false) :
    trimStart (c :: s) = c :: s := by
  simp [trimStart, h]

/-- What is trimmed in front is blank and the rest is kept. -/
theorem exists_blank_append_trimStart (s : List Char) :
    ∃ p, (∀ c ∈ p, isBlank c = true) ∧ s = p ++ trimStart s := by
  refine ⟨s.takeWhile isBlank, ?_, List.takeWhile_append_dropWhile.symm⟩
  exact List.all_eq_true.1 List.all_takeWhile

/-- What is trimmed behind is blank and the rest is kept. -/
theorem exists_trimEnd_append_blank (s : List Char) :
    ∃ p, (∀ c ∈ p, isBlank c = true) ∧ s = trimEnd s ++ p := by
  obtain ⟨p, hp, heq⟩ := exists_blank_append_trimStart s.reverse
  refine ⟨p.reverse, fun c hc => hp c (List.mem_reverse.1 hc), ?_⟩
  rw [trimEnd, ← List.reverse_append]
  exact List.reverse_eq_iff.1 heq

/-- What is trimmed on both sides is blank and the rest is kept. -/
theorem exists_blank_append_trim (s : List Char) :
    ∃ before behind, (∀ c ∈ before ++ behind, isBlank c = true) ∧
      s = before ++ (trim s ++ behind) := by
  obtain ⟨before, hbefore, hstart⟩ := exists_blank_append_trimStart s
  obtain ⟨behind, hbehind, hend⟩ := exists_trimEnd_append_blank (trimStart s)
  refine ⟨before, behind, fun c hc => ?_, ?_⟩
  · rcases List.mem_append.1 hc with hc | hc
    · exact hbefore c hc
    · exact hbehind c hc
  · rw [trim, ← hend, ← hstart]

theorem trim_subset (s : List Char) : trim s ⊆ s := by
  obtain ⟨before, behind, -, heq⟩ := exists_blank_append_trim s
  intro c hc
  rw [heq]
  exact List.mem_append_right _ (List.mem_append_left _ hc)

theorem trimStart_append {before s : List Char} (hblank : ∀ c ∈ before, isBlank c = true)
    (hne : s ≠ []) (hfirst : isBlank (s.head hne) = false) : trimStart (before ++ s) = s := by
  obtain ⟨c, s, rfl⟩ := List.exists_cons_of_ne_nil hne
  rw [trimStart, List.dropWhile_append_of_pos hblank]
  exact trimStart_cons_of_not_blank hfirst

theorem trimEnd_append {s behind : List Char} (hblank : ∀ c ∈ behind, isBlank c = true)
    (hne : s ≠ []) (hlast : isBlank (s.getLast hne) = false) : trimEnd (s ++ behind) = s := by
  have hrev : s.reverse ≠ [] := by simpa using hne
  have hfirst : isBlank (s.reverse.head hrev) = false := by rwa [List.head_reverse]
  rw [trimEnd, List.reverse_append, ← trimStart,
    trimStart_append (fun c hc => hblank c (List.mem_reverse.1 hc)) hrev hfirst, List.reverse_reverse]

/-- Blanks around a text that neither begins nor ends with one are all that is trimmed. -/
theorem trim_append_of_ends {before s behind : List Char}
    (hblank : ∀ c ∈ before ++ behind, isBlank c = true) (hne : s ≠ [])
    (hfirst : isBlank (s.head hne) = false) (hlast : isBlank (s.getLast hne) = false) :
    trim (before ++ (s ++ behind)) = s := by
  have hstart : trimStart (before ++ (s ++ behind)) = s ++ behind := by
    refine trimStart_append (fun c hc => hblank c (List.mem_append_left _ hc)) (by simp [hne]) ?_
    rwa [List.head_append_of_ne_nil hne]
  rw [trim, hstart, trimEnd_append (fun c hc => hblank c (List.mem_append_right _ hc)) hne hlast]

theorem trim_blank_append {before s : List Char} (hblank : ∀ c ∈ before, isBlank c = true)
    (hne : s ≠ []) (hfirst : isBlank (s.head hne) = false) (hlast : isBlank (s.getLast hne) = false) :
    trim (before ++ s) = s := by
  have h : trim (before ++ (s ++ [])) = s :=
    trim_append_of_ends (by simpa using hblank) hne hfirst hlast
  rwa [List.append_nil] at h

/-- Blanks around a text without blanks are all that is trimmed. -/
theorem trim_append {before s behind : List Char} (hblank : ∀ c ∈ before ++ behind, isBlank c = true)
    (hne : s ≠ []) (hs : ∀ c ∈ s, isBlank c = false) : trim (before ++ (s ++ behind)) = s :=
  trim_append_of_ends hblank hne (hs _ (List.head_mem hne)) (hs _ (List.getLast_mem hne))

/-- Nothing is left exactly of a text of blanks. -/
theorem trim_eq_nil_iff {s : List Char} : trim s = [] ↔ ∀ c ∈ s, isBlank c = true := by
  constructor
  · intro h
    obtain ⟨before, behind, hblank, heq⟩ := exists_blank_append_trim s
    rw [h, List.nil_append] at heq
    rw [heq]
    exact hblank
  · intro h
    have hstart : trimStart s = [] := by
      have hdrop : (s ++ []).dropWhile isBlank = [] := List.dropWhile_append_of_pos h
      rwa [List.append_nil] at hdrop
    rw [trim, hstart, trimEnd_nil]

end ModalMu.Text
