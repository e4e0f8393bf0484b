/-!
# Lines

A line ends at a line feed. A carriage return directly before that line feed belongs to the ending;
a carriage return anywhere else belongs to the line. There is no empty line after a final line feed.
-/

namespace ModalMu.Text

/-- The lines of a text, without their endings. -/
def lines : List Char → List (List Char)
  | [] => []
  | '\n' :: rest => [] :: lines rest
  | '\r' :: '\n' :: rest => [] :: lines rest
  | c :: rest =>
    match lines rest with
    | [] => [[c]]
    | line :: others => (c :: line) :: others

/-- The first line of a text; the empty text has the empty line. -/
def firstLine (s : List Char) : List Char := (lines s).headD []

@[simp] theorem lines_nil : lines [] = [] := rfl

@[simp] theorem lines_newline (s : List Char) : lines ('\n' :: s) = [] :: lines s := by
  rw [lines]

@[simp] theorem firstLine_nil : firstLine [] = [] := rfl

/-- A line holds no line feed. -/
theorem newline_notMem_of_mem_lines {s line : List Char} (h : line ∈ lines s) : '\n' ∉ line := by
  fun_induction lines s generalizing line with
  | case1 => simp at h
  | case2 rest ih =>
    rcases List.mem_cons.1 h with rfl | h
    · simp
    · exact ih h
  | case3 rest ih =>
    rcases List.mem_cons.1 h with rfl | h
    · simp
    · exact ih h
  | case4 c rest hn _ heq ih =>
    rcases List.mem_singleton.1 h with rfl
    simpa using fun hc => hn hc.symm
  | case5 c rest hn _ first others heq ih =>
    rcases List.mem_cons.1 h with rfl | h
    · rw [List.mem_cons, not_or]
      exact ⟨fun hc => hn hc.symm, ih (by simp [heq])⟩
    · exact ih (by simp [heq, h])

/-- A line that goes on. -/
theorem lines_cons {c : Char} {s : List Char} (hn : c ≠ '\n')
    (hr : ∀ t, c = '\r' → s ≠ '\n' :: t) :
    lines (c :: s) = (c :: (lines s).headD []) :: (lines s).tail := by
  rw [lines]
  · cases lines s <;> rfl
  · exact hn
  · exact hr

theorem lines_ne_nil {s : List Char} (h : s ≠ []) : lines s ≠ [] := by
  fun_cases lines s <;> simp_all

/-- The lines of a text up to a line feed come before those behind it. -/
theorem lines_append_newline (s t : List Char) :
    lines (s ++ '\n' :: t) = lines (s ++ ['\n']) ++ lines t := by
  fun_induction lines s with
  | case1 => simp
  | case2 rest ih => simp [ih]
  | case3 rest ih => simp [lines, ih]
  | case4 c rest hn hr _ ih | case5 c rest hn hr _ _ _ ih =>
    by_cases hends : c = '\r' ∧ rest = []
    · obtain ⟨rfl, rfl⟩ := hends
      rfl
    · have hgoes : ∀ (u r : List Char), c = '\r' → rest ++ '\n' :: u ≠ '\n' :: r := by
        intro u r hc heq
        cases rest with
        | nil => exact hends ⟨hc, rfl⟩
        | cons d rest => exact hr rest hc (by rw [(List.cons.inj heq).1])
      rw [List.cons_append, List.cons_append, lines_cons hn (hgoes t), lines_cons hn (hgoes []), ih]
      cases hl : lines (rest ++ ['\n']) with
      | nil => exact absurd hl (lines_ne_nil (by simp))
      | cons line others => rfl

/-- A line that does not end in a carriage return is read as it is. -/
theorem lines_eq_singleton {s : List Char} (hs : '\n' ∉ s) (hr : s.getLast? ≠ some '\r') :
    lines (s ++ ['\n']) = [s] := by
  induction s with
  | nil => rfl
  | cons c s ih =>
    rw [List.mem_cons, not_or] at hs
    have hgoes : ∀ t, c = '\r' → s ++ ['\n'] ≠ '\n' :: t := by
      intro t hc heq
      cases s with
      | nil => exact hr (by rw [hc]; rfl)
      | cons d s => exact hs.2 (by rw [(List.cons.inj heq).1]; exact List.mem_cons_self)
    have hrest : s.getLast? ≠ some '\r' := by
      intro h
      exact hr (by rw [List.getLast?_cons, h]; rfl)
    rw [List.cons_append, lines_cons (Ne.symm hs.1) hgoes, ih hs.2 hrest]
    rfl

/-- Every character that ends no line stands in one. -/
theorem exists_mem_lines {s : List Char} {c : Char} (hc : c ∈ s) (hn : c ≠ '\n') (hr : c ≠ '\r') :
    ∃ line ∈ lines s, c ∈ line := by
  fun_induction lines s with
  | case1 => simp at hc
  | case2 rest ih =>
    obtain ⟨line, hline, hmem⟩ := ih (by simpa [hn] using hc)
    exact ⟨line, List.mem_cons_of_mem _ hline, hmem⟩
  | case3 rest ih =>
    obtain ⟨line, hline, hmem⟩ := ih (by simpa [hn, hr] using hc)
    exact ⟨line, List.mem_cons_of_mem _ hline, hmem⟩
  | case4 d rest _ _ heq ih =>
    rcases List.mem_cons.1 hc with rfl | hc
    · exact ⟨[c], by simp, by simp⟩
    · obtain ⟨line, hline, -⟩ := ih hc
      simp [heq] at hline
  | case5 d rest _ _ first others heq ih =>
    rcases List.mem_cons.1 hc with rfl | hc
    · exact ⟨c :: first, by simp, by simp⟩
    · obtain ⟨line, hline, hmem⟩ := ih hc
      rw [heq] at hline
      rcases List.mem_cons.1 hline with rfl | hline
      · exact ⟨d :: line, List.mem_cons_self, List.mem_cons_of_mem _ hmem⟩
      · exact ⟨line, List.mem_cons_of_mem _ hline, hmem⟩

end ModalMu.Text
