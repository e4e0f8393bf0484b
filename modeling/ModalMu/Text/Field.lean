/-!
# Fields

Cutting a text at a separator: at all of them, at the first or at the last.
-/

namespace ModalMu.Text

/-- The parts of a text between the separators; a text without any is one part. -/
def fields (sep : Char) : List Char → List (List Char)
  | [] => [[]]
  | c :: rest =>
    if c = sep then
      [] :: fields sep rest
    else
      match fields sep rest with
      | [] => [[c]]
      | field :: others => (c :: field) :: others

/-- The text before and after the first separator. -/
def splitFirst? (sep : Char) : List Char → Option (List Char × List Char)
  | [] => none
  | c :: rest =>
    if c = sep then some ([], rest)
    else (splitFirst? sep rest).map fun (before, behind) => (c :: before, behind)

/-- The text before and after the last separator. -/
def splitLast? (sep : Char) (s : List Char) : Option (List Char × List Char) :=
  (splitFirst? sep s.reverse).map fun (behind, before) => (before.reverse, behind.reverse)

/-- The text behind a given beginning. -/
def stripStart? : List Char → List Char → Option (List Char)
  | [], s => some s
  | _ :: _, [] => none
  | c :: start, d :: s => if c = d then stripStart? start s else none

/-- The text before its last character, which has to be the given one. -/
def stripLast? (c : Char) (s : List Char) : Option (List Char) :=
  (stripStart? [c] s.reverse).map List.reverse

/-- The first cut: nothing is lost, and the separator does not stand in the first part. -/
theorem splitFirst?_eq_some_iff {sep : Char} {s before behind : List Char} :
    splitFirst? sep s = some (before, behind) ↔ s = before ++ sep :: behind ∧ sep ∉ before := by
  induction s generalizing before with
  | nil => simp [splitFirst?]
  | cons c rest ih =>
    unfold splitFirst?
    split
    · next hc =>
      subst hc
      cases before with
      | nil => simp
      | cons d ds =>
        simp only [Option.some.injEq, Prod.mk.injEq, reduceCtorEq, false_and, List.cons_append,
          List.cons.injEq, List.mem_cons, not_or, false_iff, not_and]
        exact fun h hne _ => hne h.1
    · next hc =>
      simp only [Option.map_eq_some_iff, Prod.mk.injEq, Prod.exists]
      constructor
      · rintro ⟨b, r, h, rfl, rfl⟩
        obtain ⟨hrest, hnot⟩ := ih.1 h
        exact ⟨by simp [hrest], by simp [hnot, Ne.symm hc]⟩
      · rintro ⟨heq, hnot⟩
        cases before with
        | nil => simp only [List.nil_append, List.cons.injEq] at heq; exact absurd heq.1 hc
        | cons d ds =>
          simp only [List.cons_append, List.cons.injEq, List.mem_cons, not_or] at heq hnot
          exact ⟨ds, behind, ih.2 ⟨heq.2, hnot.2⟩, by simp [heq.1], rfl⟩

/-- The last cut: nothing is lost, and the separator does not stand in the second part. -/
theorem splitLast?_eq_some_iff {sep : Char} {s before behind : List Char} :
    splitLast? sep s = some (before, behind) ↔ s = before ++ sep :: behind ∧ sep ∉ behind := by
  have hcut : splitLast? sep s = some (before, behind) ↔
      splitFirst? sep s.reverse = some (behind.reverse, before.reverse) := by
    rw [splitLast?, Option.map_eq_some_iff]
    constructor
    · rintro ⟨⟨b, a⟩, h, heq⟩
      obtain ⟨rfl, rfl⟩ := Prod.mk.inj heq
      simpa using h
    · intro h
      exact ⟨_, h, by simp⟩
  rw [hcut, splitFirst?_eq_some_iff, List.mem_reverse, List.reverse_eq_iff]
  simp

theorem fields_of_notMem {sep : Char} {s : List Char} (h : sep ∉ s) : fields sep s = [s] := by
  induction s with
  | nil => rfl
  | cons c s ih =>
    rw [List.mem_cons, not_or] at h
    obtain ⟨hc, hs⟩ := h
    rw [fields, if_neg (Ne.symm hc), ih hs]

theorem fields_append {sep : Char} {s : List Char} (h : sep ∉ s) (t : List Char) :
    fields sep (s ++ sep :: t) = s :: fields sep t := by
  induction s with
  | nil => simp [fields]
  | cons c s ih =>
    rw [List.mem_cons, not_or] at h
    obtain ⟨hc, hs⟩ := h
    rw [List.cons_append, fields, if_neg (Ne.symm hc), ih hs]

theorem stripStart?_append (start s : List Char) : stripStart? start (start ++ s) = some s := by
  induction start with
  | nil => rfl
  | cons c start ih => simp [stripStart?, ih]

theorem stripStart?_eq_some {start s rest : List Char} (h : stripStart? start s = some rest) :
    s = start ++ rest := by
  fun_induction stripStart? start s with
  | case1 => simp_all
  | case2 => simp at h
  | case3 start d s ih => simp [ih h]
  | case4 => simp at h

theorem stripLast?_append (c : Char) (s : List Char) : stripLast? c (s ++ [c]) = some s := by
  simp [stripLast?, stripStart?]

theorem stripLast?_eq_some {c : Char} {s rest : List Char} (h : stripLast? c s = some rest) :
    s = rest ++ [c] := by
  obtain ⟨t, ht, rfl⟩ := Option.map_eq_some_iff.1 h
  have hrev := stripStart?_eq_some ht
  rw [List.reverse_eq_iff] at hrev
  simpa using hrev

end ModalMu.Text
