import Mathlib.Data.List.Basic

/-!
# Texts that end by themselves

Something is written so that it can be told from whatever follows it. A list of such items can be told from
what follows the list (`SelfDelimiting.flatMap`). A number is not of this kind, but it ends before the first
character that is no digit (`toDigits_append_inj`).
-/

namespace ModalMu

namespace Text

/-- What is written can be told from what follows it, whatever that is. -/
def SelfDelimiting {α : Type} (w : α → List Char) : Prop :=
  ∀ ⦃a b : α⦄ ⦃u v : List Char⦄, w a ++ u = w b ++ v → a = b ∧ u = v

/-- A list of items can be told from what follows it, if that does not begin as an item does. -/
theorem SelfDelimiting.flatMap {α : Type} {w : α → List Char} (hw : SelfDelimiting w) {as bs : List α}
    {u v : List Char} (hu : ∀ a t, w a ++ t ≠ u) (hv : ∀ a t, w a ++ t ≠ v)
    (h : as.flatMap w ++ u = bs.flatMap w ++ v) : as = bs ∧ u = v := by
  induction as generalizing bs with
  | nil =>
    cases bs with
    | nil => exact ⟨rfl, h⟩
    | cons b bs =>
      rw [List.flatMap_cons, List.append_assoc] at h
      exact absurd h.symm (hu b _)
  | cons a as ih =>
    cases bs with
    | nil =>
      rw [List.flatMap_cons, List.append_assoc] at h
      exact absurd h (hv a _)
    | cons b bs =>
      rw [List.flatMap_cons, List.flatMap_cons, List.append_assoc, List.append_assoc] at h
      obtain ⟨rfl, hrest⟩ := hw h
      obtain ⟨rfl, hend⟩ := ih hrest
      exact ⟨rfl, hend⟩

/-- A number ends before the first character that is no digit. -/
theorem toDigits_append_inj {n k : Nat} {c d : Char} {u v : List Char} (hc : c.isDigit = false)
    (hd : d.isDigit = false) (h : Nat.toDigits 10 n ++ c :: u = Nat.toDigits 10 k ++ d :: v) :
    n = k ∧ c = d ∧ u = v := by
  have htake : ∀ {j : Nat} {e : Char} {t : List Char}, e.isDigit = false →
      (Nat.toDigits 10 j ++ e :: t).takeWhile Char.isDigit = Nat.toDigits 10 j := by
    intro j e t he
    rw [List.takeWhile_append_of_pos fun _ => Nat.isDigit_of_mem_toDigits (by decide) (by decide)]
    simp [he]
  have hdigits : Nat.toDigits 10 n = Nat.toDigits 10 k := by
    rw [← htake (j := n) hc, h, htake hd]
  rw [hdigits] at h
  obtain ⟨hcd, huv⟩ := List.cons.inj (List.append_cancel_left h)
  have hvalue : n = k :=
    calc
      n = Nat.ofDigitChars 10 (Nat.toDigits 10 n) 0 := Nat.ofDigitChars_ten_toDigits.symm
      _ = Nat.ofDigitChars 10 (Nat.toDigits 10 k) 0 := by rw [hdigits]
      _ = k := Nat.ofDigitChars_ten_toDigits
  exact ⟨hvalue, hcd, huv⟩

end Text

end ModalMu
