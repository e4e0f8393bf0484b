/-!
# Numerals

Decimal numbers of 64 bits: `numeral?` reads one, `Nat.toDigits 10` writes one. A plus sign may stand
in front and zeros may lead; nothing else is accepted.
-/

namespace ModalMu.Text

/-- The numbers that fit into 64 bits are those below this one. -/
def numeralBound : Nat := 0x10000000000000000

/-- The numeral without one plus sign in front. -/
def dropPlus : List Char → List Char
  | '+' :: rest => rest
  | s => s

/-- The number that a text spells, if it spells one of 64 bits. -/
def numeral? (s : List Char) : Option Nat :=
  let digits := dropPlus s
  if digits.isEmpty || !digits.all Char.isDigit then
    none
  else
    let n := Nat.ofDigitChars 10 digits 0
    if n < numeralBound then some n else none

theorem lt_of_numeral?_eq_some {s : List Char} {n : Nat} (h : numeral? s = some n) :
    n < numeralBound := by
  simp only [numeral?] at h
  split at h
  · simp at h
  · split at h
    · next hn => simpa [Option.some.inj h] using hn
    · simp at h

/-- A number reads back from its decimal digits exactly if it fits. -/
theorem numeral?_toDigits (n : Nat) :
    numeral? (Nat.toDigits 10 n) = if n < numeralBound then some n else none := by
  have hdigit : ∀ c ∈ Nat.toDigits 10 n, c.isDigit = true := fun c hc =>
    Nat.isDigit_of_mem_toDigits (by decide) (by decide) hc
  have hplus : dropPlus (Nat.toDigits 10 n) = Nat.toDigits 10 n := by
    unfold dropPlus
    split
    · next rest heq => exact absurd (hdigit '+' (by simp [heq])) (by decide)
    · rfl
  have hall : (Nat.toDigits 10 n).all Char.isDigit = true := List.all_eq_true.2 hdigit
  have hne : (Nat.toDigits 10 n).isEmpty = false := by
    simp [Nat.toDigits_ne_nil]
  simp [numeral?, hplus, hall, hne, Nat.ofDigitChars_ten_toDigits]

end ModalMu.Text
