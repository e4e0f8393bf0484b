/-!
# Action labels

A label is a text. One label is the wildcard, which agrees with every label, on either side.
-/

namespace ModalMu

/-- The name of an action. -/
structure Label where
  text : String
deriving DecidableEq, Repr

namespace Label

/-- The label that stands for every action. -/
def wildcard : Label := ⟨"true"⟩

def isWildcard (a : Label) : Bool := a == wildcard

/-- Two labels agree if they are equal or one of them is the wildcard. -/
def agrees (a b : Label) : Bool := a.isWildcard || b.isWildcard || a == b

/-- Labels are ordered by the code points of their texts. -/
def order (a b : Label) : Ordering := compare a.text b.text

theorem agrees_iff {a b : Label} : a.agrees b = true ↔ a = wildcard ∨ b = wildcard ∨ a = b := by
  simp [agrees, isWildcard, or_assoc]

theorem agrees_comm (a b : Label) : a.agrees b = b.agrees a := by
  rw [Bool.eq_iff_iff, agrees_iff, agrees_iff]
  constructor <;> rintro (h | h | h) <;> simp [h]

@[simp] theorem agrees_self (a : Label) : a.agrees a = true := by simp [agrees_iff]

@[simp] theorem wildcard_agrees (a : Label) : wildcard.agrees a = true := by simp [agrees_iff]

end Label

end ModalMu
