import ModalMu.Label

/-!
# Formulas

The modal mu-calculus over action labels. A fixed point binds a variable, which is one capital letter
for the reader and a slot for the evaluator: the slot says where the value of the variable is kept.
-/

namespace ModalMu

/-- Which of the fixed points of a monotone map is meant. -/
inductive FixKind where
  | least
  | greatest
deriving DecidableEq, Repr

namespace FixKind

def opposite : FixKind → FixKind
  | least => greatest
  | greatest => least

/-- The word that introduces a fixed point. -/
def keyword : FixKind → String
  | least => "mu"
  | greatest => "nu"

@[simp] theorem opposite_opposite (k : FixKind) : k.opposite.opposite = k := by cases k <;> rfl

theorem opposite_ne (k : FixKind) : k.opposite ≠ k := by cases k <;> decide

theorem eq_opposite_of_ne {k l : FixKind} (h : k ≠ l) : k = l.opposite := by
  cases k <;> cases l <;> simp_all [opposite]

end FixKind

/-- A formula; `fix kind name slot body` binds the variable `name`, kept at `slot`, in `body`. -/
inductive Formula where
  | top
  | bot
  | and (left right : Formula)
  | or (left right : Formula)
  | not (body : Formula)
  | diamond (label : Label) (body : Formula)
  | box (label : Label) (body : Formula)
  | fix (kind : FixKind) (name : Char) (slot : Nat) (body : Formula)
  | var (name : Char) (slot : Nat)
deriving DecidableEq, Repr

namespace Formula

/-- The number of nodes. -/
def size : Formula → Nat
  | top | bot | var _ _ => 1
  | and l r | or l r => 1 + l.size + r.size
  | not f | diamond _ f | box _ f | fix _ _ _ f => 1 + f.size

/-- All subformulas, each before the ones inside it and the left ones first. -/
def subformulas : Formula → List Formula
  | top => [top]
  | bot => [bot]
  | and l r => and l r :: (l.subformulas ++ r.subformulas)
  | or l r => or l r :: (l.subformulas ++ r.subformulas)
  | not f => not f :: f.subformulas
  | diamond a f => diamond a f :: f.subformulas
  | box a f => box a f :: f.subformulas
  | fix k x i f => fix k x i f :: f.subformulas
  | var x i => [var x i]

theorem mem_subformulas_self (f : Formula) : f ∈ f.subformulas := by
  cases f <;> simp [subformulas]

end Formula

end ModalMu
