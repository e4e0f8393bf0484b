import ModalMu.Formula.Printer
import ModalMu.Formula.Alternation

/-!
# Sentences

A sentence is a formula whose variables are all bound, with a table of its binders. The binder at
position `i` of the table is the one with slot `i`.
-/

namespace ModalMu

/-- What is known of one fixed point: the slots of the fixed points in its body and the slots of the
variables used there, in the order of the text. -/
structure Binder where
  name : Char
  kind : FixKind
  slot : Nat
  descendants : List Nat
  occurrences : List Nat
deriving DecidableEq, Repr

/-- A formula with the table of its binders. -/
structure Sentence where
  root : Formula
  binders : Array Binder
deriving DecidableEq, Repr

namespace Sentence

def render (s : Sentence) : String := s.root.render

def size (s : Sentence) : Nat := s.root.size

def alternationDepth (s : Sentence) : Nat := s.root.alternationDepth

end Sentence

end ModalMu
