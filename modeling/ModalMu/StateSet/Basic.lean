import ModalMu.Bitmap.Basic
import ModalMu.TransitionSystem.Blueprint

/-!
# Sets of states

A set of states is a bitmap over a universe. Two sets can be combined and compared only if their
universes are the same.
-/

namespace ModalMu

/-- A set of states of a universe. -/
structure StateSet where
  carrier : Universe
  bits : Bitmap
deriving DecidableEq, Repr

namespace StateSet

/-- The set of all states. -/
def all (u : Universe) : StateSet := ⟨u, Bitmap.full u.size⟩

/-- The set without states. -/
def none (u : Universe) : StateSet := ⟨u, Bitmap.empty u.size⟩

/-- The number of states in the set. -/
def size (s : StateSet) : Nat := s.bits.size

def isEmpty (s : StateSet) : Bool := s.bits.isEmpty

def isAll (s : StateSet) : Bool := s.bits.isFull

/-- The numbers of the states in the set, ascending. -/
def members (s : StateSet) : List Nat := s.bits.members

def contains (s : StateSet) (i : Nat) : Except Fault Bool := s.bits.contains i

/-- The set with state `i`, and whether that is new. -/
def insert : StateSet → Nat → Except Fault (Bool × StateSet)
  | ⟨carrier, bits⟩, i => do
    let (fresh, bits) ← bits.insert i
    .ok (fresh, ⟨carrier, bits⟩)

/-- The set without state `i`, and whether `i` was there. -/
def erase : StateSet → Nat → Except Fault (Bool × StateSet)
  | ⟨carrier, bits⟩, i => do
    let (found, bits) ← bits.erase i
    .ok (found, ⟨carrier, bits⟩)

/-- The set of the given states. -/
def ofList (u : Universe) (indices : List Nat) : Except Fault StateSet :=
  indices.foldlM (fun s i => do
    let (_, s) ← s.insert i
    .ok s) (none u)

def complement (s : StateSet) : StateSet := { s with bits := s.bits.complement }

def clear (s : StateSet) : StateSet := { s with bits := s.bits.clear }

def fill (s : StateSet) : StateSet := { s with bits := s.bits.fill }

/-- An operation on the bitmaps of two sets over one universe. -/
def combine {α : Type} (op : Bitmap → Bitmap → Except Fault α) (s t : StateSet) : Except Fault α :=
  if s.carrier.same t.carrier then op s.bits t.bits else .error .universeMismatch

def union (s t : StateSet) : Except Fault StateSet := do
  let bits ← combine Bitmap.union s t
  .ok { s with bits }

def inter (s t : StateSet) : Except Fault StateSet := do
  let bits ← combine Bitmap.inter s t
  .ok { s with bits }

def diff (s t : StateSet) : Except Fault StateSet := do
  let bits ← combine Bitmap.diff s t
  .ok { s with bits }

def isSubset (s t : StateSet) : Except Fault Bool := combine Bitmap.isSubset s t

def isSuperset (s t : StateSet) : Except Fault Bool := t.isSubset s

/-- Whether two sets over one universe have the same members. -/
def equal (s t : StateSet) : Except Fault Bool := combine (fun a b => .ok (a == b)) s t

/-- The names of the states in the set. -/
def names (s : StateSet) : Except Fault (List String) :=
  s.members.mapM fun i => do
    let state ← s.carrier.state i
    .ok state.name

/-- The members in braces. -/
def text (s : StateSet) : String :=
  "\x7b" ++ String.intercalate ", " (s.members.map toString) ++ "\x7d"

end StateSet

end ModalMu
