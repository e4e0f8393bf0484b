import ModalMu.Fault
import ModalMu.Label

/-!
# Labelled transition systems

The states of a system are numbered from zero and belong to a universe. A universe carries a tag:
universes with different tags are different, also if their states look alike.
-/

namespace ModalMu

/-- A state, with the positions of the transitions that leave it and of those that enter it. -/
structure State where
  id : Nat
  name : String
  outgoing : Array Nat
  incoming : Array Nat
deriving DecidableEq, Repr

namespace State

def text (s : State) : String := s!"s{s.id}"

def addOutgoing (position : Nat) (s : State) : State :=
  { s with outgoing := s.outgoing.push position }

def addIncoming (position : Nat) (s : State) : State :=
  { s with incoming := s.incoming.push position }

end State

/-- The states that sets are made of. -/
structure Universe where
  tag : Nat
  states : Array State
deriving DecidableEq, Repr

namespace Universe

def size (u : Universe) : Nat := u.states.size

def isEmpty (u : Universe) : Bool := u.states.isEmpty

/-- Whether two universes are one and the same. -/
def same (u v : Universe) : Bool := u.tag == v.tag

def state (u : Universe) (i : Nat) : Except Fault State := Fault.lookup u.states i

end Universe

/-- A labelled step from one state to another. -/
structure Transition where
  source : Nat
  label : Label
  target : Nat
deriving DecidableEq, Repr

def Transition.text (t : Transition) : String := s!"s{t.source} -{t.label.text}-> s{t.target}"

/-- States, transitions and a state to start in. -/
structure TransitionSystem where
  carrier : Universe
  transitions : Array Transition
  initial : Nat
deriving DecidableEq, Repr

namespace TransitionSystem

def numStates (m : TransitionSystem) : Nat := m.carrier.size

def numTransitions (m : TransitionSystem) : Nat := m.transitions.size

/-- The transition at a position. -/
def transition (m : TransitionSystem) (position : Nat) : Except Fault Transition :=
  Fault.lookup m.transitions position

/-- The transitions at the given positions. -/
def select (m : TransitionSystem) (positions : Array Nat) : Except Fault (List Transition) :=
  positions.toList.mapM m.transition

/-- The transitions that leave a state, in the order of their positions. -/
def outgoing (m : TransitionSystem) (i : Nat) : Except Fault (List Transition) := do
  let s ← m.carrier.state i
  m.select s.outgoing

/-- The transitions that enter a state, in the order of their positions. -/
def incoming (m : TransitionSystem) (i : Nat) : Except Fault (List Transition) := do
  let s ← m.carrier.state i
  m.select s.incoming

/-- A label put into a sorted list that does not hold it yet. -/
def insertLabel (a : Label) : List Label → List Label
  | [] => [a]
  | b :: rest =>
    match a.order b with
    | .lt => a :: b :: rest
    | .eq => b :: rest
    | .gt => b :: insertLabel a rest

/-- The labels of the transitions, sorted, each once. -/
def labels (m : TransitionSystem) : List Label :=
  m.transitions.toList.foldr (fun t known => insertLabel t.label known) []

end TransitionSystem

end ModalMu
