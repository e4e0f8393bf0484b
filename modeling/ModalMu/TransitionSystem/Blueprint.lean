import ModalMu.Fault
import ModalMu.TransitionSystem.Basic

/-!
# Building transition systems

A blueprint says how many states there are, which of them have a name, where to start, and the
transitions in their order. It is drawn by calls, on a table of names for which there has to be room.
Building it checks that all states exist and indexes the transitions by the states they leave and enter.
-/

namespace ModalMu

/-- A transition system as it is asked for; a state without a name is called by its number. -/
structure Blueprint where
  names : Array (Option String)
  initial : Nat
  transitions : Array Transition
deriving DecidableEq, Repr

/-- Why a blueprint cannot be built. -/
inductive BuildError where
  | stateOutOfRange (source target numStates : Nat)
  | initialOutOfRange (initial numStates : Nat)
deriving DecidableEq, Repr

def BuildError.message : BuildError → String
  | stateOutOfRange source target numStates =>
    s!"transition {source} -> {target} refers to a state outside 0..{numStates}"
  | initialOutOfRange initial numStates => s!"initial state {initial} is outside 0..{numStates}"

namespace Blueprint

/-- States without names and transitions, to start in the first one. -/
def ofSize (n : Nat) : Blueprint := ⟨Array.replicate n none, 0, #[]⟩

/-- The most states that a table of names can have: an entry takes 24 bytes, and a table takes less than
half of the addresses there are. -/
def capacity : Nat := 9223372036854775807 / 24

/-- A table of names for `n` states, if there can be one. -/
def allocate (n : Nat) : Except Fault Blueprint :=
  if n ≤ capacity then .ok (ofSize n) else .error .capacityOverflow

def numStates (b : Blueprint) : Nat := b.names.size

def startAt (b : Blueprint) (initial : Nat) : Blueprint := { b with initial }

/-- The blueprint with a name for a state, if there is such a state. -/
def rename (b : Blueprint) (i : Nat) (name : String) : Blueprint :=
  { b with names := b.names.setIfInBounds i (some name) }

def addTransition (b : Blueprint) (t : Transition) : Blueprint :=
  { b with transitions := b.transitions.push t }

/-- A call that goes on with a blueprint. -/
inductive Call where
  | startAt (initial : Nat)
  | rename (i : Nat) (name : String)
  | addTransition (t : Transition)
deriving DecidableEq, Repr

def Call.apply (b : Blueprint) : Call → Blueprint
  | .startAt initial => b.startAt initial
  | .rename i name => b.rename i name
  | .addTransition t => b.addTransition t

/-- The states before any transition is entered. -/
def bareStates (b : Blueprint) : Array State :=
  (b.names.toList.mapIdx fun i name => ⟨i, name.getD (toString i), #[], #[]⟩).toArray

/-- Enters the transition at a position into the states at its two ends. -/
def attach (states : Array State) (entry : Transition × Nat) : Except BuildError (Array State) :=
  let (t, position) := entry
  if t.source < states.size ∧ t.target < states.size then
    .ok ((states.modify t.source (State.addOutgoing position)).modify t.target
      (State.addIncoming position))
  else
    .error (.stateOutOfRange t.source t.target states.size)

/-- The transition system, with the given tag on its universe. The state to start in counts only if
there are states. -/
def build (b : Blueprint) (tag : Nat) : Except BuildError TransitionSystem :=
  if 0 < b.numStates ∧ b.numStates ≤ b.initial then
    .error (.initialOutOfRange b.initial b.numStates)
  else do
    let states ← b.transitions.toList.zipIdx.foldlM attach b.bareStates
    .ok ⟨⟨tag, states⟩, b.transitions, b.initial⟩

end Blueprint

/-- A universe of states without names and transitions. -/
def Universe.ofSize (tag n : Nat) : Universe := ⟨tag, (Blueprint.ofSize n).bareStates⟩

end ModalMu
