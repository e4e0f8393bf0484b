import ModalMu.StateSet.Basic

/-!
# Modalities

`diamond a S` holds where some step that agrees with `a` leads into `S`, `boxed a S` where all of them
do. Both go backwards from the target along the transitions that enter its states.
-/

namespace ModalMu

namespace TransitionSystem

/-- Adds the source of the transition at a position to a set, if the labels agree. -/
def addSource (m : TransitionSystem) (a : Label) (s : StateSet) (position : Nat) :
    Except Fault StateSet := do
  let t ← m.transition position
  if a.agrees t.label then
    let (_, s) ← s.insert t.source
    .ok s
  else
    .ok s

/-- Adds the states with a step into state `i` whose label agrees with `a`. -/
def addSources (m : TransitionSystem) (a : Label) (s : StateSet) (i : Nat) : Except Fault StateSet := do
  let state ← m.carrier.state i
  state.incoming.toList.foldlM (m.addSource a) s

/-- The states with a step into the target whose label agrees with `a`. -/
def preimage (m : TransitionSystem) (a : Label) (target : StateSet) : Except Fault StateSet :=
  target.members.foldlM (m.addSources a) (.none m.carrier)

def diamond (m : TransitionSystem) (a : Label) (target : StateSet) : Except Fault StateSet :=
  m.preimage a target

/-- The complement of the states with a step into the complement of the target. -/
def boxed (m : TransitionSystem) (a : Label) (target : StateSet) : Except Fault StateSet := do
  let s ← m.preimage a target.complement
  .ok s.complement

end TransitionSystem

end ModalMu
