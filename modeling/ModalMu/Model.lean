import ModalMu.TransitionSystem.Aut

/-!
# Models

A model is a description of a transition system: a text in the `.aut` format, or a number of states and
the calls that draw its blueprint.
-/

namespace ModalMu

inductive Model where
  | aut (text : String)
  | drawn (n : Nat) (calls : List Blueprint.Call)
deriving DecidableEq, Repr

/-- Why a model describes no transition system. -/
inductive ModelError where
  | aut (e : AutError)
  | build (e : BuildError)
  | fault (f : Fault)
deriving DecidableEq, Repr

def ModelError.ofStop : Aut.Stop → ModelError
  | .refused e => .aut e
  | .fault f => .fault f

namespace Model

/-- The transition system of a model, with what was reported while it was built. -/
def loadLogged (tag : Nat) : Model → Logged (Except ModelError TransitionSystem)
  | aut text =>
    let read := Aut.readLogged tag text.toList
    ⟨read.log, read.outcome.mapError .ofStop⟩
  | drawn n calls =>
    match Blueprint.allocate n with
    | .error f => ⟨[], .error (.fault f)⟩
    | .ok b =>
      match (calls.foldl Blueprint.Call.apply b).build tag with
      | .error e => ⟨[], .error (.build e)⟩
      | .ok m => ⟨[.built m.numStates m.numTransitions], .ok m⟩

/-- The transition system of a model; its universe gets the given tag. -/
def load (tag : Nat) (model : Model) : Except ModelError TransitionSystem :=
  (model.loadLogged tag).outcome

/-- The universes of several models, each with a tag of its own. -/
def universes (models : List Model) : Except ModelError (Array Universe) := do
  let systems ← models.zipIdx.mapM fun (model, tag) => model.load tag
  .ok (systems.map (·.carrier)).toArray

end Model

end ModalMu
