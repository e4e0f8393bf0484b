import ModalMu.Evaluation.Run

/-!
# Scripts on an evaluation

A script is a list of commands on one evaluation, whose cells are kept from command to command. It ends
with the first command that faults.
-/

namespace ModalMu

namespace Evaluation

/-- The set that a modality is applied to: states of the system, or of another universe of the given
size. -/
structure Target where
  indices : List Nat
  foreign : Option Nat
deriving DecidableEq, Repr

/-- The target as a set; another universe has a tag that differs from the system's. -/
def Target.set (m : TransitionSystem) (t : Target) : Except Fault StateSet :=
  match t.foreign with
  | none => StateSet.ofList m.carrier t.indices
  | some n => do
    let b ← Blueprint.allocate n
    StateSet.ofList (Universe.ofSize (m.carrier.tag + 1) b.numStates) t.indices

inductive Command where
  /-- Evaluate the sentence. -/
  | run
  /-- Evaluate a formula as if it stood below the given kind of fixed point. -/
  | eval (f : Formula) (around : Option FixKind)
  | value (slot : Nat)
  | isOpen (slot : Nat)
  | tally (slot : Nat)
  | diamond (a : Label) (target : Target)
  | boxed (a : Label) (target : Target)
deriving DecidableEq, Repr

inductive Answer where
  | members (l : List Nat)
  | text (s : String)
  | flag (b : Bool)
  | tally (t : Tally)
deriving DecidableEq, Repr

/-- The answer of a command and the evaluation after it. -/
def Command.exec (job : Job) (e : Evaluation) : Command → Except Fault (Answer × Evaluation)
  | .run => do
    let (s, e) ← Evaluation.run job e
    .ok (.members s.members, e)
  | .eval f around => do
    let (s, e) ← Evaluation.eval job f around e
    .ok (.members s.members, e)
  | .value slot => do
    let s ← e.value slot
    .ok (.text s.text, e)
  | .isOpen slot => do
    let b ← e.isOpen slot
    .ok (.flag b, e)
  | .tally slot => do
    let t ← e.tally slot
    .ok (.tally t, e)
  | .diamond a target => do
    let t ← target.set job.system
    let s ← job.system.diamond a t
    .ok (.members s.members, e)
  | .boxed a target => do
    let t ← target.set job.system
    let s ← job.system.boxed a t
    .ok (.members s.members, e)

/-- The outcomes of the commands of a script, up to the first one that faults. -/
def runScript (job : Job) : List Command → Evaluation → List (Except Fault (Answer × Evaluation))
  | [], _ => []
  | c :: rest, e =>
    match c.exec job e with
    | .error f => [.error f]
    | .ok (a, e) => .ok (a, e) :: runScript job rest e

end Evaluation

end ModalMu
