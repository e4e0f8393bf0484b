import ModalMu.Evaluation.Run
import ModalMu.Model
import ModalMu.Sentence.Parser

/-!
# Checking

Checking a job evaluates its sentence from the start, and gives the states that satisfy it together with
the tallies of all binders and the log.
-/

namespace ModalMu

/-- The result of a check. -/
structure Verdict where
  satisfying : StateSet
  tallies : List Tally
  log : List Event
deriving DecidableEq, Repr

namespace Tally

/-- The rounds of all binders together. -/
def totalRounds (ts : List Tally) : Nat := ts.foldr (fun t n => t.rounds + n) 0

/-- The resets of all binders together. -/
def totalResets (ts : List Tally) : Nat := ts.foldr (fun t n => t.resets + n) 0

end Tally

namespace Verdict

def totalRounds (v : Verdict) : Nat := Tally.totalRounds v.tallies

def totalResets (v : Verdict) : Nat := Tally.totalResets v.tallies

/-- Whether the state to start in satisfies the sentence; without states nothing does. -/
def holds (m : TransitionSystem) (v : Verdict) : Except Fault Bool :=
  if 0 < m.numStates then v.satisfying.contains m.initial else .ok false

end Verdict

namespace Job

/-- The verdict of an evaluation that is over, with the events of the check around its own. -/
def verdict (job : Job) (s : StateSet) (e : Evaluation) : Verdict :=
  let first := Event.started job.sentence.root job.sentence.binders.size
    job.sentence.alternationDepth job.policy
  let last := Event.finished s.size job.system.numStates (Tally.totalRounds e.tallies)
  ⟨s, e.tallies, first :: e.log.toList ++ [last]⟩

/-- Evaluates the sentence of a job. -/
def check (job : Job) : Except Fault Verdict := do
  let (s, e) ← Evaluation.run job (.start job)
  .ok (job.verdict s e)

end Job

/-- Why a check gives no verdict. -/
inductive CheckError where
  | model (e : ModelError)
  | sentence (e : SyntaxError)
  | fault (f : Fault)
deriving DecidableEq, Repr

/-- Checks the sentence that a text spells on a model, with every event on the way. -/
def checkLogged (model : Model) (src : String) (policy : ResetPolicy) :
    Logged (Except CheckError Verdict) :=
  let loaded := model.loadLogged 0
  match loaded.outcome with
  | .error e => ⟨loaded.log, .error (.model e)⟩
  | .ok system =>
    match Sentence.parse src with
    | .error e => ⟨loaded.log, .error (.sentence e)⟩
    | .ok sentence =>
      let log := loaded.log ++ [.parsed sentence.binders.size sentence.size]
      match (Job.mk system sentence policy).check with
      | .error f => ⟨log, .error (.fault f)⟩
      | .ok v => ⟨log ++ v.log, .ok v⟩

end ModalMu
