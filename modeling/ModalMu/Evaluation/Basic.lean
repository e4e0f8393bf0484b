import ModalMu.Event
import ModalMu.Job.Basic

/-!
# The state of an evaluation

Every binder of the sentence has a cell. It keeps the value of the variable, also between one entry of
the fixed point and the next, a flag that is up while the body is evaluated, and a tally.
-/

namespace ModalMu

/-- How often a fixed point was entered, how many rounds it took in all and at most, and how often its
value was reset. -/
structure Tally where
  entries : Nat
  rounds : Nat
  maxRounds : Nat
  resets : Nat
deriving DecidableEq, Repr

namespace Tally

def zero : Tally := ⟨0, 0, 0, 0⟩

def enter (t : Tally) : Tally := { t with entries := t.entries + 1 }

def reset (t : Tally) : Tally := { t with resets := t.resets + 1 }

def converge (rounds : Nat) (t : Tally) : Tally :=
  { t with rounds := t.rounds + rounds, maxRounds := max t.maxRounds rounds }

end Tally

/-- The least or the greatest set of states. -/
def FixKind.extreme (u : Universe) : FixKind → StateSet
  | least => .none u
  | greatest => .all u

/-- A set moved to the extreme of its universe. -/
def FixKind.reset (s : StateSet) : FixKind → StateSet
  | least => s.clear
  | greatest => s.fill

/-- What is kept for a binder. -/
structure Cell where
  value : StateSet
  isOpen : Bool
  tally : Tally
deriving DecidableEq, Repr

/-- The cells of an evaluation, by slot, and its events so far. -/
structure Evaluation where
  cells : Array Cell
  log : Array Event
deriving DecidableEq, Repr

namespace Evaluation

/-- All cells at the extreme of their binder, closed and not counted yet. -/
def start (job : Job) : Evaluation where
  cells := (job.sentence.binders.toList.map fun b =>
    ⟨b.kind.extreme job.system.carrier, false, .zero⟩).toArray
  log := #[]

def cell (e : Evaluation) (slot : Nat) : Except Fault Cell := Fault.lookup e.cells slot

def value (e : Evaluation) (slot : Nat) : Except Fault StateSet := do
  let c ← e.cell slot
  .ok c.value

def isOpen (e : Evaluation) (slot : Nat) : Except Fault Bool := do
  let c ← e.cell slot
  .ok c.isOpen

def tally (e : Evaluation) (slot : Nat) : Except Fault Tally := do
  let c ← e.cell slot
  .ok c.tally

def tallies (e : Evaluation) : List Tally := e.cells.toList.map (·.tally)

/-- The evaluation with one cell changed. -/
def update (e : Evaluation) (slot : Nat) (f : Cell → Cell) : Evaluation :=
  { e with cells := e.cells.modify slot f }

def record (e : Evaluation) (event : Event) : Evaluation := { e with log := e.log.push event }

end Evaluation

end ModalMu
