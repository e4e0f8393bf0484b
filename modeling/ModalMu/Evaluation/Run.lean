import ModalMu.Evaluation.Basic
import ModalMu.Evaluation.Modality

/-!
# Evaluation of formulas

A formula is evaluated from the inside out. A fixed point goes through rounds: a round puts the latest
value into the cell and evaluates the body; the fixed point has come to rest when two rounds in a row
give the same set. The first round is compared with the extreme of the other kind, so that a single
round can be enough. On entry the policy decides which cells are reset.

Rounds are limited. A round after the first one depends only on the values in the cells, so with more
rounds than there are assignments of sets to cells some assignment has come back, and the rounds would
go on for ever.
-/

namespace ModalMu

namespace Evaluation

/-! ## Entering a fixed point -/

/-- Moves a cell to the extreme of a kind. -/
def resetCell (kind : FixKind) (e : Evaluation) (slot : Nat) : Except Fault Evaluation := do
  let e := e.record (.reset slot kind)
  let _ ← e.cell slot
  .ok (e.update slot fun c => { c with value := kind.reset c.value, tally := c.tally.reset })

/-- Resets the cell of a binder if it is of the given kind and a variable used inside it belongs to a
fixed point that is being evaluated. -/
def resetIfAffected (job : Job) (kind : FixKind) (e : Evaluation) (slot : Nat) :
    Except Fault Evaluation := do
  let binder ← Fault.lookup job.sentence.binders slot
  if binder.kind = kind then
    let affected ← binder.occurrences.anyM e.isOpen
    if affected then e.resetCell kind slot else .ok e
  else
    .ok e

/-- The resets that the policy asks for when a fixed point is entered. -/
def resetOnEntry (job : Job) (kind : FixKind) (slot : Nat) (around : Option FixKind)
    (e : Evaluation) : Except Fault Evaluation :=
  match job.policy with
  | .never => .ok e
  | .always => e.resetCell kind slot
  | .alternation =>
    if around = some kind.opposite then do
      let binder ← Fault.lookup job.sentence.binders slot
      (slot :: binder.descendants).foldlM (resetIfAffected job kind) e
    else
      .ok e

/-- Counts the entry of a fixed point and makes the resets. -/
def enter (job : Job) (kind : FixKind) (name : Char) (slot : Nat) (around : Option FixKind)
    (e : Evaluation) : Except Fault Evaluation := do
  let e := e.record (.entered kind name slot around)
  let _ ← e.cell slot
  resetOnEntry job kind slot around (e.update slot fun c => { c with tally := c.tally.enter })

/-! ## Rounds -/

/-- An evaluation of some formula: its set of states, and the evaluation afterwards. -/
abbrev Action := Evaluation → Except Fault (StateSet × Evaluation)

/-- A round: puts `current` into the cell and evaluates the body with the flag up. -/
def round (kind : FixKind) (name : Char) (slot : Nat) (body : Action) (number : Nat)
    (current : StateSet) : Action := fun e => do
  let (next, e) ← body (e.update slot fun c => { c with value := current, isOpen := true })
  let e := e.update slot fun c => { c with isOpen := false }
  .ok (next, e.record (.round kind name number next.size))

/-- Leaves a fixed point with its value. -/
def leave (kind : FixKind) (name : Char) (slot : Nat) (rounds : Nat) (value : StateSet)
    (e : Evaluation) : Evaluation :=
  (e.record (.converged kind name rounds value)).update slot fun c =>
    { c with value := value, tally := c.tally.converge rounds }

/-- Rounds from number `number` on, until one gives the set of the round before it. -/
def rounds (kind : FixKind) (name : Char) (slot : Nat) (body : Action) :
    (limit : Nat) → (number : Nat) → (previous current : StateSet) → Action
  | 0, _, _, _, _ => .error .divergence
  | limit + 1, number, previous, current, e => do
    let (next, e) ← round kind name slot body number current e
    let stable ← next.equal previous
    if stable then
      .ok (next, leave kind name slot number next e)
    else
      rounds kind name slot body limit (number + 1) next next e

/-! ## Formulas -/

/-- The set of states where a formula holds; `around` is the kind of the innermost fixed point around
it, and no fixed point takes more than `limit` rounds per entry. -/
def evalFormula (job : Job) (limit : Nat) : Formula → Option FixKind → Action
  | .top, _, e => .ok (.all job.system.carrier, e)
  | .bot, _, e => .ok (.none job.system.carrier, e)
  | .and l r, around, e => do
    let (s, e) ← evalFormula job limit l around e
    let (t, e) ← evalFormula job limit r around e
    let both ← s.inter t
    .ok (both, e)
  | .or l r, around, e => do
    let (s, e) ← evalFormula job limit l around e
    let (t, e) ← evalFormula job limit r around e
    let either ← s.union t
    .ok (either, e)
  | .not f, around, e => do
    let (s, e) ← evalFormula job limit f around e
    .ok (s.complement, e)
  | .diamond a f, around, e => do
    let (s, e) ← evalFormula job limit f around e
    let before ← job.system.diamond a s
    .ok (before, e)
  | .box a f, around, e => do
    let (s, e) ← evalFormula job limit f around e
    let before ← job.system.boxed a s
    .ok (before, e)
  | .fix kind name slot f, around, e => do
    let e ← enter job kind name slot around e
    let current ← e.value slot
    let other := kind.opposite.extreme job.system.carrier
    rounds kind name slot (evalFormula job limit f (some kind)) limit 1 other current e
  | .var _ slot, _, e => do
    let s ← e.value slot
    .ok (s, e)

/-- A number of rounds after which the cells have held some values twice. -/
def roundLimit (job : Job) (e : Evaluation) : Nat := Nat.pow 2 (job.system.numStates * e.cells.size) + 2

/-- Evaluates a formula over the cells. -/
def eval (job : Job) (f : Formula) (around : Option FixKind) : Action := fun e =>
  evalFormula job (roundLimit job e) f around e

/-- Evaluates the sentence of the job. -/
def run (job : Job) : Action := eval job job.sentence.root none

end Evaluation

end ModalMu
