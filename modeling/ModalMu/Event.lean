import ModalMu.Formula.Printer
import ModalMu.ResetPolicy
import ModalMu.StateSet.Basic

/-!
# Events

What reading, building and checking report while they work. Every event has a level and a message.
-/

namespace ModalMu

/-- Something that happened. -/
inductive Event where
  /-- The header of a model was read. -/
  | header (initial transitions states : Nat)
  /-- A transition system was built. -/
  | built (states transitions : Nat)
  /-- A sentence was read. -/
  | parsed (binders nodes : Nat)
  /-- A check begins. -/
  | started (formula : Formula) (binders depth : Nat) (policy : ResetPolicy)
  /-- A fixed point is entered; `around` is the kind of the innermost fixed point around it. -/
  | entered (kind : FixKind) (name : Char) (slot : Nat) (around : Option FixKind)
  /-- The value of a fixed point is reset. -/
  | reset (slot : Nat) (kind : FixKind)
  /-- A round of a fixed point is over. -/
  | round (kind : FixKind) (name : Char) (number states : Nat)
  /-- A fixed point has come to rest. -/
  | converged (kind : FixKind) (name : Char) (rounds : Nat) (value : StateSet)
  /-- A check is over. -/
  | finished (satisfying states rounds : Nat)
deriving DecidableEq, Repr

namespace Event

/-- How a surrounding is named. -/
def aroundText : Option FixKind → String
  | none => "None"
  | some .least => "Mu"
  | some .greatest => "Nu"

/-- The extreme value that a fixed point of a kind starts from. -/
def extremeText : FixKind → String
  | .least => "bottom"
  | .greatest => "top"

/-- Rounds are traced, everything else is for debugging. -/
def level : Event → String
  | round .. => "TRACE"
  | _ => "DEBUG"

def message : Event → String
  | header initial transitions states =>
    s!"from_aldebaran: initial = {initial}, transitions = {transitions}, states = {states}"
  | built states transitions => s!"build: {states} states, {transitions} transitions"
  | parsed binders nodes => s!"parse: {binders} binders, {nodes} nodes"
  | started formula binders depth policy =>
    s!"check: {formula.render} (binders = {binders}, alternation depth = {depth}, reset = {policy.text})"
  | entered kind name slot around =>
    s!"enter {kind.keyword} {name} (#{slot}), surrounding = {aroundText around}"
  | reset slot kind => s!"reset #{slot} to {extremeText kind}"
  | round kind name number states =>
    s!"{kind.keyword} {name} iteration {number}: {states} states"
  | converged kind name rounds value =>
    s!"{kind.keyword} {name} converged after {rounds} iterations: {value.text}"
  | finished satisfying states rounds =>
    s!"check: {satisfying} of {states} states satisfy the formula ({rounds} iterations)"

/-- The line of a log. -/
def line (e : Event) : String := s!"{e.level} {e.message}"

end Event

/-- An outcome with the events on the way to it. -/
structure Logged (α : Type) where
  log : List Event
  outcome : α
deriving Repr

end ModalMu
