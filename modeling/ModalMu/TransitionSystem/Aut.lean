import ModalMu.Event
import ModalMu.Text.Blank
import ModalMu.Text.Field
import ModalMu.Text.Line
import ModalMu.Text.Numeral
import ModalMu.TransitionSystem.Blueprint

/-!
# The `.aut` format

The first line `des (first, transitions, states)` is the header; every other line is a transition
`(from, "label", to)`. Blank lines do not count. The quotes around a label may be left out; a label may
hold commas, because the line is cut at its first and its last comma.

Reading stops at the first error: the header, the range of the first state, then line by line the form
and the range of the two states, and at last the number of transitions. Before it goes on to the lines it
needs room for the states that the header declares.
-/

namespace ModalMu

/-- Why a text is not a transition system. Lines are counted from one. -/
inductive AutError where
  | missingHeader
  | malformedHeader (line : Nat) (text : String)
  | malformedTransition (line : Nat) (text : String)
  | stateOutOfRange (line state numStates : Nat) (text : String)
  | initialOutOfRange (initial numStates : Nat)
  | transitionCount (declared found : Nat)
deriving DecidableEq, Repr

def AutError.message : AutError → String
  | missingHeader => "missing `des (...)` header"
  | malformedHeader line text =>
    s!"line {line}: malformed header `{text}`, expected `des (first, transitions, states)`"
  | malformedTransition line text =>
    s!"line {line}: malformed transition `{text}`, expected `(from, \"label\", to)`"
  | stateOutOfRange line state numStates text =>
    s!"line {line}: state {state} is outside 0..{numStates} in `{text}`"
  | initialOutOfRange initial numStates => s!"initial state {initial} is outside 0..{numStates}"
  | transitionCount declared found =>
    s!"header declares {declared} transitions, but {found} were found"

namespace Aut

open Text

/-- Why reading ends without a system: the text is refused, or there is no room for its states. -/
inductive Stop where
  | refused (e : AutError)
  | fault (f : Fault)
deriving DecidableEq, Repr

/-- A line with its number. -/
abbrev NumberedLine := List Char × Nat

/-- The lines that are not blank. -/
def numberedLines (s : List Char) : List NumberedLine :=
  ((lines s).zipIdx 1).filter fun line => !(trim line.1).isEmpty

/-- The text between the parentheses around it. -/
def tuple? (s : List Char) : Option (List Char) := do
  let opened ← stripStart? ['('] (trim s)
  stripLast? ')' opened

/-- What the header declares. -/
structure Header where
  initial : Nat
  numTransitions : Nat
  numStates : Nat
deriving DecidableEq, Repr

def header? (s : List Char) : Option Header := do
  let rest ← stripStart? ['d', 'e', 's'] (trim s)
  let body ← tuple? rest
  match (fields ',' body).map trim with
  | [first, second, third] =>
    let initial ← numeral? first
    let numTransitions ← numeral? second
    let numStates ← numeral? third
    some ⟨initial, numTransitions, numStates⟩
  | _ => none

/-- The text of a label, without its quotes if it has any; it must not be empty. -/
def labelText? (s : List Char) : Option (List Char) := do
  let text ← match s with
    | '"' :: quoted => stripLast? '"' quoted
    | bare => some bare
  if text.isEmpty then none else some text

def transition? (s : List Char) : Option Transition := do
  let body ← tuple? s
  let (first, rest) ← splitFirst? ',' body
  let (second, third) ← splitLast? ',' rest
  let source ← numeral? (trim first)
  let target ← numeral? (trim third)
  let text ← labelText? (trim second)
  some ⟨source, ⟨String.ofList text⟩, target⟩

/-- The transition on a line, between states of the declared number. -/
def readTransition (numStates : Nat) (entry : NumberedLine) : Except AutError Transition :=
  let (text, line) := entry
  match transition? text with
  | none => .error (.malformedTransition line (String.ofList text))
  | some t =>
    if numStates ≤ t.source then
      .error (.stateOutOfRange line t.source numStates (String.ofList text))
    else if numStates ≤ t.target then
      .error (.stateOutOfRange line t.target numStates (String.ofList text))
    else
      .ok t

/-- The blueprint with the transition on a line. -/
def addLine (numStates : Nat) (b : Blueprint) (entry : NumberedLine) : Except AutError Blueprint := do
  let t ← readTransition numStates entry
  .ok (b.addTransition t)

/-- The blueprint that the lines behind the header complete. -/
def readBody (h : Header) (body : List NumberedLine) : Except Stop Blueprint :=
  if h.numStates ≤ h.initial then
    .error (.refused (.initialOutOfRange h.initial h.numStates))
  else do
    let bare ← (Blueprint.allocate h.numStates).mapError .fault
    let b ← (body.foldlM (addLine h.numStates) (bare.startAt h.initial)).mapError .refused
    if b.transitions.size = h.numTransitions then
      .ok b
    else
      .error (.refused (.transitionCount h.numTransitions b.transitions.size))

/-- The header of a text and the lines behind it. -/
def readHeader (s : List Char) : Except AutError (Header × List NumberedLine) :=
  match numberedLines s with
  | [] => .error .missingHeader
  | (text, line) :: body =>
    match header? text with
    | none => .error (.malformedHeader line (String.ofList text))
    | some h => .ok (h, body)

/-- The transition system of a header and the lines behind it. -/
def assemble (tag : Nat) (h : Header) (body : List NumberedLine) : Except Stop TransitionSystem := do
  let blueprint ← readBody h body
  match blueprint.build tag with
  | .ok m => .ok m
  | .error _ => .error (.refused (.initialOutOfRange h.initial h.numStates))

/-- Reads a transition system and reports the header and the size of what was built. -/
def readLogged (tag : Nat) (s : List Char) : Logged (Except Stop TransitionSystem) :=
  match readHeader s with
  | .error e => ⟨[], .error (.refused e)⟩
  | .ok (h, body) =>
    let event := Event.header h.initial h.numTransitions h.numStates
    match assemble tag h body with
    | .error e => ⟨[event], .error e⟩
    | .ok m => ⟨[event, .built m.numStates m.numTransitions], .ok m⟩

/-- Reads a transition system; its universe gets the given tag. -/
def read (tag : Nat) (s : List Char) : Except Stop TransitionSystem := (readLogged tag s).outcome

/-! ## Writing -/

def writeHeader (m : TransitionSystem) : List Char :=
  ['d', 'e', 's', ' ', '('] ++ Nat.toDigits 10 m.initial ++ [',', ' '] ++
    Nat.toDigits 10 m.numTransitions ++ [',', ' '] ++ Nat.toDigits 10 m.numStates ++ [')', '\n']

def writeTransition (t : Transition) : List Char :=
  ['('] ++ Nat.toDigits 10 t.source ++ [',', ' ', '"'] ++ t.label.text.toList ++ ['"', ',', ' '] ++
    Nat.toDigits 10 t.target ++ [')', '\n']

/-- The header and a line for each transition. -/
def write (m : TransitionSystem) : List Char :=
  writeHeader m ++ m.transitions.toList.flatMap writeTransition

end Aut

end ModalMu
