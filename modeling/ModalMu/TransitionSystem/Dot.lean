import ModalMu.StateSet.Basic

/-!
# Drawing transition systems

A transition system as a graph in the DOT language: a node for each state, an edge for each transition,
and, if asked, an invisible node that points to the state to start in. A set of states can be filled
with a colour.
-/

namespace ModalMu

/-- How a graph looks. -/
structure DotStyle where
  nodeShape : String
  highlightColor : String
  leftToRight : Bool
  markInitial : Bool
deriving DecidableEq, Repr

/-- Circles from left to right, the first state marked, highlighted states light blue. -/
def DotStyle.standard : DotStyle := ⟨"circle", "lightblue", true, true⟩

namespace Dot

/-- The text with every `c` replaced by another text. -/
def replace (c : Char) (other s : List Char) : List Char :=
  s.flatMap fun d => if d = c then other else [d]

/-- A text as it stands between quotes: first the backslashes are doubled, then every quote gets a backslash
in front. -/
def escape (s : List Char) : List Char := replace '"' ['\\', '"'] (replace '\\' ['\\', '\\'] s)

/-- The attribute that shows a text. -/
def labelAttribute (text : String) : List Char :=
  "label=\"".toList ++ escape text.toList ++ ['"']

def node (style : DotStyle) (initial : Nat) (filled : Bool) (s : State) : List Char :=
  Nat.toDigits 10 s.id ++ " [".toList ++ labelAttribute s.name ++
    (if filled then ", style=filled, fillcolor=".toList ++ style.highlightColor.toList else []) ++
    (if style.markInitial && s.id == initial then ", peripheries=2".toList else []) ++ "];\n".toList

def edge (t : Transition) : List Char :=
  Nat.toDigits 10 t.source ++ " -> ".toList ++ Nat.toDigits 10 t.target ++ " [".toList ++
    labelAttribute t.label.text ++ "];\n".toList

/-- Whether a state is highlighted. -/
def isHighlighted (highlight : Option StateSet) (s : State) : Except Fault Bool :=
  match highlight with
  | none => .ok false
  | some set => set.contains s.id

def nodes (style : DotStyle) (m : TransitionSystem) (highlight : Option StateSet) :
    Except Fault (List (List Char)) :=
  m.carrier.states.toList.mapM fun s => do
    let filled ← isHighlighted highlight s
    .ok (node style m.initial filled s)

/-- The graph of a transition system; the highlighted states have to be states of it. -/
def write (style : DotStyle) (m : TransitionSystem) (highlight : Option StateSet) :
    Except Fault (List Char) :=
  if highlight.all (·.carrier.same m.carrier) then do
    let nodes ← nodes style m highlight
    let marked := style.markInitial && 0 < m.numStates
    .ok ("digraph \x7b\n".toList ++
      (if style.leftToRight then "rankdir=LR;\n".toList else []) ++
      "node [shape=".toList ++ style.nodeShape.toList ++ "];\n".toList ++
      (if marked then "init [shape=point, style=invis];\n".toList else []) ++
      nodes.flatten ++
      (if marked then "init -> ".toList ++ Nat.toDigits 10 m.initial ++ ";\n".toList else []) ++
      m.transitions.toList.flatMap edge ++ "\x7d\n".toList)
  else
    .error .foreignHighlight

end Dot

end ModalMu
