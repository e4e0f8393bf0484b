import ModalMu.Registers
import ModalMu.StateSet.Edit

/-!
# Scripts on sets of states

A script is a list of steps: queries about the universes of a family, and commands on registers that
hold sets over these universes. A script goes on behind a step that is refused, with the registers that the
step left behind.
-/

namespace ModalMu

namespace StateSet

/-- A command on registers; its first argument names the register that it is about, and `u` is the
position of a universe in the family. The first ones give the register a new set, those from `unionWith` to
`contains` work on its set in place, and the others ask about it. -/
inductive Command where
  | all (r : String) (u : Nat)
  | none (r : String) (u : Nat)
  | ofList (r : String) (u : Nat) (indices : List Nat)
  | union (r x y : String)
  | inter (r x y : String)
  | diff (r x y : String)
  | complement (r x : String)
  | unionWith (r x : String)
  | interWith (r x : String)
  | diffWith (r x : String)
  | negate (r : String)
  | clear (r : String)
  | fill (r : String)
  | insert (r : String) (i : Nat)
  | erase (r : String) (i : Nat)
  | contains (r : String) (i : Nat)
  | isSubset (r x : String)
  | isSuperset (r x : String)
  | equal (r x : String)
  | names (r : String)
  | text (r : String)
deriving DecidableEq, Repr

/-- What a command answers, apart from its register. -/
inductive Answer where
  | unit
  | flag (b : Bool)
  | names (l : List String)
  | text (s : String)
deriving DecidableEq, Repr

namespace Command

/-- The register that a command is about. -/
def register : Command → String
  | .all r _ | .none r _ | .ofList r _ _ | .union r _ _ | .inter r _ _ | .diff r _ _ | .complement r _
  | .unionWith r _ | .interWith r _ | .diffWith r _ | .negate r | .clear r | .fill r | .insert r _
  | .erase r _ | .contains r _ | .isSubset r _ | .isSuperset r _ | .equal r _ | .names r | .text r => r

open Refusal Effect in
/-- What a command does. -/
def effect (family : Array Universe) (regs : Registers StateSet) : Command → Effect StateSet Answer
  | .all r u => assign regs r .unit do
    let u ← ofFault (Fault.lookup family u)
    .ok (StateSet.all u)
  | .none r u => assign regs r .unit do
    let u ← ofFault (Fault.lookup family u)
    .ok (StateSet.none u)
  | .ofList r u indices => assign regs r .unit do
    let u ← ofFault (Fault.lookup family u)
    ofFault (StateSet.ofList u indices)
  | .union r x y => assign regs r .unit do
    let s ← read regs x
    let t ← read regs y
    ofFault ((Edit.unionWith t).copied s)
  | .inter r x y => assign regs r .unit do
    let s ← read regs x
    let t ← read regs y
    ofFault ((Edit.interWith t).copied s)
  | .diff r x y => assign regs r .unit do
    let s ← read regs x
    let t ← read regs y
    ofFault ((Edit.diffWith t).copied s)
  | .complement r x => assign regs r .unit do
    let s ← read regs x
    ofFault (Edit.negate.copied s)
  | .unionWith r x => edit regs r do
    let t ← read regs x
    .ok ((fun _ => .unit) <$> Edit.unionWith t)
  | .interWith r x => edit regs r do
    let t ← read regs x
    .ok ((fun _ => .unit) <$> Edit.interWith t)
  | .diffWith r x => edit regs r do
    let t ← read regs x
    .ok ((fun _ => .unit) <$> Edit.diffWith t)
  | .negate r => edit regs r (.ok ((fun _ => .unit) <$> Edit.negate))
  | .clear r => edit regs r (.ok ((fun _ => .unit) <$> Edit.clear))
  | .fill r => edit regs r (.ok ((fun _ => .unit) <$> Edit.fill))
  | .insert r i => edit regs r (.ok (.flag <$> Edit.insert i))
  | .erase r i => edit regs r (.ok (.flag <$> Edit.erase i))
  | .contains r i => edit regs r (.ok (.flag <$> Edit.contains i))
  | .isSubset r x => ask regs r fun s => do
    let t ← read regs x
    let yes ← ofFault (s.isSubset t)
    .ok (.flag yes)
  | .isSuperset r x => ask regs r fun s => do
    let t ← read regs x
    let yes ← ofFault (s.isSuperset t)
    .ok (.flag yes)
  | .equal r x => ask regs r fun s => do
    let t ← read regs x
    let yes ← ofFault (s.equal t)
    .ok (.flag yes)
  | .names r => ask regs r fun s => do
    let names ← ofFault s.names
    .ok (.names names)
  | .text r => ask regs r fun s => .ok (.text s.text)

/-- The answer of a command and the set in its register. -/
def exec (family : Array Universe) (regs : Registers StateSet) (c : Command) :
    Except Refusal (Answer × StateSet) :=
  (c.effect family regs).1

/-- The registers after a command. -/
def apply (family : Array Universe) (regs : Registers StateSet) (c : Command) : Registers StateSet :=
  (c.effect family regs).2

end Command

/-! ## Queries about universes -/

/-- A question about universes, given by their positions in the family. -/
inductive Query where
  | same (u v : Nat)
  | size (u : Nat)
  | state (u i : Nat)
deriving DecidableEq, Repr

/-- What a query answers. -/
inductive Finding where
  | flag (b : Bool)
  | size (n : Nat) (empty : Bool)
  | state (s : State)
deriving DecidableEq, Repr

def Query.exec (family : Array Universe) : Query → Except Fault Finding
  | .same u v => do
    let u ← Fault.lookup family u
    let v ← Fault.lookup family v
    .ok (.flag (u.same v))
  | .size u => do
    let u ← Fault.lookup family u
    .ok (.size u.size u.isEmpty)
  | .state u i => do
    let u ← Fault.lookup family u
    let s ← u.state i
    .ok (.state s)

/-! ## Scripts -/

/-- A step of a script. -/
inductive Step where
  | query (q : Query)
  | command (c : Command)
deriving DecidableEq, Repr

/-- What a step gives: a finding, or the answer of a command with its register. -/
inductive Reply where
  | query (f : Finding)
  | command (a : Answer) (s : StateSet)
deriving DecidableEq, Repr

def Step.exec (family : Array Universe) (regs : Registers StateSet) : Step → Except Refusal Reply
  | .query q => do
    let f ← Refusal.ofFault (q.exec family)
    .ok (.query f)
  | .command c => do
    let (a, s) ← c.exec family regs
    .ok (.command a s)

/-- The registers after a step. -/
def Step.apply (family : Array Universe) (regs : Registers StateSet) : Step → Registers StateSet
  | .query _ => regs
  | .command c => c.apply family regs

/-- The outcomes of all steps of a script. -/
def runScript (family : Array Universe) :
    List Step → Registers StateSet → List (Except Refusal Reply)
  | [], _ => []
  | step :: rest, regs => step.exec family regs :: runScript family rest (step.apply family regs)

end StateSet

end ModalMu
