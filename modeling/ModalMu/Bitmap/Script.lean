import ModalMu.Bitmap.Edit
import ModalMu.Bitmap.Scan
import ModalMu.Registers

/-!
# Scripts on bitmaps

A script is a list of commands on registers that hold bitmaps. It goes on behind a command that is refused,
with the registers that the command left behind.
-/

namespace ModalMu

namespace Bitmap

/-- A command; its first argument names the register that it is about. -/
inductive Command where
  | empty (r : String) (width : Nat)
  | full (r : String) (width : Nat)
  | copy (r x : String)
  | insert (r : String) (i : Nat)
  | erase (r : String) (i : Nat)
  | contains (r : String) (i : Nat)
  | union (r x : String)
  | inter (r x : String)
  | diff (r x : String)
  | complement (r : String)
  | clear (r : String)
  | fill (r : String)
  | isSubset (r x : String)
  | equal (r x : String)
  | first (r : String) (n : Nat)
  | text (r : String)
deriving DecidableEq, Repr

/-- What a command answers, apart from its register. -/
inductive Answer where
  | unit
  | flag (b : Bool)
  | members (l : List Nat)
  | text (s : String)
deriving DecidableEq, Repr

namespace Command

/-- The register that a command is about. -/
def register : Command → String
  | .empty r _ | .full r _ | .copy r _ | .insert r _ | .erase r _ | .contains r _ | .union r _
  | .inter r _ | .diff r _ | .complement r | .clear r | .fill r | .isSubset r _ | .equal r _
  | .first r _ | .text r => r

open Refusal Effect in
/-- What a command does. -/
def effect (regs : Registers Bitmap) : Command → Effect Bitmap Answer
  | .empty r width => assign regs r .unit (.ok (Bitmap.empty width))
  | .full r width => assign regs r .unit (.ok (Bitmap.full width))
  | .copy r x => assign regs r .unit (read regs x)
  | .insert r i => edit regs r (.ok (.flag <$> Edit.insert i))
  | .erase r i => edit regs r (.ok (.flag <$> Edit.erase i))
  | .contains r i => edit regs r (.ok (.flag <$> Edit.contains i))
  | .union r x => edit regs r do
    let b ← read regs x
    .ok ((fun _ => .unit) <$> Edit.unionWith b)
  | .inter r x => edit regs r do
    let b ← read regs x
    .ok ((fun _ => .unit) <$> Edit.interWith b)
  | .diff r x => edit regs r do
    let b ← read regs x
    .ok ((fun _ => .unit) <$> Edit.diffWith b)
  | .complement r => edit regs r (.ok ((fun _ => .unit) <$> Edit.negate))
  | .clear r => edit regs r (.ok ((fun _ => .unit) <$> Edit.clear))
  | .fill r => edit regs r (.ok ((fun _ => .unit) <$> Edit.fill))
  | .isSubset r x => ask regs r fun a => do
    let b ← read regs x
    let yes ← ofFault (a.isSubset b)
    .ok (.flag yes)
  | .equal r x => ask regs r fun a => do
    let b ← read regs x
    .ok (.flag (a == b))
  | .first r n => ask regs r fun b => .ok (.members (b.scan.take n))
  | .text r => ask regs r fun b => .ok (.text b.text)

/-- The answer of a command and the value of its register. -/
def exec (regs : Registers Bitmap) (c : Command) : Except Refusal (Answer × Bitmap) := (c.effect regs).1

/-- The registers after a command. -/
def apply (regs : Registers Bitmap) (c : Command) : Registers Bitmap := (c.effect regs).2

end Command

/-- The outcomes of all commands of a script. -/
def runScript : List Command → Registers Bitmap → List (Except Refusal (Answer × Bitmap))
  | [], _ => []
  | c :: rest, regs => c.exec regs :: runScript rest (c.apply regs)

end Bitmap

end ModalMu
