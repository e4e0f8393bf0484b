/-!
# Faults

An operation on sets of states, or an evaluation, either gives its answer or stops with a fault.
-/

namespace ModalMu

/-- Why an operation stops without an answer. -/
inductive Fault where
  /-- A bit is asked for that the width does not cover. -/
  | bitOutOfRange (index width : Nat)
  /-- Two bitmaps of different widths are combined. -/
  | widthMismatch (left right : Nat)
  /-- Two sets over different universes are combined. -/
  | universeMismatch
  /-- The states to be highlighted are not states of the system that is drawn. -/
  | foreignHighlight
  /-- A table has no entry with this index. -/
  | indexOutOfBounds (size index : Nat)
  /-- A table is asked for that is larger than any table can be. -/
  | capacityOverflow
  /-- The rounds of a fixed point never come to rest. -/
  | divergence
deriving DecidableEq, Repr

namespace Fault

def message : Fault → String
  | bitOutOfRange index width => s!"bit index {index} out of range for width {width}"
  | widthMismatch left right =>
    s!"assertion `left == right` failed: bit sets of different width cannot be combined\n  left: {left}\n right: {right}"
  | universeMismatch => "state sets over different universes cannot be combined"
  | foreignHighlight => "highlighted states belong to a different universe"
  | indexOutOfBounds size index => s!"index out of bounds: the len is {size} but the index is {index}"
  | capacityOverflow => "capacity overflow"
  | divergence => "the iteration of a fixed point does not come to rest"

end Fault

/-- A computation in two steps gives its answer exactly if both steps do. -/
theorem bind_eq_ok_iff {ε α β : Type} {x : Except ε α} {f : α → Except ε β} {b : β} :
    x >>= f = .ok b ↔ ∃ a, x = .ok a ∧ f a = .ok b := by
  cases x with
  | error e => exact ⟨nofun, nofun⟩
  | ok a => exact ⟨fun h => ⟨a, rfl, h⟩, fun ⟨_, h, hf⟩ => by injection h with h; rw [h]; exact hf⟩

/-- Another name for its errors does not change what a computation gives. -/
theorem mapError_eq_ok_iff {ε ε' α : Type} {x : Except ε α} {f : ε → ε'} {a : α} :
    x.mapError f = .ok a ↔ x = .ok a := by
  constructor <;> intro h <;> cases x <;> cases h <;> rfl

/-- The entry of a table, or the fault that there is none. -/
def Fault.lookup {α : Type} (table : Array α) (index : Nat) : Except Fault α :=
  match table[index]? with
  | some a => .ok a
  | none => .error (.indexOutOfBounds table.size index)

theorem Fault.lookup_eq_ok_iff {α : Type} {table : Array α} {index : Nat} {a : α} :
    Fault.lookup table index = .ok a ↔ table[index]? = some a := by
  unfold Fault.lookup
  split <;> simp_all

theorem Fault.lt_size_of_lookup {α : Type} {table : Array α} {index : Nat} {a : α}
    (h : Fault.lookup table index = .ok a) : index < table.size :=
  (Array.getElem?_eq_some_iff.1 (Fault.lookup_eq_ok_iff.1 h)).1

theorem Fault.lookup_eq_error_iff {α : Type} {table : Array α} {index : Nat} {f : Fault} :
    Fault.lookup table index = .error f ↔
      table.size ≤ index ∧ f = .indexOutOfBounds table.size index := by
  unfold Fault.lookup
  split
  · next a h =>
    obtain ⟨hlt, -⟩ := Array.getElem?_eq_some_iff.1 h
    simp only [reduceCtorEq, false_iff, not_and]
    omega
  · next h =>
    have hle := Array.getElem?_eq_none_iff.1 h
    simp [hle, eq_comm]

end ModalMu
