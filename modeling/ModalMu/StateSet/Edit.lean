import ModalMu.Bitmap.Edit
import ModalMu.StateSet.Basic

/-!
# Sets of states in place

The operations on sets of states as edits. An edit with a second set looks at the universes first, and then
edits the bitmap. On well formed sets each edit does what the operation on values does, and a fault leaves
the set as it was (`on_insert`, `on_erase`, `on_unionWith`, `on_interWith`, `on_diffWith`).
-/

namespace ModalMu

namespace StateSet.Edit

/-- An edit of the bitmap; the bitmap that it leaves behind is the one of the set from then on. -/
def onBits {α : Type} (edit : Edit Bitmap α) : Edit StateSet α :=
  ExceptT.mk fun s =>
    let (outcome, bits) := edit.on s.bits
    (outcome, { s with bits })

/-- The other set has to be over the same universe. -/
def checkUniverse (t : StateSet) : Edit StateSet Unit := do
  let s ← get
  if s.carrier.same t.carrier then pure () else throw .universeMismatch

def contains (i : Nat) : Edit StateSet Bool := onBits (Bitmap.Edit.contains i)

def insert (i : Nat) : Edit StateSet Bool := onBits (Bitmap.Edit.insert i)

def erase (i : Nat) : Edit StateSet Bool := onBits (Bitmap.Edit.erase i)

def unionWith (t : StateSet) : Edit StateSet Unit := do
  checkUniverse t
  onBits (Bitmap.Edit.unionWith t.bits)

def interWith (t : StateSet) : Edit StateSet Unit := do
  checkUniverse t
  onBits (Bitmap.Edit.interWith t.bits)

def diffWith (t : StateSet) : Edit StateSet Unit := do
  checkUniverse t
  onBits (Bitmap.Edit.diffWith t.bits)

def negate : Edit StateSet Unit := onBits Bitmap.Edit.negate

def clear : Edit StateSet Unit := onBits Bitmap.Edit.clear

def fill : Edit StateSet Unit := onBits Bitmap.Edit.fill

/-! ## What the edits do -/

open ModalMu.Edit

variable {s t : StateSet}

theorem on_onBits {α : Type} (edit : Edit Bitmap α) (s : StateSet) :
    on (onBits edit) s = ((on edit s.bits).1, { s with bits := (on edit s.bits).2 }) := rfl

theorem on_contains (hs : s.bits.WellFormed) (i : Nat) :
    on (contains i) s = atomic s ((s.contains i).map (·, s)) := by
  rw [contains, on_onBits, Bitmap.Edit.on_contains hs, StateSet.contains]
  cases s.bits.contains i with
  | ok found => rfl
  | error f => rfl

theorem on_insert (hs : s.bits.WellFormed) (i : Nat) : on (insert i) s = atomic s (s.insert i) := by
  rw [insert, on_onBits, Bitmap.Edit.on_insert hs, StateSet.insert]
  cases s.bits.insert i with
  | ok r => rfl
  | error f => rfl

theorem on_erase (hs : s.bits.WellFormed) (i : Nat) : on (erase i) s = atomic s (s.erase i) := by
  rw [erase, on_onBits, Bitmap.Edit.on_erase hs, StateSet.erase]
  cases s.bits.erase i with
  | ok r => rfl
  | error f => rfl

theorem on_checkUniverse (s t : StateSet) : on (checkUniverse t) s =
    (if s.carrier.same t.carrier then .ok () else .error .universeMismatch, s) := by
  rw [checkUniverse, on_bind_of_ok (on_get s)]
  split <;> rfl

/-- Two universes are found before the bitmap is touched. -/
theorem on_mixed {α : Type} (h : s.carrier.same t.carrier = false) (edit : Edit Bitmap α) :
    on (do checkUniverse t; onBits edit) s = (.error .universeMismatch, s) := by
  have hcheck := on_checkUniverse s t
  rw [h] at hcheck
  exact on_bind_of_error hcheck

/-- An edit with a second set. -/
theorem on_combine (hs : s.bits.WellFormed) (ht : t.bits.WellFormed) (f : UInt64 → UInt64 → UInt64) :
    on (do checkUniverse t; onBits (Bitmap.Edit.combine f t.bits)) s =
      atomic s (Except.map ((), ·) do
        let bits ← StateSet.combine (Bitmap.zip f) s t
        .ok { s with bits }) := by
  unfold StateSet.combine
  cases hsame : s.carrier.same t.carrier with
  | false =>
    rw [on_mixed hsame]
    rfl
  | true =>
    have hcheck := on_checkUniverse s t
    rw [hsame] at hcheck
    rw [on_bind_of_ok hcheck, on_onBits, Bitmap.Edit.on_combine hs ht]
    cases Bitmap.zip f s.bits t.bits with
    | ok bits => rfl
    | error e => rfl

theorem on_unionWith (hs : s.bits.WellFormed) (ht : t.bits.WellFormed) :
    on (unionWith t) s = atomic s ((s.union t).map ((), ·)) := on_combine hs ht _

theorem on_interWith (hs : s.bits.WellFormed) (ht : t.bits.WellFormed) :
    on (interWith t) s = atomic s ((s.inter t).map ((), ·)) := on_combine hs ht _

theorem on_diffWith (hs : s.bits.WellFormed) (ht : t.bits.WellFormed) :
    on (diffWith t) s = atomic s ((s.diff t).map ((), ·)) := on_combine hs ht _

end StateSet.Edit

end ModalMu
