import ModalMu.Edit

/-!
# Registers

Values under names, for scripts of set operations. A command of a script is refused if it names a
register that holds nothing or if its operation faults. Commands are of three kinds: they give a register a
new value (`Effect.assign`), work on its value in place (`Effect.edit`), or ask about it (`Effect.ask`).
Whatever a command did to the registers before it was refused stays done.
-/

namespace ModalMu

/-- Values under names; the first entry of a name counts. -/
structure Registers (α : Type) where
  entries : List (String × α)
deriving Repr

namespace Registers

variable {α : Type}

def empty : Registers α := ⟨[]⟩

def get? (r : Registers α) (name : String) : Option α := r.entries.lookup name

/-- The registers with a new value under a name. -/
def set (r : Registers α) (name : String) (a : α) : Registers α :=
  ⟨(name, a) :: r.entries.filter fun entry => entry.1 != name⟩

@[simp] theorem get?_empty (name : String) : (empty : Registers α).get? name = none := rfl

theorem lookup_filter_ne {name other : String} (h : other ≠ name) (entries : List (String × α)) :
    (entries.filter fun entry => entry.1 != name).lookup other = entries.lookup other := by
  induction entries with
  | nil => rfl
  | cons entry entries ih =>
    obtain ⟨key, a⟩ := entry
    by_cases hk : key = name
    · subst hk
      have hne : (other == key) = false := by simpa using h
      simp [ih, List.lookup_cons, hne]
    · cases ho : other == key <;> simp [hk, ih, List.lookup_cons, ho]

theorem get?_set (r : Registers α) (name other : String) (a : α) :
    (r.set name a).get? other = if other = name then some a else r.get? other := by
  by_cases h : other = name
  · simp [set, get?, h]
  · have hne : (other == name) = false := by simpa using h
    simp [set, get?, List.lookup_cons, hne, h, lookup_filter_ne h]

end Registers

/-- Why a command is not carried out. -/
inductive Refusal where
  | unknown (name : String)
  | fault (f : Fault)
deriving DecidableEq, Repr

namespace Refusal

/-- The result of an operation on registers. -/
def ofFault {α : Type} : Except Fault α → Except Refusal α
  | .ok a => .ok a
  | .error f => .error (.fault f)

/-- The value of a register that has to hold one. -/
def read {α : Type} (r : Registers α) (name : String) : Except Refusal α :=
  match r.get? name with
  | some a => .ok a
  | none => .error (.unknown name)

end Refusal

/-- The answer of a command with the value in its register, or why it is refused, and the registers that it
leaves behind. -/
abbrev Effect (σ β : Type) := Except Refusal (β × σ) × Registers σ

namespace Effect

variable {σ α β : Type} (regs : Registers σ) (r : String)

/-- A register is given a new value, once there is one. -/
def assign (answer : β) : Except Refusal σ → Effect σ β
  | .ok s => (.ok (answer, s), regs.set r s)
  | .error e => (.error e, regs)

/-- The value in a register is edited. The register has what the edit leaves behind, whatever its outcome. -/
def edit (change : Except Refusal (Edit σ β)) : Effect σ β :=
  match Refusal.read regs r, change with
  | .ok s, .ok change =>
    let (outcome, s) := change.on s
    ((Refusal.ofFault outcome).map (·, s), regs.set r s)
  | .error e, _ => (.error e, regs)
  | _, .error e => (.error e, regs)

/-- Something is asked about the value in a register. -/
def ask (question : σ → Except Refusal β) : Effect σ β :=
  (do
    let s ← Refusal.read regs r
    let a ← question s
    .ok (a, s), regs)

/-- After a refusal every register is as it was. Otherwise the register `r` has the value that goes with the
answer, and all others are as they were. -/
def Settles (regs : Registers σ) (r : String) : Effect σ β → Prop
  | (.ok (_, s), regs') => ∀ name, regs'.get? name = if name = r then some s else regs.get? name
  | (.error _, regs') => ∀ name, regs'.get? name = regs.get? name

end Effect

end ModalMu
