import ModalMu.Bitmap.Script
import ModalMu.StateSet.Script

/-!
# All or nothing

A command that is refused leaves every register as it was. For a command that makes a new value or asks about
one there is little to show, because it writes nothing before it has its answer. A command that works in
place keeps whatever its edit did before a fault, so it is the order of things inside the edit that counts:
universes, widths and indices are looked at before the first word is written, and after that nothing can
fault. This is what the `on_` lemmas of the edits say. Main statements: `Bitmap.Command.settles_effect` and
`StateSet.Command.settles_effect`.

The equations for the answers (`fst_assign`, `fst_edit`, `fst_edit_with`) forget what is left behind.
-/

namespace ModalMu

theorem Refusal.read_eq_ok_iff {σ : Type} {regs : Registers σ} {name : String} {s : σ} :
    read regs name = .ok s ↔ regs.get? name = some s := by
  unfold read
  split <;> simp_all

namespace Effect

open Edit (atomic)

variable {σ α β : Type} {regs : Registers σ} {r : String}

/-! ## Registers -/

theorem settles_assign (answer : β) (x : Except Refusal σ) :
    Settles regs r (assign regs r answer x) := by
  cases x with
  | ok s => exact fun name => regs.get?_set r name s
  | error e => exact fun _ => rfl

/-- A register that is given the value that it has. -/
theorem get?_eq_ite {s : σ} (h : regs.get? r = some s) (name : String) :
    regs.get? name = if name = r then some s else regs.get? name := by
  split
  · next hname => rw [hname, h]
  · rfl

theorem settles_ask (question : σ → Except Refusal β) : Settles regs r (ask regs r question) := by
  unfold ask
  cases hread : Refusal.read regs r with
  | error e => exact fun _ => rfl
  | ok s =>
    show Settles regs r (question s >>= fun a => .ok (a, s), regs)
    cases question s with
    | error e => exact fun _ => rfl
    | ok a => exact get?_eq_ite (Refusal.read_eq_ok_iff.1 hread)

/-- An edit that is all or nothing. -/
theorem settles_edit {change : Except Refusal (Edit σ β)}
    (h : ∀ s c, regs.get? r = some s → change = .ok c → ∃ x, c.on s = atomic s x) :
    Settles regs r (edit regs r change) := by
  unfold edit
  cases hread : Refusal.read regs r with
  | error e => exact fun _ => rfl
  | ok s =>
    have hs := Refusal.read_eq_ok_iff.1 hread
    cases change with
    | error e => exact fun _ => rfl
    | ok c =>
      obtain ⟨x, hx⟩ := h s c hs rfl
      simp only [hx]
      cases x with
      | ok p => exact fun name => regs.get?_set r name p.2
      | error f =>
        -- The register is given what the edit left behind, and that is what it had.
        intro name
        exact (regs.get?_set r name s).trans (get?_eq_ite hs name).symm

section Invariant

variable {P : σ → Prop} (hregs : ∀ name s, regs.get? name = some s → P s)

include hregs

/-- An edit with nothing but its own register. -/
theorem settles_edit_alone {change : Edit σ α} (g : α → β)
    (h : ∀ s, P s → ∃ x, change.on s = atomic s x) :
    Settles regs r (edit regs r (.ok (g <$> change))) := by
  refine settles_edit fun s c hs hc => ?_
  cases hc
  obtain ⟨x, hx⟩ := h s (hregs r s hs)
  exact ⟨_, Edit.on_map_of_atomic hx g⟩

/-- An edit with the value in a second register. -/
theorem settles_edit_with (name : String) {change : σ → Edit σ α} (g : α → β)
    (h : ∀ s t, P s → P t → ∃ x, (change t).on s = atomic s x) :
    Settles regs r (edit regs r do
      let t ← Refusal.read regs name
      .ok (g <$> change t)) := by
  refine settles_edit fun s c hs hc => ?_
  obtain ⟨t, ht, hc⟩ := bind_eq_ok_iff.1 hc
  cases hc
  obtain ⟨x, hx⟩ := h s t (hregs r s hs) (hregs name t (Refusal.read_eq_ok_iff.1 ht))
  exact ⟨_, Edit.on_map_of_atomic hx g⟩

end Invariant

/-! ## Answers -/

theorem fst_assign (answer : β) (x : Except Refusal σ) :
    (assign regs r answer x).1 = x >>= fun s => .ok (answer, s) := by
  cases x <;> rfl

theorem fst_edit (g : α → β) (change : Edit σ α) :
    (edit regs r (.ok (g <$> change))).1 = (do
      let s ← Refusal.read regs r
      let a ← Refusal.ofFault (change.result s)
      .ok (g a.1, a.2)) := by
  unfold edit
  cases Refusal.read regs r with
  | error e => rfl
  | ok s =>
    simp only [Edit.on_map]
    show _ = Refusal.ofFault (change.result s) >>= _
    unfold Edit.result
    rcases change.on s with ⟨_ | _, _⟩ <;> rfl

theorem fst_edit_with (name : String) (change : σ → Edit σ Unit) (answer : β) :
    (edit regs r do
      let t ← Refusal.read regs name
      .ok ((fun _ => answer) <$> change t)).1 = (do
      let s ← Refusal.read regs r
      let t ← Refusal.read regs name
      let s ← Refusal.ofFault ((change t).copied s)
      .ok (answer, s)) := by
  cases hname : Refusal.read regs name with
  | error e =>
    unfold edit
    cases Refusal.read regs r <;> rfl
  | ok t =>
    refine (fst_edit _ (change t)).trans ?_
    cases Refusal.read regs r with
    | error e => rfl
    | ok s =>
      show Refusal.ofFault ((change t).result s) >>= _ = Refusal.ofFault ((change t).copied s) >>= _
      unfold Edit.copied
      cases (change t).result s <;> rfl

/-- What a refusal or an answer says of the registers, one by one. -/
theorem Settles.get?_of_ok {p : Effect σ β} (h : Settles regs r p) {a : β} {s : σ} (hp : p.1 = .ok (a, s))
    (name : String) : p.2.get? name = if name = r then some s else regs.get? name := by
  obtain ⟨outcome, regs'⟩ := p
  obtain rfl : outcome = .ok (a, s) := hp
  exact h name

theorem Settles.get?_of_error {p : Effect σ β} (h : Settles regs r p) {e : Refusal} (hp : p.1 = .error e)
    (name : String) : p.2.get? name = regs.get? name := by
  obtain ⟨outcome, regs'⟩ := p
  obtain rfl : outcome = .error e := hp
  exact h name

end Effect

/-! ## Commands -/

open Effect

/-- Commands on well formed bitmaps are all or nothing. -/
theorem Bitmap.Command.settles_effect {regs : Registers Bitmap}
    (hregs : ∀ name b, regs.get? name = some b → b.WellFormed) (c : Command) :
    Settles regs c.register (c.effect regs) := by
  cases c with
  | empty r width => exact settles_assign _ (.ok (Bitmap.empty width))
  | full r width => exact settles_assign _ (.ok (Bitmap.full width))
  | copy r x => exact settles_assign _ (Refusal.read regs x)
  | isSubset | equal | first | text => exact settles_ask _
  | insert r i => exact settles_edit_alone hregs _ fun _ hb => ⟨_, Edit.on_insert hb i⟩
  | erase r i => exact settles_edit_alone hregs _ fun _ hb => ⟨_, Edit.on_erase hb i⟩
  | contains r i => exact settles_edit_alone hregs _ fun _ hb => ⟨_, Edit.on_contains hb i⟩
  | union r x | inter r x | diff r x =>
    exact settles_edit_with hregs x _ fun _ _ hb hc => ⟨_, Edit.on_combine hb hc _⟩
  | complement r => exact settles_edit_alone hregs _ fun b _ => ⟨.ok ((), b.complement), rfl⟩
  | clear r => exact settles_edit_alone hregs _ fun b _ => ⟨.ok ((), b.clear), rfl⟩
  | fill r => exact settles_edit_alone hregs _ fun b _ => ⟨.ok ((), b.fill), rfl⟩

/-- Commands on well formed sets are all or nothing. -/
theorem StateSet.Command.settles_effect {family : Array Universe} {regs : Registers StateSet}
    (hregs : ∀ name s, regs.get? name = some s → s.bits.WellFormed) (c : Command) :
    Settles regs c.register (c.effect family regs) := by
  cases c with
  | all | none | ofList | union | inter | diff | complement => exact settles_assign _ _
  | isSubset | isSuperset | equal | names | text => exact settles_ask _
  | unionWith r x | interWith r x | diffWith r x =>
    exact settles_edit_with hregs x _ fun _ _ hs ht => ⟨_, Edit.on_combine hs ht _⟩
  | negate r => exact settles_edit_alone hregs _ fun s _ => ⟨.ok ((), s.complement), rfl⟩
  | clear r => exact settles_edit_alone hregs _ fun s _ => ⟨.ok ((), s.clear), rfl⟩
  | fill r => exact settles_edit_alone hregs _ fun s _ => ⟨.ok ((), s.fill), rfl⟩
  | insert r i => exact settles_edit_alone hregs _ fun _ hs => ⟨_, Edit.on_insert hs i⟩
  | erase r i => exact settles_edit_alone hregs _ fun _ hs => ⟨_, Edit.on_erase hs i⟩
  | contains r i => exact settles_edit_alone hregs _ fun _ hs => ⟨_, Edit.on_contains hs i⟩

end ModalMu
