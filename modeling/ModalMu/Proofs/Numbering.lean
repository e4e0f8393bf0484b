import ModalMu.Proofs.Binding

/-!
# Names and numbers

A formula is written with names, and its slots are given out when it is read. `WellScoped` is what has to
hold of the names alone, `renumber` gives out the slots, and `Alike` compares formulas up to them.
-/

namespace ModalMu

namespace Formula

variable {f g l r : Formula} {scope : Parser.Scope} {next : Nat}

/-- Every variable stands below a fixed point of its name, or is one of `names`, and no fixed point binds
a name that is bound around it. -/
def WellScoped : (names : List Char) → Formula → Prop
  | _, top | _, bot => True
  | names, and l r | names, or l r => l.WellScoped names ∧ r.WellScoped names
  | names, not f | names, diamond _ f | names, box _ f => f.WellScoped names
  | names, fix _ x _ f => x ∉ names ∧ f.WellScoped (x :: names)
  | names, var x _ => x ∈ names

instance decidableWellScoped : (names : List Char) → (f : Formula) → Decidable (f.WellScoped names)
  | _, top | _, bot => inferInstanceAs (Decidable True)
  | names, and l r | names, or l r =>
    have := decidableWellScoped names l
    have := decidableWellScoped names r
    inferInstanceAs (Decidable (l.WellScoped names ∧ r.WellScoped names))
  | names, not f | names, diamond _ f | names, box _ f => decidableWellScoped names f
  | names, fix _ x _ f =>
    have := decidableWellScoped (x :: names) f
    inferInstanceAs (Decidable (x ∉ names ∧ f.WellScoped (x :: names)))
  | names, var x _ => inferInstanceAs (Decidable (x ∈ names))

/-- The formula with its fixed points numbered from `next` on, each before those inside it, and each
variable with the number of the fixed point around it that binds its name. -/
def renumber : Parser.Scope → (next : Nat) → Formula → Formula
  | _, _, top => top
  | _, _, bot => bot
  | scope, next, and l r =>
    and (l.renumber scope next) (r.renumber scope (next + l.slots.length))
  | scope, next, or l r => or (l.renumber scope next) (r.renumber scope (next + l.slots.length))
  | scope, next, not f => not (f.renumber scope next)
  | scope, next, diamond a f => diamond a (f.renumber scope next)
  | scope, next, box a f => box a (f.renumber scope next)
  | scope, next, fix k x _ f => fix k x next (f.renumber ((x, next) :: scope) (next + 1))
  | scope, _, var x _ => var x ((scope.lookup x).getD 0)

theorem slots_renumber (f : Formula) (scope : Parser.Scope) (next : Nat) :
    (f.renumber scope next).slots = List.range' next f.slots.length := by
  induction f generalizing scope next with
  | top | bot | var => rfl
  | and l r ihl ihr | or l r ihl ihr =>
    simp only [renumber, slots, ihl, ihr, List.length_append, List.range'_append_1]
  | not f ih | diamond a f ih | box a f ih => exact ih scope next
  | fix k x i f ih => simp only [renumber, slots, ih, List.length_cons, List.range'_succ]

theorem lookup_eq_none_iff {scope : Parser.Scope} {x : Char} :
    scope.lookup x = none ↔ x ∉ scope.map (·.1) := by
  simp only [List.lookup_eq_none_iff, bne_iff_ne, List.mem_map, not_exists, not_and]
  exact ⟨fun h p hp heq => h p hp heq.symm, fun h p hp heq => h p hp heq.symm⟩

theorem lookup_getD {scope : Parser.Scope} {x : Char} (h : x ∈ scope.map (·.1)) :
    scope.lookup x = some ((scope.lookup x).getD 0) := by
  cases hx : scope.lookup x with
  | none => exact absurd h (lookup_eq_none_iff.1 hx)
  | some i => rfl

theorem Scoped.wellScoped (h : f.Scoped scope) : f.WellScoped (scope.map (·.1)) := by
  induction f generalizing scope with
  | top | bot => trivial
  | var x i =>
    refine Decidable.of_not_not fun hx => ?_
    rw [Scoped, lookup_eq_none_iff.2 hx] at h
    cases h
  | and l r ihl ihr | or l r ihl ihr => exact ⟨ihl h.1, ihr h.2⟩
  | not f ih | diamond a f ih | box a f ih => exact ih h
  | fix k x i f ih => exact ⟨lookup_eq_none_iff.1 h.1, ih h.2⟩

/-- Numbers that are already as they should be stay. -/
theorem Scoped.renumber_eq (h : f.Scoped scope) (hslots : f.slots = List.range' next f.slots.length) :
    f.renumber scope next = f := by
  induction f generalizing scope next with
  | top | bot => rfl
  | var x i => rw [renumber, show scope.lookup x = some i from h]; rfl
  | and l r ihl ihr | or l r ihl ihr =>
    have hsplit : l.slots ++ r.slots = List.range' next l.slots.length ++
        List.range' (next + l.slots.length) r.slots.length := by
      rw [List.range'_append_1, ← List.length_append]
      exact hslots
    obtain ⟨hl, hr⟩ := List.append_inj hsplit (by simp)
    rw [renumber, ihl h.1 hl, ihr h.2 hr]
  | not f ih | diamond a f ih | box a f ih => rw [renumber, ih h hslots]
  | fix k x i f ih =>
    rw [slots, List.length_cons, List.range'_succ] at hslots
    obtain ⟨hi, hbody⟩ := List.cons.inj hslots
    rw [renumber, ih (hi ▸ h.2) hbody, hi]

/-! ## Formulas that differ in their slots -/

/-- Equal up to the slots. -/
def Alike (f g : Formula) : Prop := ∀ scope next, f.renumber scope next = g.renumber scope next

theorem Alike.length_slots (h : f.Alike g) : f.slots.length = g.slots.length := by
  have hslots := congrArg slots (h [] 0)
  rw [slots_renumber, slots_renumber] at hslots
  simpa using congrArg List.length hslots

theorem Alike.join {l' r' : Formula} (hl : l.Alike l') (j : Parser.Junction) (hr : r.Alike r') :
    (j.join l r).Alike (j.join l' r') := by
  intro scope next
  cases j with
  | and | or => simp only [Parser.Junction.join, renumber, hl scope next, hl.length_slots, hr scope _]

theorem Alike.fix (h : f.Alike g) (k : FixKind) (x : Char) (i j : Nat) :
    (Formula.fix k x i f).Alike (.fix k x j g) := by
  intro scope next
  rw [renumber, renumber, h]

end Formula

end ModalMu
