import ModalMu.Fault
import ModalMu.Sentence.Parser

/-!
# Binders of a sentence

What the table of a sentence says can be read off its formula: `Formula.table` lists the fixed points
from left to right, each with the slots bound and used inside it. A sentence that was read has exactly
that table, its slots count up from zero, and each variable has the slot of the fixed point around it
that binds its name (`parse_wellFormed`).
-/

namespace ModalMu

namespace Formula

/-- The slots of the variables, from left to right. -/
def occurrences : Formula → List Nat
  | top | bot => []
  | and l r | or l r => l.occurrences ++ r.occurrences
  | not f | diamond _ f | box _ f | fix _ _ _ f => f.occurrences
  | var _ i => [i]

/-- The slots of the fixed points, each before those inside it. -/
def slots : Formula → List Nat
  | top | bot | var _ _ => []
  | and l r | or l r => l.slots ++ r.slots
  | not f | diamond _ f | box _ f => f.slots
  | fix _ _ i f => i :: f.slots

/-- The slots of the variables that are bound outside the formula. -/
def free : Formula → List Nat
  | top | bot => []
  | and l r | or l r => l.free ++ r.free
  | not f | diamond _ f | box _ f => f.free
  | fix _ _ i f => f.free.filter (· ≠ i)
  | var _ i => [i]

/-- The fixed points with the slots bound and used inside them, each before those inside it. -/
def table : Formula → List Binder
  | top | bot | var _ _ => []
  | and l r | or l r => l.table ++ r.table
  | not f | diamond _ f | box _ f => f.table
  | fix k x i f => ⟨x, k, i, f.slots, f.occurrences⟩ :: f.table

/-- Every variable has the slot of the fixed point around it with its name, and no fixed point binds a
name that is bound around it. -/
def Scoped : Parser.Scope → Formula → Prop
  | _, top | _, bot => True
  | scope, and l r | scope, or l r => l.Scoped scope ∧ r.Scoped scope
  | scope, not f | scope, diamond _ f | scope, box _ f => f.Scoped scope
  | scope, fix _ x i f => scope.lookup x = none ∧ f.Scoped ((x, i) :: scope)
  | scope, var x i => scope.lookup x = some i

@[simp] theorem map_slot_table (f : Formula) : f.table.map (·.slot) = f.slots := by
  induction f <;> simp_all [table, slots]

theorem mem_slots_of_mem_table {f : Formula} {b : Binder} (hb : b ∈ f.table) : b.slot ∈ f.slots := by
  rw [← map_slot_table]
  exact List.mem_map_of_mem hb

theorem mem_free_fix {k : FixKind} {x : Char} {i j : Nat} {f : Formula} :
    j ∈ (fix k x i f).free ↔ j ∈ f.free ∧ j ≠ i := by
  simp [free]

/-- What holds of the variables that a fixed point uses from outside, and of its own one, holds of those
that its body uses. -/
theorem forall_mem_free_of_fix {k : FixKind} {x : Char} {i : Nat} {f : Formula} {P : Nat → Prop}
    (hfree : ∀ j ∈ (fix k x i f).free, P j) (hi : P i) : ∀ j ∈ f.free, P j := by
  intro j hj
  by_cases hji : j = i
  · exact hji ▸ hi
  · exact hfree j (mem_free_fix.2 ⟨hj, hji⟩)

theorem mem_occurrences_of_mem_free {f : Formula} {i : Nat} (h : i ∈ f.free) :
    i ∈ f.occurrences := by
  induction f with
  | top | bot => simp [free] at h
  | var => simpa [free, occurrences] using h
  | and l r ihl ihr | or l r ihl ihr =>
    rcases List.mem_append.1 h with h | h
    · exact List.mem_append_left _ (ihl h)
    · exact List.mem_append_right _ (ihr h)
  | not f ih | diamond a f ih | box a f ih => exact ih h
  | fix k x j f ih => exact ih (mem_free_fix.1 h).1

/-- A variable is bound outside the formula or inside it. -/
theorem mem_free_or_mem_slots {f : Formula} {i : Nat} (h : i ∈ f.occurrences) :
    i ∈ f.free ∨ i ∈ f.slots := by
  induction f with
  | top | bot => simp [occurrences] at h
  | var => exact .inl h
  | and l r ihl ihr | or l r ihl ihr =>
    simp only [free, slots, List.mem_append]
    rcases List.mem_append.1 h with h | h
    · rcases ihl h with h | h <;> simp [h]
    · rcases ihr h with h | h <;> simp [h]
  | not f ih | diamond a f ih | box a f ih => exact ih h
  | fix k x j f ih =>
    rw [mem_free_fix, slots, List.mem_cons]
    by_cases hij : i = j
    · exact .inr (.inl hij)
    · rcases ih h with h | h
      · exact .inl ⟨h, hij⟩
      · exact .inr (.inr h)

/-- The variables that are bound outside a formula belong to the fixed points around it. -/
theorem Scoped.mem_of_mem_free {scope : Parser.Scope} {f : Formula} (hf : f.Scoped scope) {i : Nat}
    (hi : i ∈ f.free) : i ∈ scope.map (·.2) := by
  induction f generalizing scope with
  | top | bot => simp [free] at hi
  | var x j =>
    obtain rfl : i = j := by simpa [free] using hi
    obtain ⟨l₁, l₂, hscope, -⟩ := List.lookup_eq_some_iff.1 hf
    simp [hscope]
  | and l r ihl ihr | or l r ihl ihr =>
    rcases List.mem_append.1 hi with hi | hi
    · exact ihl hf.1 hi
    · exact ihr hf.2 hi
  | not f ih | diamond a f ih | box a f ih => exact ih hf hi
  | fix k x j f ih =>
    obtain ⟨hi, hij⟩ := mem_free_fix.1 hi
    have := ih hf.2 hi
    simpa [hij] using this

/-! ## Slots that do not clash -/

/-- No slot is used for two fixed points, nor for a variable that is bound outside. -/
structure Apart (f : Formula) : Prop where
  nodup : f.slots.Nodup
  notMem : ∀ i ∈ f.free, i ∉ f.slots

theorem Apart.body {k : FixKind} {x : Char} {i : Nat} {f : Formula} (h : (fix k x i f).Apart) :
    f.Apart where
  nodup := (List.nodup_cons.1 h.nodup).2
  notMem j hj := by
    by_cases hji : j = i
    · rw [hji]
      exact (List.nodup_cons.1 h.nodup).1
    · exact fun hmem => h.notMem j (mem_free_fix.2 ⟨hj, hji⟩) (List.mem_cons_of_mem _ hmem)

theorem Apart.slot_notMem {k : FixKind} {x : Char} {i : Nat} {f : Formula}
    (h : (fix k x i f).Apart) : i ∉ f.slots :=
  (List.nodup_cons.1 h.nodup).1

section Junction

variable {l r f : Formula}

/-- What two operands have to do with each other. -/
theorem Apart.of_append (hslots : f.slots = l.slots ++ r.slots) (hfree : f.free = l.free ++ r.free)
    (h : f.Apart) :
    (l.Apart ∧ r.Apart) ∧ (∀ i ∈ l.slots, i ∉ r.slots ∧ i ∉ r.free) ∧
      ∀ i ∈ r.slots, i ∉ l.slots ∧ i ∉ l.free := by
  have hnodup := h.nodup
  rw [hslots, List.nodup_append] at hnodup
  obtain ⟨hl, hr, hlr⟩ := hnodup
  have hout : ∀ i, i ∈ l.free ∨ i ∈ r.free → i ∉ l.slots ∧ i ∉ r.slots := by
    intro i hi
    have := h.notMem i (by rw [hfree]; exact List.mem_append.2 hi)
    rw [hslots, List.mem_append, not_or] at this
    exact this
  exact ⟨⟨⟨hl, fun i hi => (hout i (.inl hi)).1⟩, ⟨hr, fun i hi => (hout i (.inr hi)).2⟩⟩,
    fun i hi => ⟨fun hi' => hlr i hi i hi' rfl, fun hi' => (hout i (.inr hi')).1 hi⟩,
    fun i hi => ⟨fun hi' => hlr i hi' i hi rfl, fun hi' => (hout i (.inl hi')).2 hi⟩⟩

end Junction

end Formula

/-! ## Sentences -/

/-- The table of a sentence is the one of its formula. -/
structure Sentence.WellFormed (p : Sentence) : Prop where
  binders : p.binders.toList = p.root.table
  slots : p.root.slots = List.range p.binders.size
  wellScoped : p.root.Scoped []

namespace Sentence.WellFormed

variable {p : Sentence}

theorem free_eq_nil (h : p.WellFormed) : p.root.free = [] :=
  List.eq_nil_iff_forall_not_mem.2 fun _ hi => by simpa using h.wellScoped.mem_of_mem_free hi

theorem apart (h : p.WellFormed) : p.root.Apart where
  nodup := by rw [h.slots]; exact List.nodup_range
  notMem i hi := by simp [h.free_eq_nil] at hi

/-- The binder of a fixed point stands in the table at its slot. -/
theorem getElem?_binders (h : p.WellFormed) {b : Binder} (hb : b ∈ p.root.table) :
    p.binders[b.slot]? = some b := by
  obtain ⟨i, hi⟩ := List.mem_iff_getElem?.1 hb
  have hslot : p.root.slots[i]? = some b.slot := by
    rw [← Formula.map_slot_table, List.getElem?_map, hi]
    rfl
  rw [h.slots, List.getElem?_range (by simpa using (List.getElem?_eq_some_iff.1 hslot).1)] at hslot
  obtain rfl : i = b.slot := Option.some.inj hslot
  rw [← Array.getElem?_toList, h.binders]
  exact hi

end Sentence.WellFormed

/-! ## Reading -/

namespace Parser

/-- A piece of text was read as a formula with its own table, numbered from `next` on. -/
structure Piece.Faithful (scope : Scope) (next : Nat) (p : Piece) : Prop where
  binders : p.binders = p.formula.table
  occurrences : p.occurrences = p.formula.occurrences
  slots : p.formula.slots = List.range' next p.binders.length
  wellScoped : p.formula.Scoped scope

/-- What the formulas inside are read as. -/
def Reading.Faithful (read : Reading) : Prop :=
  ∀ {reach scope next s p}, read reach scope next s = .ok p → p.Faithful scope next

variable {read : Reading} {scope : Scope} {next : Nat} {s : List Char} {p : Piece}

theorem occurrence_faithful {x : Char} (h : occurrence scope x s = .ok p) :
    p.Faithful scope next := by
  unfold occurrence at h
  split at h
  · cases h
  · next slot hslot =>
    injection h with h
    subst h
    exact ⟨rfl, rfl, rfl, hslot⟩

theorem fixedPoint_faithful (hread : read.Faithful) {k : FixKind}
    (h : fixedPoint read k scope next s = .ok p) : p.Faithful scope next := by
  unfold fixedPoint at h
  split at h
  · cases h
  · next x rest =>
    split at h
    · obtain ⟨inside, -, h⟩ := bind_eq_ok_iff.1 h
      split at h
      · cases h
      · next hx =>
        obtain ⟨body, hbody, h⟩ := bind_eq_ok_iff.1 h
        injection h with h
        subst h
        have hb := hread hbody
        refine ⟨?_, hb.occurrences, ?_, ?_, hb.wellScoped⟩
        · simp only [Formula.table, hb.binders, hb.occurrences, Formula.map_slot_table]
        · simp only [Formula.slots, hb.slots, List.length_cons, List.range'_succ]
        · exact Option.not_isSome_iff_eq_none.1 hx
    · cases h

theorem keyword_faithful (hread : read.Faithful) (h : keyword read scope next s = .ok p) :
    p.Faithful scope next := by
  simp only [keyword] at h
  split at h
  · injection h with h
    subst h
    exact ⟨rfl, rfl, rfl, trivial⟩
  · split at h
    · injection h with h
      subst h
      exact ⟨rfl, rfl, rfl, trivial⟩
    · split at h
      · exact fixedPoint_faithful hread h
      · split at h
        · exact fixedPoint_faithful hread h
        · cases h

theorem operand_faithful (hread : read.Faithful) (h : operand read scope next s = .ok p) :
    p.Faithful scope next := by
  unfold operand at h
  split at h
  · cases h
  · next c rest =>
    split at h
    · obtain ⟨inside, hin, h⟩ := bind_eq_ok_iff.1 h
      obtain ⟨behind, -, h⟩ := bind_eq_ok_iff.1 h
      injection h with h
      subst h
      have hp := hread hin
      exact ⟨hp.binders, hp.occurrences, hp.slots, hp.wellScoped⟩
    split at h
    · obtain ⟨⟨a, behind⟩, -, h⟩ := bind_eq_ok_iff.1 h
      obtain ⟨body, hbody, h⟩ := bind_eq_ok_iff.1 h
      injection h with h
      subst h
      have hp := hread hbody
      exact ⟨hp.binders, hp.occurrences, hp.slots, hp.wellScoped⟩
    split at h
    · obtain ⟨⟨a, behind⟩, -, h⟩ := bind_eq_ok_iff.1 h
      obtain ⟨body, hbody, h⟩ := bind_eq_ok_iff.1 h
      injection h with h
      subst h
      have hp := hread hbody
      exact ⟨hp.binders, hp.occurrences, hp.slots, hp.wellScoped⟩
    split at h
    · obtain ⟨body, hbody, h⟩ := bind_eq_ok_iff.1 h
      injection h with h
      subst h
      have hp := hread hbody
      exact ⟨hp.binders, hp.occurrences, hp.slots, hp.wellScoped⟩
    split at h
    · exact occurrence_faithful h
    split at h
    · exact keyword_faithful hread h
    · cases h

/-- Two operands are numbered one after the other. -/
theorem Piece.Faithful.join {left right : Piece} (hl : left.Faithful scope next)
    (hr : right.Faithful scope (next + left.binders.length)) (j : Junction) :
    (Piece.mk (j.join left.formula right.formula) (left.binders ++ right.binders)
      (left.occurrences ++ right.occurrences) right.rest).Faithful scope next := by
  have hslots : left.formula.slots ++ right.formula.slots =
      List.range' next (left.binders ++ right.binders).length := by
    rw [hl.slots, hr.slots, List.length_append, List.range'_append_1]
  cases j with
  | and | or =>
    refine ⟨?_, ?_, hslots, hl.wellScoped, hr.wellScoped⟩
    · rw [hl.binders, hr.binders]
      rfl
    · rw [hl.occurrences, hr.occurrences]
      rfl

theorem formula_faithful (bound : Nat) : Reading.Faithful (formula bound) := by
  induction bound with
  | zero =>
    intro reach scope next s p h
    cases h
  | succ bound ih =>
    intro reach scope next s p h
    obtain ⟨left, hleft, h⟩ := bind_eq_ok_iff.1 h
    have hl := operand_faithful ih hleft
    cases reach with
    | operand =>
      injection h with h
      subst h
      exact hl
    | junction =>
      simp only at h
      split at h
      · injection h with h
        subst h
        exact hl
      · obtain ⟨right, hright, h⟩ := bind_eq_ok_iff.1 h
        injection h with h
        subst h
        exact hl.join (ih hright) _

end Parser

namespace Sentence

/-- A sentence that was read has the table of its formula. -/
theorem parse_wellFormed {src : String} {p : Sentence} (h : parse src = .ok p) : p.WellFormed := by
  unfold parse ofChars at h
  cases hs : Parser.sentence src.toList with
  | error failure =>
    rw [hs] at h
    cases h
  | ok p' =>
    rw [hs] at h
    obtain rfl : p' = p := Except.ok.inj h
    obtain ⟨whole, hwhole, h⟩ := bind_eq_ok_iff.1 hs
    split at h
    · injection h with h
      subst h
      have hw := Parser.formula_faithful _ hwhole
      refine ⟨hw.binders, ?_, hw.wellScoped⟩
      rw [hw.slots, List.range_eq_range', List.size_toArray]
    · cases h

end Sentence

end ModalMu
