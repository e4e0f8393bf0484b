import ModalMu.Proofs.Execution
import ModalMu.Proofs.Places
import ModalMu.Proofs.RegionEvaluation

/-!
# What an evaluation leaves alone

Evaluating a formula changes the cells of the fixed points inside it and no others, and leaves these
closed (`eval_confined`). The cells may hold anything before, and any flags may be up.

Only the entry of a fixed point reaches into other cells than its own. `enter_cellwise` says what it does
to each cell; the rounds then put values into one cell and evaluate the body.
-/

namespace ModalMu

namespace Formula

variable {f : Formula} {i : Nat}

theorem mem_slots_iff : i ∈ f.slots ↔ ∃ k x body, fix k x i body ∈ f.subformulas := by
  rw [← filterMap_boundSlot?_subformulas, List.mem_filterMap]
  constructor
  · rintro ⟨g, hg, hslot⟩
    cases g with
    | fix k x j body =>
      obtain rfl : j = i := Option.some.inj hslot
      exact ⟨k, x, body, hg⟩
    | _ => cases hslot
  · rintro ⟨k, x, body, hg⟩
    exact ⟨fix k x i body, hg, rfl⟩

/-- The slots that the policy resets when a fixed point is entered below the fixed points `opened`. -/
def resetSlots (policy : ResetPolicy) (k : FixKind) (x : Char) (i : Nat) (f : Formula)
    (around : Option FixKind) (opened : List Nat) : List Nat :=
  match policy with
  | .never => []
  | .always => [i]
  | .alternation => if around = some k.opposite then (fix k x i f).affected k opened else []

theorem resetSlots_subset (policy : ResetPolicy) (k : FixKind) (x : Char) (i : Nat) (f : Formula)
    (around : Option FixKind) (opened : List Nat) :
    resetSlots policy k x i f around opened ⊆ i :: f.slots := by
  intro j hj
  unfold resetSlots at hj
  split at hj
  · cases hj
  · rw [List.mem_singleton.1 hj]
    exact List.mem_cons_self
  · split at hj
    · obtain ⟨b, hb, -, rfl⟩ := mem_affected.1 hj
      exact mem_slots_of_mem_table hb
    · cases hj

end Formula

/-- Every part of a sentence is declared by its table. -/
theorem Sentence.WellFormed.declared_of_mem {p : Sentence} (h : p.WellFormed) {f : Formula}
    (hf : f ∈ p.root.subformulas) : f.Declared p where
  binders b hb := h.declared.binders b ((Formula.table_isInfix hf).subset hb)
  occurrences j hj := h.declared.occurrences j ((Formula.occurrences_isInfix hf).subset hj)

theorem Sentence.WellFormed.nodup_of_mem {p : Sentence} (h : p.WellFormed) {f : Formula}
    (hf : f ∈ p.root.subformulas) : f.slots.Nodup :=
  h.apart.nodup.sublist (Formula.slots_isInfix hf).sublist

/-- A cell after an entry of its fixed point. -/
def Cell.enter (c : Cell) : Cell := { c with tally := c.tally.enter }

/-- A cell after a reset. -/
def Cell.reset (k : FixKind) (c : Cell) : Cell :=
  { c with value := k.reset c.value, tally := c.tally.reset }

namespace Evaluation

variable {job : Job} {e e₁ e₂ e' : Evaluation} {opened slots : List Nat} {k : FixKind} {x : Char}
  {i j n : Nat} {f : Formula} {around : Option FixKind}

/-! ## Changes cell by cell -/

/-- The cells of `e'` are those of `e`, each changed as `φ` says for its slot. -/
def Cellwise (φ : Nat → Cell → Cell) (e e' : Evaluation) : Prop :=
  ∀ j : Nat, e'.cells[j]? = e.cells[j]?.map (φ j)

theorem Cellwise.refl (e : Evaluation) : Cellwise (fun _ => id) e e := by
  intro j
  rw [Option.map_id_fun, id]

theorem cellwise_update (e : Evaluation) (i : Nat) (g : Cell → Cell) :
    Cellwise (fun j => if j = i then g else id) e (e.update i g) := by
  intro j
  show (e.cells.modify i g)[j]? = e.cells[j]?.map (if j = i then g else id)
  rw [Array.getElem?_modify]
  by_cases hij : j = i
  · rw [if_pos hij, if_pos hij.symm]
  · rw [if_neg hij, if_neg (Ne.symm hij), Option.map_id_fun, id]

theorem Cellwise.trans {φ ψ : Nat → Cell → Cell} (h : Cellwise φ e e₁) (h' : Cellwise ψ e₁ e₂) :
    Cellwise (fun j => ψ j ∘ φ j) e e₂ := by
  intro j
  rw [h' j, h j, Option.map_map]

theorem Cellwise.congr {φ ψ : Nat → Cell → Cell} (h : Cellwise φ e e₁) (hφ : ∀ j, φ j = ψ j) :
    Cellwise ψ e e₁ := by
  intro j
  rw [h j, hφ j]

/-- The flags of exactly the slots `opened` are up. -/
def Flagged (e : Evaluation) (opened : List Nat) : Prop :=
  ∀ j : Nat, (∃ c, e.cells[j]? = some c ∧ c.isOpen = true) ↔ j ∈ opened

theorem exists_flagged (e : Evaluation) : ∃ opened, e.Flagged opened := by
  refine ⟨(List.range e.cells.size).filter fun j => e.cells[j]?.any (·.isOpen), fun j => ?_⟩
  rw [List.mem_filter, List.mem_range, Option.any_eq_true]
  constructor
  · rintro ⟨c, hc, hopen⟩
    exact ⟨(Array.getElem?_eq_some_iff.1 hc).1, c, hc, hopen⟩
  · rintro ⟨-, c, hc, hopen⟩
    exact ⟨c, hc, hopen⟩

theorem Flagged.cellwise {φ : Nat → Cell → Cell} (he : e.Flagged opened) (h : Cellwise φ e e₁)
    (hφ : ∀ j c, (φ j c).isOpen = c.isOpen) : e₁.Flagged opened := by
  intro j
  rw [← he j, h j]
  simp [hφ]

/-! ## Entry -/

theorem resetCell_cellwise (h : e.resetCell k i = .ok e') :
    Cellwise (fun j => if j = i then Cell.reset k else id) e e' := by
  obtain ⟨c, -, h⟩ := bind_eq_ok_iff.1 h
  cases h
  exact cellwise_update (e.record (.reset i k)) i (Cell.reset k)

theorem Flagged.anyM_isOpen (he : e.Flagged opened) {a : Bool} (h : slots.anyM e.isOpen = .ok a) :
    a = true ↔ ∃ j ∈ slots, j ∈ opened := by
  induction slots with
  | nil =>
    cases h
    simp
  | cons j slots ih =>
    obtain ⟨flag, hflag, h⟩ := bind_eq_ok_iff.1 h
    obtain ⟨c, hcell, hopen⟩ := bind_eq_ok_iff.1 hflag
    cases hopen
    have hc : e.cells[j]? = some c := Fault.lookup_eq_ok_iff.1 hcell
    have hj : c.isOpen = true ↔ j ∈ opened := by simpa [hc] using he j
    cases hup : c.isOpen with
    | true =>
      rw [hup] at h
      cases h
      simp [hj.1 hup]
    | false =>
      rw [hup] at h
      have hdown : j ∉ opened := fun hmem => by simp [hj.2 hmem] at hup
      simpa [hdown] using ih h

/-- A fixed point is reset if it is affected, else nothing happens. -/
theorem Flagged.resetIfAffected (he : e.Flagged opened) {b : Binder}
    (hb : job.sentence.binders[b.slot]? = some b) (h : resetIfAffected job k e b.slot = .ok e') :
    (b.kind = k ∧ ∃ o ∈ b.occurrences, o ∈ opened) ∧
        Cellwise (fun j => if j = b.slot then Cell.reset k else id) e e' ∨
      ¬(b.kind = k ∧ ∃ o ∈ b.occurrences, o ∈ opened) ∧ e' = e := by
  obtain ⟨b', hlookup, h⟩ := bind_eq_ok_iff.1 h
  obtain rfl : b' = b := Option.some.inj ((Fault.lookup_eq_ok_iff.1 hlookup).symm.trans hb)
  split at h
  · next hkind =>
    obtain ⟨a, hany, h⟩ := bind_eq_ok_iff.1 h
    have ha := he.anyM_isOpen hany
    split at h
    · next haffected => exact .inl ⟨⟨hkind, ha.1 haffected⟩, resetCell_cellwise h⟩
    · next haffected =>
      cases h
      exact .inr ⟨fun hboth => haffected (ha.2 hboth.2), rfl⟩
  · next hkind =>
    cases h
    exact .inr ⟨fun hboth => hkind hboth.1, rfl⟩

/-- The loop over the fixed points of a formula resets each affected one once. -/
theorem Flagged.foldlM_resetIfAffected (he : e.Flagged opened) (hf : f.Declared job.sentence)
    (hnodup : f.slots.Nodup)
    (h : f.slots.foldlM (Evaluation.resetIfAffected job k) e = .ok e') :
    Cellwise (fun j => if j ∈ f.affected k opened then Cell.reset k else id) e e' := by
  have hbinders := hf.binders
  rw [← Formula.map_slot_table] at h hnodup
  rw [Formula.affected]
  generalize f.table = bs at hbinders h hnodup
  induction bs generalizing e with
  | nil =>
    cases h
    exact (Cellwise.refl _).congr fun j => by simp
  | cons b bs ih =>
    rw [List.map_cons, List.foldlM_cons] at h
    obtain ⟨e₁, hfirst, hrest⟩ := bind_eq_ok_iff.1 h
    obtain ⟨hslot, hnodup⟩ := List.nodup_cons.1 hnodup
    have hlater : ∀ b ∈ bs, job.sentence.binders[b.slot]? = some b :=
      fun b hb => hbinders b (List.mem_cons_of_mem _ hb)
    rcases he.resetIfAffected (hbinders b List.mem_cons_self) hfirst with
      ⟨haffected, hstep⟩ | ⟨hnot, rfl⟩
    · have he₁ : e₁.Flagged opened := he.cellwise hstep fun j c => by split <;> rfl
      refine (hstep.trans (ih he₁ hlater hrest hnodup)).congr fun j => ?_
      rw [List.filter_cons_of_pos (by simpa using haffected), List.map_cons]
      by_cases hj : j = b.slot
      · -- No later binder has this slot.
        have hdone : j ∉ (bs.filter fun b => b.kind = k ∧ ∃ o ∈ b.occurrences, o ∈ opened).map
            (·.slot) := by
          rw [hj]
          exact fun hmem => hslot ((List.filter_sublist.map _).subset hmem)
        rw [if_neg hdone, if_pos hj, if_pos (List.mem_cons.2 (.inl hj)), Function.id_comp]
      · rw [if_neg hj, Function.comp_id]
        simp only [List.mem_cons, hj, false_or]
    · rw [List.filter_cons_of_neg (by simpa using hnot)]
      exact ih he hlater hrest hnodup

/-- What the entry of a fixed point does to the cells. -/
theorem Flagged.enter_cellwise (he : e.Flagged opened)
    (hf : (Formula.fix k x i f).Declared job.sentence) (hnodup : (Formula.fix k x i f).slots.Nodup)
    (h : enter job k x i around e = .ok e') :
    i < e.cells.size ∧ Cellwise (fun j =>
      (if j ∈ Formula.resetSlots job.policy k x i f around opened then Cell.reset k else id) ∘
        if j = i then Cell.enter else id) e e' := by
  obtain ⟨c, hcell, h⟩ := bind_eq_ok_iff.1 h
  have hc : e.cells[i]? = some c := Fault.lookup_eq_ok_iff.1 hcell
  have hcount := cellwise_update (e.record (.entered k x i around)) i Cell.enter
  refine ⟨(Array.getElem?_eq_some_iff.1 hc).1, hcount.trans ?_⟩
  have hflagged : ((e.record (.entered k x i around)).update i Cell.enter).Flagged opened :=
    he.cellwise hcount fun j c => by split <;> rfl
  unfold resetOnEntry at h
  unfold Formula.resetSlots
  cases hpolicy : job.policy with
  | never =>
    rw [hpolicy] at h
    cases h
    exact (Cellwise.refl _).congr fun j => by simp
  | always =>
    rw [hpolicy] at h
    exact (resetCell_cellwise h).congr fun j => by simp
  | alternation =>
    rw [hpolicy] at h
    dsimp only at h ⊢
    by_cases haround : around = some k.opposite
    · rw [if_pos haround] at h ⊢
      obtain ⟨b, hb, h⟩ := bind_eq_ok_iff.1 h
      obtain rfl : b = ⟨x, k, i, f.slots, f.occurrences⟩ :=
        Option.some.inj ((Fault.lookup_eq_ok_iff.1 hb).symm.trans hf.getElem?_slot)
      exact hflagged.foldlM_resetIfAffected hf hnodup h
    · rw [if_neg haround] at h ⊢
      cases h
      exact (Cellwise.refl _).congr fun j => by simp

/-- Entry leaves all flags alone. -/
theorem Flagged.after_enter (he : e.Flagged opened) (hf : (Formula.fix k x i f).Declared job.sentence)
    (hnodup : (Formula.fix k x i f).slots.Nodup) (h : enter job k x i around e = .ok e') :
    e'.Flagged opened := by
  refine he.cellwise (he.enter_cellwise hf hnodup h).2 fun j c => ?_
  dsimp only [Function.comp_apply]
  split <;> split <;> rfl

/-! ## Confinement -/

/-- Between the two evaluations only cells with the given slots change. -/
structure Confined (slots : List Nat) (e e' : Evaluation) : Prop where
  size : e'.cells.size = e.cells.size
  cell : ∀ j ∉ slots, e'.cells[j]? = e.cells[j]?

namespace Confined

theorem refl (slots : List Nat) (e : Evaluation) : Confined slots e e := ⟨rfl, fun _ _ => rfl⟩

theorem trans (h : Confined slots e e₁) (h' : Confined slots e₁ e₂) : Confined slots e e₂ where
  size := h'.size.trans h.size
  cell j hj := (h'.cell j hj).trans (h.cell j hj)

theorem mono {slots' : List Nat} (h : Confined slots e e') (hslots : slots ⊆ slots') :
    Confined slots' e e' where
  size := h.size
  cell j hj := h.cell j fun hmem => hj (hslots hmem)

end Confined

theorem Cellwise.confined {φ : Nat → Cell → Cell} (h : Cellwise φ e e')
    (hφ : ∀ j ∉ slots, φ j = id) : Confined slots e e' where
  size := size_eq_of_getElem?_eq_map h
  cell j hj := by rw [h j, hφ j hj, Option.map_id_fun, id]

theorem confined_update (hi : i ∈ slots) (e : Evaluation) (g : Cell → Cell) :
    Confined slots e (e.update i g) :=
  (cellwise_update e i g).confined fun _ hj => if_neg (ne_of_mem_of_not_mem hi hj).symm

/-- The cells with the given slots are there, and their flags are down. -/
def Shut (slots : List Nat) (e : Evaluation) : Prop :=
  ∀ j ∈ slots, ∃ c, e.cells[j]? = some c ∧ c.isOpen = false

/-- What is shut stays so when other cells change. -/
theorem Shut.confined {slots' : List Nat} (h : e.Shut slots) (hconfined : Confined slots' e e')
    (h' : e'.Shut slots') : e'.Shut slots := by
  intro j hj
  by_cases hj' : j ∈ slots'
  · exact h' j hj'
  · rw [hconfined.cell j hj']
    exact h j hj

theorem Shut.update (h : e.Shut slots) {g : Cell → Cell}
    (hg : ∀ c, c.isOpen = false → (g c).isOpen = false) : (e.update i g).Shut slots := by
  intro j hj
  obtain ⟨c, hc, hdown⟩ := h j hj
  rw [cellwise_update e i g j, hc]
  refine ⟨_, rfl, ?_⟩
  show ((if j = i then g else id) c).isOpen = false
  split
  · exact hg c hdown
  · exact hdown

theorem shut_lower (hi : i < e.cells.size) (h : e.Shut slots) : (e.lower i).Shut (i :: slots) := by
  intro j hj
  rcases List.mem_cons.1 hj with rfl | hj
  · refine ⟨{ e.cells[j] with isOpen := false }, ?_, rfl⟩
    show (e.cells.modify j _)[j]? = _
    rw [Array.getElem?_modify, if_pos rfl, Array.getElem?_eq_getElem hi]
    rfl
  · exact h.update (fun _ _ => rfl) j hj

/-- Rounds change the cell of the fixed point and what the body changes, and leave these shut. -/
theorem Turns.confined {body : Evaluation → StateSet → Evaluation → Prop}
    (hbody : ∀ e s e', body e s e' → Confined slots e e' ∧ e'.Shut slots)
    (hi : i < e.cells.size) (h : Turns body k x i e n e') :
    Confined (i :: slots) e e' ∧ (0 < n → e'.Shut (i :: slots)) := by
  induction h with
  | zero => exact ⟨Confined.refl _ _, fun h => by omega⟩
  | @succ n e₁ e₂ current next _ hnext ih =>
    obtain ⟨hconfined, hshut⟩ := hbody _ _ _ hnext
    have hraise : Confined (i :: slots) e (e₁.raise i current) :=
      ih.1.trans (confined_update List.mem_cons_self _ _)
    have hround : Confined (i :: slots) e e₂ :=
      hraise.trans (hconfined.mono (List.subset_cons_self _ _))
    have hlower : Confined (i :: slots) e (e₂.lower i) :=
      hround.trans (confined_update List.mem_cons_self _ _)
    have hi₂ : i < e₂.cells.size := by
      rw [hround.size]
      exact hi
    exact ⟨⟨hlower.size, hlower.cell⟩, fun _ => shut_lower hi₂ hshut⟩

/-- Two evaluations one after the other. -/
theorem Confined.append {l r : List Nat} (hl : Confined l e e₁ ∧ e₁.Shut l)
    (hr : Confined r e₁ e₂ ∧ e₂.Shut r) : Confined (l ++ r) e e₂ ∧ e₂.Shut (l ++ r) := by
  refine ⟨(hl.1.mono (List.subset_append_left l r)).trans
    (hr.1.mono (List.subset_append_right l r)), fun j hj => ?_⟩
  rcases List.mem_append.1 hj with hj | hj
  · exact hl.2.confined hr.1 hr.2 j hj
  · exact hr.2 j hj

/-- The entry of a fixed point changes cells inside it only. -/
theorem enter_confined (hf : (Formula.fix k x i f).Declared job.sentence)
    (hnodup : (Formula.fix k x i f).slots.Nodup) (h : enter job k x i around e = .ok e') :
    i < e.cells.size ∧ Confined (i :: f.slots) e e' := by
  obtain ⟨opened, hflagged⟩ := exists_flagged e
  obtain ⟨hi, hcells⟩ := hflagged.enter_cellwise hf hnodup h
  refine ⟨hi, hcells.confined fun j hj => ?_⟩
  have hreset : j ∉ Formula.resetSlots job.policy k x i f around opened :=
    fun hmem => hj (Formula.resetSlots_subset _ _ _ _ _ _ _ hmem)
  rw [if_neg hreset, if_neg (List.ne_of_not_mem_cons hj), Function.comp_id]

theorem leave_confined {s : StateSet} (hi : i ∈ slots) : Confined slots e (leave k x i n s e) := by
  have h := confined_update hi (e.record (.converged k x n s)) fun c =>
    { c with value := s, tally := c.tally.converge n }
  exact ⟨h.size, h.cell⟩

/-- Evaluation of a formula changes only the cells of the fixed points inside, and leaves them shut. -/
theorem compositional_confined (job : Job) (limit : Nat) :
    Compositional job limit fun f _ e _ e' => f.Declared job.sentence → f.slots.Nodup →
      Confined f.slots e e' ∧ e'.Shut f.slots where
  top _ e _ _ := ⟨Confined.refl _ e, nofun⟩
  bot _ e _ _ := ⟨Confined.refl _ e, nofun⟩
  var _ _ _ := ⟨Confined.refl _ _, nofun⟩
  and _ _ hl hr _ hf hnodup := by
    obtain ⟨hfl, hfr⟩ := hf.of_append rfl rfl
    obtain ⟨hnodupl, hnodupr, -⟩ := List.nodup_append.1 hnodup
    exact Confined.append (hl hfl hnodupl) (hr hfr hnodupr)
  or _ _ hl hr _ hf hnodup := by
    obtain ⟨hfl, hfr⟩ := hf.of_append rfl rfl
    obtain ⟨hnodupl, hnodupr, -⟩ := List.nodup_append.1 hnodup
    exact Confined.append (hl hfl hnodupl) (hr hfr hnodupr)
  not h hf hnodup := h ⟨hf.binders, hf.occurrences⟩ hnodup
  diamond h _ hf hnodup := h ⟨hf.binders, hf.occurrences⟩ hnodup
  box h _ hf hnodup := h ⟨hf.binders, hf.occurrences⟩ hnodup
  fix henter hpos _ hturns hf hnodup := by
    obtain ⟨hi, hentry⟩ := enter_confined hf hnodup henter
    obtain ⟨hrounds, hshut⟩ := hturns.confined
      (fun _ _ _ h => h.2 hf.body (List.nodup_cons.1 hnodup).2) (by rwa [hentry.size])
    exact ⟨(hentry.trans hrounds).trans (leave_confined List.mem_cons_self),
      (hshut hpos).update fun _ h => h⟩

/-- Flags outside are as before, and those inside are down. -/
theorem Flagged.confined (he : e.Flagged opened) (hopened : ∀ j ∈ slots, j ∉ opened)
    (h : Confined slots e e') (hshut : e'.Shut slots) : e'.Flagged opened := by
  intro j
  by_cases hj : j ∈ slots
  · obtain ⟨c, hc, hdown⟩ := hshut j hj
    simp [hc, hdown, hopened j hj]
  · rw [h.cell j hj]
    exact he j

theorem evalFormula_confined {limit : Nat} {s : StateSet} (hf : f.Declared job.sentence)
    (hnodup : f.slots.Nodup) (h : evalFormula job limit f around e = .ok (s, e')) :
    Confined f.slots e e' ∧ e'.Shut f.slots :=
  (compositional_confined job limit).evalFormula h hf hnodup

end Evaluation

/-- The evaluation of a node of a sentence that was read, whatever the cells hold and whatever flags are
up before, changes no cell of a fixed point that is not inside the node, and lowers the flags of those
that are. -/
theorem eval_confined {src : String} {p : Sentence} (hp : Sentence.parse src = .ok p) {f : Formula}
    (hf : f ∈ p.root.subformulas) {m : TransitionSystem} {policy : ResetPolicy} {limit : Nat}
    {around : Option FixKind} {e e' : Evaluation} {s : StateSet}
    (h : Evaluation.evalFormula ⟨m, p, policy⟩ limit f around e = .ok (s, e')) :
    (∀ i : Nat, (∀ k x body, .fix k x i body ∉ f.subformulas) → e'.cells[i]? = e.cells[i]?) ∧
    ∀ k x i body, .fix k x i body ∈ f.subformulas → e'.isOpen i = .ok false := by
  have hwellFormed := Sentence.parse_wellFormed hp
  obtain ⟨hconfined, hshut⟩ := Evaluation.evalFormula_confined
    (hwellFormed.declared_of_mem hf) (hwellFormed.nodup_of_mem hf) h
  refine ⟨fun i hi => hconfined.cell i fun hmem => ?_, fun k x i body hi => ?_⟩
  · obtain ⟨k, x, body, hnode⟩ := Formula.mem_slots_iff.1 hmem
    exact hi k x body hnode
  · obtain ⟨c, hc, hdown⟩ := hshut i (Formula.mem_slots_iff.2 ⟨k, x, body, hi⟩)
    rw [Evaluation.isOpen, Evaluation.cell, Fault.lookup_eq_ok_iff.2 hc, ← hdown]
    rfl

/-- The inner one of two fixed points is evaluated with both flags up and resets itself; the outer one
keeps its value, its flag and its tally. -/
theorem eval_confined_inner :
    ∃ m p body, (Blueprint.mk #[none, none] 0
        #[⟨0, ⟨"b"⟩, 1⟩, ⟨1, ⟨"a"⟩, 1⟩]).build 0 = .ok m ∧
      Sentence.parse "nu X.mu Y.((<a>X) || <b>Y)" = .ok p ∧
      .fix .least 'Y' 1 body ∈ p.root.subformulas ∧
      ∃ s e', Evaluation.eval ⟨m, p, .alternation⟩ (.fix .least 'Y' 1 body) (some .greatest)
          ⟨#[⟨.all m.carrier, true, ⟨5, 9, 3, 2⟩⟩, ⟨.all m.carrier, true, ⟨4, 6, 2, 0⟩⟩], #[]⟩ =
            .ok (s, e') ∧
        e'.tally 1 = .ok ⟨5, 9, 3, 1⟩ ∧ e'.isOpen 1 = .ok false ∧
        e'.cells[0]? = some ⟨.all m.carrier, true, ⟨5, 9, 3, 2⟩⟩ := by
  obtain ⟨m, p, body, s, e', hm, hp, hnode, hothers, heval, htally⟩ :
      ∃ m p body s e', (Blueprint.mk #[none, none] 0
        #[⟨0, ⟨"b"⟩, 1⟩, ⟨1, ⟨"a"⟩, 1⟩]).build 0 = .ok m ∧
      Sentence.parse "nu X.mu Y.((<a>X) || <b>Y)" = .ok p ∧
      .fix .least 'Y' 1 body ∈ p.root.subformulas ∧
      (∀ k x g, .fix k x 0 g ∉ (Formula.fix .least 'Y' 1 body).subformulas) ∧
      Evaluation.eval ⟨m, p, .alternation⟩ (.fix .least 'Y' 1 body) (some .greatest)
          ⟨#[⟨.all m.carrier, true, ⟨5, 9, 3, 2⟩⟩, ⟨.all m.carrier, true, ⟨4, 6, 2, 0⟩⟩], #[]⟩ =
            .ok (s, e') ∧
        e'.tally 1 = .ok ⟨5, 9, 3, 1⟩ :=
    ⟨_, _, .or (.diamond ⟨"a"⟩ (.var 'X' 0)) (.diamond ⟨"b"⟩ (.var 'Y' 1)), _, _, rfl, rfl,
      by decide +kernel, by simp [Formula.subformulas], rfl, rfl⟩
  obtain ⟨hothers', hinside⟩ := eval_confined hp hnode heval
  exact ⟨m, p, body, hm, hp, hnode, s, e', heval, htally, hinside _ _ 1 _ List.mem_cons_self,
    hothers' 0 hothers⟩

end ModalMu
