import ModalMu.Proofs.Reentry

/-!
# Kept values that are good enough to go on from

When a fixed point is entered again, the policy may leave its kept value in place. That gives the right
result if the value approximates the fixed point for what the variables around it stand for now.
`Ready` says which kept values do: all of them, except those of fixed points that are reset before they
are used. It is kept while the variables around move in the direction of the fixed point outside
(`Ready.rise`), provided that no negation turns this direction round (`Aligned`), and it is restored by
the resets at a change of kind (`Ready.renew`), provided that these overlook nothing (`NoneOverlooked`).
So evaluation computes the meaning (`evaluate_aligned`).
-/

namespace ModalMu

namespace Formula

variable {m : TransitionSystem} {l r f : Formula} {k : FixKind} {x : Char} {i : Nat}
  {v w : Valuation m} {around : Option FixKind} {opened : List Nat}

/-! ## What is reset, and what has to be -/

/-- The slots inside fixed points that use no variable from outside. They are never reset. -/
def keptSlots : Formula → List Nat
  | top | bot | var _ _ => []
  | and l r | or l r => l.keptSlots ++ r.keptSlots
  | not f | diamond _ f | box _ f => f.keptSlots
  | fix k x i f => if (fix k x i f).free = [] then i :: f.slots else f.keptSlots

/-- Among the fixed points of kind `k` that use variables from outside, reached through such ones only,
each that uses its own variable also uses one out of `outer`. -/
def Covered (k : FixKind) (outer : List Nat) : Formula → Prop
  | top | bot | var _ _ => True
  | and l r | or l r => l.Covered k outer ∧ r.Covered k outer
  | not f | diamond _ f | box _ f => f.Covered k outer
  | fix k' x i f => k' = k → (fix k' x i f).free ≠ [] →
      (i ∈ f.free → ∃ j ∈ (fix k' x i f).free, j ∈ outer) ∧ f.Covered k outer

instance decidableCovered (k : FixKind) (outer : List Nat) :
    (f : Formula) → Decidable (f.Covered k outer)
  | top | bot | var _ _ => inferInstanceAs (Decidable True)
  | and l r | or l r =>
    have := decidableCovered k outer l
    have := decidableCovered k outer r
    inferInstanceAs (Decidable (l.Covered k outer ∧ r.Covered k outer))
  | not f | diamond _ f | box _ f => decidableCovered k outer f
  | fix k' x i f =>
    have := decidableCovered k outer f
    inferInstanceAs (Decidable (k' = k → (fix k' x i f).free ≠ [] →
      (i ∈ f.free → ∃ j ∈ (fix k' x i f).free, j ∈ outer) ∧ f.Covered k outer))

/-- The condition holds of every fixed point, given the kind of the innermost fixed point around it. -/
def Throughout (P : Option FixKind → FixKind → Char → Nat → Formula → Prop) :
    Option FixKind → Formula → Prop
  | _, top | _, bot | _, var _ _ => True
  | around, and l r | around, or l r => l.Throughout P around ∧ r.Throughout P around
  | around, not f | around, diamond _ f | around, box _ f => f.Throughout P around
  | around, fix k x i f => P around k x i f ∧ f.Throughout P (some k)

instance decidableThroughout (P : Option FixKind → FixKind → Char → Nat → Formula → Prop)
    [∀ around k x i f, Decidable (P around k x i f)] :
    (around : Option FixKind) → (f : Formula) → Decidable (f.Throughout P around)
  | _, top | _, bot | _, var _ _ => inferInstanceAs (Decidable True)
  | around, and l r | around, or l r =>
    have := decidableThroughout P around l
    have := decidableThroughout P around r
    inferInstanceAs (Decidable (l.Throughout P around ∧ r.Throughout P around))
  | around, not f | around, diamond _ f | around, box _ f => decidableThroughout P around f
  | around, fix k x i f =>
    have := decidableThroughout P (some k) f
    inferInstanceAs (Decidable (P around k x i f ∧ f.Throughout P (some k)))

theorem Throughout.imp {P Q : Option FixKind → FixKind → Char → Nat → Formula → Prop}
    (h : f.Throughout P around) (hPQ : ∀ around k x i f, P around k x i f → Q around k x i f) :
    f.Throughout Q around := by
  induction f generalizing around with
  | top | bot | var => trivial
  | and l r ihl ihr | or l r ihl ihr => exact ⟨ihl h.1, ihr h.2⟩
  | not f ih | diamond a f ih | box a f ih => exact ih h
  | fix k x i f ih => exact ⟨hPQ _ _ _ _ _ h.1, ih h.2⟩

/-- A fixed point that uses variables from outside and stands directly below one of the other kind is
reset when it is entered, and with it those inside that start anew with it: at that time they use a
variable that is open. -/
def NoneOverlooked (policy : ResetPolicy) (around : Option FixKind) (f : Formula) : Prop :=
  f.Throughout (fun around k x i f => around = some k.opposite → (fix k x i f).free ≠ [] →
    policy = .alternation ∧ f.Covered k (fix k x i f).free) around

instance (policy : ResetPolicy) (around : Option FixKind) (f : Formula) :
    Decidable (f.NoneOverlooked policy around) :=
  inferInstanceAs (Decidable (f.Throughout _ around))

/-- A fixed point that uses its own variable uses all its variables below an even number of negations, so
that it moves in the direction in which they move. -/
def Aligned (around : Option FixKind) (f : Formula) : Prop :=
  f.Throughout (fun _ _ _ i f => i ∈ f.free → ∀ j ∈ f.free, f.Polar j true) around

instance (around : Option FixKind) (f : Formula) : Decidable (f.Aligned around) :=
  inferInstanceAs (Decidable (f.Throughout _ around))

theorem NegationFree.aligned (hf : f.NegationFree) : f.Aligned around := by
  induction f generalizing around with
  | top | bot | var => trivial
  | and l r ihl ihr | or l r ihl ihr => exact ⟨ihl hf.1, ihr hf.2⟩
  | not => exact hf.elim
  | diamond a f ih | box a f ih => exact ih hf
  | fix k x i f ih => exact ⟨fun _ j _ => NegationFree.polar hf j, ih hf⟩

/-- Every kept value approximates its fixed point, except that of a fixed point that is reset before it
is used: below one of the other kind, or, if `renewed`, together with the fixed point around it. -/
def Ready (m : TransitionSystem) : (renewed : Bool) → Option FixKind → Formula → Valuation m → Prop
  | _, _, top, _ | _, _, bot, _ | _, _, var _ _, _ => True
  | renewed, around, and l r, v | renewed, around, or l r, v =>
    l.Ready m renewed around v ∧ r.Ready m renewed around v
  | renewed, around, not f, v | renewed, around, diamond _ f, v | renewed, around, box _ f, v =>
    f.Ready m renewed around v
  | renewed, around, fix k x i f, v =>
    if (fix k x i f).free ≠ [] ∧ (around = some k.opposite ∨ renewed = true)
    then f.Ready m true (some k) v
    else f.Approximates m k x i v ∧ f.Ready m false (some k) v

theorem keptSlots_subset {j : Nat} (hj : j ∈ f.keptSlots) : j ∈ f.slots := by
  induction f with
  | top | bot | var => simp [keptSlots] at hj
  | and l r ihl ihr | or l r ihl ihr =>
    rcases List.mem_append.1 hj with hj | hj
    · exact List.mem_append_left _ (ihl hj)
    · exact List.mem_append_right _ (ihr hj)
  | not f ih | diamond a f ih | box a f ih => exact ih hj
  | fix k x i f ih =>
    rw [keptSlots] at hj
    split at hj
    · exact hj
    · exact List.mem_cons_of_mem _ (ih hj)

theorem affected_subset {g : Formula} (htable : f.table ⊆ g.table) :
    f.affected k opened ⊆ g.affected k opened := by
  intro j hj
  obtain ⟨b, hb, haffected⟩ := mem_affected.1 hj
  exact mem_affected.2 ⟨b, htable hb, haffected⟩

/-- A fixed point that uses an open variable is reset. -/
theorem slot_mem_affected {j : Nat} (hj : j ∈ (fix k x i f).free) (hopen : j ∈ opened) :
    i ∈ (fix k x i f).affected k opened :=
  mem_affected.2 ⟨⟨x, k, i, f.slots, f.occurrences⟩, List.mem_cons_self,
    ⟨rfl, j, mem_occurrences_of_mem_free (mem_free_fix.1 hj).1, hopen⟩, rfl⟩

/-- What lies inside a fixed point without variables from outside uses no open one. -/
theorem notMem_opened_of_mem_keptSlots (hnodup : f.slots.Nodup) (hslots : ∀ j ∈ f.slots, j ∉ opened)
    {b : Binder} (hb : b ∈ f.table) (hkept : b.slot ∈ f.keptSlots) {j : Nat}
    (hj : j ∈ b.occurrences) : j ∉ opened := by
  induction f with
  | top | bot | var => simp [table] at hb
  | and l r ihl ihr | or l r ihl ihr =>
    obtain ⟨hl, hr, hlr⟩ := List.nodup_append.1 hnodup
    have hsl : ∀ j ∈ l.slots, j ∉ opened := fun j hj => hslots j (List.mem_append_left _ hj)
    have hsr : ∀ j ∈ r.slots, j ∉ opened := fun j hj => hslots j (List.mem_append_right _ hj)
    rcases List.mem_append.1 hb with hb | hb <;> rcases List.mem_append.1 hkept with hkept | hkept
    · exact ihl hl hsl hb hkept
    · exact (hlr _ (mem_slots_of_mem_table hb) _ (keptSlots_subset hkept) rfl).elim
    · exact (hlr _ (keptSlots_subset hkept) _ (mem_slots_of_mem_table hb) rfl).elim
    · exact ihr hr hsr hb hkept
  | not f ih | diamond a f ih | box a f ih => exact ih hnodup hslots hb hkept
  | fix k x i f ih =>
    obtain ⟨hi, hnodup'⟩ := List.nodup_cons.1 hnodup
    rw [keptSlots] at hkept
    split at hkept
    · next hfree =>
      rcases mem_free_or_mem_slots (occurrences_subset_of_mem_table hb hj) with h | h
      · simp [hfree] at h
      · exact hslots j h
    · rcases List.mem_cons.1 hb with rfl | hb
      · exact (hi (keptSlots_subset hkept)).elim
      · exact ih hnodup' (fun j hj => hslots j (List.mem_cons_of_mem _ hj)) hb hkept

/-- The resets on entry leave what they have to leave. -/
theorem notMem_affected_of_mem_keptSlots (hnodup : f.slots.Nodup)
    (hslots : ∀ j ∈ f.slots, j ∉ opened) {j : Nat} (hj : j ∈ f.keptSlots) :
    j ∉ f.affected k opened := by
  rw [mem_affected]
  rintro ⟨b, hb, ⟨-, o, ho, hopen⟩, rfl⟩
  exact notMem_opened_of_mem_keptSlots hnodup hslots hb hj ho hopen

/-! ## What the readiness of kept values depends on -/

theorem ready_fix_of_same : (fix k x i f).Ready m false (some k) v ↔
    f.Approximates m k x i v ∧ f.Ready m false (some k) v := by
  have hsame : ¬((fix k x i f).free ≠ [] ∧ (some k = some k.opposite ∨ false = true)) := by
    simp [k.opposite_ne.symm]
  rw [Ready, if_neg hsame]

theorem Approximates.congr (h : f.Approximates m k x i v) (hsame : (fix k x i f).Same v w) :
    f.Approximates m k x i w := by
  intro hmem
  rw [← hsame.slot_eq, ← denote_congr hsame.body.free, ← denote_congr hsame.free]
  exact h hmem

theorem Ready.congr {renewed : Bool} (h : f.Ready m renewed around v) (hsame : f.Same v w) :
    f.Ready m renewed around w := by
  induction f generalizing renewed around with
  | top | bot | var => trivial
  | and l r ihl ihr | or l r ihl ihr =>
    obtain ⟨hl, hr⟩ := hsame.of_append rfl rfl
    exact ⟨ihl h.1 hl, ihr h.2 hr⟩
  | not f ih | diamond a f ih | box a f ih => exact ih h ⟨hsame.free, hsame.slots⟩
  | fix k x i f ih =>
    rw [Ready] at h ⊢
    split at h
    · next hrenewed =>
      rw [if_pos hrenewed]
      exact ih h hsame.body
    · next hrenewed =>
      rw [if_neg hrenewed]
      exact ⟨h.1.congr hsame, ih h.2 hsame.body⟩

/-- Where the fixed points around are renewed, only those values matter that are never reset. -/
theorem Ready.congr_renewed (h : f.Ready m true around v) (hkept : ∀ j ∈ f.keptSlots, v j = w j) :
    f.Ready m true around w := by
  induction f generalizing around with
  | top | bot | var => trivial
  | and l r ihl ihr | or l r ihl ihr =>
    exact ⟨ihl h.1 fun j hj => hkept j (List.mem_append_left _ hj),
      ihr h.2 fun j hj => hkept j (List.mem_append_right _ hj)⟩
  | not f ih | diamond a f ih | box a f ih => exact ih h hkept
  | fix k x i f ih =>
    by_cases hfree : (fix k x i f).free = []
    · rw [keptSlots, if_pos hfree] at hkept
      exact h.congr ⟨by simp [hfree], hkept⟩
    · rw [keptSlots, if_neg hfree] at hkept
      rw [Ready, if_pos ⟨hfree, .inr rfl⟩] at h ⊢
      exact ih h hkept

theorem Ready.renewed (h : f.Ready m false around v) : f.Ready m true around v := by
  induction f generalizing around with
  | top | bot | var => trivial
  | and l r ihl ihr | or l r ihl ihr => exact ⟨ihl h.1, ihr h.2⟩
  | not f ih | diamond a f ih | box a f ih => exact ih h
  | fix k x i f ih =>
    rw [Ready] at h ⊢
    split at h
    · next hrenewed =>
      rw [if_pos ⟨hrenewed.1, .inr rfl⟩]
      exact h
    · split
      · exact ih h.2
      · exact h

/-- Values at the extremes are ready. -/
theorem ready_of_bottom {renewed : Bool} (h : ∀ b ∈ f.table, v b.slot = b.kind.bottom) :
    f.Ready m renewed around v := by
  induction f generalizing renewed around with
  | top | bot | var => trivial
  | and l r ihl ihr | or l r ihl ihr =>
    exact ⟨ihl fun b hb => h b (List.mem_append_left _ hb),
      ihr fun b hb => h b (List.mem_append_right _ hb)⟩
  | not f ih | diamond a f ih | box a f ih => exact ih h
  | fix k x i f ih =>
    have hbody : ∀ b ∈ f.table, v b.slot = b.kind.bottom := fun b hb =>
      h b (List.mem_cons_of_mem _ hb)
    have hi : v i = k.bottom := h ⟨x, k, i, f.slots, f.occurrences⟩ List.mem_cons_self
    rw [Ready]
    split
    · exact ih hbody
    · refine ⟨fun _ => ?_, ih hbody⟩
      rw [hi]
      exact ⟨k.bottom_le _, k.bottom_le _⟩

/-! ## How readiness is kept and restored -/

/-- Kept values stay ready while the variables from outside move in the direction of the fixed point
around. -/
theorem Ready.rise (hf : f.Aligned around) (h : f.Ready m false (some k) v)
    (hfree : ∀ j ∈ f.free, k.le (v j) (w j)) (hslots : ∀ j ∈ f.slots, v j = w j) :
    f.Ready m false (some k) w := by
  induction f generalizing around with
  | top | bot | var => trivial
  | and l r ihl ihr | or l r ihl ihr =>
    exact ⟨ihl hf.1 h.1 (fun j hj => hfree j (List.mem_append_left _ hj))
        fun j hj => hslots j (List.mem_append_left _ hj),
      ihr hf.2 h.2 (fun j hj => hfree j (List.mem_append_right _ hj))
        fun j hj => hslots j (List.mem_append_right _ hj)⟩
  | not f ih | diamond a f ih | box a f ih => exact ih hf h hfree hslots
  | fix k' x i f ih =>
    have hslots' : ∀ j ∈ f.slots, v j = w j := fun j hj => hslots j (List.mem_cons_of_mem _ hj)
    by_cases hclosed : (fix k' x i f).free = []
    · exact h.congr ⟨by simp [hclosed], hslots⟩
    by_cases hkind : k' = k
    · -- The direction is its own, so the kept value still approximates.
      subst hkind
      rw [ready_fix_of_same] at h ⊢
      have hi : v i = w i := hslots i List.mem_cons_self
      have hbody : ∀ j ∈ f.free, k'.le (v j) (w j) :=
        forall_mem_free_of_fix hfree (FixKind.le_of_eq hi)
      refine ⟨fun hmem => ?_, ih hf.2 h.2 hbody hslots'⟩
      have hpolar : ∀ j ∈ f.free, f.Polar j true := hf.1 hmem
      obtain ⟨hfurther, hbeyond⟩ := h.1 hmem
      rw [← hi]
      exact ⟨FixKind.le_trans hfurther (denote_le (f := f) hpolar hbody),
        FixKind.le_trans hbeyond (denote_le (f := fix k' x i f)
          (fun j hj => hpolar j (mem_free_fix.1 hj).1) hfree)⟩
    · have hother : k = k'.opposite := FixKind.eq_opposite_of_ne (Ne.symm hkind)
      rw [Ready, if_pos ⟨hclosed, .inl (congrArg some hother)⟩] at h ⊢
      exact h.congr_renewed fun j hj => hslots' j (keptSlots_subset hj)

/-- They also do when the fixed point around makes a round. -/
theorem Ready.update {c : m.Region} (hf : f.Aligned around) (h : f.Ready m false (some k) v)
    (hi : i ∉ f.slots) (hle : i ∈ f.free → k.le (v i) c) :
    f.Ready m false (some k) (Function.update v i c) := by
  have hslots : ∀ j ∈ f.slots, v j = Function.update v i c j := fun j hj =>
    (Function.update_of_ne (ne_of_mem_of_not_mem hj hi) c v).symm
  by_cases hmem : i ∈ f.free
  · refine h.rise hf (fun j _ => ?_) hslots
    by_cases hji : j = i
    · rw [hji, Function.update_self]
      exact hle hmem
    · rw [Function.update_of_ne hji]
      exact k.le_refl _
  · exact h.congr ⟨fun j hj =>
      (Function.update_of_ne (ne_of_mem_of_not_mem hj hmem) c v).symm, hslots⟩

/-- The resets at a change of kind make ready what lies below, if they overlook nothing. -/
theorem Ready.renew {outer : List Nat} (houter : ∀ j ∈ outer, j ∈ opened) (hcovered : f.Covered k outer)
    (h : f.Ready m true (some k) v) (hkept : ∀ j ∈ f.keptSlots, v j = w j)
    (hreset : ∀ j ∈ f.affected k opened, w j = k.bottom) : f.Ready m false (some k) w := by
  induction f with
  | top | bot | var => trivial
  | and l r ihl ihr | or l r ihl ihr =>
    exact ⟨ihl hcovered.1 h.1 (fun j hj => hkept j (List.mem_append_left _ hj))
        fun j hj => hreset j (affected_subset (List.subset_append_left _ _) hj),
      ihr hcovered.2 h.2 (fun j hj => hkept j (List.mem_append_right _ hj))
        fun j hj => hreset j (affected_subset (List.subset_append_right _ _) hj)⟩
  | not f ih | diamond a f ih | box a f ih => exact ih hcovered h hkept hreset
  | fix k' x i f ih =>
    by_cases hclosed : (fix k' x i f).free = []
    · rw [keptSlots, if_pos hclosed] at hkept
      have hnot : ∀ renewed : Bool, ¬((fix k' x i f).free ≠ [] ∧
          (some k = some k'.opposite ∨ renewed = true)) := fun _ hopen => hopen.1 hclosed
      have h' : (fix k' x i f).Ready m false (some k) v := by
        rw [Ready, if_neg (hnot false)]
        rwa [Ready, if_neg (hnot true)] at h
      exact h'.congr ⟨by simp [hclosed], hkept⟩
    rw [keptSlots, if_neg hclosed] at hkept
    rw [Ready, if_pos ⟨hclosed, .inr rfl⟩] at h
    by_cases hkind : k' = k
    · subst hkind
      obtain ⟨hown, hcovered'⟩ := hcovered rfl hclosed
      rw [ready_fix_of_same]
      refine ⟨fun hmem => ?_, ih hcovered' h hkept fun j hj =>
        hreset j (affected_subset (List.subset_cons_self _ _) hj)⟩
      -- A variable out of `outer` is open, so the value was reset.
      obtain ⟨j, hj, hj'⟩ := hown hmem
      rw [hreset i (slot_mem_affected hj (houter j hj'))]
      exact ⟨k'.bottom_le _, k'.bottom_le _⟩
    · have hother : k = k'.opposite := FixKind.eq_opposite_of_ne (Ne.symm hkind)
      rw [Ready, if_pos ⟨hclosed, .inl (congrArg some hother)⟩]
      exact h.congr_renewed hkept

/-- A fixed point approximates itself. -/
theorem approximates_of_eq_denote (hpolar : f.Polar i true)
    (hi : w i = (fix k x i f).denote m w) : f.Approximates m k x i w := by
  have hfix : f.denote m (Function.update w i ((fix k x i f).denote m w)) =
      (fix k x i f).denote m w := FixKind.map_fixpoint (monotone_denote hpolar w)
  rw [← hi, Function.update_eq_self] at hfix
  intro _
  rw [hfix, ← hi]
  exact ⟨k.le_refl _, k.le_refl _⟩

/-- Without variables from outside there is nothing to reset on entry. -/
theorem affected_eq_nil (hclosed : (fix k x i f).free = []) (hapart : (fix k x i f).Apart)
    (hbelow : (fix k x i f).Below opened) : (fix k x i f).affected k opened = [] := by
  refine List.eq_nil_iff_forall_not_mem.2 fun j hj => ?_
  obtain ⟨b, hb, -, rfl⟩ := mem_affected.1 hj
  refine notMem_affected_of_mem_keptSlots hapart.nodup hbelow.slots ?_ hj
  rw [keptSlots, if_pos hclosed]
  exact mem_slots_of_mem_table hb

/-- What the rounds of a fixed point begin with is ready. -/
theorem Ready.onEntry {policy : ResetPolicy} (hpolicy : policy ≠ .always)
    (hapart : (fix k x i f).Apart) (hnone : (fix k x i f).NoneOverlooked policy around)
    (hbelow : (fix k x i f).Below opened) (h : (fix k x i f).Ready m false around v) :
    (fix k x i f).Frame v (onEntry policy k x i f around opened v) ∧
      f.Approximates m k x i (onEntry policy k x i f around opened v) ∧
      f.Ready m false (some k) (onEntry policy k x i f around opened v) := by
  by_cases hrenewed : (fix k x i f).free ≠ [] ∧ (around = some k.opposite ∨ false = true)
  · rw [Ready, if_pos hrenewed] at h
    obtain ⟨hopen, haround⟩ := hrenewed
    replace haround : around = some k.opposite := by simpa using haround
    obtain ⟨rfl, hcovered⟩ := hnone.1 haround hopen
    dsimp only [Formula.onEntry]
    rw [if_pos haround]
    refine ⟨fun j hj => if_neg fun hmem => ?_, fun _ => ?_,
      h.renew hbelow.free hcovered (fun j hj => (if_neg ?_).symm)
        fun j hj => if_pos (affected_subset (List.subset_cons_self _ _) hj)⟩
    · obtain ⟨b, hb, -, rfl⟩ := mem_affected.1 hmem
      exact hj (mem_slots_of_mem_table hb)
    · obtain ⟨j, hj⟩ := List.exists_mem_of_ne_nil _ hopen
      have hi : v.reset k ((fix k x i f).affected k opened) i = k.bottom :=
        if_pos (slot_mem_affected hj (hbelow.free j hj))
      rw [hi]
      exact ⟨k.bottom_le _, k.bottom_le _⟩
    · refine notMem_affected_of_mem_keptSlots hapart.nodup hbelow.slots ?_
      rwa [keptSlots, if_neg hopen]
  · have hsame : Formula.onEntry policy k x i f around opened v = v := by
      cases policy with
      | never => rfl
      | always => exact (hpolicy rfl).elim
      | alternation =>
        dsimp only [Formula.onEntry]
        split
        · next haround =>
          have hclosed : (fix k x i f).free = [] := by
            by_contra hopen
            exact hrenewed ⟨hopen, .inl haround⟩
          rw [affected_eq_nil hclosed hapart hbelow, Valuation.reset_nil]
        · rfl
    rw [Ready, if_neg hrenewed] at h
    rw [hsame]
    exact ⟨Frame.refl _ v, h⟩

/-- Evaluation from values that are ready computes the meaning, if the resets overlook nothing and no
negation turns a direction round. -/
theorem evaluate_aligned {policy : ResetPolicy} (hpolicy : policy ≠ .always) (hf : f.Balanced)
    (haligned : f.Aligned around) (hapart : f.Apart) (hnone : f.NoneOverlooked policy around) :
    f.Computes m policy around (f.Ready m false around) := by
  induction f generalizing around with
  | top | bot | var => exact fun _ v _ _ => ⟨v, rfl, Frame.refl _ v, trivial⟩
  | not f ih | diamond a f ih | box a f ih =>
    intro opened v hbelow hv
    obtain ⟨w, heval, hw, hready⟩ := ih hf haligned ⟨hapart.nodup, hapart.notMem⟩ hnone opened v
      ⟨hbelow.free, hbelow.slots⟩ hv
    exact ⟨w, by rw [evaluate, heval]; rfl, hw, hready⟩
  | and l r ihl ihr | or l r ihl ihr =>
    intro opened v hbelow hv
    obtain ⟨⟨hl, hr⟩, hlr, hrl⟩ := hapart.of_append rfl rfl
    obtain ⟨u, w, hleft, hright, hu, hw, hready⟩ :=
      (ihl hf.1 haligned.1 hl hnone.1).operands (ihr hf.2 haligned.2 hr hnone.2)
        (fun j hj => (hlr j hj).2)
        (fun v w hw h => h.congr (hw.same hlr hrl)) (fun v w hw h => h.congr (hw.same hrl hlr))
        (hbelow.of_append rfl rfl) hv
    exact ⟨w, by simp [evaluate, denote, hleft, hright], Frame.of_append rfl hu hw, hready⟩
  | fix k x i f ih =>
    refine (ih hf.2 haligned.2 hapart.body hnone.2).fix hf.1 hapart
      (fun opened v hbelow h => h.onEntry hpolicy hapart hnone hbelow)
      (fun w c hle h => h.update haligned.2 hapart.slot_notMem hle) fun w hi h => ?_
    rw [Ready]
    split
    · exact h.renewed
    · exact ⟨approximates_of_eq_denote hf.1 hi, h⟩

/-- Without negations there is none that turns a direction round. -/
theorem evaluate_ready {policy : ResetPolicy} (hpolicy : policy ≠ .always) (hf : f.NegationFree)
    (hapart : f.Apart) (hnone : f.NoneOverlooked policy around) :
    f.Computes m policy around (f.Ready m false around) :=
  evaluate_aligned hpolicy hf.balanced hf.aligned hapart hnone

end Formula

end ModalMu
