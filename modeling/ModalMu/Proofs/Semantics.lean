import Mathlib.Data.Set.Card
import Mathlib.Order.CompletePartialOrder
import ModalMu.Proofs.Binding
import ModalMu.Proofs.Regions

/-!
# The meaning of formulas

`Formula.denote` gives the region of a formula under values of its free variables. A least fixed point
is the intersection of the regions that the body maps into themselves, a greatest one the union of
those that lie inside their image; for a monotone body these are its least and its greatest fixed point
(`isLeast_fixpoint`).

Both kinds are treated alike: `k.le S T` says that `T` is further than `S` in the direction in which a
fixed point of kind `k` is approached, from `k.bottom` on.
-/

namespace ModalMu

namespace FixKind

variable {α : Type} {k : FixKind} {R S T : Set α} {F G : Set α → Set α}

/-- `T` is as far as `S`, or further, in the direction of the kind. -/
def le (k : FixKind) (S T : Set α) : Prop :=
  match k with
  | least => S ⊆ T
  | greatest => T ⊆ S

/-- Where the approach to a fixed point starts. -/
def bottom : FixKind → Set α
  | least => ∅
  | greatest => Set.univ

/-- The least or the greatest fixed point of a monotone map. -/
def fixpoint (k : FixKind) (F : Set α → Set α) : Set α :=
  match k with
  | least => ⋂₀ {S | F S ⊆ S}
  | greatest => ⋃₀ {S | S ⊆ F S}

theorem le_refl (k : FixKind) (S : Set α) : k.le S S := by
  cases k <;> exact Set.Subset.rfl

theorem le_of_eq (h : S = T) : k.le S T := h ▸ le_refl k S

theorem le_trans (hRS : k.le R S) (hST : k.le S T) : k.le R T := by
  cases k
  · exact Set.Subset.trans hRS hST
  · exact Set.Subset.trans hST hRS

theorem le_antisymm (hST : k.le S T) (hTS : k.le T S) : S = T := by
  cases k
  · exact Set.Subset.antisymm hST hTS
  · exact Set.Subset.antisymm hTS hST

theorem bottom_le (k : FixKind) (S : Set α) : k.le k.bottom S := by
  cases k
  · exact Set.empty_subset S
  · exact Set.subset_univ S

@[simp] theorem opposite_le : k.opposite.le S T ↔ k.le T S := by
  cases k <;> rfl

theorem le_bottom_opposite (k : FixKind) (S : Set α) : k.le S k.opposite.bottom := by
  rw [← opposite_le]
  exact bottom_le _ S

theorem le_of_monotone (hF : Monotone F) (h : k.le S T) : k.le (F S) (F T) := by
  cases k
  · exact hF h
  · exact hF h

theorem fixpoint_le (h : k.le (F S) S) : k.le (k.fixpoint F) S := by
  cases k
  · exact Set.sInter_subset_of_mem h
  · exact Set.subset_sUnion_of_mem h

theorem le_fixpoint_of_forall (h : ∀ T, k.le (F T) T → k.le S T) : k.le S (k.fixpoint F) := by
  cases k
  · exact Set.subset_sInter h
  · exact Set.sUnion_subset h

theorem map_fixpoint (hF : Monotone F) : F (k.fixpoint F) = k.fixpoint F := by
  have hle : k.le (F (k.fixpoint F)) (k.fixpoint F) :=
    le_fixpoint_of_forall fun T hT => le_trans (le_of_monotone hF (fixpoint_le hT)) hT
  exact le_antisymm hle (fixpoint_le (le_of_monotone hF hle))

/-- Of all fixed points it is the first one in the direction of the kind. -/
theorem isLeast_fixpoint (hF : Monotone F) :
    F (k.fixpoint F) = k.fixpoint F ∧ ∀ S, F S = S → k.le (k.fixpoint F) S :=
  ⟨map_fixpoint hF, fun _ hS => fixpoint_le (le_of_eq hS)⟩

theorem fixpoint_subset (h : ∀ S, F S ⊆ G S) : k.fixpoint F ⊆ k.fixpoint G := by
  cases k
  · exact Set.sInter_subset_sInter fun S hS => (h S).trans hS
  · exact Set.sUnion_subset_sUnion fun S hS => Set.Subset.trans hS (h S)

/-! ## How far a set is -/

/-- The number of steps that lead to a set at most. -/
noncomputable def extent (k : FixKind) (S : Set α) : Nat :=
  match k with
  | least => S.ncard
  | greatest => Sᶜ.ncard

variable [Finite α]

theorem extent_le (k : FixKind) (S : Set α) : k.extent S ≤ Nat.card α := by
  cases k <;> exact Set.ncard_le_card _

theorem extent_lt (h : k.le S T) (hne : S ≠ T) : k.extent S < k.extent T := by
  cases k
  · exact Set.ncard_lt_ncard (Set.ssubset_iff_subset_ne.2 ⟨h, hne⟩)
  · exact Set.ncard_lt_ncard (Set.ssubset_iff_subset_ne.2
      ⟨Set.compl_subset_compl.2 h, fun heq => hne (compl_injective heq)⟩)

end FixKind

/-! ## Denotation -/

namespace Formula

/-- A value for every slot. -/
abbrev Valuation (m : TransitionSystem) : Type := Nat → m.Region

/-- The states where a formula holds. -/
def denote (m : TransitionSystem) : Formula → Valuation m → m.Region
  | top, _ => Set.univ
  | bot, _ => ∅
  | and l r, v => l.denote m v ∩ r.denote m v
  | or l r, v => l.denote m v ∪ r.denote m v
  | not f, v => (f.denote m v)ᶜ
  | diamond a f, v => m.before a (f.denote m v)
  | box a f, v => m.within a (f.denote m v)
  | fix k _ i f, v => k.fixpoint fun S => f.denote m (Function.update v i S)
  | var _ i, v => v i

/-- Every variable kept at `i` stands below an even number of negations if `even`, else below an odd
one. -/
def Polar (i : Nat) : (even : Bool) → Formula → Prop
  | _, top | _, bot => True
  | even, and l r | even, or l r => l.Polar i even ∧ r.Polar i even
  | even, not f => f.Polar i !even
  | even, diamond _ f | even, box _ f | even, fix _ _ _ f => f.Polar i even
  | even, var _ j => j = i → even = true

/-- Every variable stands below an even number of negations inside the fixed point that binds it. -/
def Balanced : Formula → Prop
  | top | bot | var _ _ => True
  | and l r | or l r => l.Balanced ∧ r.Balanced
  | not f | diamond _ f | box _ f => f.Balanced
  | fix _ _ i f => f.Polar i true ∧ f.Balanced

/-- There is no negation. -/
def NegationFree : Formula → Prop
  | top | bot | var _ _ => True
  | and l r | or l r => l.NegationFree ∧ r.NegationFree
  | not _ => False
  | diamond _ f | box _ f | fix _ _ _ f => f.NegationFree

instance decidablePolar (i : Nat) : (even : Bool) → (f : Formula) → Decidable (f.Polar i even)
  | _, top | _, bot => inferInstanceAs (Decidable True)
  | even, and l r | even, or l r =>
    have := decidablePolar i even l
    have := decidablePolar i even r
    inferInstanceAs (Decidable (l.Polar i even ∧ r.Polar i even))
  | even, not f => decidablePolar i (!even) f
  | even, diamond _ f | even, box _ f | even, fix _ _ _ f => decidablePolar i even f
  | even, var _ j => inferInstanceAs (Decidable (j = i → even = true))

instance decidableBalanced : (f : Formula) → Decidable f.Balanced
  | top | bot | var _ _ => inferInstanceAs (Decidable True)
  | and l r | or l r =>
    have := decidableBalanced l
    have := decidableBalanced r
    inferInstanceAs (Decidable (l.Balanced ∧ r.Balanced))
  | not f | diamond _ f | box _ f => decidableBalanced f
  | fix _ _ i f =>
    have := decidableBalanced f
    inferInstanceAs (Decidable (f.Polar i true ∧ f.Balanced))

instance decidableNegationFree : (f : Formula) → Decidable f.NegationFree
  | top | bot | var _ _ => inferInstanceAs (Decidable True)
  | and l r | or l r =>
    have := decidableNegationFree l
    have := decidableNegationFree r
    inferInstanceAs (Decidable (l.NegationFree ∧ r.NegationFree))
  | not _ => inferInstanceAs (Decidable False)
  | diamond _ f | box _ f | fix _ _ _ f => decidableNegationFree f

theorem NegationFree.polar {f : Formula} (hf : f.NegationFree) (i : Nat) : f.Polar i true := by
  induction f with
  | top | bot => trivial
  | var => exact fun _ => rfl
  | and l r ihl ihr | or l r ihl ihr => exact ⟨ihl hf.1, ihr hf.2⟩
  | not => exact hf.elim
  | diamond a f ih | box a f ih | fix k x j f ih => exact ih hf

theorem NegationFree.balanced {f : Formula} (hf : f.NegationFree) : f.Balanced := by
  induction f with
  | top | bot | var => trivial
  | and l r ihl ihr | or l r ihl ihr => exact ⟨ihl hf.1, ihr hf.2⟩
  | not => exact hf.elim
  | diamond a f ih | box a f ih => exact ih hf
  | fix k x j f ih => exact ⟨NegationFree.polar hf j, ih hf⟩

variable {m : TransitionSystem} {f : Formula} {v w : Valuation m}

/-- What relates two valuations outside a fixed point relates them inside, with related values of its
variable. -/
theorem forall_mem_free_update {R : Nat → m.Region → m.Region → Prop} {k : FixKind} {x : Char} {i : Nat}
    (hfree : ∀ j ∈ (fix k x i f).free, R j (v j) (w j)) {S T : m.Region}
    (hi : i ∈ f.free → R i S T) :
    ∀ j ∈ f.free, R j (Function.update v i S j) (Function.update w i T j) := by
  intro j hj
  by_cases hji : j = i
  · subst hji
    rw [Function.update_self, Function.update_self]
    exact hi hj
  · rw [Function.update_of_ne hji, Function.update_of_ne hji]
    exact hfree j (mem_free_fix.2 ⟨hj, hji⟩)

/-- A formula rises with the variables below an even number of negations and falls with the others. -/
theorem denote_mono (even : Bool)
    (h : ∀ i ∈ f.free, v i = w i ∨ f.Polar i even ∧ v i ⊆ w i) :
    if even then f.denote m v ⊆ f.denote m w else f.denote m w ⊆ f.denote m v := by
  induction f generalizing v w even with
  | top | bot => cases even <;> exact Set.Subset.rfl
  | var x i =>
    rcases h i List.mem_cons_self with heq | ⟨hpolar, hle⟩
    · cases even <;> simp [denote, heq]
    · rw [if_pos (hpolar rfl)]
      exact hle
  | and l r ihl ihr =>
    have hl := ihl even fun i hi => (h i (List.mem_append_left _ hi)).imp_right fun h => ⟨h.1.1, h.2⟩
    have hr := ihr even fun i hi => (h i (List.mem_append_right _ hi)).imp_right fun h => ⟨h.1.2, h.2⟩
    cases even <;> exact Set.inter_subset_inter hl hr
  | or l r ihl ihr =>
    have hl := ihl even fun i hi => (h i (List.mem_append_left _ hi)).imp_right fun h => ⟨h.1.1, h.2⟩
    have hr := ihr even fun i hi => (h i (List.mem_append_right _ hi)).imp_right fun h => ⟨h.1.2, h.2⟩
    cases even <;> exact Set.union_subset_union hl hr
  | not f ih =>
    have hf := ih (!even) h
    cases even <;> exact Set.compl_subset_compl.2 hf
  | diamond a f ih =>
    have hf := ih even h
    cases even <;> exact TransitionSystem.before_mono a hf
  | box a f ih =>
    have hf := ih even h
    cases even <;> exact TransitionSystem.within_mono a hf
  | fix k x i f ih =>
    have hf : ∀ S, if even
        then f.denote m (Function.update v i S) ⊆ f.denote m (Function.update w i S)
        else f.denote m (Function.update w i S) ⊆ f.denote m (Function.update v i S) := by
      intro S
      refine ih even ?_
      exact forall_mem_free_update (R := fun j S T => S = T ∨ f.Polar j even ∧ S ⊆ T) h
        fun _ => .inl rfl
    cases even <;> exact FixKind.fixpoint_subset hf

/-- The meaning depends on the free variables only. -/
theorem denote_congr (h : ∀ i ∈ f.free, v i = w i) : f.denote m v = f.denote m w :=
  Set.Subset.antisymm (denote_mono true fun i hi => .inl (h i hi))
    (denote_mono true fun i hi => .inl (h i hi).symm)

theorem denote_update_of_notMem {i : Nat} (hi : i ∉ f.free) (S : m.Region) :
    f.denote m (Function.update v i S) = f.denote m v :=
  denote_congr fun _ hj => Function.update_of_ne (ne_of_mem_of_not_mem hj hi) S v

/-- The body of a fixed point is monotone in its variable. -/
theorem monotone_denote {i : Nat} (hf : f.Polar i true) (v : Valuation m) :
    Monotone fun S => f.denote m (Function.update v i S) := by
  intro S T hST
  refine denote_mono true fun j _ => ?_
  by_cases hji : j = i
  · subst hji
    rw [Function.update_self, Function.update_self]
    exact .inr ⟨hf, hST⟩
  · rw [Function.update_of_ne hji, Function.update_of_ne hji]
    exact .inl rfl

/-- If all variables stand below an even number of negations, the meaning moves in the direction in
which they move. -/
theorem denote_le (hf : ∀ i ∈ f.free, f.Polar i true) {d : FixKind}
    (h : ∀ i ∈ f.free, d.le (v i) (w i)) : d.le (f.denote m v) (f.denote m w) := by
  cases d
  · exact denote_mono true fun i hi => .inr ⟨hf i hi, h i hi⟩
  · exact denote_mono true fun i hi => .inr ⟨hf i hi, h i hi⟩

end Formula

/-- The states where a sentence holds. -/
def Sentence.meaning (m : TransitionSystem) (p : Sentence) : m.Region := p.root.denote m fun _ => ∅

theorem Sentence.WellFormed.denote_root {p : Sentence} (h : p.WellFormed) (m : TransitionSystem)
    (v : Formula.Valuation m) : p.root.denote m v = p.meaning m :=
  Formula.denote_congr fun i hi => by simp [h.free_eq_nil] at hi

end ModalMu
