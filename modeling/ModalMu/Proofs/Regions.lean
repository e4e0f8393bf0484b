import Mathlib.Data.Set.Lattice
import ModalMu.Bitmap.Lemmas
import ModalMu.Evaluation.Modality
import ModalMu.Proofs.Adjacency

/-!
# Sets of states as plain sets

A region is a set of states without its representation. `Represents` ties a `StateSet` to the region it
stands for; each operation on state sets, and each modality on a system with a true index, is the
operation on regions that its name says. None of them faults on sets over one universe.
-/

namespace ModalMu

namespace StateSet

/-- The set is one over the universe `u`, well formed, and its members are those of `S`. -/
structure Represents (s : StateSet) (u : Universe) (S : Set (Fin u.size)) : Prop where
  carrier : s.carrier = u
  width : s.bits.width = u.size
  wellFormed : s.bits.WellFormed
  mem_iff : ∀ i : Fin u.size, s.bits.test i = true ↔ i ∈ S

variable {u : Universe} {s t : StateSet} {S T : Set (Fin u.size)}

theorem Represents.eq_bits (hs : s.Represents u S) (ht : t.Represents u S) : s.bits = t.bits := by
  apply Bitmap.eq_of_test_eq hs.wellFormed ht.wellFormed (hs.width.trans ht.width.symm)
  intro i hi
  rw [hs.width] at hi
  rw [Bool.eq_iff_iff, hs.mem_iff ⟨i, hi⟩, ht.mem_iff ⟨i, hi⟩]

/-- A region is represented in one way only. -/
theorem Represents.eq_set (hs : s.Represents u S) (ht : t.Represents u S) : s = t := by
  have hbits := hs.eq_bits ht
  have hcarrier := hs.carrier.trans ht.carrier.symm
  cases s
  cases t
  simp_all

/-- A set represents one region only. -/
theorem Represents.region_eq (hs : s.Represents u S) (ht : s.Represents u T) : S = T := by
  ext i
  rw [← hs.mem_iff, ← ht.mem_iff]

theorem represents_none (u : Universe) : (none u).Represents u ∅ where
  carrier := rfl
  width := rfl
  wellFormed := Bitmap.wellFormed_empty _
  mem_iff i := by simp [none]

theorem represents_all (u : Universe) : (all u).Represents u Set.univ where
  carrier := rfl
  width := rfl
  wellFormed := Bitmap.wellFormed_full _
  mem_iff i := by simp [all]

theorem Represents.clear (hs : s.Represents u S) : s.clear.Represents u ∅ where
  carrier := hs.carrier
  width := hs.width
  wellFormed := hs.wellFormed.clear
  mem_iff i := by simp [StateSet.clear]

theorem Represents.fill (hs : s.Represents u S) : s.fill.Represents u Set.univ where
  carrier := hs.carrier
  width := hs.width
  wellFormed := hs.wellFormed.fill
  mem_iff i := by simp [StateSet.fill, Bitmap.test_fill hs.wellFormed, hs.width]

theorem Represents.complement (hs : s.Represents u S) : s.complement.Represents u Sᶜ where
  carrier := hs.carrier
  width := hs.width
  wellFormed := hs.wellFormed.complement
  mem_iff i := by
    rw [StateSet.complement, Bitmap.test_complement hs.wellFormed, hs.width, Set.mem_compl_iff,
      ← hs.mem_iff]
    simp

/-! ## Two sets -/

theorem combine_eq {α : Type} (op : Bitmap → Bitmap → Except Fault α) (hs : s.Represents u S)
    (ht : t.Represents u T) : combine op s t = op s.bits t.bits := by
  unfold combine
  rw [hs.carrier, ht.carrier, if_pos]
  simp [Universe.same]

theorem Represents.inter (hs : s.Represents u S) (ht : t.Represents u T) :
    ∃ r, s.inter t = .ok r ∧ r.Represents u (S ∩ T) := by
  obtain ⟨c, hc⟩ : ∃ c, s.bits.inter t.bits = .ok c := by
    unfold Bitmap.inter Bitmap.zip
    rw [if_pos (hs.width.trans ht.width.symm)]
    exact ⟨_, rfl⟩
  obtain ⟨hwidth, hwf, htest⟩ := Bitmap.inter_eq_ok hs.wellFormed ht.wellFormed hc
  refine ⟨{ s with bits := c }, ?_, hs.carrier, hwidth.trans hs.width, hwf, fun i => ?_⟩
  · rw [StateSet.inter, combine_eq _ hs ht, hc]
    rfl
  · rw [htest, Bool.and_eq_true, hs.mem_iff, ht.mem_iff]
    rfl

theorem Represents.union (hs : s.Represents u S) (ht : t.Represents u T) :
    ∃ r, s.union t = .ok r ∧ r.Represents u (S ∪ T) := by
  obtain ⟨c, hc⟩ : ∃ c, s.bits.union t.bits = .ok c := by
    unfold Bitmap.union Bitmap.zip
    rw [if_pos (hs.width.trans ht.width.symm)]
    exact ⟨_, rfl⟩
  obtain ⟨hwidth, hwf, htest⟩ := Bitmap.union_eq_ok hs.wellFormed ht.wellFormed hc
  refine ⟨{ s with bits := c }, ?_, hs.carrier, hwidth.trans hs.width, hwf, fun i => ?_⟩
  · rw [StateSet.union, combine_eq _ hs ht, hc]
    rfl
  · rw [htest, Bool.or_eq_true, hs.mem_iff, ht.mem_iff]
    rfl

/-- Comparing two sets compares their regions. -/
theorem Represents.equal (hs : s.Represents u S) (ht : t.Represents u T) :
    ∃ same, s.equal t = .ok same ∧ (same = true ↔ S = T) := by
  refine ⟨s.bits == t.bits, ?_, ?_⟩
  · rw [StateSet.equal, combine_eq _ hs ht]
  · rw [beq_iff_eq]
    constructor
    · intro h
      ext i
      rw [← hs.mem_iff, ← ht.mem_iff, h]
    · rintro rfl
      exact hs.eq_bits ht

/-! ## Members -/

theorem Represents.mem_members (hs : s.Represents u S) (i : Nat) :
    i ∈ s.members ↔ ∃ h : i < u.size, (⟨i, h⟩ : Fin u.size) ∈ S := by
  rw [members, Bitmap.mem_members hs.wellFormed, hs.width]
  constructor
  · rintro ⟨hi, htest⟩
    exact ⟨hi, (hs.mem_iff ⟨i, hi⟩).1 htest⟩
  · rintro ⟨hi, hmem⟩
    exact ⟨hi, (hs.mem_iff ⟨i, hi⟩).2 hmem⟩

theorem Represents.insert (hs : s.Represents u S) (i : Fin u.size) :
    ∃ fresh r, s.insert i = .ok (fresh, r) ∧ r.Represents u (S ∪ {i}) := by
  obtain ⟨fresh, c, hc⟩ : ∃ fresh c, s.bits.insert i = .ok (fresh, c) := by
    have hi : (i : Nat) < s.bits.width := by rw [hs.width]; exact i.isLt
    unfold Bitmap.insert
    rw [if_pos hi]
    exact ⟨_, _, rfl⟩
  obtain ⟨-, -, hwidth, hwf, htest⟩ := Bitmap.insert_eq_ok hs.wellFormed hc
  refine ⟨fresh, ⟨s.carrier, c⟩, ?_, hs.carrier, hwidth.trans hs.width, hwf, fun j => ?_⟩
  · rw [StateSet.insert, hc]
    rfl
  · rw [htest]
    by_cases hji : j = i
    · simp [hji]
    · have hval : ¬(j : Nat) = i := fun h => hji (Fin.ext h)
      rw [if_neg hval, hs.mem_iff]
      simp [hji]

/-- A loop whose steps each add a region adds all of them. -/
theorem Represents.foldlM {α : Type} {f : StateSet → α → Except Fault StateSet}
    {g : α → Set (Fin u.size)} {l : List α}
    (hf : ∀ x ∈ l, ∀ {r : StateSet} {R : Set (Fin u.size)}, r.Represents u R →
      ∃ r', f r x = .ok r' ∧ r'.Represents u (R ∪ g x)) (hs : s.Represents u S) :
    ∃ r, l.foldlM f s = .ok r ∧ r.Represents u (S ∪ {i | ∃ x ∈ l, i ∈ g x}) := by
  induction l generalizing s S with
  | nil => exact ⟨s, rfl, by simpa using hs⟩
  | cons x l ih =>
    obtain ⟨s', hs', hrep⟩ := hf x List.mem_cons_self hs
    obtain ⟨r, hr, hrrep⟩ := ih (fun y hy => hf y (List.mem_cons_of_mem _ hy)) hrep
    refine ⟨r, ?_, ?_⟩
    · rw [List.foldlM_cons, hs']
      exact hr
    · have hset : S ∪ g x ∪ {i | ∃ y ∈ l, i ∈ g y} = S ∪ {i | ∃ y ∈ x :: l, i ∈ g y} := by
        ext i
        simp [or_assoc]
      rwa [hset] at hrrep

end StateSet

/-! ## Modalities -/

namespace TransitionSystem

/-- A set of states of the system. -/
abbrev Region (m : TransitionSystem) : Type := Set (Fin m.carrier.size)

/-- There is a step between two states whose label agrees with `a`. -/
def Step (m : TransitionSystem) (a : Label) (i j : Fin m.carrier.size) : Prop :=
  ∃ t ∈ m.transitions, t.source = i ∧ t.target = j ∧ a.agrees t.label = true

/-- The states with a step into a region. -/
def before (m : TransitionSystem) (a : Label) (S : m.Region) : m.Region :=
  {i | ∃ j ∈ S, m.Step a i j}

/-- The states all of whose steps lead into a region. -/
def within (m : TransitionSystem) (a : Label) (S : m.Region) : m.Region :=
  {i | ∀ j, m.Step a i j → j ∈ S}

variable {m : TransitionSystem}

theorem within_eq_compl (a : Label) (S : m.Region) : m.within a S = (m.before a Sᶜ)ᶜ := by
  ext i
  simp only [within, before, Set.mem_ofPred_eq, Set.mem_compl_iff, not_exists, not_and]
  constructor
  · intro h j hj hstep
    exact hj (h j hstep)
  · intro h j hstep
    by_contra hj
    exact h j hj hstep

theorem before_mono (a : Label) {S T : m.Region} (h : S ⊆ T) : m.before a S ⊆ m.before a T := by
  rintro i ⟨j, hj, hstep⟩
  exact ⟨j, h hj, hstep⟩

theorem within_mono (a : Label) {S T : m.Region} (h : S ⊆ T) : m.within a S ⊆ m.within a T :=
  fun _ hi j hstep => h (hi j hstep)

/-- The source of the transition at a position, if its label agrees with `a`. -/
def sourceAt (m : TransitionSystem) (a : Label) (position : Nat) : m.Region :=
  {i | ∃ t, m.transitions[position]? = some t ∧ t.source = i ∧ a.agrees t.label = true}

theorem addSource_eq_ok (hm : m.Indexed) (a : Label) {position : Nat}
    (hp : position < m.transitions.size) {s : StateSet} {S : m.Region}
    (hs : s.Represents m.carrier S) :
    ∃ r, m.addSource a s position = .ok r ∧
      r.Represents m.carrier (S ∪ m.sourceAt a position) := by
  have hget : m.transitions[position]? = some m.transitions[position] :=
    Array.getElem?_eq_getElem hp
  have hlookup : m.transition position = .ok m.transitions[position] :=
    Fault.lookup_eq_ok_iff.2 hget
  have hsource := (hm.inside _ (Array.getElem_mem hp)).1
  by_cases ha : a.agrees m.transitions[position].label = true
  · obtain ⟨fresh, r, hr, hrep⟩ := hs.insert ⟨_, hsource⟩
    refine ⟨r, ?_, ?_⟩
    · simp only [addSource, hlookup, bind, Except.bind, ha, if_true, hr]
    · have hset : m.sourceAt a position = {⟨m.transitions[position].source, hsource⟩} := by
        ext i
        constructor
        · rintro ⟨t, ht, hi, -⟩
          obtain rfl : _ = t := Option.some.inj (hget.symm.trans ht)
          exact Fin.ext hi.symm
        · rintro rfl
          exact ⟨_, hget, rfl, ha⟩
      rwa [hset]
  · refine ⟨s, ?_, ?_⟩
    · simp only [addSource, hlookup, bind, Except.bind, ha, if_false, Bool.false_eq_true]
    · have hset : m.sourceAt a position = ∅ := by
        ext i
        simp [sourceAt, hget, ha]
      rwa [hset, Set.union_empty]

/-- Adding the sources of the transitions that enter `j`. -/
theorem addSources_eq_ok (hm : m.Indexed) (a : Label) (j : Fin m.carrier.size) {s : StateSet}
    {S : m.Region} (hs : s.Represents m.carrier S) :
    ∃ r, m.addSources a s j = .ok r ∧
      r.Represents m.carrier (S ∪ {i | m.Step a i j}) := by
  have hget : m.carrier.states[j.val]? = some m.carrier.states[j.val] :=
    Array.getElem?_eq_getElem j.isLt
  have hlookup : m.carrier.state j = .ok m.carrier.states[j.val] := Fault.lookup_eq_ok_iff.2 hget
  have hentering := hm.entering j.val _ hget
  have hmem : ∀ p, p ∈ m.carrier.states[j.val].incoming.toList ↔
      ∃ t, m.transitions[p]? = some t ∧ t.target = j := by
    intro p
    rw [hentering, Transition.mem_positions]
    simp
  obtain ⟨r, hr, hrep⟩ := hs.foldlM (f := m.addSource a) (g := m.sourceAt a)
    (l := m.carrier.states[j.val].incoming.toList) (fun p hp {_ _} hrep => by
      obtain ⟨t, ht, -⟩ := (hmem p).1 hp
      exact addSource_eq_ok hm a (Array.getElem?_eq_some_iff.1 ht).1 hrep)
  refine ⟨r, ?_, ?_⟩
  · simp only [addSources, hlookup, bind, Except.bind]
    exact hr
  · have hset : {i | ∃ p ∈ m.carrier.states[j.val].incoming.toList, i ∈ m.sourceAt a p} =
        {i | m.Step a i j} := by
      ext i
      constructor
      · rintro ⟨p, hp, t, ht, hsource, ha⟩
        obtain ⟨t', ht', htarget⟩ := (hmem p).1 hp
        obtain rfl : t = t' := Option.some.inj (ht.symm.trans ht')
        exact ⟨t, Array.mem_of_getElem? ht, hsource, htarget, ha⟩
      · rintro ⟨t, ht, hsource, htarget, ha⟩
        obtain ⟨p, hp⟩ := Array.mem_iff_getElem?.1 ht
        exact ⟨p, (hmem p).2 ⟨t, hp, htarget⟩, t, hp, hsource, ha⟩
    rwa [hset] at hrep

/-- Adding the sources of the transitions that enter the states of a list. -/
theorem foldlM_addSources_eq_ok (hm : m.Indexed) (a : Label) {targets : List Nat}
    (htargets : ∀ j ∈ targets, j < m.carrier.size) {s : StateSet} {S : m.Region}
    (hs : s.Represents m.carrier S) :
    ∃ r, targets.foldlM (m.addSources a) s = .ok r ∧ r.Represents m.carrier
      (S ∪ {i | ∃ j : Fin m.carrier.size, (j : Nat) ∈ targets ∧ m.Step a i j}) := by
  obtain ⟨r, hr, hrep⟩ := hs.foldlM (f := m.addSources a)
    (g := fun j => {i | ∃ h : j < m.carrier.size, m.Step a i ⟨j, h⟩}) (l := targets)
    (fun j hj {_ _} hrep => by
      have hlt := htargets j hj
      obtain ⟨r, hr, hrep'⟩ := addSources_eq_ok hm a ⟨j, hlt⟩ hrep
      exact ⟨r, hr, by simpa [hlt] using hrep'⟩)
  refine ⟨r, hr, ?_⟩
  have hset : {i | ∃ j ∈ targets, i ∈ {i | ∃ h : j < m.carrier.size, m.Step a i ⟨j, h⟩}} =
      {i | ∃ j : Fin m.carrier.size, (j : Nat) ∈ targets ∧ m.Step a i j} := by
    ext i
    constructor
    · rintro ⟨j, hj, hlt, hstep⟩
      exact ⟨⟨j, hlt⟩, hj, hstep⟩
    · rintro ⟨j, hj, hstep⟩
      exact ⟨j, hj, j.isLt, hstep⟩
  rwa [hset] at hrep

theorem preimage_eq_ok (hm : m.Indexed) (a : Label) {s : StateSet} {S : m.Region}
    (hs : s.Represents m.carrier S) :
    ∃ r, m.preimage a s = .ok r ∧ r.Represents m.carrier (m.before a S) := by
  have hmem : ∀ j : Fin m.carrier.size, (j : Nat) ∈ s.members ↔ j ∈ S := fun j => by
    simp [hs.mem_members]
  obtain ⟨r, hr, hrep⟩ := foldlM_addSources_eq_ok hm a
    (fun j hj => ((hs.mem_members j).1 hj).1) (StateSet.represents_none m.carrier)
  simp only [Set.empty_union, hmem] at hrep
  exact ⟨r, hr, hrep⟩

theorem diamond_eq_ok (hm : m.Indexed) (a : Label) {s : StateSet} {S : m.Region}
    (hs : s.Represents m.carrier S) :
    ∃ r, m.diamond a s = .ok r ∧ r.Represents m.carrier (m.before a S) :=
  preimage_eq_ok hm a hs

theorem boxed_eq_ok (hm : m.Indexed) (a : Label) {s : StateSet} {S : m.Region}
    (hs : s.Represents m.carrier S) :
    ∃ r, m.boxed a s = .ok r ∧ r.Represents m.carrier (m.within a S) := by
  obtain ⟨r, hr, hrep⟩ := preimage_eq_ok hm a hs.complement
  refine ⟨r.complement, ?_, ?_⟩
  · rw [boxed, hr]
    rfl
  · rw [within_eq_compl]
    exact hrep.complement

end TransitionSystem

end ModalMu
