import Mathlib.Order.Bounds.Basic
import ModalMu.Proofs.PlainSets

/-!
# What the modalities compute

`diamond` and `boxed` go backwards from the members of their target, which may be a set over another
universe than that of the system. They compute what their relational definitions say
(`modalities_relational`):

1. Going backwards gives the sources of the transitions into the target, or it faults at the first number
   that is not one of a state (`preimage_cases`).
2. `boxed` looks at the complement of its target, in the universe of the target. So it faults where a number
   beyond the states is missing in the target, and for it a transition may also lead beyond that universe.
3. The outcome is determined by the set of the transitions: their order and repetitions do not matter.
-/

namespace ModalMu

/-- The transition can be taken where a step with the label `a` is asked for. -/
def Transition.Answers (t : Transition) (a : Label) : Prop :=
  a = .wildcard ∨ t.label = .wildcard ∨ t.label = a

theorem Transition.answers_iff {t : Transition} {a : Label} :
    t.Answers a ↔ a.agrees t.label = true := by
  unfold Answers
  rw [Label.agrees_iff, eq_comm (a := a) (b := t.label)]

namespace StateSet

variable {s t : StateSet} {u : Universe}

theorem Over.mem_complement (h : s.Over u) {j : Nat} :
    j ∈ s.complement.members ↔ j < u.size ∧ j ∉ s.members := by
  rw [h.represents.complement.mem_members, h.represents.mem_members]
  constructor
  · rintro ⟨hj, hnot⟩
    exact ⟨hj, fun ⟨_, hmem⟩ => hnot hmem⟩
  · rintro ⟨hj, hnot⟩
    exact ⟨hj, fun hmem => hnot ⟨hj, hmem⟩⟩

theorem Over.complement (h : s.Over u) : s.complement.Over u := h.represents.complement.over

theorem Over.complement_complement (h : s.Over u) : s.complement.complement = s := by
  have hs := h.represents.complement.complement
  rw [compl_compl] at hs
  exact hs.eq_set h.represents

/-- Sets over universes of one size with the same members have the same bits. -/
theorem Over.bits_eq {v : Universe} (hs : s.Over u) (ht : t.Over v) (hsize : v.size = u.size)
    (hmem : ∀ i, i ∈ s.members ↔ i ∈ t.members) : s.bits = t.bits := by
  have hwidth : s.bits.width = t.bits.width := by rw [hs.width, ht.width, hsize]
  refine Bitmap.eq_of_test_eq hs.wellFormed ht.wellFormed hwidth fun i hi => ?_
  have hi' : i < t.bits.width := hwidth ▸ hi
  have h := hmem i
  unfold StateSet.members at h
  rw [Bitmap.mem_members hs.wellFormed, Bitmap.mem_members ht.wellFormed] at h
  rw [Bool.eq_iff_iff]
  simpa [hi, hi'] using h

end StateSet

namespace TransitionSystem

variable {m : TransitionSystem} {a : Label} {s r : StateSet} {u : Universe}

/-! ## Going backwards -/

/-- The first number that is not one of a state stops the walk. -/
theorem preimage_eq_error (hm : m.Indexed) (a : Label) (hs : s.Over u) {j : Nat}
    (hj : IsLeast {j | j ∈ s.members ∧ m.numStates ≤ j} j) :
    m.preimage a s = .error (.indexOutOfBounds m.numStates j) := by
  obtain ⟨⟨hmem, hout⟩, hleast⟩ := hj
  obtain ⟨before, behind, hsplit⟩ := List.append_of_mem hmem
  -- Members come in ascending order, so all of those before `j` are states.
  have hsorted : (before ++ j :: behind).Pairwise (· < ·) := by
    rw [← hsplit]
    exact Bitmap.members_pairwise hs.wellFormed
  have hbefore : ∀ i ∈ before, i < m.carrier.size := by
    intro i hi
    have hlt : i < j := (List.pairwise_append.1 hsorted).2.2 i hi j List.mem_cons_self
    have hmem : i ∈ s.members := by
      rw [hsplit]
      exact List.mem_append_left _ hi
    by_contra hge
    have hle : j ≤ i := hleast ⟨hmem, Nat.le_of_not_lt hge⟩
    omega
  obtain ⟨r, hr, -⟩ :=
    foldlM_addSources_eq_ok hm a hbefore (StateSet.represents_none m.carrier)
  have hlookup : m.carrier.state j = .error (.indexOutOfBounds m.numStates j) :=
    Fault.lookup_eq_error_iff.2 ⟨hout, rfl⟩
  unfold preimage
  rw [hsplit, List.foldlM_append, hr]
  show m.addSources a r j >>= _ = _
  rw [addSources, hlookup]
  rfl

/-- Going backwards gives the states with a step into the target, if all its members are states, and
else faults at the first one that is not. -/
theorem preimage_cases (hm : m.Indexed) (a : Label) (hs : s.Over u) :
    (∀ j ∈ s.members, j < m.numStates) ∧ (∃ r, m.preimage a s = .ok r ∧ r.Over m.carrier ∧
      ∀ i, i ∈ r.members ↔ i < m.numStates ∧
        ∃ t ∈ m.transitions, t.source = i ∧ t.Answers a ∧ t.target ∈ s.members) ∨
    ∃ j, IsLeast {j | j ∈ s.members ∧ m.numStates ≤ j} j ∧
      m.preimage a s = .error (.indexOutOfBounds m.numStates j) := by
  classical
  by_cases hinside : ∀ j ∈ s.members, j < m.numStates
  · obtain ⟨r, hr, hrep⟩ :=
      foldlM_addSources_eq_ok hm a hinside (StateSet.represents_none m.carrier)
    refine .inl ⟨hinside, r, hr, hrep.over, fun i => ?_⟩
    rw [hrep.mem_members]
    constructor
    · rintro ⟨hi, hempty | ⟨j, hj, t, ht, hsource, htarget, hagrees⟩⟩
      · exact hempty.elim
      · exact ⟨hi, t, ht, hsource, Transition.answers_iff.2 hagrees, htarget ▸ hj⟩
    · rintro ⟨hi, t, ht, hsource, hanswers, htarget⟩
      exact ⟨hi, .inr ⟨⟨t.target, (hm.inside t ht).2⟩, htarget, t, ht, hsource, rfl,
        Transition.answers_iff.1 hanswers⟩⟩
  · have hout : ∃ j, j ∈ s.members ∧ m.numStates ≤ j := by simpa using hinside
    have hleast : IsLeast {j | j ∈ s.members ∧ m.numStates ≤ j} (Nat.find hout) :=
      ⟨Nat.find_spec hout, fun _ hj => Nat.find_min' hout hj⟩
    exact .inr ⟨Nat.find hout, hleast, preimage_eq_error hm a hs hleast⟩

theorem preimage_eq_error_iff (hm : m.Indexed) (a : Label) (hs : s.Over u) {f : Fault} :
    m.preimage a s = .error f ↔ ∃ j, IsLeast {j | j ∈ s.members ∧ m.numStates ≤ j} j ∧
      f = .indexOutOfBounds m.numStates j := by
  constructor
  · intro h
    rcases preimage_cases hm a hs with ⟨-, r, hr, -⟩ | ⟨j, hj, hr⟩
    · cases hr.symm.trans h
    · cases hr.symm.trans h
      exact ⟨j, hj, rfl⟩
  · rintro ⟨j, hj, rfl⟩
    exact preimage_eq_error hm a hs hj

theorem exists_preimage_eq_ok (hm : m.Indexed) (a : Label) (hs : s.Over u)
    (hinside : ∀ j ∈ s.members, j < m.numStates) :
    ∃ r, m.preimage a s = .ok r ∧ r.Over m.carrier ∧ ∀ i, i ∈ r.members ↔ i < m.numStates ∧
      ∃ t ∈ m.transitions, t.source = i ∧ t.Answers a ∧ t.target ∈ s.members := by
  rcases preimage_cases hm a hs with ⟨-, h⟩ | ⟨j, ⟨⟨hmem, hout⟩, -⟩, -⟩
  · exact h
  · exact absurd (hinside j hmem) (Nat.not_lt.2 hout)

/-! ## The two modalities -/

theorem boxed_eq (m : TransitionSystem) (a : Label) (s : StateSet) :
    m.boxed a s = (m.diamond a s.complement).map StateSet.complement := by
  unfold boxed diamond
  cases m.preimage a s.complement <;> rfl

theorem boxed_eq_error_iff (hm : m.Indexed) (a : Label) (hs : s.Over u) {f : Fault} :
    m.boxed a s = .error f ↔
      ∃ j, IsLeast {j | m.numStates ≤ j ∧ j < u.size ∧ j ∉ s.members} j ∧
        f = .indexOutOfBounds m.numStates j := by
  have hset : {j | j ∈ s.complement.members ∧ m.numStates ≤ j} =
      {j | m.numStates ≤ j ∧ j < u.size ∧ j ∉ s.members} := by
    ext j
    show j ∈ s.complement.members ∧ m.numStates ≤ j ↔ _
    rw [hs.mem_complement, and_comm]
    rfl
  rw [← hset, ← preimage_eq_error_iff hm a hs.complement, boxed_eq]
  unfold diamond
  cases m.preimage a s.complement <;> simp [Except.map]

theorem exists_boxed_eq_ok (hm : m.Indexed) (a : Label) (hs : s.Over u)
    (hbeyond : ∀ j, m.numStates ≤ j → j < u.size → j ∈ s.members) :
    ∃ r, m.boxed a s = .ok r ∧ r.Over m.carrier ∧ ∀ i, i ∈ r.members ↔ i < m.numStates ∧
      ∀ t ∈ m.transitions, t.source = i → t.Answers a → t.target ∈ s.members ∨ u.size ≤ t.target := by
  have hinside : ∀ j ∈ s.complement.members, j < m.numStates := by
    intro j hj
    obtain ⟨hlt, hnot⟩ := hs.mem_complement.1 hj
    by_contra hge
    exact hnot (hbeyond j (Nat.le_of_not_lt hge) hlt)
  obtain ⟨r, hr, hover, hmem⟩ := exists_preimage_eq_ok hm a hs.complement hinside
  refine ⟨r.complement, ?_, hover.complement, fun i => ?_⟩
  · rw [boxed_eq, diamond, hr]
    rfl
  · rw [hover.mem_complement, hmem]
    refine and_congr_right fun hi => ?_
    constructor
    · intro hnone t ht hsource hanswers
      by_contra hmiss
      obtain ⟨hnot, hlt⟩ := not_or.1 hmiss
      exact hnone ⟨hi, t, ht, hsource, hanswers, hs.mem_complement.2 ⟨Nat.lt_of_not_le hlt, hnot⟩⟩
    · rintro hall ⟨-, t, ht, hsource, hanswers, htarget⟩
      obtain ⟨hlt, hnot⟩ := hs.mem_complement.1 htarget
      rcases hall t ht hsource hanswers with h | h
      · exact hnot h
      · omega

/-- Systems of one size with the same set of transitions go backwards alike. -/
theorem map_bits_preimage_eq {m' : TransitionSystem} (hm : m.Indexed) (hm' : m'.Indexed)
    (hsize : m'.numStates = m.numStates) (hsame : ∀ t, t ∈ m'.transitions ↔ t ∈ m.transitions)
    (a : Label) (hs : s.Over u) :
    (m'.preimage a s).map (·.bits) = (m.preimage a s).map (·.bits) := by
  rcases preimage_cases hm a hs with ⟨hinside, r, hr, hover, hmem⟩ | ⟨j, hj, hr⟩
  · obtain ⟨r', hr', hover', hmem'⟩ :=
      exists_preimage_eq_ok hm' a hs fun j hj => hsize ▸ hinside j hj
    rw [hr, hr']
    refine congrArg Except.ok (hover'.bits_eq hover hsize.symm fun i => ?_)
    rw [hmem', hmem, hsize]
    simp only [hsame]
  · rw [← hsize] at hj hr
    rw [hr, preimage_eq_error hm' a hs hj]

theorem map_bits_boxed (m : TransitionSystem) (a : Label) (s : StateSet) :
    (m.boxed a s).map (·.bits) = ((m.preimage a s.complement).map (·.bits)).map Bitmap.complement := by
  unfold boxed
  cases m.preimage a s.complement <;> rfl

end TransitionSystem

/-- The modalities compute their relational definitions, on a target over any universe `u`. `diamond`
faults exactly if the target has a member that is no state, at the first one, and else gives the states
with a transition into it; `boxed` faults exactly if a number of `u` beyond the states is missing in the
target, and else gives the states all of whose transitions lead into it or beyond `u`. Over the states of
the system each is the dual of the other. Both depend on the set of the transitions only. -/
theorem modalities_relational {b : Blueprint} {tag : Nat} {m : TransitionSystem}
    (hm : b.build tag = .ok m) (a : Label) {u : Universe} {s : StateSet} (hs : s.Over u) :
    (∀ f, m.diamond a s = .error f ↔
      ∃ j, IsLeast {j | j ∈ s.members ∧ m.numStates ≤ j} j ∧ f = .indexOutOfBounds m.numStates j) ∧
    ((∀ j ∈ s.members, j < m.numStates) →
      ∃ r, m.diamond a s = .ok r ∧ r.Over m.carrier ∧ ∀ i, i ∈ r.members ↔ i < m.numStates ∧
        ∃ t ∈ m.transitions, t.source = i ∧ t.Answers a ∧ t.target ∈ s.members) ∧
    (∀ f, m.boxed a s = .error f ↔
      ∃ j, IsLeast {j | m.numStates ≤ j ∧ j < u.size ∧ j ∉ s.members} j ∧
        f = .indexOutOfBounds m.numStates j) ∧
    ((∀ j, m.numStates ≤ j → j < u.size → j ∈ s.members) →
      ∃ r, m.boxed a s = .ok r ∧ r.Over m.carrier ∧ ∀ i, i ∈ r.members ↔ i < m.numStates ∧
        ∀ t ∈ m.transitions, t.source = i → t.Answers a → t.target ∈ s.members ∨ u.size ≤ t.target) ∧
    (u = m.carrier → m.boxed a s = (m.diamond a s.complement).map StateSet.complement ∧
      m.diamond a s = (m.boxed a s.complement).map StateSet.complement) ∧
    ∀ (b' : Blueprint) (tag' : Nat) (m' : TransitionSystem), b'.build tag' = .ok m' →
      m'.numStates = m.numStates → (∀ t, t ∈ m'.transitions ↔ t ∈ m.transitions) →
      (m'.diamond a s).map (·.bits) = (m.diamond a s).map (·.bits) ∧
      (m'.boxed a s).map (·.bits) = (m.boxed a s).map (·.bits) := by
  have hindexed : m.Indexed := (Blueprint.build_eq_ok hm).2.2
  refine ⟨fun f => TransitionSystem.preimage_eq_error_iff hindexed a hs,
    TransitionSystem.exists_preimage_eq_ok hindexed a hs,
    fun f => TransitionSystem.boxed_eq_error_iff hindexed a hs,
    TransitionSystem.exists_boxed_eq_ok hindexed a hs, ?_, ?_⟩
  · rintro rfl
    obtain ⟨r, hr, hover⟩ := TransitionSystem.diamond_eq_ok hindexed a hs.represents
    refine ⟨TransitionSystem.boxed_eq m a s, ?_⟩
    rw [TransitionSystem.boxed_eq, hs.complement_complement, hr]
    exact congrArg Except.ok hover.over.complement_complement.symm
  · intro b' tag' m' hm' hsize hsame
    have hindexed' : m'.Indexed := (Blueprint.build_eq_ok hm').2.2
    refine ⟨TransitionSystem.map_bits_preimage_eq hindexed hindexed' hsize hsame a hs, ?_⟩
    rw [TransitionSystem.map_bits_boxed, TransitionSystem.map_bits_boxed,
      TransitionSystem.map_bits_preimage_eq hindexed hindexed' hsize hsame a hs.complement]

/-- A target over three states for a system with two: `diamond` faults at the third one, which is a member,
and `boxed` does not fault because it is. The transition of the second state has the wildcard as its label.
With one state in the universe of the target the transition to the second state leads beyond it. -/
theorem modalities_relational_foreign :
    ∃ m m' wide narrow own, (Blueprint.mk #[none, none] 0
        #[⟨0, ⟨"a"⟩, 1⟩, ⟨1, ⟨"true"⟩, 0⟩]).build 0 = .ok m ∧
      (Blueprint.mk #[none, none] 1
        #[⟨1, ⟨"true"⟩, 0⟩, ⟨0, ⟨"a"⟩, 1⟩, ⟨1, ⟨"true"⟩, 0⟩]).build 1 = .ok m' ∧
      StateSet.ofList (Universe.ofSize 7 3) [0, 2] = .ok wide ∧
      StateSet.ofList (Universe.ofSize 8 1) [] = .ok narrow ∧
      StateSet.ofList m.carrier [1] = .ok own ∧
      m.diamond ⟨"a"⟩ wide = .error (.indexOutOfBounds 2 2) ∧
      (∃ r, m.boxed ⟨"a"⟩ wide = .ok r ∧ 1 ∈ r.members ∧ 0 ∉ r.members) ∧
      (∃ r, m.boxed ⟨"a"⟩ narrow = .ok r ∧ 0 ∈ r.members ∧ 1 ∉ r.members) ∧
      m.diamond ⟨"a"⟩ own = (m.boxed ⟨"a"⟩ own.complement).map StateSet.complement ∧
      (m'.boxed ⟨"a"⟩ wide).map (·.bits) = (m.boxed ⟨"a"⟩ wide).map (·.bits) := by
  obtain ⟨m, m', wide, narrow, own, hm, hm', hwide, hnarrow, hown, hmembers, hsame⟩ :
      ∃ m m' wide narrow own, (Blueprint.mk #[none, none] 0
        #[⟨0, ⟨"a"⟩, 1⟩, ⟨1, ⟨"true"⟩, 0⟩]).build 0 = .ok m ∧
      (Blueprint.mk #[none, none] 1
        #[⟨1, ⟨"true"⟩, 0⟩, ⟨0, ⟨"a"⟩, 1⟩, ⟨1, ⟨"true"⟩, 0⟩]).build 1 = .ok m' ∧
      StateSet.ofList (Universe.ofSize 7 3) [0, 2] = .ok wide ∧
      StateSet.ofList (Universe.ofSize 8 1) [] = .ok narrow ∧
      StateSet.ofList m.carrier [1] = .ok own ∧ (wide.members = [0, 2] ∧ narrow.members = [] ∧
        m.transitions = #[⟨0, ⟨"a"⟩, 1⟩, ⟨1, ⟨"true"⟩, 0⟩] ∧
        m.numStates = 2 ∧ m'.numStates = 2) ∧ ∀ t, t ∈ m'.transitions ↔ t ∈ m.transitions := by
    refine ⟨_, _, _, _, _, rfl, rfl, rfl, rfl, rfl, ⟨rfl, rfl, rfl, rfl, rfl⟩, fun t => ?_⟩
    show t ∈ #[_, _, _] ↔ t ∈ #[_, _]
    simp only [List.mem_toArray, List.mem_cons, List.not_mem_nil, or_false]
    tauto
  obtain ⟨hwide', hnarrow', htransitions, hstates, hstates'⟩ := hmembers
  have hsize : (Universe.ofSize 7 3).size = 3 := rfl
  have hsize' : (Universe.ofSize 8 1).size = 1 := rfl
  obtain ⟨hfault, -, -, hbox, -, hset⟩ :=
    modalities_relational hm ⟨"a"⟩ (StateSet.over_of_ofList hwide)
  obtain ⟨-, -, -, hbox', -, -⟩ := modalities_relational hm ⟨"a"⟩ (StateSet.over_of_ofList hnarrow)
  obtain ⟨-, -, -, -, hdual, -⟩ := modalities_relational hm ⟨"a"⟩ (StateSet.over_of_ofList hown)
  refine ⟨m, m', wide, narrow, own, hm, hm', hwide, hnarrow, hown, (hfault _).2 ⟨2, ⟨?_, ?_⟩, ?_⟩,
    ?_, ?_, (hdual rfl).2, (hset _ _ m' hm' (hstates'.trans hstates.symm) hsame).2⟩
  · simp [hwide', hstates]
  · rintro j ⟨-, hj⟩
    rwa [hstates] at hj
  · rw [hstates]
  · obtain ⟨r, hr, -, hmem⟩ := hbox fun j hj hlt => by
      rw [hstates] at hj
      rw [hsize] at hlt
      obtain rfl : j = 2 := by omega
      simp [hwide']
    refine ⟨r, hr, (hmem 1).2 ?_, fun h => ?_⟩
    · simp [hstates, htransitions, hwide', hsize]
    · have h := (hmem 0).1 h
      simp [hstates, htransitions, hwide', hsize, Transition.Answers] at h
  · obtain ⟨r, hr, -, hmem⟩ := hbox' fun j hj hlt => by
      rw [hstates] at hj
      rw [hsize'] at hlt
      omega
    refine ⟨r, hr, (hmem 0).2 ?_, fun h => ?_⟩
    · simp [hstates, htransitions, hnarrow', hsize']
    · have h := (hmem 1).1 h
      simp [hstates, htransitions, hnarrow', hsize', Transition.Answers, Label.wildcard] at h

end ModalMu
