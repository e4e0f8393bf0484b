import ModalMu.Proofs.Divergence

/-!
# Bisimilar states

A bisimulation relates states that can do the same and stay related. A region is saturated if it does
not tell related states apart. The operations of formulas do not lead out of the saturated regions
(`Bisimulation.closed`), and an evaluation gets its values by these operations alone
(`Closed.evaluate`): whatever the policy keeps or resets on the way, and whether the rounds are monotone
or not, every value is saturated. So no check tells bisimilar states apart (`check_bisimilar`).
-/

namespace ModalMu

namespace TransitionSystem

variable {m : TransitionSystem}

/-! ## Families of regions that formulas do not leave -/

/-- The operations of formulas do not lead out of the regions with the property. -/
structure Closed (m : TransitionSystem) (P : m.Region → Prop) : Prop where
  univ : P Set.univ
  compl : ∀ {S}, P S → P Sᶜ
  inter : ∀ {S T}, P S → P T → P (S ∩ T)
  before : ∀ (a : Label) {S}, P S → P (m.before a S)

namespace Closed

variable {P : m.Region → Prop}

theorem update {v : Formula.Valuation m} (hv : ∀ j, P (v j)) (i : Nat) {S : m.Region} (hS : P S)
    (j : Nat) : P (Function.update v i S j) := by
  rw [Function.update_apply]
  split
  · exact hS
  · exact hv j

variable (hP : m.Closed P)

include hP

theorem empty : P ∅ := by
  rw [← Set.compl_univ]
  exact hP.compl hP.univ

theorem union {S T : m.Region} (hS : P S) (hT : P T) : P (S ∪ T) := by
  rw [Set.union_eq_compl_compl_inter_compl]
  exact hP.compl (hP.inter (hP.compl hS) (hP.compl hT))

theorem within (a : Label) {S : m.Region} (hS : P S) : P (m.within a S) := by
  rw [within_eq_compl]
  exact hP.compl (hP.before a (hP.compl hS))

theorem bottom (k : FixKind) : P k.bottom := by
  cases k
  · exact hP.empty
  · exact hP.univ

theorem reset {v : Formula.Valuation m} (hv : ∀ j, P (v j)) (k : FixKind) (slots : List Nat) (j : Nat) :
    P (v.reset k slots j) := by
  unfold Formula.Valuation.reset
  split
  · exact hP.bottom k
  · exact hv j

theorem onEntry {v : Formula.Valuation m} (hv : ∀ j, P (v j)) (policy : ResetPolicy) (k : FixKind)
    (x : Char) (i : Nat) (f : Formula) (around : Option FixKind) (opened : List Nat) (j : Nat) :
    P (Formula.onEntry policy k x i f around opened v j) := by
  unfold Formula.onEntry
  split
  · exact hv j
  · exact hP.reset hv k [i] j
  · split
    · exact hP.reset hv k _ j
    · exact hv j

omit hP in
/-- Rounds do not lead out of the family if the body does not. -/
theorem iterate {i : Nat} {body : Formula.Pass m}
    (hbody : ∀ {v S w}, (∀ j, P (v j)) → body v = some (S, w) → P S ∧ ∀ j, P (w j)) {limit : Nat}
    {previous current S : m.Region} {v w : Formula.Valuation m} (hcurrent : P current)
    (hv : ∀ j, P (v j)) (h : Formula.iterate i body limit previous current v = some (S, w)) :
    P S ∧ ∀ j, P (w j) := by
  induction limit generalizing previous current v with
  | zero => cases h
  | succ limit ih =>
    obtain ⟨⟨next, u⟩, hnext, h⟩ := Option.bind_eq_some_iff.1 h
    obtain ⟨hN, hu⟩ := hbody (update hv i hcurrent) hnext
    dsimp only at h
    split at h
    · cases h
      exact ⟨hN, update hu i hN⟩
    · exact ih hN hu h

/-- An evaluation that starts with values in the family ends with such values and gives such a region. -/
theorem evaluate {policy : ResetPolicy} {limit : Nat} {f : Formula} {around : Option FixKind}
    {opened : List Nat} {v w : Formula.Valuation m} {S : m.Region} (hv : ∀ j, P (v j))
    (h : f.evaluate m policy limit around opened v = some (S, w)) : P S ∧ ∀ j, P (w j) := by
  induction f generalizing around opened v w S with
  | top =>
    cases h
    exact ⟨hP.univ, hv⟩
  | bot =>
    cases h
    exact ⟨hP.empty, hv⟩
  | var x i =>
    cases h
    exact ⟨hv i, hv⟩
  | and l r ihl ihr =>
    obtain ⟨⟨S₁, u⟩, hl, h⟩ := Option.bind_eq_some_iff.1 h
    obtain ⟨⟨S₂, u'⟩, hr, h⟩ := Option.bind_eq_some_iff.1 h
    obtain ⟨hS₁, hu⟩ := ihl hv hl
    obtain ⟨hS₂, hu'⟩ := ihr hu hr
    cases h
    exact ⟨hP.inter hS₁ hS₂, hu'⟩
  | or l r ihl ihr =>
    obtain ⟨⟨S₁, u⟩, hl, h⟩ := Option.bind_eq_some_iff.1 h
    obtain ⟨⟨S₂, u'⟩, hr, h⟩ := Option.bind_eq_some_iff.1 h
    obtain ⟨hS₁, hu⟩ := ihl hv hl
    obtain ⟨hS₂, hu'⟩ := ihr hu hr
    cases h
    exact ⟨hP.union hS₁ hS₂, hu'⟩
  | not f ih =>
    obtain ⟨⟨S₁, u⟩, hf, h⟩ := Option.bind_eq_some_iff.1 h
    obtain ⟨hS₁, hu⟩ := ih hv hf
    cases h
    exact ⟨hP.compl hS₁, hu⟩
  | diamond a f ih =>
    obtain ⟨⟨S₁, u⟩, hf, h⟩ := Option.bind_eq_some_iff.1 h
    obtain ⟨hS₁, hu⟩ := ih hv hf
    cases h
    exact ⟨hP.before a hS₁, hu⟩
  | box a f ih =>
    obtain ⟨⟨S₁, u⟩, hf, h⟩ := Option.bind_eq_some_iff.1 h
    obtain ⟨hS₁, hu⟩ := ih hv hf
    cases h
    exact ⟨hP.within a hS₁, hu⟩
  | fix k x i f ih =>
    have hentry := hP.onEntry hv policy k x i f around opened
    exact iterate (P := P) (fun hv h => ih hv h) (hentry i) hentry h

end Closed

/-! ## Bisimulations -/

/-- There is a transition with this very label between two states. -/
def Move (m : TransitionSystem) (a : Label) (i j : Fin m.carrier.size) : Prop :=
  Transition.mk i a j ∈ m.transitions

/-- Related states have moves with the same labels, to related states. -/
structure Bisimulation (m : TransitionSystem) (R : Fin m.carrier.size → Fin m.carrier.size → Prop) :
    Prop where
  forth : ∀ {i j}, R i j → ∀ {a i'}, m.Move a i i' → ∃ j', m.Move a j j' ∧ R i' j'
  back : ∀ {i j}, R i j → ∀ {a j'}, m.Move a j j' → ∃ i', m.Move a i i' ∧ R i' j'

/-- The region does not tell related states apart. -/
def Saturated (R : Fin m.carrier.size → Fin m.carrier.size → Prop) (S : m.Region) : Prop :=
  ∀ i j, R i j → (i ∈ S ↔ j ∈ S)

/-- A step is a move whose label agrees, the wildcard being on either side. -/
theorem step_iff {a : Label} {i j : Fin m.carrier.size} :
    m.Step a i j ↔ ∃ l, a.agrees l = true ∧ m.Move l i j := by
  constructor
  · rintro ⟨t, ht, hi, hj, ha⟩
    exact ⟨t.label, ha, by rw [Move, ← hi, ← hj]; exact ht⟩
  · rintro ⟨l, ha, hmove⟩
    exact ⟨_, hmove, rfl, rfl, ha⟩

variable {R : Fin m.carrier.size → Fin m.carrier.size → Prop}

theorem Bisimulation.saturated_before (hR : m.Bisimulation R) (a : Label) {S : m.Region}
    (hS : Saturated R S) : Saturated R (m.before a S) := by
  intro i j hij
  constructor
  · rintro ⟨i', hi', hstep⟩
    obtain ⟨l, ha, hmove⟩ := step_iff.1 hstep
    obtain ⟨j', hmove', hrel⟩ := hR.forth hij hmove
    exact ⟨j', (hS _ _ hrel).1 hi', step_iff.2 ⟨l, ha, hmove'⟩⟩
  · rintro ⟨j', hj', hstep⟩
    obtain ⟨l, ha, hmove⟩ := step_iff.1 hstep
    obtain ⟨i', hmove', hrel⟩ := hR.back hij hmove
    exact ⟨i', (hS _ _ hrel).2 hj', step_iff.2 ⟨l, ha, hmove'⟩⟩

/-- The operations of formulas do not lead out of the saturated regions. -/
theorem Bisimulation.closed (hR : m.Bisimulation R) : m.Closed (Saturated R) where
  univ _ _ _ := Iff.rfl
  compl hS i j hij := not_congr (hS i j hij)
  inter hS hT i j hij := and_congr (hS i j hij) (hT i j hij)
  before a _ hS := hR.saturated_before a hS

end TransitionSystem

/-- The values that an evaluation starts with are empty or full. -/
theorem TransitionSystem.Closed.startValues {job : Job} {P : job.system.Region → Prop}
    (hP : job.system.Closed P) (i : Nat) : P (Evaluation.startValues job i) := by
  unfold Evaluation.startValues
  split
  · exact hP.bottom _
  · exact hP.empty

/-- A check that terminates does not tell bisimilar states apart, whatever the sentence and the
policy. -/
theorem check_bisimilar {b : Blueprint} {tag : Nat} {m : TransitionSystem} (hm : b.build tag = .ok m)
    {src : String} {p : Sentence} (hp : Sentence.parse src = .ok p) {policy : ResetPolicy}
    (hterminates : (Job.mk m p policy).Terminates) :
    ∃ verdict, (Job.mk m p policy).check = .ok verdict ∧
      ∀ R, m.Bisimulation R → ∀ i j : Fin m.carrier.size, R i j →
        (↑i ∈ verdict.satisfying.members ↔ ↑j ∈ verdict.satisfying.members) := by
  have hindexed : m.Indexed := (Blueprint.build_eq_ok hm).2.2
  have hwellFormed := Sentence.parse_wellFormed hp
  obtain ⟨verdict, hcheck⟩ := (exists_check_iff_terminates hindexed hwellFormed).2 hterminates
  obtain ⟨S, w, hevaluate, hS⟩ := exists_evaluate_of_check hindexed hwellFormed hcheck
  refine ⟨verdict, hcheck, fun R hR i j hij => ?_⟩
  have hsaturated := (hR.closed.evaluate hR.closed.startValues hevaluate).1
  rw [hS.mem_members, hS.mem_members]
  simpa using hsaturated i j hij

/-- A cycle of two states and a loop are bisimilar; the variable of the inner fixed point stands below
one negation. -/
theorem check_bisimilar_cycle :
    ∃ m p verdict, (Blueprint.mk #[none, none, none] 0
        #[⟨0, ⟨"a"⟩, 1⟩, ⟨1, ⟨"a"⟩, 0⟩, ⟨2, ⟨"a"⟩, 2⟩]).build 0 = .ok m ∧
      Sentence.parse "mu X.((<a>X) || nu Y.((<a>!Y) || X))" = .ok p ∧
      (Job.mk m p .alternation).Terminates ∧ (Job.mk m p .alternation).check = .ok verdict ∧
      m.Bisimulation (fun _ _ => True) ∧ ∀ i j : Fin m.carrier.size,
        ↑i ∈ verdict.satisfying.members ↔ ↑j ∈ verdict.satisfying.members := by
  obtain ⟨m, p, verdict, hm, hp, hcheck, hsize, htransitions⟩ : ∃ m p verdict,
      (Blueprint.mk #[none, none, none] 0
        #[⟨0, ⟨"a"⟩, 1⟩, ⟨1, ⟨"a"⟩, 0⟩, ⟨2, ⟨"a"⟩, 2⟩]).build 0 = .ok m ∧
      Sentence.parse "mu X.((<a>X) || nu Y.((<a>!Y) || X))" = .ok p ∧
      (Job.mk m p .alternation).check = .ok verdict ∧ m.carrier.size = 3 ∧
      m.transitions = #[⟨0, ⟨"a"⟩, 1⟩, ⟨1, ⟨"a"⟩, 0⟩, ⟨2, ⟨"a"⟩, 2⟩] :=
    ⟨_, _, _, rfl, rfl, rfl, rfl, rfl⟩
  have hlabel : ∀ {a i i'}, m.Move a i i' → a = ⟨"a"⟩ := by
    intro a i i' h
    rw [TransitionSystem.Move, htransitions] at h
    simp only [List.mem_toArray, List.mem_cons, Transition.mk.injEq, List.not_mem_nil, or_false] at h
    rcases h with h | h | h <;> exact h.2.1
  have hmove : ∀ i, ∃ i', m.Move ⟨"a"⟩ i i' := by
    intro i
    have hi : i.val = 0 ∨ i.val = 1 ∨ i.val = 2 := by omega
    rcases hi with hi | hi | hi
    · exact ⟨⟨1, by omega⟩, by simp [TransitionSystem.Move, htransitions, hi]⟩
    · exact ⟨⟨0, by omega⟩, by simp [TransitionSystem.Move, htransitions, hi]⟩
    · exact ⟨⟨2, by omega⟩, by simp [TransitionSystem.Move, htransitions, hi]⟩
  have hR : m.Bisimulation (fun _ _ => True) := by
    refine ⟨fun {i j} _ {a i'} h => ?_, fun {i j} _ {a j'} h => ?_⟩
    · obtain ⟨j', hj'⟩ := hmove j
      exact ⟨j', by rwa [hlabel h], trivial⟩
    · obtain ⟨i', hi'⟩ := hmove i
      exact ⟨i', by rwa [hlabel h], trivial⟩
  have hterminates : (Job.mk m p .alternation).Terminates := Job.terminates_of_check hcheck
  obtain ⟨verdict', hcheck', hsame⟩ := check_bisimilar hm hp hterminates
  exact ⟨m, p, verdict', hm, hp, hterminates, hcheck', hR, fun i j => hsame _ hR i j trivial⟩

end ModalMu
