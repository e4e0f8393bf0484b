import ModalMu.Check
import ModalMu.Proofs.RegionEvaluation
import ModalMu.Proofs.RoundLimit

/-!
# Convergence of rounds

Rounds that only go on in the direction of the fixed point come to rest after at most one round more
than there are states (`exists_iterate_eq_some`). If the body is a monotone map and the first value lies
between the body's extreme and its fixed point, they come to rest there (`exists_iterate_eq_fixpoint`).
What is shown of evaluation over regions with that many rounds holds of `run` and of `check`
(`exists_run_eq_ok`, `exists_check_eq_ok`).
-/

namespace ModalMu

namespace Formula

variable {m : TransitionSystem} {k d : FixKind} {i : Nat} {c : m.Region} {v : Valuation m}

theorem extent_le_numStates (k : FixKind) (c : m.Region) : k.extent c ≤ m.numStates :=
  (k.extent_le c).trans_eq (Nat.card_fin _)

section Rounds

variable {body : Pass m} {Inv : m.Region → Valuation m → Prop}

/-- Rounds after the first one that go on in direction `d`. They stop after a round that gives the
value it began with. -/
theorem exists_iterate_self_eq_some
    (hstep : ∀ c v, Inv c v →
      ∃ c' v', body (Function.update v i c) = some (c', v') ∧ d.le c c' ∧ Inv c' v')
    {limit : Nat} (hlimit : m.numStates < d.extent c + limit) (h : Inv c v) :
    ∃ r u w, iterate i body limit c c v = some (r, Function.update w i r) ∧ Inv r w ∧
      Inv r u ∧ body (Function.update u i r) = some (r, w) := by
  induction limit generalizing c v with
  | zero =>
    have := extent_le_numStates d c
    omega
  | succ limit ih =>
    obtain ⟨c', v', hbody, hle, h'⟩ := hstep c v h
    by_cases hstable : c' = c
    · subst hstable
      refine ⟨c', v, v', ?_, h', h, hbody⟩
      simp [iterate, hbody]
    · have hlt := FixKind.extent_lt hle (Ne.symm hstable)
      obtain ⟨r, u, w, hrest, hr⟩ := ih (by omega) h'
      refine ⟨r, u, w, ?_, hr⟩
      simp [iterate, hbody, hstable, hrest]

/-- All rounds of an entry, after the first one in direction `d`. The last one gives the value it begins
with, unless it is the first one and gives the other extreme. -/
theorem exists_iterate_eq_some
    (hstep : ∀ c v, Inv c v →
      ∃ c' v', body (Function.update v i c) = some (c', v') ∧ d.le c c' ∧ Inv c' v')
    {c₀ c₁ : m.Region} {v₀ v₁ : Valuation m}
    (hfirst : body (Function.update v₀ i c₀) = some (c₁, v₁)) (h₁ : Inv c₁ v₁)
    (hextreme : c₁ = d.bottom → ∃ w, body (Function.update v₁ i c₁) = some (c₁, w)) :
    ∃ r w, iterate i body (m.numStates + 1) k.opposite.bottom c₀ v₀ =
        some (r, Function.update w i r) ∧ Inv r w ∧
      (r = k.opposite.bottom ∨ ∃ u, Inv r u ∧ body (Function.update u i r) = some (r, w)) := by
  by_cases hother : c₁ = k.opposite.bottom
  · refine ⟨c₁, v₁, ?_, h₁, .inl hother⟩
    simp [iterate, hfirst, hother]
  have hiterate : iterate i body (m.numStates + 1) k.opposite.bottom c₀ v₀ =
      iterate i body m.numStates c₁ c₁ v₁ := by
    simp [iterate, hfirst, hother]
  rw [hiterate]
  by_cases hbottom : c₁ = d.bottom
  · -- Another round is the last one. There is room for it, as there are two different regions.
    obtain ⟨w, hbody⟩ := hextreme hbottom
    obtain ⟨c₂, v₂, hbody', -, h₂⟩ := hstep c₁ v₁ h₁
    obtain ⟨rfl, rfl⟩ : c₂ = c₁ ∧ v₂ = w := by simpa [hbody] using hbody'.symm
    have hlt := FixKind.extent_lt (k.le_bottom_opposite c₂) hother
    have hle := extent_le_numStates k (k.opposite.bottom : m.Region)
    obtain ⟨n, hn⟩ : ∃ n, m.numStates = n + 1 := ⟨m.numStates - 1, by omega⟩
    refine ⟨c₂, v₂, ?_, h₂, .inr ⟨v₁, h₁, hbody⟩⟩
    simp [hn, iterate, hbody]
  · have hlt := FixKind.extent_lt (d.bottom_le c₁) (Ne.symm hbottom)
    obtain ⟨r, u, w, hrest, hr, hu, hbody⟩ :=
      exists_iterate_self_eq_some hstep (by omega : m.numStates < d.extent c₁ + m.numStates) h₁
    exact ⟨r, w, hrest, hr, .inr ⟨u, hu, hbody⟩⟩

/-- Rounds of a monotone body come to rest at its fixed point, if they begin with a value that the body
takes further and that is not beyond the fixed point, or if the value does not matter. -/
theorem exists_iterate_eq_fixpoint {F : m.Region → m.Region} (hF : Monotone F)
    (hstep : ∀ c v, k.le c (F c) → Inv c v →
      ∃ w, body (Function.update v i c) = some (F c, w) ∧ Inv (F c) w)
    (hstart : k.le c (F c) ∧ k.le c (k.fixpoint F) ∨ ∀ d, F d = F c)
    (hfirst : ∃ w, body (Function.update v i c) = some (F c, w) ∧ Inv (F c) w) :
    ∃ w, iterate i body (m.numStates + 1) k.opposite.bottom c v =
      some (k.fixpoint F, Function.update w i (k.fixpoint F)) ∧ Inv (k.fixpoint F) w := by
  have hfix : F (k.fixpoint F) = k.fixpoint F := FixKind.map_fixpoint hF
  -- The first round leads to a value that the body takes further and that is not beyond.
  have hnext : k.le (F c) (F (F c)) ∧ k.le (F c) (k.fixpoint F) := by
    rcases hstart with ⟨hle, hbelow⟩ | hconst
    · refine ⟨FixKind.le_of_monotone hF hle, ?_⟩
      have h := FixKind.le_of_monotone hF hbelow
      rwa [hfix] at h
    · exact ⟨FixKind.le_of_eq (hconst _).symm, FixKind.le_of_eq ((hconst _).symm.trans hfix)⟩
  obtain ⟨w₁, hbody, hw₁⟩ := hfirst
  have hrise : ∀ d u, (k.le d (F d) ∧ k.le d (k.fixpoint F)) ∧ Inv d u →
      ∃ d' u', body (Function.update u i d) = some (d', u') ∧ k.le d d' ∧
        (k.le d' (F d') ∧ k.le d' (k.fixpoint F)) ∧ Inv d' u' := by
    rintro d u ⟨⟨hle, hbelow⟩, hd⟩
    obtain ⟨u', hd', hu'⟩ := hstep d u hle hd
    have h := FixKind.le_of_monotone hF hbelow
    rw [hfix] at h
    exact ⟨F d, u', hd', hle, ⟨FixKind.le_of_monotone hF hle, h⟩, hu'⟩
  -- A first round that gives the extreme has found the fixed point.
  have hextreme : F c = k.bottom → ∃ w', body (Function.update w₁ i (F c)) = some (F c, w') := by
    intro hbottom
    obtain ⟨w', hw', -⟩ := hstep (F c) w₁ hnext.1 hw₁
    have hrest : F (F c) = F c := by
      rcases hstart with ⟨hle, -⟩ | hconst
      · have hc : c = F c := FixKind.le_antisymm hle (hbottom ▸ k.bottom_le c)
        exact (congrArg F hc).symm
      · exact hconst _
    rw [hrest] at hw'
    exact ⟨w', hw'⟩
  obtain ⟨r, w, hiterate, ⟨⟨-, hbelow⟩, hr⟩, hlast⟩ :=
    exists_iterate_eq_some hrise hbody ⟨hnext, hw₁⟩ hextreme
  have hresult : r = k.fixpoint F := by
    rcases hlast with hother | ⟨u, ⟨⟨hle, -⟩, hu⟩, hstable⟩
    · exact FixKind.le_antisymm hbelow (hother ▸ k.le_bottom_opposite _)
    · obtain ⟨u', hu', -⟩ := hstep r u hle hu
      have heq : F r = r := by
        rw [hu'] at hstable
        exact (Prod.mk.inj (Option.some.inj hstable)).1
      exact FixKind.le_antisymm hbelow (FixKind.fixpoint_le (FixKind.le_of_eq heq))
  subst hresult
  exact ⟨w, hiterate, hr⟩

end Rounds

end Formula

/-! ## From regions to cells -/

namespace Evaluation

variable {job : Job} {e : Evaluation}

/-- Cells that are all closed and hold sets over the states of the system hold some valuation. -/
theorem exists_tracks (hsize : e.cells.size = job.sentence.binders.size)
    (hvalue : ∀ c ∈ e.cells, ∃ S, c.value.Represents job.system.carrier S)
    (hclosed : job.policy = .alternation → ∀ c ∈ e.cells, c.isOpen = false) :
    ∃ v, e.Tracks job [] v := by
  have hregion : ∀ i : Nat, ∃ S, ∀ c : Cell, e.cells[i]? = some c →
      c.value.Represents job.system.carrier S := by
    intro i
    cases hc : e.cells[i]? with
    | none => exact ⟨∅, nofun⟩
    | some c =>
      obtain ⟨S, hS⟩ := hvalue c (Array.mem_of_getElem? hc)
      exact ⟨S, fun d hd => Option.some.inj hd ▸ hS⟩
  choose v hv using hregion
  exact ⟨v, hsize, hv, fun hpolicy i c hc => by simp [hclosed hpolicy c (Array.mem_of_getElem? hc)]⟩

/-- The values that an evaluation starts with. -/
def startValues (job : Job) : Formula.Valuation job.system := fun i =>
  match job.sentence.binders[i]? with
  | some b => b.kind.bottom
  | none => ∅

theorem startValues_slot (job : Job) (hp : job.sentence.WellFormed) {b : Binder}
    (hb : b ∈ job.sentence.root.table) : startValues job b.slot = b.kind.bottom := by
  rw [startValues, hp.getElem?_binders hb]

theorem getElem?_start_cells (job : Job) (i : Nat) :
    (start job).cells[i]? = job.sentence.binders[i]?.map fun b =>
      ⟨b.kind.extreme job.system.carrier, false, .zero⟩ := by
  simp [start]

theorem start_tracks (job : Job) : (start job).Tracks job [] (startValues job) where
  size := by simp [start]
  value i c hc := by
    rw [getElem?_start_cells] at hc
    obtain ⟨b, hb, rfl⟩ := Option.map_eq_some_iff.1 hc
    rw [startValues, hb]
    exact represents_extreme _ b.kind
  isOpen _ i c hc := by
    rw [getElem?_start_cells] at hc
    obtain ⟨b, -, rfl⟩ := Option.map_eq_some_iff.1 hc
    simp

/-- A region found with one round more than there are states is the result of a run. -/
theorem exists_run_eq_ok (hm : job.system.Indexed) (hp : job.sentence.WellFormed)
    {v w : Formula.Valuation job.system} (he : e.Tracks job [] v) {S : job.system.Region}
    (h : job.sentence.root.evaluate job.system job.policy (job.system.numStates + 1) none [] v =
      some (S, w)) :
    ∃ s e', run job e = .ok (s, e') ∧ s.Represents job.system.carrier S ∧ e'.Tracks job [] w ∧
      Within (job.system.numStates + 1) e e' := by
  have hagrees := evalFormula_agrees hm (job.system.numStates + 1) hp.declared hp.apart.nodup
    (by simp) none he
  rw [h] at hagrees
  obtain ⟨s, e', heval, hs, he'⟩ := hagrees.of_some
  refine ⟨s, e', eval_eq_ok (fun i hi => ?_) heval, hs, he', evalFormula_within heval⟩
  rw [hp.slots, List.mem_range] at hi
  rwa [he.size]

/-- A region found from the start is the result of the run from the start, which bounds all tallies. -/
theorem exists_run_start_eq_ok (job : Job) (hm : job.system.Indexed)
    (hp : job.sentence.WellFormed) {S : job.system.Region}
    {w : Formula.Valuation job.system}
    (h : job.sentence.root.evaluate job.system job.policy (job.system.numStates + 1) none []
      (startValues job) = some (S, w)) :
    ∃ s e', run job (start job) = .ok (s, e') ∧ s.Represents job.system.carrier S ∧
      e'.cells.size = job.sentence.binders.size ∧
      (∀ t ∈ e'.tallies, t.maxRounds ≤ job.system.numStates + 1) ∧
      ∀ a ∈ e'.log.toList, a.Within (job.system.numStates + 1) := by
  obtain ⟨s, e', hrun, hs, he', hwithin⟩ := exists_run_eq_ok hm hp (start_tracks job) h
  refine ⟨s, e', hrun, hs, he'.size, fun t ht => ?_, fun a ha => ?_⟩
  · obtain ⟨c', hc', rfl⟩ := List.mem_map.1 ht
    obtain ⟨i, hi⟩ := List.mem_iff_getElem?.1 hc'
    obtain ⟨c, hc, hle⟩ := hwithin.tally i c' (by rwa [← Array.getElem?_toList])
    rw [getElem?_start_cells] at hc
    obtain ⟨b, -, rfl⟩ := Option.map_eq_some_iff.1 hc
    simpa [Tally.zero] using hle
  · obtain ⟨added, hlog, hadded⟩ := hwithin.log
    rw [hlog] at ha
    exact hadded a (by simpa [start] using ha)

end Evaluation

/-- A region found from the start with one round more than there are states is the one that a check
gives. -/
theorem exists_check_eq_ok {job : Job} (hm : job.system.Indexed) (hp : job.sentence.WellFormed)
    {S : job.system.Region} {w : Formula.Valuation job.system}
    (h : job.sentence.root.evaluate job.system job.policy (job.system.numStates + 1) none []
      (Evaluation.startValues job) = some (S, w)) :
    ∃ verdict, job.check = .ok verdict ∧ verdict.satisfying.Represents job.system.carrier S ∧
      (∀ t ∈ verdict.tallies, t.maxRounds ≤ job.system.numStates + 1) ∧
      ∀ a ∈ verdict.log, a.Within (job.system.numStates + 1) := by
  obtain ⟨s, e', hrun, hs, -, htallies, hlog⟩ := Evaluation.exists_run_start_eq_ok job hm hp h
  refine ⟨job.verdict s e', ?_, hs, htallies, fun a ha => ?_⟩
  · rw [Job.check, hrun]
    rfl
  · simp only [Job.verdict, List.mem_append, List.mem_cons, List.not_mem_nil, or_false] at ha
    rcases ha with (rfl | ha) | rfl
    · trivial
    · exact hlog a ha
    · trivial

/-- A check that gives a verdict gives the region that an evaluation over regions finds. -/
theorem exists_evaluate_of_check {job : Job} (hm : job.system.Indexed) (hp : job.sentence.WellFormed)
    {verdict : Verdict} (h : job.check = .ok verdict) :
    ∃ S w, job.sentence.root.evaluate job.system job.policy
        (Evaluation.roundLimit job (Evaluation.start job)) none [] (Evaluation.startValues job) =
          some (S, w) ∧ verdict.satisfying.Represents job.system.carrier S := by
  obtain ⟨⟨s, e⟩, hrun, hverdict⟩ := bind_eq_ok_iff.1 h
  cases hverdict
  have hagrees := Evaluation.evalFormula_agrees hm (Evaluation.roundLimit job (Evaluation.start job))
    hp.declared hp.apart.nodup (by simp) none (Evaluation.start_tracks job)
  rw [Evaluation.run, Evaluation.eval] at hrun
  rw [hrun] at hagrees
  obtain ⟨S, w, hevaluate, hs, -⟩ := hagrees.of_ok
  exact ⟨S, w, hevaluate, hs⟩

end ModalMu
