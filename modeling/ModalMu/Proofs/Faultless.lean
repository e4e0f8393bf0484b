import ModalMu.Proofs.Confinement
import ModalMu.Proofs.Divergence

/-!
# Evaluations without faults

On a system that was built and a sentence that was read no evaluation faults, whichever nodes of the
sentence were evaluated before (`reached_faultless`). The only thing that can happen instead of a result
is that the rounds of a fixed point never come to rest.

1. The cells fit the job: there is one for each binder, and it holds a set over the states of the system.
   Over such cells an evaluation goes as one over regions does, and that one has no faults.
2. Afterwards the cells fit the job again, and all flags are down, so the next evaluation can begin.
-/

namespace ModalMu

/-- The set is one over the universe `u`, with a bit for every state and no other. -/
structure StateSet.Over (s : StateSet) (u : Universe) : Prop where
  carrier : s.carrier = u
  width : s.bits.width = u.size
  wellFormed : s.bits.WellFormed

namespace StateSet

variable {s : StateSet} {u : Universe} {S : Set (Fin u.size)}

theorem Represents.over (h : s.Represents u S) : s.Over u := ⟨h.carrier, h.width, h.wellFormed⟩

theorem Over.represents (h : s.Over u) : s.Represents u {j | s.bits.test j = true} :=
  ⟨h.carrier, h.width, h.wellFormed, fun _ => Iff.rfl⟩

end StateSet

namespace Evaluation

variable {job : Job} {e e' : Evaluation} {opened : List Nat} {f : Formula} {s : StateSet}

/-- There is a cell for each binder, and it holds a set over the states of the system. -/
structure Fits (job : Job) (e : Evaluation) : Prop where
  size : e.cells.size = job.sentence.binders.size
  value : ∀ (i : Nat) (c : Cell), e.cells[i]? = some c → c.value.Over job.system.carrier

theorem Tracks.fits {v : Formula.Valuation job.system} (h : e.Tracks job opened v) : e.Fits job where
  size := h.size
  value i c hc := (h.value i c hc).over

/-- Cells that fit the job hold some valuation. -/
theorem Fits.exists_tracks (h : e.Fits job) (hflagged : e.Flagged opened) :
    ∃ v, e.Tracks job opened v := by
  refine ⟨fun i => {j | ∃ c, e.cells[i]? = some c ∧ c.value.bits.test j = true}, h.size,
    fun i c hc => ?_, fun _ i c hc => ?_⟩
  · simpa [hc] using (h.value i c hc).represents
  · simpa [hc] using hflagged i

theorem Fits.exists_value (h : e.Fits job) {i : Nat} (hi : i < job.sentence.binders.size) :
    ∃ s, e.value i = .ok s ∧ s.Over job.system.carrier := by
  obtain ⟨opened, hflagged⟩ := exists_flagged e
  obtain ⟨v, htracks⟩ := h.exists_tracks hflagged
  obtain ⟨s, hvalue, hs⟩ := htracks.value_eq_ok hi
  exact ⟨s, hvalue, hs.over⟩

/-- The entry of a fixed point does not fault, whatever flags are up. -/
theorem Fits.exists_enter (h : e.Fits job) {k : FixKind} {x : Char} {i : Nat}
    (hf : (Formula.fix k x i f).Declared job.sentence) (around : Option FixKind) :
    ∃ e', enter job k x i around e = .ok e' ∧ e'.Fits job := by
  obtain ⟨opened, hflagged⟩ := exists_flagged e
  obtain ⟨v, htracks⟩ := h.exists_tracks hflagged
  obtain ⟨e', henter, htracks'⟩ := htracks.enter hf around
  exact ⟨e', henter, htracks'.fits⟩

/-- Evaluation of a formula does not fault, and leaves cells that fit the job. -/
theorem Fits.evalFormula (h : e.Fits job) (hflagged : e.Flagged opened) (hm : job.system.Indexed)
    (hf : f.Declared job.sentence) (hslots : f.slots.Nodup) (hopened : ∀ i ∈ f.slots, i ∉ opened)
    (around : Option FixKind) (limit : Nat) :
    evalFormula job limit f around e = .error .divergence ∨
      ∃ s e', evalFormula job limit f around e = .ok (s, e') ∧ eval job f around e = .ok (s, e') ∧
        s.Over job.system.carrier ∧ e'.Fits job ∧ e'.Flagged opened := by
  obtain ⟨v, htracks⟩ := h.exists_tracks hflagged
  have hagrees := evalFormula_agrees hm limit hf hslots hopened around htracks
  cases hout : Evaluation.evalFormula job limit f around e with
  | error fault =>
    rw [hout] at hagrees
    generalize f.evaluate job.system job.policy limit around opened v = r at hagrees
    cases hagrees
    exact .inl rfl
  | ok r =>
    obtain ⟨s, e'⟩ := r
    rw [hout] at hagrees
    obtain ⟨S, w, -, hs, htracks'⟩ := hagrees.of_ok
    obtain ⟨hconfined, hshut⟩ := evalFormula_confined hf hslots hout
    exact .inr ⟨s, e', rfl, eval_eq_ok_of_evalFormula hm hf hslots hopened htracks hout, hs.over,
      htracks'.fits, hflagged.confined hopened hconfined hshut⟩

/-- The evaluations that nodes of the sentence lead to, evaluated one after the other below fixed points
of any kind. -/
inductive Reached (job : Job) : Evaluation → Prop
  | start : Reached job (start job)
  | eval {e e' : Evaluation} {s : StateSet} {f : Formula} {around : Option FixKind} {limit : Nat}
      (h : Reached job e) (hf : f ∈ job.sentence.root.subformulas)
      (heval : evalFormula job limit f around e = .ok (s, e')) : Reached job e'

theorem start_flagged (job : Job) : (start job).Flagged [] := by
  intro j
  rw [getElem?_start_cells]
  simp

/-- Between two evaluations the cells fit the job and no flag is up. -/
theorem Reached.fits (h : Reached job e) (hm : job.system.Indexed) (hp : job.sentence.WellFormed) :
    e.Fits job ∧ e.Flagged [] := by
  induction h with
  | start => exact ⟨(start_tracks job).fits, start_flagged job⟩
  | @eval e e' s f around limit _ hf heval ih =>
    rcases ih.1.evalFormula ih.2 hm (hp.declared_of_mem hf) (hp.nodup_of_mem hf) (by simp) around limit
      with hdivergence | ⟨s', e₁, hresult, -, -, hfits⟩
    · rw [heval] at hdivergence
      cases hdivergence
    · rw [heval] at hresult
      cases hresult
      exact hfits

end Evaluation

/-- A set over the states of the system tells whether they satisfy the sentence. -/
theorem Verdict.exists_holds {b : Blueprint} {tag : Nat} {m : TransitionSystem}
    (hm : b.build tag = .ok m) {verdict : Verdict} (h : verdict.satisfying.Over m.carrier) :
    ∃ answer, verdict.holds m = .ok answer := by
  obtain ⟨hstates, -⟩ := Blueprint.build_eq_ok hm
  obtain ⟨hinitial, hinside⟩ := Blueprint.initial_of_build hm
  rw [← hstates, ← hinitial] at hinside
  unfold Verdict.holds
  split
  · next hpos =>
    have hlt : m.initial < verdict.satisfying.bits.width := by
      rw [h.width]
      exact hinside hpos
    exact ⟨_, if_pos hlt⟩
  · exact ⟨false, rfl⟩

/-- On a system that was built and a sentence that was read nothing faults: not the evaluation of a node
after any others, not the look at a value, not the entry of a fixed point with any flags up, not a
modality, and not a check with its answer for the state to start in. All sets are over the states of the
system. If an evaluation gives no result, its rounds never come to rest. -/
theorem reached_faultless {b : Blueprint} {tag : Nat} {m : TransitionSystem} {src : String}
    {p : Sentence} (hm : b.build tag = .ok m) (hp : Sentence.parse src = .ok p)
    (policy : ResetPolicy) :
    (∀ e, Evaluation.Reached ⟨m, p, policy⟩ e → e.Fits ⟨m, p, policy⟩ ∧
      ∀ f ∈ p.root.subformulas, ∀ around limit,
        Evaluation.evalFormula ⟨m, p, policy⟩ limit f around e = .error .divergence ∨
        ∃ s e', Evaluation.evalFormula ⟨m, p, policy⟩ limit f around e = .ok (s, e') ∧
          Evaluation.eval ⟨m, p, policy⟩ f around e = .ok (s, e') ∧ s.Over m.carrier) ∧
    (∀ e : Evaluation, e.Fits ⟨m, p, policy⟩ →
      (∀ i < p.binders.size, ∃ s, e.value i = .ok s ∧ s.Over m.carrier) ∧
      ∀ k x i body, .fix k x i body ∈ p.root.subformulas → ∀ around,
        ∃ e', Evaluation.enter ⟨m, p, policy⟩ k x i around e = .ok e' ∧ e'.Fits ⟨m, p, policy⟩) ∧
    (∀ (a : Label) (s : StateSet), s.Over m.carrier →
      (∃ t, m.diamond a s = .ok t ∧ t.Over m.carrier) ∧
      ∃ t, m.boxed a s = .ok t ∧ t.Over m.carrier) ∧
    ((Job.mk m p policy).check = .error .divergence ∨
      ∃ verdict answer, (Job.mk m p policy).check = .ok verdict ∧
        verdict.satisfying.Over m.carrier ∧ verdict.holds m = .ok answer) := by
  have hindexed : m.Indexed := (Blueprint.build_eq_ok hm).2.2
  have hwellFormed := Sentence.parse_wellFormed hp
  have hstep : ∀ e, Evaluation.Reached ⟨m, p, policy⟩ e → ∀ f ∈ p.root.subformulas,
      ∀ around limit, Evaluation.evalFormula ⟨m, p, policy⟩ limit f around e = .error .divergence ∨
        ∃ s e', Evaluation.evalFormula ⟨m, p, policy⟩ limit f around e = .ok (s, e') ∧
          Evaluation.eval ⟨m, p, policy⟩ f around e = .ok (s, e') ∧ s.Over m.carrier := by
    intro e he f hf around limit
    obtain ⟨hfits, hflagged⟩ := he.fits hindexed hwellFormed
    rcases hfits.evalFormula hflagged hindexed (hwellFormed.declared_of_mem hf)
      (hwellFormed.nodup_of_mem hf) (by simp) around limit with h | ⟨s, e', h, heval, hs, -⟩
    · exact .inl h
    · exact .inr ⟨s, e', h, heval, hs⟩
  refine ⟨fun e he => ⟨(he.fits hindexed hwellFormed).1, hstep e he⟩, fun e hfits => ⟨?_, ?_⟩,
    fun a s hs => ⟨?_, ?_⟩, ?_⟩
  · exact fun i hi => hfits.exists_value hi
  · exact fun k x i body hnode => hfits.exists_enter (hwellFormed.declared_of_mem hnode)
  · obtain ⟨t, ht, hover⟩ := TransitionSystem.diamond_eq_ok hindexed a hs.represents
    exact ⟨t, ht, hover.over⟩
  · obtain ⟨t, ht, hover⟩ := TransitionSystem.boxed_eq_ok hindexed a hs.represents
    exact ⟨t, ht, hover.over⟩
  · unfold Job.check Evaluation.run Evaluation.eval
    rcases hstep _ .start p.root p.root.mem_subformulas_self none
      (Evaluation.roundLimit ⟨m, p, policy⟩ (.start ⟨m, p, policy⟩)) with h | ⟨s, e', h, -, hs⟩
    · rw [h]
      exact .inl rfl
    · obtain ⟨answer, hanswer⟩ : ∃ answer, (Job.verdict ⟨m, p, policy⟩ s e').holds m = .ok answer :=
        Verdict.exists_holds hm hs
      rw [h]
      exact .inr ⟨_, answer, rfl, hs, hanswer⟩

/-- On a system with transitions the inner fixed point is evaluated first, then the sentence, and the check
says yes. On the empty system the state to start in does not exist, and the check says no. -/
theorem reached_faultless_inner_first :
    (∃ m p body, (Blueprint.mk #[none, none, none] 2
        #[⟨0, ⟨"a"⟩, 1⟩, ⟨1, ⟨"b"⟩, 2⟩, ⟨2, ⟨"a"⟩, 0⟩, ⟨2, ⟨"b"⟩, 1⟩]).build 3 = .ok m ∧
      Sentence.parse "nu X.mu Y.(([a]<b>X) || <b>Y)" = .ok p ∧
      .fix .least 'Y' 1 body ∈ p.root.subformulas ∧
      (∃ s e t e', Evaluation.eval ⟨m, p, .alternation⟩ (.fix .least 'Y' 1 body) (some .greatest)
          (.start ⟨m, p, .alternation⟩) = .ok (s, e) ∧ e.Fits ⟨m, p, .alternation⟩ ∧
        Evaluation.run ⟨m, p, .alternation⟩ e = .ok (t, e') ∧ t.Over m.carrier) ∧
      ∃ verdict, (Job.mk m p .alternation).check = .ok verdict ∧
        verdict.satisfying.Over m.carrier ∧ verdict.holds m = .ok true) ∧
    ∃ m p verdict, (Blueprint.mk #[] 7 #[]).build 3 = .ok m ∧
      Sentence.parse "nu X.mu Y.(([a]<b>X) || <b>Y)" = .ok p ∧
      (Job.mk m p .alternation).check = .ok verdict ∧ verdict.satisfying.Over m.carrier ∧
      verdict.holds m = .ok false := by
  have hover : ∀ {b m p verdict}, Blueprint.build b 3 = .ok m →
      Sentence.parse "nu X.mu Y.(([a]<b>X) || <b>Y)" = .ok p →
      (Job.mk m p .alternation).check = .ok verdict → verdict.satisfying.Over m.carrier := by
    intro b m p verdict hm hp hcheck
    rcases (reached_faultless hm hp .alternation).2.2.2 with h | ⟨verdict', -, h, hover, -⟩
    · cases hcheck.symm.trans h
    · cases hcheck.symm.trans h
      exact hover
  refine ⟨?_, ?_⟩
  · obtain ⟨m, p, body, s, e, r, verdict, hm, hp, hnode, hinner, hrun, hcheck, hholds⟩ :
        ∃ m p body s e r verdict, (Blueprint.mk #[none, none, none] 2
          #[⟨0, ⟨"a"⟩, 1⟩, ⟨1, ⟨"b"⟩, 2⟩, ⟨2, ⟨"a"⟩, 0⟩, ⟨2, ⟨"b"⟩, 1⟩]).build 3 = .ok m ∧
        Sentence.parse "nu X.mu Y.(([a]<b>X) || <b>Y)" = .ok p ∧
        .fix .least 'Y' 1 body ∈ p.root.subformulas ∧
        Evaluation.eval ⟨m, p, .alternation⟩ (.fix .least 'Y' 1 body) (some .greatest)
            (.start ⟨m, p, .alternation⟩) = .ok (s, e) ∧
        Evaluation.run ⟨m, p, .alternation⟩ e = .ok r ∧
        (Job.mk m p .alternation).check = .ok verdict ∧ verdict.holds m = .ok true :=
      ⟨_, _, .or (.box ⟨"a"⟩ (.diamond ⟨"b"⟩ (.var 'X' 0))) (.diamond ⟨"b"⟩ (.var 'Y' 1)), _, _, _, _,
        rfl, rfl, by decide +kernel, rfl, rfl, rfl, rfl⟩
    obtain ⟨hfits, hnext⟩ := (reached_faultless hm hp .alternation).1 e (.eval .start hnode hinner)
    refine ⟨m, p, body, hm, hp, hnode, ⟨s, e, r.1, r.2, hinner, hfits, hrun, ?_⟩, verdict, hcheck,
      hover hm hp hcheck, hholds⟩
    rcases hnext p.root p.root.mem_subformulas_self none
      (Evaluation.roundLimit ⟨m, p, .alternation⟩ e) with h | ⟨t, e', h, -, ht⟩
    · cases hrun.symm.trans h
    · cases hrun.symm.trans h
      exact ht
  · obtain ⟨m, p, verdict, hm, hp, hcheck, hholds⟩ : ∃ m p verdict, (Blueprint.mk #[] 7 #[]).build 3 = .ok m ∧
        Sentence.parse "nu X.mu Y.(([a]<b>X) || <b>Y)" = .ok p ∧
        (Job.mk m p .alternation).check = .ok verdict ∧ verdict.holds m = .ok false :=
      ⟨_, _, _, rfl, rfl, rfl, rfl⟩
    exact ⟨m, p, verdict, hm, hp, hcheck, hover hm hp hcheck, hholds⟩

end ModalMu
