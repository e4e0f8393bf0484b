import ModalMu.Proofs.Divergence
import ModalMu.Proofs.InStep

/-!
# Duality

The dual of a sentence swaps truth and falsehood, conjunction and disjunction, the two modalities and
the two kinds of fixed points, in the formula and in the table of binders. The runs on a sentence and
on its dual go in lock-step, whether the sentence is monotone or not: at every point the cells of one
hold the complements of what the cells of the other hold, with the same flags and the same tallies, and
both stop with the same fault if they do (`evalFormula_dual`). So a check of the dual gives the
complement after the same rounds and resets (`check_dual`).
-/

namespace ModalMu

/-! ## Duals -/

/-- The formula for the complement, if every variable stands for the complement. -/
def Formula.dual : Formula → Formula
  | top => bot
  | bot => top
  | and l r => or l.dual r.dual
  | or l r => and l.dual r.dual
  | not f => not f.dual
  | diamond a f => box a f.dual
  | box a f => diamond a f.dual
  | fix k x i f => fix k.opposite x i f.dual
  | var x i => var x i

def Binder.dual (b : Binder) : Binder := { b with kind := b.kind.opposite }

def Sentence.dual (p : Sentence) : Sentence := ⟨p.root.dual, p.binders.map Binder.dual⟩

def Job.dual (job : Job) : Job := { job with sentence := job.sentence.dual }

theorem getElem?_binders_dual (job : Job) (i : Nat) :
    job.dual.sentence.binders[i]? = job.sentence.binders[i]?.map Binder.dual := Array.getElem?_map ..

/-- The entry of a binder, and of the same binder in the dual. -/
theorem lookup_binders_dual (job : Job) (i : Nat) :
    InStep (fun b b' => b' = Binder.dual b) (Fault.lookup job.sentence.binders i)
      (Fault.lookup job.dual.sentence.binders i) := by
  have hsize : job.dual.sentence.binders.size = job.sentence.binders.size := Array.size_map ..
  refine InStep.lookup hsize fun b b' hb hb' => ?_
  rw [getElem?_binders_dual, hb] at hb'
  exact (Option.some.inj hb').symm

/-! ## Opposed sets -/

theorem FixKind.opposite_injective : Function.Injective FixKind.opposite :=
  Function.LeftInverse.injective FixKind.opposite_opposite

theorem FixKind.bottom_opposite {α : Type} (k : FixKind) :
    (k.opposite.bottom : Set α) = k.bottomᶜ := by
  cases k
  · exact Set.compl_empty.symm
  · exact Set.compl_univ.symm

namespace StateSet

/-- Sets over one universe, one with the states that the other one lacks. -/
def Opposed (u : Universe) (s t : StateSet) : Prop :=
  ∃ S, s.Represents u S ∧ t.Represents u Sᶜ

namespace Opposed

variable {u : Universe} {s s' t t' : StateSet}

theorem symm (h : Opposed u s t) : Opposed u t s := by
  obtain ⟨S, hs, ht⟩ := h
  exact ⟨Sᶜ, ht, by rwa [compl_compl]⟩

theorem eq_complement (h : Opposed u s t) : t = s.complement := by
  obtain ⟨S, hs, ht⟩ := h
  exact ht.eq_set hs.complement

theorem complement (h : Opposed u s t) : Opposed u s.complement t.complement := by
  obtain ⟨S, hs, ht⟩ := h
  exact ⟨Sᶜ, hs.complement, ht.complement⟩

theorem inter_union (h : Opposed u s t) (h' : Opposed u s' t') :
    InStep (Opposed u) (s.inter s') (t.union t') := by
  obtain ⟨S, hs, ht⟩ := h
  obtain ⟨S', hs', ht'⟩ := h'
  obtain ⟨r, hinter, hr⟩ := hs.inter hs'
  obtain ⟨q, hunion, hq⟩ := ht.union ht'
  rw [hinter, hunion]
  exact .ok ⟨S ∩ S', hr, by rwa [Set.compl_inter]⟩

theorem union_inter (h : Opposed u s t) (h' : Opposed u s' t') :
    InStep (Opposed u) (s.union s') (t.inter t') :=
  InStep.symm (fun _ _ => symm) (h.symm.inter_union h'.symm)

/-- The test that ends the rounds has the same outcome on both sides. -/
theorem equal_eq (h : Opposed u s t) (h' : Opposed u s' t') : t.equal t' = s.equal s' := by
  obtain ⟨S, hs, ht⟩ := h
  obtain ⟨S', hs', ht'⟩ := h'
  obtain ⟨same, hequal, hsame⟩ := hs.equal hs'
  obtain ⟨same', hequal', hsame'⟩ := ht.equal ht'
  rw [hequal, hequal', Bool.eq_iff_iff.2 (hsame'.trans (compl_inj_iff.trans hsame.symm))]

theorem extreme (u : Universe) (k : FixKind) : Opposed u (k.extreme u) (k.opposite.extreme u) := by
  refine ⟨k.bottom, Evaluation.represents_extreme u k, ?_⟩
  rw [← FixKind.bottom_opposite]
  exact Evaluation.represents_extreme u k.opposite

theorem reset (h : Opposed u s t) (k : FixKind) : Opposed u (k.reset s) (k.opposite.reset t) := by
  obtain ⟨S, hs, ht⟩ := h
  refine ⟨k.bottom, Evaluation.represents_reset hs k, ?_⟩
  rw [← FixKind.bottom_opposite]
  exact Evaluation.represents_reset ht k.opposite

variable {m : TransitionSystem}

theorem diamond_boxed (hm : m.Indexed) (a : Label) (h : Opposed m.carrier s t) :
    InStep (Opposed m.carrier) (m.diamond a s) (m.boxed a t) := by
  obtain ⟨S, hs, ht⟩ := h
  obtain ⟨r, hdiamond, hr⟩ := TransitionSystem.diamond_eq_ok hm a hs
  obtain ⟨q, hboxed, hq⟩ := TransitionSystem.boxed_eq_ok hm a ht
  rw [hdiamond, hboxed]
  rw [TransitionSystem.within_eq_compl, compl_compl] at hq
  exact .ok ⟨m.before a S, hr, hq⟩

theorem boxed_diamond (hm : m.Indexed) (a : Label) (h : Opposed m.carrier s t) :
    InStep (Opposed m.carrier) (m.boxed a s) (m.diamond a t) :=
  InStep.symm (fun _ _ => symm) (h.symm.diamond_boxed hm a)

end Opposed

end StateSet

/-! ## Mirrored evaluations -/

/-- The values are opposed; the flag and the tally are the same. -/
structure Cell.Mirrors (u : Universe) (c c' : Cell) : Prop where
  value : c.value.Opposed u c'.value
  isOpen : c'.isOpen = c.isOpen
  tally : c'.tally = c.tally

namespace Evaluation

/-- Every cell mirrors the one with the same slot. The logs may differ. -/
structure Mirrors (u : Universe) (e e' : Evaluation) : Prop where
  size : e'.cells.size = e.cells.size
  cell : ∀ (i : Nat) (c c' : Cell), e.cells[i]? = some c → e'.cells[i]? = some c' → c.Mirrors u c'

namespace Mirrors

variable {u : Universe} {e e' : Evaluation}

theorem record (h : Mirrors u e e') (event event' : Event) :
    Mirrors u (e.record event) (e'.record event') := ⟨h.size, h.cell⟩

theorem update (h : Mirrors u e e') (i : Nat) {g g' : Cell → Cell}
    (hg : ∀ c c', c.Mirrors u c' → (g c).Mirrors u (g' c')) :
    Mirrors u (e.update i g) (e'.update i g') where
  size := by
    rw [Evaluation.update, Evaluation.update, Array.size_modify, Array.size_modify, h.size]
  cell j c c' hc hc' := by
    rw [Evaluation.update, Array.getElem?_modify] at hc hc'
    split at hc
    · next hij =>
      rw [if_pos hij] at hc'
      obtain ⟨d, hd, rfl⟩ := Option.map_eq_some_iff.1 hc
      obtain ⟨d', hd', rfl⟩ := Option.map_eq_some_iff.1 hc'
      exact hg d d' (h.cell j d d' hd hd')
    · next hij =>
      rw [if_neg hij] at hc'
      exact h.cell j c c' hc hc'

theorem lookup (h : Mirrors u e e') (i : Nat) :
    InStep (Cell.Mirrors u) (e.cell i) (e'.cell i) :=
  InStep.lookup h.size (h.cell i)

theorem value (h : Mirrors u e e') (i : Nat) :
    InStep (StateSet.Opposed u) (e.value i) (e'.value i) :=
  (h.lookup i).bind fun _ _ hc => .ok hc.value

theorem isOpen_eq (h : Mirrors u e e') (i : Nat) : e'.isOpen i = e.isOpen i := by
  have hflag : InStep Eq (e.isOpen i) (e'.isOpen i) :=
    (h.lookup i).bind fun _ _ hc => .ok hc.isOpen.symm
  exact hflag.eq.symm

theorem tallies_eq (h : Mirrors u e e') : e'.tallies = e.tallies := by
  refine List.ext_getElem (by simp [tallies, h.size]) fun i hi hi' => ?_
  simp only [tallies, List.length_map, Array.length_toList] at hi hi'
  simpa [tallies] using
    (h.cell i _ _ (Array.getElem?_eq_getElem hi') (Array.getElem?_eq_getElem hi)).tally

/-! ### Entering a fixed point -/

theorem resetCell (h : Mirrors u e e') (k : FixKind) (i : Nat) :
    InStep (Mirrors u) (e.resetCell k i) (e'.resetCell k.opposite i) := by
  have hrecord := h.record (.reset i k) (.reset i k.opposite)
  refine (hrecord.lookup i).bind fun _ _ _ => .ok (hrecord.update i fun c c' hc => ?_)
  exact ⟨hc.value.reset k, hc.isOpen, congrArg Tally.reset hc.tally⟩

theorem resetIfAffected (h : Mirrors u e e') (job : Job) (k : FixKind) (i : Nat) :
    InStep (Mirrors u) (Evaluation.resetIfAffected job k e i)
      (Evaluation.resetIfAffected job.dual k.opposite e' i) := by
  refine (lookup_binders_dual job i).bind fun b _ hb => ?_
  subst hb
  show InStep _ (if b.kind = k then _ else _) (if b.kind.opposite = k.opposite then _ else _)
  by_cases hkind : b.kind = k
  · rw [if_pos hkind, if_pos (congrArg _ hkind)]
    have hopen : InStep Eq (b.occurrences.anyM e.isOpen) (b.occurrences.anyM e'.isOpen) :=
      .of_eq (by rw [funext h.isOpen_eq])
    refine hopen.bind fun affected _ haffected => ?_
    subst haffected
    cases affected with
    | true => exact h.resetCell k i
    | false => exact .ok h
  · rw [if_neg hkind, if_neg fun heq => hkind (FixKind.opposite_injective heq)]
    exact .ok h

theorem resetOnEntry (h : Mirrors u e e') (job : Job) (k : FixKind) (i : Nat)
    (around : Option FixKind) :
    InStep (Mirrors u) (Evaluation.resetOnEntry job k i around e)
      (Evaluation.resetOnEntry job.dual k.opposite i (around.map .opposite) e') := by
  have hpolicy : job.dual.policy = job.policy := rfl
  unfold Evaluation.resetOnEntry
  rw [hpolicy]
  cases job.policy with
  | never => exact .ok h
  | always => exact h.resetCell k i
  | alternation =>
    -- The kinds inside and around are both swapped, so they differ on both sides or on neither.
    have haround : around.map FixKind.opposite = some k.opposite.opposite ↔
        around = some k.opposite :=
      (Option.map_injective FixKind.opposite_injective).eq_iff (b := some k.opposite)
    dsimp only
    by_cases hopposite : around = some k.opposite
    · rw [if_pos hopposite, if_pos (haround.2 hopposite)]
      refine (lookup_binders_dual job i).bind fun b _ hb => ?_
      subst hb
      exact InStep.foldlM (fun _ _ j he => he.resetIfAffected job k j) h (i :: b.descendants)
    · rw [if_neg hopposite, if_neg fun hmap => hopposite (haround.1 hmap)]
      exact .ok h

theorem enter (h : Mirrors u e e') (job : Job) (k : FixKind) (x : Char) (i : Nat)
    (around : Option FixKind) :
    InStep (Mirrors u) (Evaluation.enter job k x i around e)
      (Evaluation.enter job.dual k.opposite x i (around.map .opposite) e') := by
  have hrecord := h.record (.entered k x i around) (.entered k.opposite x i (around.map .opposite))
  refine (hrecord.lookup i).bind fun _ _ _ => resetOnEntry (hrecord.update i fun c c' hc => ?_) ..
  exact ⟨hc.value, hc.isOpen, congrArg Tally.enter hc.tally⟩

end Mirrors

/-! ### Rounds and formulas -/

/-- The sets are opposed, and the evaluations afterwards mirror each other. -/
def Mirrored (u : Universe) (r r' : StateSet × Evaluation) : Prop :=
  r.1.Opposed u r'.1 ∧ r.2.Mirrors u r'.2

section Rounds

variable {u : Universe} {k : FixKind} {x : Char} {i : Nat} {body body' : Action}
  {e e' : Evaluation} {previous previous' current current' : StateSet}

theorem Mirrors.round (hbody : ∀ e e', Mirrors u e e' → InStep (Mirrored u) (body e) (body' e'))
    (h : Mirrors u e e') (number : Nat) (hcurrent : current.Opposed u current') :
    InStep (Mirrored u) (round k x i body number current e)
      (round k.opposite x i body' number current' e') := by
  have hraise : Mirrors u (e.update i fun c => { c with value := current, isOpen := true })
      (e'.update i fun c => { c with value := current', isOpen := true }) :=
    h.update i fun _ _ hc => ⟨hcurrent, rfl, hc.tally⟩
  refine (hbody _ _ hraise).bind ?_
  rintro ⟨next, e₁⟩ ⟨next', e₁'⟩ ⟨hnext, h₁⟩
  have hlower : Mirrors u (e₁.update i fun c => { c with isOpen := false })
      (e₁'.update i fun c => { c with isOpen := false }) :=
    h₁.update i fun _ _ hc => ⟨hc.value, rfl, hc.tally⟩
  exact .ok ⟨hnext, hlower.record _ _⟩

theorem Mirrors.leave (h : Mirrors u e e') (number : Nat) (hcurrent : current.Opposed u current') :
    Mirrors u (leave k x i number current e) (leave k.opposite x i number current' e') :=
  (h.record _ _).update i fun _ _ hc =>
    ⟨hcurrent, hc.isOpen, congrArg (Tally.converge number) hc.tally⟩

/-- The rounds come to rest at the same number, since the sets are compared with opposed ones. -/
theorem Mirrors.rounds (hbody : ∀ e e', Mirrors u e e' → InStep (Mirrored u) (body e) (body' e'))
    (h : Mirrors u e e') (limit number : Nat) (hprevious : previous.Opposed u previous')
    (hcurrent : current.Opposed u current') :
    InStep (Mirrored u) (rounds k x i body limit number previous current e)
      (rounds k.opposite x i body' limit number previous' current' e') := by
  induction limit generalizing e e' number previous previous' current current' with
  | zero => exact .error _
  | succ limit ih =>
    refine (h.round hbody number hcurrent).bind ?_
    rintro ⟨next, e₁⟩ ⟨next', e₁'⟩ ⟨hnext, h₁⟩
    refine (InStep.of_eq (hnext.equal_eq hprevious).symm).bind fun stable _ hstable => ?_
    subst hstable
    cases stable with
    | true => exact .ok ⟨hnext, h₁.leave number hnext⟩
    | false => exact ih h₁ (number + 1) hnext hnext

end Rounds

/-- The evaluation of a formula and of its dual go in lock-step. -/
theorem evalFormula_dual {job : Job} (hm : job.system.Indexed) (limit : Nat) (f : Formula)
    (around : Option FixKind) {e e' : Evaluation} (h : Mirrors job.system.carrier e e') :
    InStep (Mirrored job.system.carrier) (evalFormula job limit f around e)
      (evalFormula job.dual limit f.dual (around.map .opposite) e') := by
  induction f generalizing around e e' with
  | top => exact .ok ⟨.extreme _ .greatest, h⟩
  | bot => exact .ok ⟨.extreme _ .least, h⟩
  | var x i => exact (h.value i).bind fun _ _ hs => .ok ⟨hs, h⟩
  | and l r ihl ihr =>
    refine (ihl around h).bind ?_
    rintro ⟨s, e₁⟩ ⟨s', e₁'⟩ ⟨hs, h₁⟩
    refine (ihr around h₁).bind ?_
    rintro ⟨t, e₂⟩ ⟨t', e₂'⟩ ⟨ht, h₂⟩
    exact (hs.inter_union ht).bind fun _ _ hboth => .ok ⟨hboth, h₂⟩
  | or l r ihl ihr =>
    refine (ihl around h).bind ?_
    rintro ⟨s, e₁⟩ ⟨s', e₁'⟩ ⟨hs, h₁⟩
    refine (ihr around h₁).bind ?_
    rintro ⟨t, e₂⟩ ⟨t', e₂'⟩ ⟨ht, h₂⟩
    exact (hs.union_inter ht).bind fun _ _ heither => .ok ⟨heither, h₂⟩
  | not f ih =>
    refine (ih around h).bind ?_
    rintro ⟨s, e₁⟩ ⟨s', e₁'⟩ ⟨hs, h₁⟩
    exact .ok ⟨hs.complement, h₁⟩
  | diamond a f ih =>
    refine (ih around h).bind ?_
    rintro ⟨s, e₁⟩ ⟨s', e₁'⟩ ⟨hs, h₁⟩
    exact (hs.diamond_boxed hm a).bind fun _ _ hr => .ok ⟨hr, h₁⟩
  | box a f ih =>
    refine (ih around h).bind ?_
    rintro ⟨s, e₁⟩ ⟨s', e₁'⟩ ⟨hs, h₁⟩
    exact (hs.boxed_diamond hm a).bind fun _ _ hr => .ok ⟨hr, h₁⟩
  | fix k x i f ih =>
    refine (h.enter job k x i around).bind fun e₁ e₁' h₁ => ?_
    refine (h₁.value i).bind fun _ _ hcurrent => ?_
    -- The first round is compared with the other extreme, which is the opposed one on both sides.
    exact h₁.rounds (fun _ _ h => ih (some k) h) limit 1 (.extreme _ k.opposite) hcurrent

theorem start_mirrors (job : Job) : Mirrors job.system.carrier (start job) (start job.dual) where
  size := by simp [start, Job.dual, Sentence.dual]
  cell i c c' hc hc' := by
    rw [getElem?_start_cells] at hc hc'
    obtain ⟨b, hb, rfl⟩ := Option.map_eq_some_iff.1 hc
    obtain ⟨b', hb', rfl⟩ := Option.map_eq_some_iff.1 hc'
    rw [getElem?_binders_dual, hb] at hb'
    obtain rfl := Option.some.inj hb'
    exact ⟨.extreme _ b.kind, rfl, rfl⟩

end Evaluation

namespace Job

/-- With every limit the evaluations of a sentence and of its dual from the start go in lock-step. -/
theorem evalFormula_root_dual (job : Job) (hm : job.system.Indexed) (limit : Nat) :
    InStep (Evaluation.Mirrored job.system.carrier)
      (Evaluation.evalFormula job limit job.sentence.root none (.start job))
      (Evaluation.evalFormula job.dual limit job.dual.sentence.root none (.start job.dual)) :=
  Evaluation.evalFormula_dual hm limit job.sentence.root none (Evaluation.start_mirrors job)

theorem terminates_dual_iff (job : Job) (hm : job.system.Indexed) :
    job.dual.Terminates ↔ job.Terminates := by
  constructor
  · rintro ⟨limit, r', hr'⟩
    have hstep := job.evalFormula_root_dual hm limit
    rw [hr'] at hstep
    obtain ⟨r, hr, -⟩ := hstep.exists_left
    exact ⟨limit, r, hr⟩
  · rintro ⟨limit, r, hr⟩
    have hstep := job.evalFormula_root_dual hm limit
    rw [hr] at hstep
    obtain ⟨r', hr', -⟩ := hstep.exists_right
    exact ⟨limit, r', hr'⟩

/-- The dual has as many cells, so the limit of its run is the same. -/
theorem check_dual_inStep (job : Job) (hm : job.system.Indexed) :
    InStep (fun verdict verdict' =>
        verdict.satisfying.Opposed job.system.carrier verdict'.satisfying ∧
        verdict'.tallies = verdict.tallies) job.check job.dual.check := by
  have hlimit : Evaluation.roundLimit job.dual (.start job.dual) =
      Evaluation.roundLimit job (.start job) := by
    rw [Evaluation.roundLimit, (Evaluation.start_mirrors job).size]
    rfl
  have hrun : InStep (Evaluation.Mirrored job.system.carrier) (Evaluation.run job (.start job))
      (Evaluation.run job.dual (.start job.dual)) := by
    rw [Evaluation.run, Evaluation.eval, Evaluation.run, Evaluation.eval, hlimit]
    exact job.evalFormula_root_dual hm _
  refine hrun.bind ?_
  rintro ⟨s, e⟩ ⟨s', e'⟩ ⟨hs, he⟩
  exact .ok ⟨hs, he.tallies_eq⟩

end Job

/-- The check of the dual of a sentence terminates exactly if the check of the sentence does, and then
it gives the complement, with the same tallies. -/
theorem check_dual {b : Blueprint} {tag : Nat} {m : TransitionSystem} (hm : b.build tag = .ok m)
    {src : String} {p : Sentence} (hp : Sentence.parse src = .ok p) (policy : ResetPolicy) :
    ((Job.mk m p.dual policy).Terminates ↔ (Job.mk m p policy).Terminates) ∧
      ((Job.mk m p policy).Terminates → ∃ verdict verdict',
        (Job.mk m p policy).check = .ok verdict ∧ (Job.mk m p.dual policy).check = .ok verdict' ∧
        verdict'.satisfying = verdict.satisfying.complement ∧
        verdict'.tallies = verdict.tallies) := by
  have hindexed : m.Indexed := (Blueprint.build_eq_ok hm).2.2
  refine ⟨(Job.mk m p policy).terminates_dual_iff hindexed, fun hterminates => ?_⟩
  obtain ⟨verdict, hcheck⟩ :=
    (exists_check_iff_terminates hindexed (Sentence.parse_wellFormed hp)).2 hterminates
  have hstep := (Job.mk m p policy).check_dual_inStep hindexed
  rw [hcheck] at hstep
  obtain ⟨verdict', hdual, hopposed, htallies⟩ := hstep.exists_right
  exact ⟨verdict, verdict', hcheck, hdual, hopposed.eq_complement, htallies⟩

/-- The inner fixed point uses its variable below one negation, and is reset on both entries. -/
theorem check_dual_negated :
    ∃ m p verdict', (Blueprint.mk #[none, none, none] 0
        #[⟨0, ⟨"a"⟩, 1⟩, ⟨1, ⟨"b"⟩, 2⟩, ⟨2, ⟨"a"⟩, 2⟩]).build 0 = .ok m ∧
      Sentence.parse "nu X.mu Y.((<b>!Y) || <a>(X && Y))" = .ok p ∧
      (Job.mk m p .alternation).Terminates ∧ (Job.mk m p.dual .alternation).Terminates ∧
      (Job.mk m p.dual .alternation).check = .ok verdict' ∧ verdict'.satisfying.members = [2] ∧
      verdict'.tallies = [⟨1, 2, 2, 0⟩, ⟨2, 6, 3, 2⟩] := by
  obtain ⟨m, p, verdict, hm, hp, hcheck, hmembers, htallies⟩ : ∃ m p verdict,
      (Blueprint.mk #[none, none, none] 0
        #[⟨0, ⟨"a"⟩, 1⟩, ⟨1, ⟨"b"⟩, 2⟩, ⟨2, ⟨"a"⟩, 2⟩]).build 0 = .ok m ∧
      Sentence.parse "nu X.mu Y.((<b>!Y) || <a>(X && Y))" = .ok p ∧
      (Job.mk m p .alternation).check = .ok verdict ∧
      verdict.satisfying.complement.members = [2] ∧
      verdict.tallies = [⟨1, 2, 2, 0⟩, ⟨2, 6, 3, 2⟩] :=
    ⟨_, _, _, rfl, rfl, rfl, by decide +kernel, by decide +kernel⟩
  have hterminates : (Job.mk m p .alternation).Terminates := Job.terminates_of_check hcheck
  obtain ⟨hiff, hverdicts⟩ := check_dual hm hp .alternation
  obtain ⟨verdict₁, verdict', hcheck₁, hdual, hcomplement, hequal⟩ := hverdicts hterminates
  obtain rfl : verdict₁ = verdict := Except.ok.inj (hcheck₁.symm.trans hcheck)
  refine ⟨m, p, verdict', hm, hp, hterminates, hiff.2 hterminates, hdual, ?_, ?_⟩
  · rw [hcomplement, hmembers]
  · rw [hequal, htallies]

end ModalMu
