import ModalMu.Proofs.FullRestart
import ModalMu.Proofs.KeptValues

/-!
# Resets at a change of kind

The alternation policy resets on entry of a fixed point directly below one of the other kind: the fixed
point itself and those of its kind inside, as far as they use a variable that is open at that time. If
this reaches every fixed point that has to start anew, a check gives the meaning of the sentence
(`check_alternation_eq_meaning`), and with it the verdict of the full restart
(`check_alternation_eq_check_always`).

It does not reach all of them. A fixed point whose variables from outside are bound by the fixed point
that is being entered, or inside it, is passed over, because that one is not open yet. It keeps a value
that belongs to the rounds of another entry, and the verdict can be wrong
(`check_alternation_ne_check_always`).
-/

namespace ModalMu

namespace Formula

variable {f : Formula} {k : FixKind} {around : Option FixKind}

/-! ## Where the resets reach everything -/

/-- Every fixed point that uses variables from outside and is reached through fixed points of kind `k`,
itself one of them, uses a variable out of `outer`. -/
def Anchored (k : FixKind) (outer : List Nat) : Formula → Prop
  | top | bot | var _ _ => True
  | and l r | or l r => l.Anchored k outer ∧ r.Anchored k outer
  | not f | diamond _ f | box _ f => f.Anchored k outer
  | fix k' x i f => k' = k →
      ((fix k' x i f).free ≠ [] → ∃ j ∈ (fix k' x i f).free, j ∈ outer) ∧ f.Anchored k outer

instance decidableAnchored (k : FixKind) (outer : List Nat) :
    (f : Formula) → Decidable (f.Anchored k outer)
  | top | bot | var _ _ => inferInstanceAs (Decidable True)
  | and l r | or l r =>
    have := decidableAnchored k outer l
    have := decidableAnchored k outer r
    inferInstanceAs (Decidable (l.Anchored k outer ∧ r.Anchored k outer))
  | not f | diamond _ f | box _ f => decidableAnchored k outer f
  | fix k' x i f =>
    have := decidableAnchored k outer f
    inferInstanceAs (Decidable (k' = k →
      ((fix k' x i f).free ≠ [] → ∃ j ∈ (fix k' x i f).free, j ∈ outer) ∧ f.Anchored k outer))

/-- For every fixed point `Z` that uses variables from outside and stands directly below one of the
other kind, each fixed point below `Z`, in a nest of fixed points of the kind of `Z`, that uses variables
from outside uses one that is bound outside `Z`. -/
def WellAnchored (around : Option FixKind) (f : Formula) : Prop :=
  f.Throughout (fun around k x i f => around = some k.opposite → (fix k x i f).free ≠ [] →
    f.Anchored k (fix k x i f).free) around

instance (around : Option FixKind) (f : Formula) : Decidable (f.WellAnchored around) :=
  inferInstanceAs (Decidable (f.Throughout _ around))

/-- No fixed point stands directly below one of its own kind. -/
def StrictlyAlternating (around : Option FixKind) (f : Formula) : Prop :=
  f.Throughout (fun around k _ _ _ => around ≠ some k) around

theorem Anchored.covered {outer : List Nat} (h : f.Anchored k outer) : f.Covered k outer := by
  induction f with
  | top | bot | var => trivial
  | and l r ihl ihr | or l r ihl ihr => exact ⟨ihl h.1, ihr h.2⟩
  | not f ih | diamond a f ih | box a f ih => exact ih h
  | fix k' x i f ih =>
    intro hkind hopen
    obtain ⟨hanchor, hbody⟩ := h hkind
    exact ⟨fun _ => hanchor hopen, ih hbody⟩

theorem WellAnchored.noneOverlooked (h : f.WellAnchored around) :
    f.NoneOverlooked .alternation around :=
  Throughout.imp h fun _ _ _ _ _ hanchored haround hopen => ⟨rfl, (hanchored haround hopen).covered⟩

theorem StrictlyAlternating.anchored (h : f.StrictlyAlternating (some k)) (outer : List Nat) :
    f.Anchored k outer := by
  induction f with
  | top | bot | var => trivial
  | and l r ihl ihr | or l r ihl ihr => exact ⟨ihl h.1, ihr h.2⟩
  | not f ih | diamond a f ih | box a f ih => exact ih h
  | fix k' x i f => exact fun hkind => (h.1 (congrArg some hkind.symm)).elim

theorem StrictlyAlternating.wellAnchored (h : f.StrictlyAlternating around) :
    f.WellAnchored around := by
  induction f generalizing around with
  | top | bot | var => trivial
  | and l r ihl ihr | or l r ihl ihr => exact ⟨ihl h.1, ihr h.2⟩
  | not f ih | diamond a f ih | box a f ih => exact ih h
  | fix k x i f ih => exact ⟨fun _ _ => StrictlyAlternating.anchored h.2 _, ih h.2⟩

end Formula

/-! ## Checks -/

section Check

variable {b : Blueprint} {tag : Nat} {m : TransitionSystem} {src : String} {p : Sentence}

/-- A check that goes on from kept values gives the meaning, if nothing is overlooked and no negation
turns a direction round. -/
theorem exists_check_eq_ok_of_aligned {policy : ResetPolicy} (hm : b.build tag = .ok m)
    (hp : Sentence.parse src = .ok p) (hf : p.root.Balanced) (haligned : p.root.Aligned none)
    (hpolicy : policy ≠ .always) (hnone : p.root.NoneOverlooked policy none) :
    ∃ verdict, (Job.mk m p policy).check = .ok verdict ∧
      verdict.satisfying.Represents m.carrier (p.meaning m) ∧
      (∀ t ∈ verdict.tallies, t.maxRounds ≤ m.numStates + 1) ∧
      ∀ a ∈ verdict.log, a.Within (m.numStates + 1) := by
  have hwellFormed := Sentence.parse_wellFormed hp
  have hready : p.root.Ready m false none (Evaluation.startValues ⟨m, p, policy⟩) :=
    Formula.ready_of_bottom fun _ => Evaluation.startValues_slot ⟨m, p, policy⟩ hwellFormed
  obtain ⟨w, heval, -⟩ := Formula.evaluate_aligned hpolicy hf haligned hwellFormed.apart hnone [] _
    hwellFormed.below hready
  rw [hwellFormed.denote_root] at heval
  exact exists_check_eq_ok (Blueprint.build_eq_ok hm).2.2 hwellFormed heval

/-- The same for a sentence without negations. -/
theorem exists_check_eq_ok_of_noneOverlooked {policy : ResetPolicy} (hm : b.build tag = .ok m)
    (hp : Sentence.parse src = .ok p) (hf : p.root.NegationFree) (hpolicy : policy ≠ .always)
    (hnone : p.root.NoneOverlooked policy none) :
    ∃ verdict, (Job.mk m p policy).check = .ok verdict ∧
      verdict.satisfying.Represents m.carrier (p.meaning m) ∧
      (∀ t ∈ verdict.tallies, t.maxRounds ≤ m.numStates + 1) ∧
      ∀ a ∈ verdict.log, a.Within (m.numStates + 1) :=
  exists_check_eq_ok_of_aligned hm hp hf.balanced hf.aligned hpolicy hnone

/-- Where every reset point reaches what lies below it, checks under the alternation policy give the
meaning, with at most one round per entry more than there are states. -/
theorem check_alternation_eq_meaning (hm : b.build tag = .ok m) (hp : Sentence.parse src = .ok p)
    (hf : p.root.NegationFree)
    (hreach : p.root.WellAnchored none ∨ p.root.StrictlyAlternating none) :
    ∃ verdict, (Job.mk m p .alternation).check = .ok verdict ∧
      verdict.satisfying.Represents m.carrier (p.meaning m) ∧
      (∀ t ∈ verdict.tallies, t.maxRounds ≤ m.numStates + 1) ∧
      ∀ a ∈ verdict.log, a.Within (m.numStates + 1) := by
  have hanchored : p.root.WellAnchored none := hreach.elim id fun h => h.wellAnchored
  exact exists_check_eq_ok_of_noneOverlooked hm hp hf nofun hanchored.noneOverlooked

/-- Not all nested fixed points alternate here: below the reset point `B` stands `C`, of the same kind,
which uses the variable of `A` around them. -/
theorem check_alternation_eq_meaning_anchored :
    ∃ m p, (Blueprint.mk #[none, none] 0
        #[⟨0, ⟨"a"⟩, 1⟩, ⟨1, ⟨"b"⟩, 0⟩, ⟨1, ⟨"a"⟩, 1⟩]).build 0 = .ok m ∧
      Sentence.parse "mu A.nu B.((<b>A) || nu C.([a](C && B) && <a>(A || B)))" = .ok p ∧
      p.root.NegationFree ∧ p.root.WellAnchored none ∧
      ∃ verdict, (Job.mk m p .alternation).check = .ok verdict ∧
        verdict.satisfying.Represents m.carrier (p.meaning m) ∧
        (∀ t ∈ verdict.tallies, t.maxRounds ≤ m.numStates + 1) ∧
        ∀ a ∈ verdict.log, a.Within (m.numStates + 1) := by
  obtain ⟨m, p, hm, hp, hf, hanchored⟩ : ∃ m p, (Blueprint.mk #[none, none] 0
        #[⟨0, ⟨"a"⟩, 1⟩, ⟨1, ⟨"b"⟩, 0⟩, ⟨1, ⟨"a"⟩, 1⟩]).build 0 = .ok m ∧
      Sentence.parse "mu A.nu B.((<b>A) || nu C.([a](C && B) && <a>(A || B)))" = .ok p ∧
      p.root.NegationFree ∧ p.root.WellAnchored none :=
    ⟨_, _, rfl, rfl, by decide +kernel, by decide +kernel⟩
  exact ⟨m, p, hm, hp, hf, hanchored, check_alternation_eq_meaning hm hp hf (.inl hanchored)⟩

/-- Where nothing is overlooked, the alternation policy gives the verdict of the full restart. -/
theorem check_alternation_eq_check_always (hm : b.build tag = .ok m)
    (hp : Sentence.parse src = .ok p) (hf : p.root.NegationFree)
    (hnone : p.root.NoneOverlooked .alternation none) :
    ∃ kept restarted, (Job.mk m p .alternation).check = .ok kept ∧
      (Job.mk m p .always).check = .ok restarted ∧ kept.satisfying = restarted.satisfying := by
  have hpolicy : ResetPolicy.alternation ≠ .always := nofun
  obtain ⟨kept, hkept, hregion, -⟩ := exists_check_eq_ok_of_noneOverlooked hm hp hf hpolicy hnone
  obtain ⟨restarted, hrestarted, hregion'⟩ := exists_check_always_eq_ok hm hp hf.balanced
  exact ⟨kept, restarted, hkept, hrestarted, hregion.eq_set hregion'⟩

/-- Below the reset point `B` the fixed point `C` goes on from its own value, and is reset with `B`,
because it also uses `A`. -/
theorem check_alternation_eq_check_always_covered :
    ∃ m p, (Blueprint.mk #[none, none] 0
        #[⟨1, ⟨"b"⟩, 0⟩, ⟨1, ⟨"b"⟩, 1⟩, ⟨1, ⟨"a"⟩, 1⟩]).build 0 = .ok m ∧
      Sentence.parse "mu A.nu B.[true](A || nu C.((<b>C) && (A || <a>B)))" = .ok p ∧
      p.root.NegationFree ∧ p.root.NoneOverlooked .alternation none ∧
      ∃ kept restarted, (Job.mk m p .alternation).check = .ok kept ∧
        (Job.mk m p .always).check = .ok restarted ∧ kept.satisfying = restarted.satisfying := by
  obtain ⟨m, p, hm, hp, hf, hnone⟩ : ∃ m p, (Blueprint.mk #[none, none] 0
        #[⟨1, ⟨"b"⟩, 0⟩, ⟨1, ⟨"b"⟩, 1⟩, ⟨1, ⟨"a"⟩, 1⟩]).build 0 = .ok m ∧
      Sentence.parse "mu A.nu B.[true](A || nu C.((<b>C) && (A || <a>B)))" = .ok p ∧
      p.root.NegationFree ∧ p.root.NoneOverlooked .alternation none :=
    ⟨_, _, rfl, rfl, by decide +kernel, by decide +kernel⟩
  exact ⟨m, p, hm, hp, hf, hnone, check_alternation_eq_check_always hm hp hf hnone⟩

/-- The fixed point `C` uses `B` from outside only, which is not open yet when `B` is entered and the
resets are made. It keeps the value it had in the first round of `A`, and the second state is lost. -/
theorem check_alternation_ne_check_always :
    ∃ m p kept restarted, (Blueprint.mk #[none, none] 0
        #[⟨1, ⟨"b"⟩, 0⟩, ⟨1, ⟨"b"⟩, 1⟩, ⟨1, ⟨"a"⟩, 1⟩]).build 0 = .ok m ∧
      Sentence.parse "mu A.nu B.[true](A || nu C.((<b>C) && <a>B))" = .ok p ∧
      p.root.NegationFree ∧ ¬p.root.NoneOverlooked .alternation none ∧
      (Job.mk m p .alternation).check = .ok kept ∧ (Job.mk m p .always).check = .ok restarted ∧
      kept.satisfying.members = [0] ∧ restarted.satisfying.members = [0, 1] :=
  ⟨_, _, _, _, rfl, rfl, by decide +kernel, by decide +kernel, rfl, rfl, rfl, rfl⟩

end Check

end ModalMu
