import ModalMu.Proofs.AlternationReset

/-!
# Fixed points of one kind

With an alternation depth of at most one, fixed points that stand inside one another are all of one kind
(`alternationDepth_le_one_iff`). The alternation policy then never resets, and no policy has to: as long
as no negation turns a direction round, all variables of a nest move in the direction of its kind, and
every kept value still approximates its fixed point. So a check without any resets gives the meaning of a
sentence without negations (`check_never_eq_meaning`).

A negation between two fixed points does turn the direction round, and neither the depth nor the resets
take notice of it. Where a fixed point uses a variable from outside below an odd number of negations, its
kept value is beyond the fixed point when that variable has moved, and the verdict can be wrong
(`check_alternation_ne_check_always_negated`).
-/

namespace ModalMu

namespace Formula

variable {f : Formula} {around : Option FixKind} {outer : Option (FixKind × Nat)}

/-- No fixed point stands directly below one of the other kind. -/
def OneKind (around : Option FixKind) (f : Formula) : Prop :=
  f.Throughout (fun around k _ _ _ => around ≠ some k.opposite) around

/-- The depth only grows on the way inwards. -/
theorem le_alternation (outer : Option (FixKind × Nat)) (f : Formula) :
    (outer.map (·.2)).getD 0 ≤ f.alternation outer := by
  induction f generalizing outer with
  | top | bot | var => exact Nat.le_refl _
  | and l r ihl ihr | or l r ihl ihr => exact (ihl outer).trans (Nat.le_max_left _ _)
  | not f ih | diamond a f ih | box a f ih => exact ih outer
  | fix k x i f ih =>
    have hbody := ih (some (k, depthBelow k outer))
    have hbelow : (outer.map (·.2)).getD 0 ≤ depthBelow k outer := by
      rcases depthBelow_cases k outer with ⟨-, hdepth⟩ | ⟨-, hdepth⟩ <;> omega
    exact hbelow.trans hbody

/-- Below fixed points of depth one, the depth stays one exactly if the kind stays the same. -/
theorem alternation_le_one_iff_oneKind (houter : outer = none ∨ ∃ k, outer = some (k, 1)) :
    f.alternation outer ≤ 1 ↔ f.OneKind (outer.map (·.1)) := by
  induction f generalizing outer with
  | top | bot | var =>
    refine iff_of_true ?_ trivial
    rcases houter with rfl | ⟨k, rfl⟩
    · exact Nat.zero_le _
    · exact Nat.le_refl _
  | and l r ihl ihr | or l r ihl ihr =>
    exact Nat.max_le.trans (and_congr (ihl houter) (ihr houter))
  | not f ih | diamond a f ih | box a f ih => exact ih houter
  | fix k x i f ih =>
    show f.alternation (some (k, depthBelow k outer)) ≤ 1 ↔
      outer.map (·.1) ≠ some k.opposite ∧ f.OneKind (some k)
    by_cases hother : outer.map (·.1) = some k.opposite
    · -- A change of kind takes the depth from one to two.
      have hdepth : depthBelow k outer = 2 := by
        rcases houter with rfl | ⟨k', rfl⟩
        · simp at hother
        · obtain rfl : k' = k.opposite := by simpa using hother
          simp [depthBelow, k.opposite_ne]
      have hle := le_alternation (some (k, depthBelow k outer)) f
      simp only [Option.map_some, Option.getD_some, hdepth] at hle ⊢
      exact iff_of_false (by omega) fun h => h.1 hother
    · have hdepth : depthBelow k outer = 1 := by
        rcases houter with rfl | ⟨k', rfl⟩
        · rfl
        · have hsame : k' = k := by
            by_contra hne
            exact hother (congrArg some (FixKind.eq_opposite_of_ne hne))
          simp [depthBelow, hsame]
      rw [hdepth, ih (.inr ⟨k, rfl⟩)]
      exact ⟨fun h => ⟨hother, h⟩, fun h => h.2⟩

theorem alternationDepth_le_one_iff : f.alternationDepth ≤ 1 ↔ f.OneKind none :=
  alternation_le_one_iff_oneKind (.inl rfl)

/-- Where the kind never changes, there is nothing to reset. -/
theorem OneKind.noneOverlooked (h : f.OneKind around) (policy : ResetPolicy) :
    f.NoneOverlooked policy around :=
  Throughout.imp h fun _ _ _ _ _ hsame hother => (hsame hother).elim

end Formula

section Check

variable {b : Blueprint} {tag : Nat} {m : TransitionSystem} {src : String} {p : Sentence}

/-- Without alternation a check that never resets gives the meaning, with at most one round per entry
more than there are states. -/
theorem check_never_eq_meaning (hm : b.build tag = .ok m) (hp : Sentence.parse src = .ok p)
    (hf : p.root.NegationFree) (hdepth : p.alternationDepth ≤ 1) :
    ∃ verdict, (Job.mk m p .never).check = .ok verdict ∧
      verdict.satisfying.Represents m.carrier (p.meaning m) ∧
      (∀ t ∈ verdict.tallies, t.maxRounds ≤ m.numStates + 1) ∧
      ∀ a ∈ verdict.log, a.Within (m.numStates + 1) := by
  have hkind : p.root.OneKind none := Formula.alternationDepth_le_one_iff.1 hdepth
  exact exists_check_eq_ok_of_noneOverlooked hm hp hf nofun (hkind.noneOverlooked .never)

/-- Three least fixed points inside one another, beside a greatest one: `Z` is entered again and again
while `X` and `Y` grow. -/
theorem check_never_eq_meaning_nested :
    ∃ m p, (Blueprint.mk #[none, none, none] 0
        #[⟨0, ⟨"a"⟩, 1⟩, ⟨1, ⟨"b"⟩, 2⟩, ⟨2, ⟨"p"⟩, 2⟩, ⟨2, ⟨"a"⟩, 0⟩]).build 0 = .ok m ∧
      Sentence.parse "(nu V.<a>V) && mu X.((<p>true) || mu Y.((<b>X) || mu Z.<a>(Y || Z)))" = .ok p ∧
      p.root.NegationFree ∧ p.alternationDepth ≤ 1 ∧
      ∃ verdict, (Job.mk m p .never).check = .ok verdict ∧
        verdict.satisfying.Represents m.carrier (p.meaning m) ∧
        (∀ t ∈ verdict.tallies, t.maxRounds ≤ m.numStates + 1) ∧
        ∀ a ∈ verdict.log, a.Within (m.numStates + 1) := by
  obtain ⟨m, p, hm, hp, hf, hdepth⟩ : ∃ m p, (Blueprint.mk #[none, none, none] 0
        #[⟨0, ⟨"a"⟩, 1⟩, ⟨1, ⟨"b"⟩, 2⟩, ⟨2, ⟨"p"⟩, 2⟩, ⟨2, ⟨"a"⟩, 0⟩]).build 0 = .ok m ∧
      Sentence.parse "(nu V.<a>V) && mu X.((<p>true) || mu Y.((<b>X) || mu Z.<a>(Y || Z)))" = .ok p ∧
      p.root.NegationFree ∧ p.alternationDepth ≤ 1 :=
    ⟨_, _, rfl, rfl, by decide +kernel, by decide +kernel⟩
  exact ⟨m, p, hm, hp, hf, hdepth, check_never_eq_meaning hm hp hf hdepth⟩

/-- Without alternation the alternation policy gives the verdict of the full restart, if no negation
turns a direction round. -/
theorem check_alternation_eq_check_always_of_aligned (hm : b.build tag = .ok m)
    (hp : Sentence.parse src = .ok p) (hf : p.root.Balanced) (hdepth : p.alternationDepth ≤ 1)
    (haligned : p.root.Aligned none) :
    ∃ kept restarted, (Job.mk m p .alternation).check = .ok kept ∧
      (Job.mk m p .always).check = .ok restarted ∧ kept.satisfying = restarted.satisfying := by
  have hkind : p.root.OneKind none := Formula.alternationDepth_le_one_iff.1 hdepth
  have hpolicy : ResetPolicy.alternation ≠ .always := nofun
  obtain ⟨kept, hkept, hregion, -⟩ :=
    exists_check_eq_ok_of_aligned hm hp hf haligned hpolicy (hkind.noneOverlooked .alternation)
  obtain ⟨restarted, hrestarted, hregion'⟩ := exists_check_always_eq_ok hm hp hf
  exact ⟨kept, restarted, hkept, hrestarted, hregion.eq_set hregion'⟩

/-- The variable of `X` is used in `Y` below two negations, and `Z`, below one, uses no variable from
outside. -/
theorem check_alternation_eq_check_always_of_aligned_negated :
    ∃ m p, (Blueprint.mk #[none, none] 0
        #[⟨0, ⟨"p"⟩, 0⟩, ⟨0, ⟨"a"⟩, 0⟩, ⟨1, ⟨"b"⟩, 0⟩]).build 0 = .ok m ∧
      Sentence.parse "mu X.((<p>true) || (!mu Z.<a>Z) && <b>!!mu Y.((<a>Y) || !!X))" = .ok p ∧
      p.root.Balanced ∧ p.alternationDepth ≤ 1 ∧ p.root.Aligned none ∧
      ∃ kept restarted, (Job.mk m p .alternation).check = .ok kept ∧
        (Job.mk m p .always).check = .ok restarted ∧ kept.satisfying = restarted.satisfying := by
  obtain ⟨m, p, hm, hp, hf, hdepth, haligned⟩ : ∃ m p, (Blueprint.mk #[none, none] 0
        #[⟨0, ⟨"p"⟩, 0⟩, ⟨0, ⟨"a"⟩, 0⟩, ⟨1, ⟨"b"⟩, 0⟩]).build 0 = .ok m ∧
      Sentence.parse "mu X.((<p>true) || (!mu Z.<a>Z) && <b>!!mu Y.((<a>Y) || !!X))" = .ok p ∧
      p.root.Balanced ∧ p.alternationDepth ≤ 1 ∧ p.root.Aligned none :=
    ⟨_, _, rfl, rfl, by decide +kernel, by decide +kernel, by decide +kernel⟩
  exact ⟨m, p, hm, hp, hf, hdepth, haligned,
    check_alternation_eq_check_always_of_aligned hm hp hf hdepth haligned⟩

/-- When `X` grows, the least fixed point `Y` below the negation gets smaller. It is of the kind of `X`, so
it is not reset, and keeps a state that only itself supports. -/
theorem check_alternation_ne_check_always_negated :
    ∃ m p kept restarted, (Blueprint.mk #[none, none] 0
        #[⟨0, ⟨"p"⟩, 0⟩, ⟨0, ⟨"a"⟩, 0⟩, ⟨1, ⟨"b"⟩, 0⟩]).build 0 = .ok m ∧
      Sentence.parse "mu X.((<p>true) || <b>!mu Y.((<a>Y) || !X))" = .ok p ∧
      p.root.Balanced ∧ p.alternationDepth ≤ 1 ∧ ¬p.root.Aligned none ∧
      (Job.mk m p .alternation).check = .ok kept ∧ (Job.mk m p .always).check = .ok restarted ∧
      kept.satisfying.members = [0] ∧ restarted.satisfying.members = [0, 1] :=
  ⟨_, _, _, _, rfl, rfl, by decide +kernel, by decide +kernel, by decide +kernel, rfl, rfl, rfl, rfl⟩

end Check

end ModalMu
