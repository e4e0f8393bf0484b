import ModalMu.Proofs.Reentry

/-!
# Evaluation with a full restart

Under the policy that resets a fixed point on every entry the kept values do not matter: whatever the
cells hold, a formula whose fixed points are monotone evaluates to its meaning, and no entry takes more
than one round more than there are states (`evaluate_always`). With the sentence that was read and the
system that was built this is `run_always_eq_meaning`.
-/

namespace ModalMu

namespace Formula

variable {m : TransitionSystem} {f : Formula}

/-- Full restart computes the meaning from any values. -/
theorem evaluate_always (hf : f.Balanced) (hapart : f.Apart) (around : Option FixKind) :
    f.Computes m .always around fun _ => True := by
  induction f generalizing around with
  | top | bot | var => exact fun _ v _ _ => ⟨v, rfl, Frame.refl _ v, trivial⟩
  | not f ih | diamond a f ih | box a f ih =>
    intro opened v hbelow _
    obtain ⟨w, heval, hw, -⟩ := ih hf ⟨hapart.nodup, hapart.notMem⟩ around opened v
      ⟨hbelow.free, hbelow.slots⟩ trivial
    exact ⟨w, by rw [evaluate, heval]; rfl, hw, trivial⟩
  | and l r ihl ihr | or l r ihl ihr =>
    intro opened v hbelow _
    obtain ⟨⟨hl, hr⟩, hlr, -⟩ := hapart.of_append rfl rfl
    obtain ⟨u, w, hleft, hright, hu, hw, -⟩ := (ihl hf.1 hl around).operands (ihr hf.2 hr around)
      (fun j hj => (hlr j hj).2) (fun _ _ _ => id) (fun _ _ _ => id)
      (hbelow.of_append rfl rfl) ⟨trivial, trivial⟩
    exact ⟨w, by simp [evaluate, denote, hleft, hright], Frame.of_append rfl hu hw, trivial⟩
  | fix k x i f ih =>
    refine (ih hf.2 hapart.body (some k)).fix hf.1 hapart (fun opened v _ _ => ?_)
      (fun _ _ _ => id) fun _ _ => id
    rw [onEntry, Valuation.reset_singleton]
    refine ⟨(Frame.refl _ v).update _, fun _ => ?_, trivial⟩
    rw [Function.update_self]
    exact ⟨k.bottom_le _, k.bottom_le _⟩

end Formula

/-- A check with full restart gives the meaning. -/
theorem exists_check_always_eq_ok {b : Blueprint} {tag : Nat} {m : TransitionSystem}
    (hm : b.build tag = .ok m) {src : String} {p : Sentence} (hp : Sentence.parse src = .ok p)
    (hbalanced : p.root.Balanced) :
    ∃ verdict, (Job.mk m p .always).check = .ok verdict ∧
      verdict.satisfying.Represents m.carrier (p.meaning m) := by
  have hwellFormed := Sentence.parse_wellFormed hp
  obtain ⟨w, heval, -⟩ := Formula.evaluate_always hbalanced hwellFormed.apart none []
    (Evaluation.startValues ⟨m, p, .always⟩) hwellFormed.below trivial
  rw [hwellFormed.denote_root] at heval
  obtain ⟨verdict, hcheck, hregion, -⟩ :=
    exists_check_eq_ok (Blueprint.build_eq_ok hm).2.2 hwellFormed heval
  exact ⟨verdict, hcheck, hregion⟩

/-- Full restart computes the meaning of a sentence on every system, whatever the cells hold before,
with at most one round per entry more than there are states. -/
theorem run_always_eq_meaning {b : Blueprint} {tag : Nat} {m : TransitionSystem}
    (hm : b.build tag = .ok m) {src : String} {p : Sentence} (hp : Sentence.parse src = .ok p)
    (hbalanced : p.root.Balanced) {e : Evaluation} (hsize : e.cells.size = p.binders.size)
    (hvalue : ∀ c ∈ e.cells, ∃ S, c.value.Represents m.carrier S) :
    ∃ s e', Evaluation.run ⟨m, p, .always⟩ e = .ok (s, e') ∧
      s.Represents m.carrier (p.meaning m) ∧ Evaluation.Within (m.numStates + 1) e e' := by
  have hindexed := (Blueprint.build_eq_ok hm).2.2
  have hwellFormed := Sentence.parse_wellFormed hp
  obtain ⟨v, hv⟩ : ∃ v, e.Tracks ⟨m, p, .always⟩ [] v :=
    Evaluation.exists_tracks hsize hvalue nofun
  obtain ⟨w, heval, -⟩ := Formula.evaluate_always hbalanced hwellFormed.apart none [] v
    hwellFormed.below trivial
  rw [hwellFormed.denote_root] at heval
  obtain ⟨s, e', hrun, hs, -, hwithin⟩ := Evaluation.exists_run_eq_ok hindexed hwellFormed hv heval
  exact ⟨s, e', hrun, hs, hwithin⟩

/-- Both cells hold the wrong extreme, the first one is marked as open, and the variable of the outer
fixed point stands below two negations. -/
theorem run_always_eq_meaning_stale :
    ∃ m p, (Blueprint.mk #[none, none, none] 0
        #[⟨0, ⟨"a"⟩, 1⟩, ⟨1, ⟨"a"⟩, 2⟩, ⟨2, ⟨"b"⟩, 2⟩]).build 0 = .ok m ∧
      Sentence.parse "nu X.!mu Y.((<a>Y) || !(X && <b>true))" = .ok p ∧
      p.root.Balanced ∧ p.binders.size = 2 ∧
      ∃ s e', Evaluation.run ⟨m, p, .always⟩
          ⟨#[⟨.none m.carrier, true, .zero⟩, ⟨.all m.carrier, false, .zero⟩], #[]⟩ = .ok (s, e') ∧
        s.Represents m.carrier (p.meaning m) ∧ Evaluation.Within (m.numStates + 1)
          ⟨#[⟨.none m.carrier, true, .zero⟩, ⟨.all m.carrier, false, .zero⟩], #[]⟩ e' := by
  obtain ⟨m, p, hm, hp, hbalanced, hsize⟩ : ∃ m p, (Blueprint.mk #[none, none, none] 0
        #[⟨0, ⟨"a"⟩, 1⟩, ⟨1, ⟨"a"⟩, 2⟩, ⟨2, ⟨"b"⟩, 2⟩]).build 0 = .ok m ∧
      Sentence.parse "nu X.!mu Y.((<a>Y) || !(X && <b>true))" = .ok p ∧
      p.root.Balanced ∧ p.binders.size = 2 :=
    ⟨_, _, rfl, rfl, by decide +kernel, rfl⟩
  refine ⟨m, p, hm, hp, hbalanced, hsize,
    run_always_eq_meaning hm hp hbalanced (by rw [hsize]; rfl) fun c hc => ?_⟩
  rcases List.mem_cons.1 (Array.mem_def.1 hc) with rfl | hc
  · exact ⟨∅, StateSet.represents_none _⟩
  · rcases List.mem_singleton.1 hc with rfl
    exact ⟨Set.univ, StateSet.represents_all _⟩

end ModalMu
