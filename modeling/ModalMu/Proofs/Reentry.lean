import ModalMu.Proofs.Convergence

/-!
# Entering a fixed point with kept values

Evaluation changes only the values of the fixed points inside a formula (`Frame`). Whether it computes
the meaning depends on the values it finds there. `Computes` says that it does so from all values with
some property, and leaves values with this property. `Computes.fix` is the step to a fixed point: it is
found if the value that its rounds begin with approximates it.
-/

namespace ModalMu

namespace Formula

variable {m : TransitionSystem} {l r f : Formula} {k : FixKind} {x : Char} {i : Nat}
  {u v w : Valuation m} {c : m.Region} {opened : List Nat} {policy : ResetPolicy}
  {around : Option FixKind}

/-! ## Frames -/

/-- The valuations differ only in the values of the fixed points inside the formula. -/
def Frame (f : Formula) (v w : Valuation m) : Prop := ∀ j ∉ f.slots, w j = v j

theorem Frame.refl (f : Formula) (v : Valuation m) : f.Frame v v := fun _ _ => rfl

theorem Frame.trans (h : f.Frame u v) (h' : f.Frame v w) : f.Frame u w := fun j hj =>
  (h' j hj).trans (h j hj)

theorem Frame.of_append (hslots : f.slots = l.slots ++ r.slots) (hl : l.Frame u v)
    (hr : r.Frame v w) : f.Frame u w := by
  intro j hj
  rw [hslots, List.mem_append, not_or] at hj
  rw [hr j hj.2, hl j hj.1]

theorem Frame.eq_of_mem_free (h : f.Frame v w) (hapart : f.Apart) : ∀ j ∈ f.free, w j = v j :=
  fun j hj => h j (hapart.notMem j hj)

theorem Frame.denote_eq (h : f.Frame v w) (hapart : f.Apart) : f.denote m w = f.denote m v :=
  denote_congr (h.eq_of_mem_free hapart)

/-- The value of its variable does not matter outside a fixed point. -/
theorem Frame.update (h : (fix k x i f).Frame v w) (c : m.Region) :
    (fix k x i f).Frame v (Function.update w i c) := fun j hj =>
  (Function.update_of_ne (List.ne_of_not_mem_cons hj) c w).trans (h j hj)

/-- What a round changes, seen from outside. -/
theorem Frame.of_body (h : f.Frame (Function.update v i c) w) : (fix k x i f).Frame v w := by
  intro j hj
  obtain ⟨hji, hj'⟩ := List.ne_and_not_mem_of_not_mem_cons hj
  rw [h j hj', Function.update_of_ne hji]

/-- A round leaves the value it is made on. -/
theorem Frame.slot_eq (h : f.Frame (Function.update v i c) w) (hapart : (fix k x i f).Apart) :
    w i = c := by
  rw [h i hapart.slot_notMem, Function.update_self]

/-- The body of a fixed point means the same for valuations that agree outside it. -/
theorem Frame.denote_update_eq (h : (fix k x i f).Frame v w) (hapart : (fix k x i f).Apart)
    (c : m.Region) : f.denote m (Function.update w i c) = f.denote m (Function.update v i c) :=
  denote_congr (forall_mem_free_update (h.eq_of_mem_free hapart) fun _ => rfl)

/-- The valuations agree on what the formula depends on: the variables from outside, and the fixed
points inside. -/
structure Same (f : Formula) (v w : Valuation m) : Prop where
  free : ∀ j ∈ f.free, v j = w j
  slots : ∀ j ∈ f.slots, v j = w j

theorem Same.of_append (hslots : f.slots = l.slots ++ r.slots) (hfree : f.free = l.free ++ r.free)
    (h : f.Same v w) : l.Same v w ∧ r.Same v w := by
  obtain ⟨hf, hs⟩ := h
  rw [hfree] at hf
  rw [hslots] at hs
  exact ⟨⟨fun j hj => hf j (List.mem_append_left _ hj), fun j hj => hs j (List.mem_append_left _ hj)⟩,
    ⟨fun j hj => hf j (List.mem_append_right _ hj), fun j hj => hs j (List.mem_append_right _ hj)⟩⟩

theorem Same.slot_eq (h : (fix k x i f).Same v w) : v i = w i := h.slots i List.mem_cons_self

theorem Same.body (h : (fix k x i f).Same v w) : f.Same v w where
  free := forall_mem_free_of_fix h.free h.slot_eq
  slots j hj := h.slots j (List.mem_cons_of_mem _ hj)

theorem Same.update (h : (fix k x i f).Same v w) (c : m.Region) :
    f.Same (Function.update v i c) (Function.update w i c) where
  free := forall_mem_free_update h.free fun _ => rfl
  slots j hj := by
    rw [Function.update_apply, Function.update_apply, h.body.slots j hj]

/-- A formula does not see what changes inside another one. -/
theorem Frame.same (h : r.Frame v w) (hlr : ∀ j ∈ l.slots, j ∉ r.slots ∧ j ∉ r.free)
    (hrl : ∀ j ∈ r.slots, j ∉ l.slots ∧ j ∉ l.free) : l.Same v w where
  free j hj := (h j fun hmem => (hrl j hmem).2 hj).symm
  slots j hj := (h j (hlr j hj).1).symm

/-! ## Evaluation that computes the meaning -/

/-- The formula uses only variables of the fixed points around it, and binds none of them again. -/
structure Below (f : Formula) (opened : List Nat) : Prop where
  free : ∀ j ∈ f.free, j ∈ opened
  slots : ∀ j ∈ f.slots, j ∉ opened

theorem Below.body (h : (fix k x i f).Below opened) (hapart : (fix k x i f).Apart) :
    f.Below (i :: opened) where
  free := forall_mem_free_of_fix (fun j hj => List.mem_cons_of_mem _ (h.free j hj))
    List.mem_cons_self
  slots j hj := by
    rw [List.mem_cons, not_or]
    exact ⟨ne_of_mem_of_not_mem hj hapart.slot_notMem, h.slots j (List.mem_cons_of_mem _ hj)⟩

theorem Below.of_append (hslots : f.slots = l.slots ++ r.slots) (hfree : f.free = l.free ++ r.free)
    (h : f.Below opened) : l.Below opened ∧ r.Below opened := by
  obtain ⟨hf, hs⟩ := h
  rw [hfree] at hf
  rw [hslots] at hs
  exact ⟨⟨fun j hj => hf j (List.mem_append_left _ hj), fun j hj => hs j (List.mem_append_left _ hj)⟩,
    ⟨fun j hj => hf j (List.mem_append_right _ hj), fun j hj => hs j (List.mem_append_right _ hj)⟩⟩

/-- Evaluation from kept values with the property `P` gives the meaning, changes only the values of the
fixed points inside, and leaves values with the property. -/
def Computes (m : TransitionSystem) (policy : ResetPolicy) (around : Option FixKind) (f : Formula)
    (P : Valuation m → Prop) : Prop :=
  ∀ opened v, f.Below opened → P v →
    ∃ w, f.evaluate m policy (m.numStates + 1) around opened v = some (f.denote m v, w) ∧
      f.Frame v w ∧ P w

/-- Two operands, one after the other, if neither touches what the other one depends on. -/
theorem Computes.operands {P Q : Valuation m → Prop} (hl : l.Computes m policy around P)
    (hr : r.Computes m policy around Q) (hlr : ∀ j ∈ l.slots, j ∉ r.free)
    (hP : ∀ v w : Valuation m, r.Frame v w → P v → P w)
    (hQ : ∀ v w : Valuation m, l.Frame v w → Q v → Q w)
    (hbelow : l.Below opened ∧ r.Below opened) (hv : P v ∧ Q v) :
    ∃ u w, l.evaluate m policy (m.numStates + 1) around opened v = some (l.denote m v, u) ∧
      r.evaluate m policy (m.numStates + 1) around opened u = some (r.denote m v, w) ∧
      l.Frame v u ∧ r.Frame u w ∧ P w ∧ Q w := by
  obtain ⟨u, hleft, hu, hPu⟩ := hl opened v hbelow.1 hv.1
  obtain ⟨w, hright, hw, hQw⟩ := hr opened u hbelow.2 (hQ v u hu hv.2)
  have hsame : r.denote m u = r.denote m v :=
    denote_congr fun j hj => hu j fun hmem => hlr j hmem hj
  rw [hsame] at hright
  exact ⟨u, w, hleft, hright, hu, hw, hP u w hw hPu, hQw⟩

/-- The kept value of a fixed point is on the way to it, if it is used at all: the body takes it
further, and it is not beyond the fixed point. -/
def Approximates (m : TransitionSystem) (k : FixKind) (x : Char) (i : Nat) (f : Formula)
    (v : Valuation m) : Prop :=
  i ∈ f.free → k.le (v i) (f.denote m v) ∧ k.le (v i) ((fix k x i f).denote m v)

/-- Every round of a fixed point is a round of the map that it is the fixed point of. -/
theorem Computes.round {Q : Valuation m → Prop} (hbody : f.Computes m policy (some k) Q)
    (hapart : (fix k x i f).Apart) (hbelow : (fix k x i f).Below opened)
    (hu : (fix k x i f).Frame v u) (hQ : Q (Function.update u i c)) :
    ∃ w, f.evaluate m policy (m.numStates + 1) (some k) (i :: opened) (Function.update u i c) =
        some (f.denote m (Function.update v i c), w) ∧
      (fix k x i f).Frame v w ∧ w i = c ∧ Q w := by
  obtain ⟨w, heval, hw, hQw⟩ := hbody _ _ (hbelow.body hapart) hQ
  rw [hu.denote_update_eq hapart c] at heval
  exact ⟨w, heval, hu.trans hw.of_body, hw.slot_eq hapart, hQw⟩

/-- A fixed point is found from values with the property `P`, if its body is computed from values with
the property `Q`, the resets on entry lead from `P` to `Q` and to a value that approximates, `Q` is kept
when the value goes on, and leads back to `P` at the fixed point. -/
theorem Computes.fix {P Q : Valuation m → Prop} (hbody : f.Computes m policy (some k) Q)
    (hpolar : f.Polar i true) (hapart : (fix k x i f).Apart)
    (hentry : ∀ opened v, (Formula.fix k x i f).Below opened → P v →
      (Formula.fix k x i f).Frame v (onEntry policy k x i f around opened v) ∧
        f.Approximates m k x i (onEntry policy k x i f around opened v) ∧
        Q (onEntry policy k x i f around opened v))
    (hrise : ∀ w c, (i ∈ f.free → k.le (w i) c) → Q w → Q (Function.update w i c))
    (hexit : ∀ w : Valuation m, w i = (Formula.fix k x i f).denote m w → Q w → P w) :
    (Formula.fix k x i f).Computes m policy around P := by
  intro opened v hbelow hP
  obtain ⟨hframe, happrox, hQ⟩ := hentry opened v hbelow hP
  generalize hv₀ : onEntry policy k x i f around opened v = v₀ at hframe happrox hQ
  have hself : Function.update v₀ i (v₀ i) = v₀ := Function.update_eq_self i v₀
  have hvalue : f.denote m (Function.update v i (v₀ i)) = f.denote m v₀ := by
    rw [← hframe.denote_update_eq hapart, hself]
  have hstep : ∀ (c : m.Region) (u : Valuation m), k.le c (f.denote m (Function.update v i c)) →
      (Formula.fix k x i f).Frame v u ∧ Q (Function.update u i c) →
      ∃ w, f.evaluate m policy (m.numStates + 1) (some k) (i :: opened) (Function.update u i c) =
          some (f.denote m (Function.update v i c), w) ∧
        (Formula.fix k x i f).Frame v w ∧
        Q (Function.update w i (f.denote m (Function.update v i c))) := by
    rintro c u hle ⟨hu, hQu⟩
    obtain ⟨w, heval, hw, hwi, hQw⟩ := hbody.round hapart hbelow hu hQu
    exact ⟨w, heval, hw, hrise w _ (fun _ => hwi.symm ▸ hle) hQw⟩
  -- The first round begins with the kept value, which may be any if the body does not use it.
  have hstart : k.le (v₀ i) (f.denote m (Function.update v i (v₀ i))) ∧
      k.le (v₀ i) ((Formula.fix k x i f).denote m v) ∨
      ∀ c, f.denote m (Function.update v i c) = f.denote m (Function.update v i (v₀ i)) := by
    by_cases hi : i ∈ f.free
    · obtain ⟨hle, hbeyond⟩ := happrox hi
      rw [hframe.denote_eq hapart] at hbeyond
      exact .inl ⟨hvalue.symm ▸ hle, hbeyond⟩
    · exact .inr fun c => by rw [denote_update_of_notMem hi, denote_update_of_notMem hi]
  have hfirst : ∃ w, f.evaluate m policy (m.numStates + 1) (some k) (i :: opened)
        (Function.update v₀ i (v₀ i)) = some (f.denote m (Function.update v i (v₀ i)), w) ∧
      (Formula.fix k x i f).Frame v w ∧
      Q (Function.update w i (f.denote m (Function.update v i (v₀ i)))) := by
    obtain ⟨w, heval, hw, hwi, hQw⟩ := hbody.round hapart hbelow hframe (hself.symm ▸ hQ)
    refine ⟨w, heval, hw, hrise w _ (fun hi => ?_) hQw⟩
    rw [hwi, hvalue]
    exact (happrox hi).1
  obtain ⟨w, hiterate, hw, hQw⟩ :=
    exists_iterate_eq_fixpoint (monotone_denote hpolar v) hstep hstart hfirst
  refine ⟨Function.update w i ((Formula.fix k x i f).denote m v), ?_, hw.update _, hexit _ ?_ hQw⟩
  · dsimp only [evaluate]
    rw [hv₀]
    exact hiterate
  · rw [(hw.update _).denote_eq hapart, Function.update_self]

end Formula

theorem Sentence.WellFormed.below {p : Sentence} (h : p.WellFormed) : p.root.Below [] where
  free := by simp [h.free_eq_nil]
  slots := by simp

end ModalMu
