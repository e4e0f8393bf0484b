import ModalMu.Proofs.AlternationReset

/-!
# Rounds without resets

Without resets every fixed point goes on from the value it was left with. `Settled` says what an
evaluation leaves behind: the kept value of a fixed point is the value of its body, with the values that
are kept inside, for what the variables stood for at that time. If afterwards all variables that the
fixed point uses move in one direction, then so do the values of its rounds, and they come to rest in
time (`resumes`).

One thing stands in the way. A first round that gives the extreme of the other kind is also the last one,
and the fixed points inside have then seen an older value of the variable. When they are entered again,
this variable moves for them in its own direction, whatever the others do. `Untangled` says of a formula
that no fixed point gets into the way of two directions.
-/

namespace ModalMu

namespace FixKind

variable {α : Type} {d : FixKind} {S S' T T' : Set α}

theorem le_inter (hS : d.le S S') (hT : d.le T T') : d.le (S ∩ T) (S' ∩ T') := by
  cases d <;> exact Set.inter_subset_inter hS hT

theorem le_union (hS : d.le S S') (hT : d.le T T') : d.le (S ∪ T) (S' ∪ T') := by
  cases d <;> exact Set.union_subset_union hS hT

instance decidableExists (P : FixKind → Prop) [DecidablePred P] : Decidable (∃ d, P d) :=
  decidable_of_iff (P least ∨ P greatest)
    ⟨fun h => h.elim (fun h => ⟨_, h⟩) fun h => ⟨_, h⟩, by rintro ⟨d, h⟩; cases d <;> simp [h]⟩

end FixKind

namespace Formula

variable {m : TransitionSystem} {l r f : Formula} {k d : FixKind} {x : Char} {i : Nat}
  {v w : Valuation m} {steady : Nat → Option FixKind}

/-! ## What an evaluation leaves behind -/

/-- The value of a formula with its fixed points looked up. -/
def read (m : TransitionSystem) : Formula → Valuation m → m.Region
  | top, _ => Set.univ
  | bot, _ => ∅
  | and l r, v => l.read m v ∩ r.read m v
  | or l r, v => l.read m v ∪ r.read m v
  | not f, v => (f.read m v)ᶜ
  | diamond a f, v => m.before a (f.read m v)
  | box a f, v => m.within a (f.read m v)
  | fix _ _ i _, v | var _ i, v => v i

/-- The values inside a fixed point were left behind by a round on `u` that gave its kept value. Either
this round changed nothing, or it gave the extreme of the other kind. -/
def Settled (m : TransitionSystem) : Formula → Valuation m → Prop
  | top, _ | bot, _ | var _ _, _ => True
  | and l r, v | or l r, v => l.Settled m v ∧ r.Settled m v
  | not f, v | diamond _ f, v | box _ f, v => f.Settled m v
  | fix k _ i f, v => ∃ u, f.Settled m (Function.update v i u) ∧
      f.read m (Function.update v i u) = v i ∧ (u = v i ∨ v i = k.opposite.bottom)

theorem read_congr (hsame : f.Same v w) : f.read m v = f.read m w := by
  induction f with
  | top | bot => rfl
  | var x i => exact hsame.free i List.mem_cons_self
  | and l r ihl ihr | or l r ihl ihr =>
    obtain ⟨hl, hr⟩ := hsame.of_append rfl rfl
    rw [read, read, ihl hl, ihr hr]
  | not f ih | diamond a f ih | box a f ih => rw [read, read, ih ⟨hsame.free, hsame.slots⟩]
  | fix k x i f => exact hsame.slot_eq

theorem Settled.congr (h : f.Settled m v) (hsame : f.Same v w) : f.Settled m w := by
  induction f generalizing v w with
  | top | bot | var => trivial
  | and l r ihl ihr | or l r ihl ihr =>
    obtain ⟨hl, hr⟩ := hsame.of_append rfl rfl
    exact ⟨ihl h.1 hl, ihr h.2 hr⟩
  | not f ih | diamond a f ih | box a f ih => exact ih h ⟨hsame.free, hsame.slots⟩
  | fix k x i f ih =>
    obtain ⟨u, hsettled, hread, hu⟩ := h
    rw [hsame.slot_eq] at hread hu
    exact ⟨u, ih hsettled (hsame.update u), (read_congr (hsame.update u)).symm.trans hread, hu⟩

/-! ## Directions that do not mix -/

/-- The variable of a fixed point moves only in the direction of its kind, if so do all variables that
the fixed point uses. -/
def steadyIn (steady : Nat → Option FixKind) (k : FixKind) (x : Char) (i : Nat) (f : Formula) :
    Nat → Option FixKind :=
  Function.update steady i (if ∀ j ∈ (fix k x i f).free, steady j = some k then some k else none)

/-- A fixed point that uses its own variable uses at most one from outside, or only such as move in one
direction. -/
def Untangled : (steady : Nat → Option FixKind) → Formula → Prop
  | _, top | _, bot | _, var _ _ => True
  | steady, and l r | steady, or l r => l.Untangled steady ∧ r.Untangled steady
  | steady, not f | steady, diamond _ f | steady, box _ f => f.Untangled steady
  | steady, fix k x i f =>
    (i ∈ f.free →
      (∀ j ∈ (fix k x i f).free, ∀ j' ∈ (fix k x i f).free, j = j') ∨
        ∃ d, ∀ j ∈ (fix k x i f).free, steady j = some d) ∧
      f.Untangled (steadyIn steady k x i f)

instance decidableUntangled : (steady : Nat → Option FixKind) → (f : Formula) →
    Decidable (f.Untangled steady)
  | _, top | _, bot | _, var _ _ => inferInstanceAs (Decidable True)
  | steady, and l r | steady, or l r =>
    have := decidableUntangled steady l
    have := decidableUntangled steady r
    inferInstanceAs (Decidable (l.Untangled steady ∧ r.Untangled steady))
  | steady, not f | steady, diamond _ f | steady, box _ f => decidableUntangled steady f
  | steady, fix k x i f =>
    have := decidableUntangled (steadyIn steady k x i f) f
    inferInstanceAs (Decidable ((i ∈ f.free →
      (∀ j ∈ (fix k x i f).free, ∀ j' ∈ (fix k x i f).free, j = j') ∨
        ∃ d, ∀ j ∈ (fix k x i f).free, steady j = some d) ∧
      f.Untangled (steadyIn steady k x i f)))

/-- A value moves in some direction, and in the one it has to move in, if there is one. -/
def Moves (s : Option FixKind) (S T : m.Region) : Prop := ∃ d, (s = none ∨ s = some d) ∧ d.le S T

theorem Moves.refl (s : Option FixKind) (S : m.Region) : Moves s S S := by
  cases s with
  | none => exact ⟨.least, .inl rfl, FixKind.le_refl _ S⟩
  | some d => exact ⟨d, .inr rfl, d.le_refl S⟩

theorem Moves.le {S T : m.Region} (h : Moves (some d) S T) : d.le S T := by
  obtain ⟨d', hd', hle⟩ := h
  obtain rfl : d = d' := by simpa using hd'
  exact hle

theorem steadyIn_self (steady : Nat → Option FixKind) (k : FixKind) (x : Char) (i : Nat)
    (f : Formula) : steadyIn steady k x i f i = none ∨ steadyIn steady k x i f i = some k := by
  rw [steadyIn, Function.update_self]
  split
  · exact .inr rfl
  · exact .inl rfl

/-- All variables that an untangled fixed point uses move in one direction. -/
theorem Untangled.exists_le (h : (fix k x i f).Untangled steady) (hi : i ∈ f.free)
    (hmoves : ∀ j ∈ (fix k x i f).free, Moves (steady j) (v j) (w j)) :
    ∃ d, ∀ j ∈ (fix k x i f).free, FixKind.le d (v j) (w j) := by
  rcases h.1 hi with hone | ⟨d, hsteady⟩
  · cases hfree : (fix k x i f).free with
    | nil => exact ⟨.least, nofun⟩
    | cons j js =>
      have hj : j ∈ (fix k x i f).free := by rw [hfree]; exact List.mem_cons_self
      obtain ⟨d, -, hle⟩ := hmoves j hj
      refine ⟨d, fun j' hj' => ?_⟩
      rw [← hfree] at hj'
      rwa [← hone j hj j' hj']
  · exact ⟨d, fun j hj => (hsteady j hj ▸ hmoves j hj).le⟩

/-! ## Evaluation from settled values -/

/-- Evaluation from values that were settled at `v`, after the variables from outside have moved, comes
to an end with settled values, and gives a value that has moved in every direction in which all these
variables have moved. -/
def Resumes (m : TransitionSystem) (steady : Nat → Option FixKind) (f : Formula) : Prop :=
  ∀ (around : Option FixKind) (opened : List Nat) (v v' : Valuation m), f.Settled m v →
    (∀ j ∈ f.slots, v' j = v j) → (∀ j ∈ f.free, Moves (steady j) (v j) (v' j)) →
    ∃ w, f.evaluate m .never (m.numStates + 1) around opened v' = some (f.read m w, w) ∧
      f.Frame v' w ∧ f.Settled m w ∧
      ∀ d, (∀ j ∈ f.free, FixKind.le d (v j) (v' j)) → d.le (f.read m v) (f.read m w)

/-- Evaluation from values at the extremes comes to an end with settled values. -/
def Starts (m : TransitionSystem) (f : Formula) : Prop :=
  ∀ (around : Option FixKind) (opened : List Nat) (v : Valuation m),
    (∀ b ∈ f.table, v b.slot = b.kind.bottom) →
    ∃ w, f.evaluate m .never (m.numStates + 1) around opened v = some (f.read m w, w) ∧
      f.Frame v w ∧ f.Settled m w

/-- A round on the value of the body. Only the variable of the fixed point has moved. -/
theorem Resumes.round (hf : f.Resumes m (steadyIn steady k x i f)) (hapart : (fix k x i f).Apart)
    (opened : List Nat) {u : Valuation m} (hsettled : f.Settled m u)
    (hmoves : i ∈ f.free → Moves (steadyIn steady k x i f i) (u i) (f.read m u)) :
    ∃ w, f.evaluate m .never (m.numStates + 1) (some k) (i :: opened)
        (Function.update u i (f.read m u)) = some (f.read m w, w) ∧
      (fix k x i f).Frame u w ∧ w i = f.read m u ∧ f.Settled m w ∧
      ∀ d : FixKind, (i ∈ f.free → d.le (u i) (f.read m u)) → d.le (f.read m u) (f.read m w) := by
  have hmoved : ∀ (R : Nat → m.Region → m.Region → Prop), (∀ j S, R j S S) →
      (i ∈ f.free → R i (u i) (f.read m u)) →
      ∀ j ∈ f.free, R j (u j) (Function.update u i (f.read m u) j) := by
    intro R hrefl hi
    have h := forall_mem_free_update (k := k) (x := x) (R := R) (v := u) (w := u)
      (fun j _ => hrefl j (u j)) hi
    rwa [Function.update_eq_self] at h
  obtain ⟨w, heval, hw, hsettled', hdir⟩ := hf (some k) (i :: opened) u
    (Function.update u i (f.read m u)) hsettled
    (fun j hj => Function.update_of_ne (ne_of_mem_of_not_mem hj hapart.slot_notMem) _ _)
    (hmoved _ (fun j S => Moves.refl _ S) hmoves)
  exact ⟨w, heval, hw.of_body, hw.slot_eq hapart, hsettled',
    fun d hd => hdir d (hmoved (fun _ => d.le) (fun _ S => d.le_refl S) hd)⟩

/-- What holds between two rounds of a fixed point that go in the directions `Dir`, after a first round
that gave `first`: the last round gave `c`, and left the values `u`. -/
structure Underway (m : TransitionSystem) (k : FixKind) (x : Char) (i : Nat) (f : Formula)
    (Dir : FixKind → Prop) (v : Valuation m) (first c : m.Region) (u : Valuation m) : Prop where
  frame : (fix k x i f).Frame v u
  settled : f.Settled m u
  read_eq : f.read m u = c
  le : ∀ d, Dir d → i ∈ f.free → d.le (u i) c
  first_le : ∀ d, Dir d → d.le first c

/-- The rounds of a fixed point after a first round that left settled values: they go on in every
direction in which the value went in the first round. -/
theorem Resumes.exists_iterate (hf : f.Resumes m (steadyIn steady k x i f))
    (hapart : (fix k x i f).Apart) {opened : List Nat} {v v₀ v₁ : Valuation m} {c₀ : m.Region}
    (hfirst : f.evaluate m .never (m.numStates + 1) (some k) (i :: opened)
      (Function.update v₀ i c₀) = some (f.read m v₁, v₁))
    (hframe : (fix k x i f).Frame v v₁) (hsettled : f.Settled m v₁)
    (Dir : FixKind → Prop) (hDir : ∀ d, Dir d → i ∈ f.free → d.le (v₁ i) (f.read m v₁))
    (hd : Dir d) (hsteady : steadyIn steady k x i f i = none ∨ steadyIn steady k x i f i = some d) :
    ∃ w r, iterate i (f.evaluate m .never (m.numStates + 1) (some k) (i :: opened))
        (m.numStates + 1) k.opposite.bottom c₀ v₀ = some (r, Function.update w i r) ∧
      (fix k x i f).Frame v (Function.update w i r) ∧
      (fix k x i f).Settled m (Function.update w i r) ∧ ∀ d, Dir d → d.le (f.read m v₁) r := by
  have hstep : ∀ c u, f.Underway m k x i Dir v (f.read m v₁) c u →
      ∃ c' u', f.evaluate m .never (m.numStates + 1) (some k) (i :: opened)
          (Function.update u i c) = some (c', u') ∧ d.le c c' ∧
        f.Underway m k x i Dir v (f.read m v₁) c' u' := by
    rintro c u ⟨hu, hsettled, rfl, hdir, hbase⟩
    obtain ⟨w, heval, hw, hwi, hsettled', hgo⟩ :=
      hf.round hapart opened hsettled fun hi => ⟨d, hsteady, hdir d hd hi⟩
    refine ⟨f.read m w, w, heval, hgo d (hdir d hd), hu.trans hw, hsettled', rfl,
      fun d' hd' _ => ?_, fun d' hd' => ?_⟩
    · rw [hwi]
      exact hgo d' (hdir d' hd')
    · exact FixKind.le_trans (hbase d' hd') (hgo d' (hdir d' hd'))
  -- A first value at the extreme of the direction is the one the round began with.
  have hextreme : f.read m v₁ = d.bottom →
      ∃ w, f.evaluate m .never (m.numStates + 1) (some k) (i :: opened)
        (Function.update v₁ i (f.read m v₁)) = some (f.read m v₁, w) := by
    intro hbottom
    obtain ⟨w, heval, -, -, -, hgo⟩ :=
      hf.round hapart opened hsettled fun hi => ⟨d, hsteady, hDir d hd hi⟩
    have hsame : i ∈ f.free → v₁ i = f.read m v₁ := fun hi =>
      FixKind.le_antisymm (hDir d hd hi) (hbottom ▸ d.bottom_le _)
    have heq : f.read m v₁ = f.read m w :=
      FixKind.le_antisymm (hgo d fun hi => FixKind.le_of_eq (hsame hi))
        (FixKind.opposite_le.1 (hgo d.opposite fun hi => FixKind.le_of_eq (hsame hi)))
    exact ⟨w, heq ▸ heval⟩
  obtain ⟨r, w, hiterate, hr, hlast⟩ := exists_iterate_eq_some (k := k) hstep hfirst
    ⟨hframe, hsettled, rfl, hDir, fun d _ => d.le_refl _⟩ hextreme
  refine ⟨w, r, hiterate, hr.frame.update r, ⟨w i, ?_, ?_, ?_⟩, hr.first_le⟩
  · rw [Function.update_idem, Function.update_eq_self]
    exact hr.settled
  · rw [Function.update_idem, Function.update_eq_self, Function.update_self, hr.read_eq]
  · rw [Function.update_self]
    rcases hlast with hother | ⟨u, ⟨-, hsettledu, rfl, hdir, -⟩, hstable⟩
    · exact .inr hother
    · obtain ⟨w', heval, -, hwi, -⟩ :=
        hf.round hapart opened hsettledu fun hi => ⟨d, hsteady, hdir d hd hi⟩
      rw [heval] at hstable
      obtain ⟨-, rfl⟩ := Prod.mk.inj (Option.some.inj hstable)
      exact .inl hwi

/-- The first entry of a fixed point goes in its own direction. -/
theorem Starts.fix (hstarts : f.Starts m) (hf : f.Resumes m (steadyIn steady k x i f))
    (hapart : (fix k x i f).Apart) : (Formula.fix k x i f).Starts m := by
  intro around opened v hbottom
  have hi : v i = k.bottom := hbottom ⟨x, k, i, f.slots, f.occurrences⟩ List.mem_cons_self
  obtain ⟨v₁, hfirst, hframe, hsettled⟩ := hstarts (some k) (i :: opened) v fun b hb =>
    hbottom b (List.mem_cons_of_mem _ hb)
  rw [← Function.update_eq_self i v] at hfirst hframe
  have hv₁ : v₁ i = k.bottom := (hframe.slot_eq hapart).trans hi
  obtain ⟨w, r, hiterate, hw, hsettledw, -⟩ := hf.exists_iterate hapart hfirst hframe.of_body
    hsettled (· = k) (fun d hd _ => by rw [hv₁, hd]; exact k.bottom_le _) rfl
    (steadyIn_self steady k x i f)
  refine ⟨Function.update w i r, ?_, hw, hsettledw⟩
  dsimp only [evaluate, onEntry, read]
  rw [Function.update_self]
  exact hiterate

/-- In which directions the rounds of a later entry go. After a first round that gave `c`, they go in
all directions in which the variables from outside have moved; after a jump in one of them, the own one
if possible. -/
theorem Untangled.exists_directions (huntangled : (fix k x i f).Untangled steady)
    {v v' : Valuation m} (hmoves : ∀ j ∈ (fix k x i f).free, Moves (steady j) (v j) (v' j))
    {u c : m.Region} (hu : u = v i ∨ v i = k.opposite.bottom)
    (hfirst : ∀ d : FixKind, (i ∈ f.free → d.le u (v i)) →
      (∀ j ∈ (fix k x i f).free, d.le (v j) (v' j)) → d.le (v i) c) :
    ∃ (d : FixKind) (Dir : FixKind → Prop), (∀ d, Dir d → i ∈ f.free → d.le (v i) c) ∧ Dir d ∧
      (steadyIn steady k x i f i = none ∨ steadyIn steady k x i f i = some d) ∧
      ∀ r : m.Region, (∀ d, Dir d → d.le c r) →
        ∀ d, (∀ j ∈ (fix k x i f).free, FixKind.le d (v j) (v' j)) → d.le (v i) r := by
  by_cases hi : i ∈ f.free
  · obtain ⟨d, hd, hown⟩ : ∃ d, (∀ j ∈ (fix k x i f).free, FixKind.le d (v j) (v' j)) ∧
        (d = k ∨ ¬∀ j ∈ (fix k x i f).free, FixKind.le k (v j) (v' j)) := by
      by_cases hk : ∀ j ∈ (fix k x i f).free, FixKind.le k (v j) (v' j)
      · exact ⟨k, hk, .inl rfl⟩
      · obtain ⟨d, hd⟩ := huntangled.exists_le hi hmoves
        exact ⟨d, hd, .inr hk⟩
    have hrise : ∀ d' : FixKind, (∀ j ∈ (fix k x i f).free, d'.le (v j) (v' j)) ∧
        (u = v i ∨ d' = d) → d'.le (v i) c := by
      rintro d' ⟨hd', hsame⟩
      by_cases hstayed : u = v i
      · exact hfirst d' (fun _ => FixKind.le_of_eq hstayed) hd'
      · -- After a jump the value is an extreme: the last one in the own direction, else the first one.
        obtain rfl : d' = d := hsame.resolve_left hstayed
        have hother := hu.resolve_left hstayed
        by_cases hkind : d' = k
        · subst hkind
          exact hfirst d' (fun _ => hother ▸ d'.le_bottom_opposite u) hd'
        · rw [hother, FixKind.eq_opposite_of_ne hkind]
          exact FixKind.bottom_le _ c
    refine ⟨d, fun d' => (∀ j ∈ (fix k x i f).free, d'.le (v j) (v' j)) ∧ (u = v i ∨ d' = d),
      fun d' hd' _ => hrise d' hd', ⟨hd, .inr rfl⟩, ?_, fun r hr d' hd' => ?_⟩
    · rw [steadyIn, Function.update_self]
      split
      · next hsteady =>
        rcases hown with rfl | hnot
        · exact .inr rfl
        · exact (hnot fun j hj => (hsteady j hj ▸ hmoves j hj).le).elim
      · exact .inl rfl
    · by_cases hsame : u = v i ∨ d' = d
      · exact FixKind.le_trans (hrise d' ⟨hd', hsame⟩) (hr d' ⟨hd', hsame⟩)
      · -- The variables have not moved at all, and the last value in the own direction is kept.
        obtain ⟨hjumped, hne⟩ := not_or.1 hsame
        have hother := hu.resolve_left hjumped
        rcases hown with rfl | hnot
        · have hbeyond : d.le (v i) r :=
            FixKind.le_trans (hrise d ⟨hd, .inr rfl⟩) (hr d ⟨hd, .inr rfl⟩)
          exact FixKind.le_of_eq (FixKind.le_antisymm hbeyond (hother ▸ d.le_bottom_opposite r))
        · have hd'k : d' ≠ k := fun h => hnot (h ▸ hd')
          have hdk : d ≠ k := fun h => hnot (h ▸ hd)
          exact (hne ((FixKind.eq_opposite_of_ne hd'k).trans
            (FixKind.eq_opposite_of_ne hdk).symm)).elim
  · -- The body does not depend on the variable, so its value stays what it is.
    refine ⟨k, fun _ => True, fun _ _ h => (hi h).elim, trivial, steadyIn_self steady k x i f, ?_⟩
    intro r hr d hd
    exact FixKind.le_trans (hfirst d (fun h => (hi h).elim) hd) (hr d trivial)

/-- A later entry comes to an end. -/
theorem Resumes.fix (hf : f.Resumes m (steadyIn steady k x i f)) (hapart : (fix k x i f).Apart)
    (huntangled : (fix k x i f).Untangled steady) : (Formula.fix k x i f).Resumes m steady := by
  rintro around opened v v' ⟨u, hsettled, hread, hu⟩ hslots hmoves
  have hi : v' i = v i := hslots i List.mem_cons_self
  have hjump : k.le u (v i) := by
    rcases hu with rfl | hother
    · exact k.le_refl _
    · rw [hother]
      exact k.le_bottom_opposite u
  -- The first round: the variables from outside have moved, and after a jump also the own one.
  obtain ⟨v₁, hfirst, hframe, hsettled₁, hdir₁⟩ := hf (some k) (i :: opened)
    (Function.update v i u) (Function.update v' i (v i)) hsettled
    (fun j hj => by
      have hji : j ≠ i := ne_of_mem_of_not_mem hj hapart.slot_notMem
      rw [Function.update_of_ne hji, Function.update_of_ne hji]
      exact hslots j (List.mem_cons_of_mem _ hj))
    (forall_mem_free_update (R := fun j => Moves (steadyIn steady k x i f j))
      (fun j hj => by
        rw [steadyIn, Function.update_of_ne (mem_free_fix.1 hj).2]
        exact hmoves j hj)
      fun _ => ⟨k, steadyIn_self steady k x i f, hjump⟩)
  rw [hread] at hdir₁
  obtain ⟨d, Dir, hDir, hd, hsteady, hfinal⟩ := huntangled.exists_directions hmoves hu
    fun d hown hfree => hdir₁ d (forall_mem_free_update (R := fun _ => d.le) hfree hown)
  rw [← hframe.slot_eq hapart] at hDir
  obtain ⟨w, r, hiterate, hw, hsettledw, hbase⟩ :=
    hf.exists_iterate hapart hfirst hframe.of_body hsettled₁ Dir hDir hd hsteady
  refine ⟨Function.update w i r, ?_, hw, hsettledw, fun d hd => ?_⟩
  · dsimp only [evaluate, onEntry, read]
    rw [hi, Function.update_self]
    exact hiterate
  · dsimp only [read]
    rw [Function.update_self]
    exact hfinal r hbase d hd

/-- Two operands, one after the other: the right one finds its values as they were, and leaves those of
the left one alone. -/
theorem Resumes.operands (hl : l.Resumes m steady) (hr : r.Resumes m steady)
    (hlr : ∀ j ∈ l.slots, j ∉ r.slots ∧ j ∉ r.free) (hrl : ∀ j ∈ r.slots, j ∉ l.slots ∧ j ∉ l.free)
    (around : Option FixKind) (opened : List Nat) {v v' : Valuation m}
    (hsettled : l.Settled m v ∧ r.Settled m v) (hslots : ∀ j ∈ l.slots ++ r.slots, v' j = v j)
    (hmoves : ∀ j ∈ l.free ++ r.free, Moves (steady j) (v j) (v' j)) :
    ∃ u w, l.evaluate m .never (m.numStates + 1) around opened v' = some (l.read m w, u) ∧
      r.evaluate m .never (m.numStates + 1) around opened u = some (r.read m w, w) ∧
      l.Frame v' u ∧ r.Frame u w ∧ (l.Settled m w ∧ r.Settled m w) ∧
      ∀ d, (∀ j ∈ l.free ++ r.free, FixKind.le d (v j) (v' j)) →
        d.le (l.read m v) (l.read m w) ∧ d.le (r.read m v) (r.read m w) := by
  obtain ⟨u, hleft, hu, hsettledl, hdirl⟩ := hl around opened v v' hsettled.1
    (fun j hj => hslots j (List.mem_append_left _ hj))
    fun j hj => hmoves j (List.mem_append_left _ hj)
  have hfree : ∀ j ∈ r.free, u j = v' j := fun j hj => hu j fun hmem => (hlr j hmem).2 hj
  obtain ⟨w, hright, hw, hsettledr, hdirr⟩ := hr around opened v u hsettled.2
    (fun j hj => (hu j (hrl j hj).1).trans (hslots j (List.mem_append_right _ hj)))
    fun j hj => hfree j hj ▸ hmoves j (List.mem_append_right _ hj)
  have hsame : l.Same u w := hw.same hlr hrl
  rw [read_congr hsame] at hleft hdirl
  exact ⟨u, w, hleft, hright, hu, hw, ⟨hsettledl.congr hsame, hsettledr⟩,
    fun d hd => ⟨hdirl d fun j hj => hd j (List.mem_append_left _ hj),
      hdirr d fun j hj => hfree j hj ▸ hd j (List.mem_append_right _ hj)⟩⟩

/-- The same for values at the extremes. -/
theorem Starts.operands (hl : l.Starts m) (hr : r.Starts m)
    (hlr : ∀ j ∈ l.slots, j ∉ r.slots ∧ j ∉ r.free) (hrl : ∀ j ∈ r.slots, j ∉ l.slots ∧ j ∉ l.free)
    (around : Option FixKind) (opened : List Nat) {v : Valuation m}
    (hbottom : ∀ b ∈ l.table ++ r.table, v b.slot = b.kind.bottom) :
    ∃ u w, l.evaluate m .never (m.numStates + 1) around opened v = some (l.read m w, u) ∧
      r.evaluate m .never (m.numStates + 1) around opened u = some (r.read m w, w) ∧
      l.Frame v u ∧ r.Frame u w ∧ l.Settled m w ∧ r.Settled m w := by
  obtain ⟨u, hleft, hu, hsettledl⟩ := hl around opened v fun b hb =>
    hbottom b (List.mem_append_left _ hb)
  obtain ⟨w, hright, hw, hsettledr⟩ := hr around opened u fun b hb =>
    (hu _ (hrl _ (mem_slots_of_mem_table hb)).1).trans (hbottom b (List.mem_append_right _ hb))
  have hsame : l.Same u w := hw.same hlr hrl
  rw [read_congr hsame] at hleft
  exact ⟨u, w, hleft, hright, hu, hw, hsettledl.congr hsame, hsettledr⟩

/-- Evaluation from settled values, after moves that are not tangled, comes to an end in time. -/
theorem resumes (hf : f.NegationFree) (hapart : f.Apart) (huntangled : f.Untangled steady) :
    f.Resumes m steady := by
  induction f generalizing steady with
  | top | bot =>
    exact fun _ _ _ v' _ _ _ => ⟨v', rfl, Frame.refl _ v', trivial, fun d _ => d.le_refl _⟩
  | var x i =>
    exact fun _ _ _ v' _ _ _ =>
      ⟨v', rfl, Frame.refl _ v', trivial, fun d hd => hd i List.mem_cons_self⟩
  | not => exact hf.elim
  | and l r ihl ihr =>
    intro around opened v v' hsettled hslots hmoves
    obtain ⟨⟨hl, hr⟩, hlr, hrl⟩ := hapart.of_append rfl rfl
    obtain ⟨u, w, hleft, hright, hu, hw, hsettled', hdir⟩ := (ihl hf.1 hl huntangled.1).operands
      (ihr hf.2 hr huntangled.2) hlr hrl around opened hsettled hslots hmoves
    exact ⟨w, by simp [evaluate, read, hleft, hright], Frame.of_append rfl hu hw, hsettled',
      fun d hd => FixKind.le_inter (hdir d hd).1 (hdir d hd).2⟩
  | or l r ihl ihr =>
    intro around opened v v' hsettled hslots hmoves
    obtain ⟨⟨hl, hr⟩, hlr, hrl⟩ := hapart.of_append rfl rfl
    obtain ⟨u, w, hleft, hright, hu, hw, hsettled', hdir⟩ := (ihl hf.1 hl huntangled.1).operands
      (ihr hf.2 hr huntangled.2) hlr hrl around opened hsettled hslots hmoves
    exact ⟨w, by simp [evaluate, read, hleft, hright], Frame.of_append rfl hu hw, hsettled',
      fun d hd => FixKind.le_union (hdir d hd).1 (hdir d hd).2⟩
  | diamond a f ih =>
    intro around opened v v' hsettled hslots hmoves
    obtain ⟨w, heval, hw, hsettled', hdir⟩ := ih hf ⟨hapart.nodup, hapart.notMem⟩ huntangled
      around opened v v' hsettled hslots hmoves
    exact ⟨w, by rw [evaluate, heval]; rfl, hw, hsettled',
      fun d hd => FixKind.le_of_monotone (fun _ _ => TransitionSystem.before_mono a) (hdir d hd)⟩
  | box a f ih =>
    intro around opened v v' hsettled hslots hmoves
    obtain ⟨w, heval, hw, hsettled', hdir⟩ := ih hf ⟨hapart.nodup, hapart.notMem⟩ huntangled
      around opened v v' hsettled hslots hmoves
    exact ⟨w, by rw [evaluate, heval]; rfl, hw, hsettled',
      fun d hd => FixKind.le_of_monotone (fun _ _ => TransitionSystem.within_mono a) (hdir d hd)⟩
  | fix k x i f ih => exact (ih hf hapart.body huntangled.2).fix hapart huntangled

/-- Evaluation from the extremes comes to an end in time. -/
theorem starts (hf : f.NegationFree) (hapart : f.Apart) (huntangled : f.Untangled steady) :
    f.Starts m := by
  induction f generalizing steady with
  | top | bot | var => exact fun _ _ v _ => ⟨v, rfl, Frame.refl _ v, trivial⟩
  | not => exact hf.elim
  | and l r ihl ihr | or l r ihl ihr =>
    intro around opened v hbottom
    obtain ⟨⟨hl, hr⟩, hlr, hrl⟩ := hapart.of_append rfl rfl
    obtain ⟨u, w, hleft, hright, hu, hw, hsettled⟩ := (ihl hf.1 hl huntangled.1).operands
      (ihr hf.2 hr huntangled.2) hlr hrl around opened hbottom
    exact ⟨w, by simp [evaluate, read, hleft, hright], Frame.of_append rfl hu hw, hsettled⟩
  | diamond a f ih | box a f ih =>
    intro around opened v hbottom
    obtain ⟨w, heval, hw, hsettled⟩ :=
      ih hf ⟨hapart.nodup, hapart.notMem⟩ huntangled around opened v hbottom
    exact ⟨w, by rw [evaluate, heval]; rfl, hw, hsettled⟩
  | fix k x i f ih =>
    exact (ih hf hapart.body huntangled.2).fix (resumes hf hapart.body huntangled.2) hapart

end Formula

/-! ## Runs -/

/-- A run from the start comes to an end, and no fixed point takes more rounds in an entry than one more
than there are states: under the alternation policy if the resets overlook nothing, and without resets if
no directions are mixed. -/
theorem run_maxRounds_le {b : Blueprint} {tag : Nat} {m : TransitionSystem} (hm : b.build tag = .ok m)
    {src : String} {p : Sentence} (hp : Sentence.parse src = .ok p) (hf : p.root.NegationFree)
    {policy : ResetPolicy}
    (h : policy = .alternation ∧ p.root.NoneOverlooked .alternation none ∨
      policy = .never ∧ p.root.Untangled fun _ => none) :
    ∃ s e, Evaluation.run ⟨m, p, policy⟩ (.start ⟨m, p, policy⟩) = .ok (s, e) ∧
      e.cells.size = p.binders.size ∧ ∀ t ∈ e.tallies, t.maxRounds ≤ m.numStates + 1 := by
  have hwellFormed := Sentence.parse_wellFormed hp
  have hbottom : ∀ c ∈ p.root.table,
      Evaluation.startValues ⟨m, p, policy⟩ c.slot = c.kind.bottom := fun _ =>
    Evaluation.startValues_slot ⟨m, p, policy⟩ hwellFormed
  obtain ⟨S, w, heval⟩ : ∃ S w, p.root.evaluate m policy (m.numStates + 1) none []
      (Evaluation.startValues ⟨m, p, policy⟩) = some (S, w) := by
    rcases h with ⟨rfl, hnone⟩ | ⟨rfl, huntangled⟩
    · have hpolicy : ResetPolicy.alternation ≠ .always := nofun
      obtain ⟨w, heval, -⟩ := Formula.evaluate_ready hpolicy hf hwellFormed.apart hnone [] _
        hwellFormed.below (Formula.ready_of_bottom hbottom)
      exact ⟨_, w, heval⟩
    · obtain ⟨w, heval, -⟩ := Formula.starts hf hwellFormed.apart huntangled none [] _ hbottom
      exact ⟨_, w, heval⟩
  obtain ⟨s, e, hrun, -, hsize, htallies, -⟩ := Evaluation.exists_run_start_eq_ok
    ⟨m, p, policy⟩ (Blueprint.build_eq_ok hm).2.2 hwellFormed heval
  exact ⟨s, e, hrun, hsize, htallies⟩

/-- All fixed points use their own variable and the one of `X`, which moves against the direction of the
two below it. -/
theorem run_maxRounds_le_untangled :
    ∃ m p, (Blueprint.mk #[none, none, none] 0 #[⟨0, ⟨"a"⟩, 1⟩, ⟨1, ⟨"p"⟩, 2⟩, ⟨2, ⟨"b"⟩, 0⟩,
        ⟨2, ⟨"r"⟩, 1⟩]).build 0 = .ok m ∧
      Sentence.parse "nu X.mu Y.((<p>X) || (<b>Y) || mu E.((<a>E) || <r>X))" = .ok p ∧
      p.root.NegationFree ∧ p.root.NoneOverlooked .alternation none ∧
      p.root.Untangled (fun _ => none) ∧
      (∃ s e, Evaluation.run ⟨m, p, .alternation⟩ (.start ⟨m, p, .alternation⟩) = .ok (s, e) ∧
        e.cells.size = p.binders.size ∧ ∀ t ∈ e.tallies, t.maxRounds ≤ m.numStates + 1) ∧
      ∃ s e, Evaluation.run ⟨m, p, .never⟩ (.start ⟨m, p, .never⟩) = .ok (s, e) ∧
        e.cells.size = p.binders.size ∧ ∀ t ∈ e.tallies, t.maxRounds ≤ m.numStates + 1 := by
  obtain ⟨m, p, hm, hp, hf, hnone, huntangled⟩ : ∃ m p, (Blueprint.mk #[none, none, none] 0
        #[⟨0, ⟨"a"⟩, 1⟩, ⟨1, ⟨"p"⟩, 2⟩, ⟨2, ⟨"b"⟩, 0⟩, ⟨2, ⟨"r"⟩, 1⟩]).build 0 = .ok m ∧
      Sentence.parse "nu X.mu Y.((<p>X) || (<b>Y) || mu E.((<a>E) || <r>X))" = .ok p ∧
      p.root.NegationFree ∧ p.root.NoneOverlooked .alternation none ∧
      p.root.Untangled fun _ => none :=
    ⟨_, _, rfl, rfl, by decide +kernel, by decide +kernel, by decide +kernel⟩
  exact ⟨m, p, hm, hp, hf, hnone, huntangled, run_maxRounds_le hm hp hf (.inl ⟨rfl, hnone⟩),
    run_maxRounds_le hm hp hf (.inr ⟨rfl, huntangled⟩)⟩

/-- With three states the innermost fixed point takes five rounds under the alternation policy, and six
without resets: it uses two variables from outside that move in different directions. -/
theorem exists_maxRounds_gt :
    (∃ m p s e, (Blueprint.mk #[none, none, none] 0
        #[⟨0, ⟨"a"⟩, 1⟩, ⟨0, ⟨"b"⟩, 1⟩, ⟨0, ⟨"a"⟩, 2⟩, ⟨0, ⟨"p"⟩, 0⟩, ⟨1, ⟨"a"⟩, 0⟩, ⟨1, ⟨"b"⟩, 2⟩,
          ⟨2, ⟨"a"⟩, 0⟩, ⟨2, ⟨"b"⟩, 0⟩, ⟨2, ⟨"a"⟩, 1⟩, ⟨2, ⟨"b"⟩, 2⟩, ⟨2, ⟨"r"⟩, 1⟩]).build 0 = .ok m ∧
      Sentence.parse "nu X.mu Z.((<p>X) || mu P.((<b>Z) || mu D.((P && <a>D) || <r>Z)))" = .ok p ∧
      p.root.NegationFree ∧
      Evaluation.run ⟨m, p, .alternation⟩ (.start ⟨m, p, .alternation⟩) = .ok (s, e) ∧
      e.tallies.map (·.maxRounds) = [2, 4, 2, 5]) ∧
    ∃ m p s e, (Blueprint.mk #[none, none, none] 0
        #[⟨0, ⟨"a"⟩, 1⟩, ⟨0, ⟨"a"⟩, 2⟩, ⟨0, ⟨"p"⟩, 1⟩, ⟨1, ⟨"a"⟩, 0⟩, ⟨2, ⟨"a"⟩, 1⟩,
          ⟨2, ⟨"r"⟩, 1⟩]).build 0 = .ok m ∧
      Sentence.parse "nu X.((<p>true) && mu Y.(X || mu E.((Y && <a>E) || <r>X)))" = .ok p ∧
      p.root.NegationFree ∧
      Evaluation.run ⟨m, p, .never⟩ (.start ⟨m, p, .never⟩) = .ok (s, e) ∧
      e.tallies.map (·.maxRounds) = [2, 1, 6] :=
  ⟨⟨_, _, _, _, rfl, rfl, by decide +kernel, rfl, rfl⟩,
    ⟨_, _, _, _, rfl, rfl, by decide +kernel, rfl, rfl⟩⟩

-- No directions are mixed here, which is enough without resets but not under the alternation policy: the
-- reset takes the variable of `C` back against its direction, and `D` and `E` are not reset with it.
example : ∃ m p s e, (Blueprint.mk #[none, none] 0
      #[⟨0, ⟨"b"⟩, 1⟩, ⟨1, ⟨"b"⟩, 0⟩, ⟨0, ⟨"c"⟩, 1⟩]).build 0 = .ok m ∧
    Sentence.parse "nu A.mu B.nu C.((<c>A) || nu D.<c>nu E.(C && (D || <b>E)))" = .ok p ∧
    p.root.NegationFree ∧ p.root.Untangled (fun _ => none) ∧
    Evaluation.run ⟨m, p, .never⟩ (.start ⟨m, p, .never⟩) = .ok (s, e) ∧
    Evaluation.run ⟨m, p, .alternation⟩ (.start ⟨m, p, .alternation⟩) = .error .divergence :=
  ⟨_, _, _, _, rfl, rfl, by decide +kernel, by decide +kernel, rfl, by decide +kernel⟩

-- The second formula again: with two states the values of the innermost fixed point go round in a circle.
example : ∃ m p, (Blueprint.mk #[none, none] 0
      #[⟨0, ⟨"a"⟩, 1⟩, ⟨0, ⟨"r"⟩, 0⟩, ⟨1, ⟨"a"⟩, 0⟩, ⟨1, ⟨"p"⟩, 0⟩]).build 0 = .ok m ∧
    Sentence.parse "nu X.((<p>true) && mu Y.(X || mu E.((Y && <a>E) || <r>X)))" = .ok p ∧
    Evaluation.run ⟨m, p, .never⟩ (.start ⟨m, p, .never⟩) = .error .divergence :=
  ⟨_, _, rfl, rfl, by decide +kernel⟩

end ModalMu
