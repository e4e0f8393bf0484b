import ModalMu.Proofs.Tallies

/-!
# The rounds of all entries together

Without alternation a fixed point that is entered again goes on where it was left. Its value moves in one
direction during the whole run, and so all its entries together take no more rounds than there are states,
and two more for each entry (`run_rounds_le`):

1. The first round of an entry may leave the value where it is, and the last one does. All others take it
   further (`rounds_advance`).
2. Hence two rounds are paid for by the entry, and the others by the way that the value has gone. `Paid`
   says that this is so for all fixed points inside a formula.
3. Nothing but the fixed point itself moves its value, so what is paid for stays so while other formulas
   are evaluated, and in the rounds of the fixed points around it (`evalFormula_solvent`).

A fixed point that does not use its variable takes no more than the two rounds, wherever its value is.
-/

namespace ModalMu

namespace Formula

variable {m : TransitionSystem} {l r f : Formula} {k : FixKind} {x : Char} {i : Nat}
  {v w : Valuation m} {around : Option FixKind} {opened : List Nat} {t t' : Nat → Tally} {p : Sentence}

/-- A condition on fixed points may change with what is known of their slots. -/
theorem Throughout.imp_of_mem {P Q : Option FixKind → FixKind → Char → Nat → Formula → Prop}
    (h : f.Throughout P around)
    (hPQ : ∀ around k x i g, i ∈ f.slots → P around k x i g → Q around k x i g) :
    f.Throughout Q around := by
  induction f generalizing around with
  | top | bot | var => trivial
  | and l r ihl ihr | or l r ihl ihr =>
    exact ⟨ihl h.1 fun _ _ _ _ _ hi => hPQ _ _ _ _ _ (List.mem_append_left _ hi),
      ihr h.2 fun _ _ _ _ _ hi => hPQ _ _ _ _ _ (List.mem_append_right _ hi)⟩
  | not f ih | diamond a f ih | box a f ih => exact ih h hPQ
  | fix k x i f ih =>
    exact ⟨hPQ _ _ _ _ _ List.mem_cons_self h.1,
      ih h.2 fun _ _ _ _ _ hi => hPQ _ _ _ _ _ (List.mem_cons_of_mem _ hi)⟩

/-- What holds throughout a formula holds at every binder. -/
theorem Throughout.of_mem_table {P : Option FixKind → FixKind → Char → Nat → Formula → Prop}
    (h : f.Throughout P around) {b : Binder} (hb : b ∈ f.table) :
    ∃ around g, P around b.kind b.name b.slot g := by
  induction f generalizing around with
  | top | bot | var => cases hb
  | and l r ihl ihr | or l r ihl ihr =>
    rcases List.mem_append.1 hb with hb | hb
    · exact ihl h.1 hb
    · exact ihr h.2 hb
  | not f ih | diamond a f ih | box a f ih => exact ih h hb
  | fix k x i f ih =>
    rcases List.mem_cons.1 hb with rfl | hb
    · exact ⟨around, f, h.1⟩
    · exact ih h.2 hb

/-- The rounds in the tallies are paid for: two by each entry, and the others by the way that the value has
gone since the start, if the body uses it. -/
def Paid (t : Nat → Tally) (v : Valuation m) (around : Option FixKind) (f : Formula) : Prop :=
  f.Throughout (fun _ k _ i f =>
    (t i).rounds ≤ (if i ∈ f.free then k.extent (v i) else 0) + 2 * (t i).entries) around

theorem Paid.congr (h : f.Paid t v around) (ht : ∀ j ∈ f.slots, t' j = t j)
    (hv : ∀ j ∈ f.slots, w j = v j) : f.Paid t' w around := by
  refine Throughout.imp_of_mem h fun _ k _ i g hi hpaid => ?_
  rwa [ht i hi, hv i hi]

theorem paid_zero (ht : ∀ j, t j = .zero) : f.Paid t v around := by
  induction f generalizing around with
  | top | bot | var => trivial
  | and l r ihl ihr | or l r ihl ihr => exact ⟨ihl, ihr⟩
  | not f ih | diamond a f ih | box a f ih => exact ih
  | fix k x i f ih =>
    refine ⟨?_, ih⟩
    show (t i).rounds ≤ _
    rw [ht]
    exact Nat.zero_le _

/-- A formula without negations in which the kind never changes, below the fixed points `opened`. -/
structure Steady (p : Sentence) (around : Option FixKind) (opened : List Nat) (f : Formula) : Prop where
  negationFree : f.NegationFree
  oneKind : f.OneKind around
  declared : f.Declared p
  apart : f.Apart
  below : f.Below opened

theorem Steady.of_append (hslots : f.slots = l.slots ++ r.slots) (hfree : f.free = l.free ++ r.free)
    (htable : f.table = l.table ++ r.table)
    (hoccurrences : f.occurrences = l.occurrences ++ r.occurrences)
    (hnegation : f.NegationFree → l.NegationFree ∧ r.NegationFree)
    (hkind : f.OneKind around → l.OneKind around ∧ r.OneKind around)
    (h : f.Steady p around opened) : l.Steady p around opened ∧ r.Steady p around opened := by
  obtain ⟨hl, hr⟩ := hnegation h.negationFree
  obtain ⟨hkindl, hkindr⟩ := hkind h.oneKind
  obtain ⟨hdeclaredl, hdeclaredr⟩ := h.declared.of_append htable hoccurrences
  obtain ⟨⟨hapartl, hapartr⟩, -⟩ := h.apart.of_append hslots hfree
  obtain ⟨hbelowl, hbelowr⟩ := h.below.of_append hslots hfree
  exact ⟨⟨hl, hkindl, hdeclaredl, hapartl, hbelowl⟩, ⟨hr, hkindr, hdeclaredr, hapartr, hbelowr⟩⟩

theorem Steady.body (h : (fix k x i f).Steady p around opened) :
    f.Steady p (some k) (i :: opened) where
  negationFree := h.negationFree
  oneKind := h.oneKind.2
  declared := h.declared.body
  apart := h.apart.body
  below := h.below.body h.apart

end Formula

namespace Evaluation

variable {job : Job} {e e₁ e' : Evaluation} {opened : List Nat} {k : FixKind} {x : Char} {i : Nat}
  {f l r : Formula} {around : Option FixKind} {s : StateSet} {v w : Formula.Valuation job.system}
  {c : job.system.Region}

/-! ## The rounds of one entry -/

section Rounds

variable {action : Action} {F : job.system.Region → job.system.Region}
  {Inv : job.system.Region → Evaluation → Prop} {limit number : Nat} {previous current : StateSet}

/-- Rounds after the first one of an entry. Each of them but the last takes the value further. -/
theorem rounds_advance (hF : Monotone F)
    (hstep : ∀ c e number current next e', Inv c e → current.Represents job.system.carrier c →
      round k x i action number current e = .ok (next, e') →
        next.Represents job.system.carrier (F c) ∧ Inv (F c) e')
    (hc : k.le c (F c)) (hcurrent : current.Represents job.system.carrier c) (he : Inv c e)
    (h : rounds k x i action limit number current current e = .ok (s, e')) :
    ∃ n e₁ d, e' = leave k x i n s e₁ ∧ s.Represents job.system.carrier d ∧ Inv d e₁ ∧
      n + k.extent c ≤ number + k.extent d ∧ (F c = c → n = number) := by
  induction limit generalizing number current c e with
  | zero => cases h
  | succ limit ih =>
    obtain ⟨⟨next, e₁⟩, hround, h⟩ := bind_eq_ok_iff.1 h
    obtain ⟨hnext, he₁⟩ := hstep _ _ _ _ _ _ he hcurrent hround
    obtain ⟨stable, hstable, h⟩ := bind_eq_ok_iff.1 h
    obtain ⟨same, hequal, hsame⟩ := hnext.equal hcurrent
    obtain rfl : stable = same := Except.ok.inj (hstable.symm.trans hequal)
    cases stable with
    | true =>
      have hrest : F c = c := hsame.1 rfl
      cases h
      rw [hrest] at hnext he₁
      exact ⟨number, e₁, c, rfl, hnext, he₁, Nat.le_refl _, fun _ => rfl⟩
    | false =>
      have hmoved : c ≠ F c := fun hrest => Bool.false_ne_true (hsame.2 hrest.symm)
      have hfurther := FixKind.extent_lt hc hmoved
      obtain ⟨n, e₂, d, hleave, hs, hd, hn, -⟩ := ih (FixKind.le_of_monotone hF hc) hnext he₁ h
      exact ⟨n, e₂, d, hleave, hs, hd, by omega, fun hrest => (hmoved hrest.symm).elim⟩

/-- All rounds of an entry: at most two that do not take the value further. -/
theorem rounds_entry_advance (hF : Monotone F)
    (hstep : ∀ c e number current next e', Inv c e → current.Represents job.system.carrier c →
      round k x i action number current e = .ok (next, e') →
        next.Represents job.system.carrier (F c) ∧ Inv (F c) e')
    (hc : k.le c (F c) ∨ ∀ d, F d = F c) (hcurrent : current.Represents job.system.carrier c)
    (he : Inv c e) (h : rounds k x i action limit 1 previous current e = .ok (s, e')) :
    ∃ n e₁ d, e' = leave k x i n s e₁ ∧ s.Represents job.system.carrier d ∧ Inv d e₁ ∧
      (k.le c (F c) → n + k.extent c ≤ k.extent d + 2) ∧ ((∀ d, F d = F c) → n ≤ 2) := by
  have hextent : k.le c (F c) → k.extent c ≤ k.extent (F c) := by
    intro hle
    by_cases hrest : c = F c
    · rw [← hrest]
    · exact (FixKind.extent_lt hle hrest).le
  cases limit with
  | zero => cases h
  | succ limit =>
    obtain ⟨⟨next, e₁⟩, hround, h⟩ := bind_eq_ok_iff.1 h
    obtain ⟨hnext, he₁⟩ := hstep _ _ _ _ _ _ he hcurrent hround
    obtain ⟨stable, -, h⟩ := bind_eq_ok_iff.1 h
    cases stable with
    | true =>
      cases h
      refine ⟨1, e₁, F c, rfl, hnext, he₁, fun hle => ?_, fun _ => by omega⟩
      have := hextent hle
      omega
    | false =>
      have hfurther : k.le (F c) (F (F c)) := by
        rcases hc with hle | hconst
        · exact FixKind.le_of_monotone hF hle
        · exact FixKind.le_of_eq (hconst _).symm
      obtain ⟨n, e₂, d, hleave, hs, hd, hn, hrest⟩ := rounds_advance hF hstep hfurther hnext he₁ h
      refine ⟨n, e₂, d, hleave, hs, hd, fun hle => ?_, fun hconst => (hrest (hconst _)).le⟩
      have := hextent hle
      omega

end Rounds

/-! ## Evaluation of formulas -/

/-- The cells hold values that are ready, and the rounds so far are paid for. -/
structure Solvent (e : Evaluation) (job : Job) (f : Formula) (around : Option FixKind)
    (opened : List Nat) (v : Formula.Valuation job.system) : Prop where
  tracks : e.Tracks job opened v
  ready : f.Ready job.system false around v
  paid : f.Paid e.counts v around

/-- A formula stays solvent when others are evaluated. -/
theorem Solvent.congr (h : e.Solvent job f around opened v) (he' : e'.Tracks job opened w)
    (hsame : f.Same v w) (hcounts : ∀ j ∈ f.slots, e'.counts j = e.counts j) :
    e'.Solvent job f around opened w where
  tracks := he'
  ready := h.ready.congr hsame
  paid := h.paid.congr hcounts fun j hj => (hsame.slots j hj).symm

/-- The set that is found from values that are ready. -/
theorem Solvent.represents_denote (hm : job.system.Indexed) (hpolicy : job.policy = .never)
    (hf : f.Steady job.sentence around opened) (he : e.Solvent job f around opened v)
    (h : evalFormula job (job.system.numStates + 1) f around e = .ok (s, e')) :
    s.Represents job.system.carrier (f.denote job.system v) := by
  have hnone := hf.oneKind.noneOverlooked job.policy
  obtain ⟨w, hevaluate, -, -⟩ := Formula.evaluate_ready (by simp [hpolicy]) hf.negationFree hf.apart
    hnone opened v hf.below he.ready
  have hagrees := evalFormula_agrees hm (job.system.numStates + 1) hf.declared hf.apart.nodup
    hf.below.slots around he.tracks
  rw [h, hevaluate] at hagrees
  obtain ⟨S, u, heq, hs, -⟩ := hagrees.of_ok
  cases heq
  exact hs

theorem Tracks.raise (he : e.Tracks job opened v) {current : StateSet}
    (hcurrent : current.Represents job.system.carrier c) :
    (e.raise i current).Tracks job (i :: opened) (Function.update v i c) :=
  he.update (fun _ _ => hcurrent) (fun _ _ _ => by simp) fun j hj => by simp [hj]

theorem Tracks.lower (he : e.Tracks job (i :: opened) v) (hi : i ∉ opened) :
    (e.lower i).Tracks job opened v :=
  he.set_flag (fun _ => rfl) (fun _ _ => by simp [hi]) fun j hj => by simp [hj]

/-- What holds between the rounds of a fixed point that was entered with the values `v` and has the tally
`t`, when the next round is to begin with the region `c`. -/
def Midway (job : Job) (k : FixKind) (x : Char) (i : Nat) (f : Formula) (opened : List Nat)
    (v : Formula.Valuation job.system) (t : Tally) (c : job.system.Region) (e : Evaluation) : Prop :=
  (i ∈ f.free → k.le c (f.denote job.system (Function.update v i c))) ∧ e.counts i = t ∧
    ∃ u, (Formula.fix k x i f).Frame v u ∧ e.Tracks job opened u ∧
      f.Ready job.system false (some k) (Function.update u i c) ∧ f.Paid e.counts u (some k)

/-- A round of a fixed point whose body is evaluated as it should be. -/
theorem Midway.round (hm : job.system.Indexed) (hpolicy : job.policy = .never)
    (hf : (Formula.fix k x i f).Steady job.sentence around opened)
    (hbody : ∀ e s e' v, e.Solvent job f (some k) (i :: opened) v →
      evalFormula job (job.system.numStates + 1) f (some k) e = .ok (s, e') →
      ∃ w, f.Frame v w ∧ e'.Solvent job f (some k) (i :: opened) w)
    {t : Tally} (he : Midway job k x i f opened v t c e) {current next : StateSet}
    (hcurrent : current.Represents job.system.carrier c) {number : Nat}
    (h : Evaluation.round k x i (evalFormula job (job.system.numStates + 1) f (some k)) number current
      e = .ok (next, e')) :
    next.Represents job.system.carrier (f.denote job.system (Function.update v i c)) ∧
      Midway job k x i f opened v t (f.denote job.system (Function.update v i c)) e' := by
  obtain ⟨hle, hcounts, u, hu, htracks, hready, hpaid⟩ := he
  obtain ⟨⟨next', e₁⟩, hnext, h⟩ := bind_eq_ok_iff.1 h
  cases h
  have hi : i ∉ f.slots := hf.apart.slot_notMem
  have hraise : (e.raise i current).counts = e.counts := counts_update e i fun _ => rfl
  have hsolvent : (e.raise i current).Solvent job f (some k) (i :: opened) (Function.update u i c) := by
    refine ⟨htracks.raise hcurrent, hready, hpaid.congr (fun j _ => by rw [hraise]) fun j hj => ?_⟩
    exact Function.update_of_ne (ne_of_mem_of_not_mem hj hi) c u
  have hrepresents := hsolvent.represents_denote hm hpolicy hf.body hnext
  rw [hu.denote_update_eq hf.apart c] at hrepresents
  obtain ⟨w, hw, he₁⟩ := hbody _ _ _ _ hsolvent hnext
  have hlower : (e₁.lower i).counts = e₁.counts := counts_update e₁ i fun _ => rfl
  have hpolar : f.Polar i true := Formula.NegationFree.polar hf.negationFree i
  refine ⟨hrepresents, fun hmem => ?_, ?_, w, hu.trans hw.of_body,
    (he₁.tracks.lower (hf.below.slots i List.mem_cons_self)).record _, ?_, ?_⟩
  · exact FixKind.le_of_monotone (Formula.monotone_denote hpolar v) (hle hmem)
  · have hconfined := (evalFormula_confined hf.body.declared hf.body.apart.nodup hnext).1
    show (e₁.lower i).counts i = t
    rw [hlower, hconfined.counts hi]
    exact (congrFun hraise i).trans hcounts
  · have haligned : f.Aligned (some k) := Formula.NegationFree.aligned hf.negationFree
    refine he₁.ready.update haligned hi fun hmem => ?_
    rw [hw.slot_eq hf.apart]
    exact hle hmem
  · show f.Paid (e₁.lower i).counts w (some k)
    rw [hlower]
    exact he₁.paid

/-- The entry of a fixed point without resets. -/
theorem enter_counts_of_never (hpolicy : job.policy = .never)
    (h : enter job k x i around e = .ok e₁) (j : Nat) :
    e₁.counts j = if j = i then (e.counts j).enter else e.counts j := by
  obtain ⟨c, hcell, h⟩ := bind_eq_ok_iff.1 h
  have hi : i < e.cells.size := Fault.lt_size_of_lookup hcell
  rw [resetOnEntry, hpolicy] at h
  cases h
  exact counts_update_of_lt (e := e.record (.entered k x i around)) hi (fun _ => rfl) j

theorem Tracks.of_enter (hpolicy : job.policy = .never)
    (hf : (Formula.fix k x i f).Steady job.sentence around opened) (he : e.Tracks job opened v)
    (h : Evaluation.enter job k x i around e = .ok e₁) : e₁.Tracks job opened v := by
  obtain ⟨e₂, henter, he₂⟩ := he.enter hf.declared around
  obtain rfl : e₁ = e₂ := Except.ok.inj (h.symm.trans henter)
  rwa [hpolicy] at he₂

/-- The first round begins with the value that was kept. -/
theorem Solvent.midway (hpolicy : job.policy = .never)
    (hf : (Formula.fix k x i f).Steady job.sentence around opened)
    (he : e.Solvent job (.fix k x i f) around opened v) (h : enter job k x i around e = .ok e₁) :
    Midway job k x i f opened v (e.counts i).enter (v i) e₁ := by
  have hi : i ∉ f.slots := hf.apart.slot_notMem
  have hcounts := enter_counts_of_never hpolicy h
  have hkept : ResetPolicy.never ≠ .always := nofun
  obtain ⟨-, happrox, hready⟩ := he.ready.onEntry hkept hf.apart
    (hf.oneKind.noneOverlooked .never) hf.below
  have hself : Function.update v i (v i) = v := Function.update_eq_self i v
  refine ⟨fun hmem => ?_, ?_, v, Formula.Frame.refl _ v, he.tracks.of_enter hpolicy hf h, ?_,
    Formula.Paid.congr he.paid.2 (fun j hj => ?_) fun _ _ => rfl⟩
  · rw [hself]
    exact (happrox hmem).1
  · rw [hcounts, if_pos rfl]
  · rw [hself]
    exact hready
  · rw [hcounts, if_neg (ne_of_mem_of_not_mem hj hi)]

/-- The exit after `n` rounds that found the fixed point and that can be paid for. -/
theorem Midway.solvent_leave {t : Tally} {n : Nat}
    (hf : (Formula.fix k x i f).Steady job.sentence around opened)
    (he : Midway job k x i f opened v t c e) (hc : c = (Formula.fix k x i f).denote job.system v)
    (hs : s.Represents job.system.carrier c)
    (hpaid : t.rounds + n ≤ (if i ∈ f.free then k.extent c else 0) + 2 * t.entries) :
    ∃ w, (Formula.fix k x i f).Frame v w ∧
      (leave k x i n s e).Solvent job (.fix k x i f) around opened w := by
  obtain ⟨-, rfl, u, hu, htracks, hready, hbody⟩ := he
  have hi : i ∉ f.slots := hf.apart.slot_notMem
  have hlt : i < e.cells.size := by
    rw [htracks.size]
    exact hf.declared.slot_lt
  have hframe : (Formula.fix k x i f).Frame v (Function.update u i c) := hu.update _
  refine ⟨_, hframe, (htracks.record _).set_value (fun _ => rfl) fun _ _ => hs, ?_, ?_, ?_⟩
  · -- The fixed point has been found, so its value is ready again.
    have hpolar : f.Polar i true := Formula.NegationFree.polar hf.negationFree i
    rw [Formula.Ready, if_neg fun hother => hf.oneKind.1 (by simpa using hother.2)]
    refine ⟨Formula.approximates_of_eq_denote hpolar ?_, hready⟩
    rw [hframe.denote_eq hf.apart, Function.update_self, hc]
  · show ((leave k x i n s e).counts i).rounds ≤ _ + 2 * ((leave k x i n s e).counts i).entries
    rw [leave_counts hlt, if_pos rfl, Function.update_self]
    exact hpaid
  · refine hbody.congr (fun j hj => ?_) fun j hj => ?_
    · rw [leave_counts hlt, if_neg (ne_of_mem_of_not_mem hj hi)]
    · exact Function.update_of_ne (ne_of_mem_of_not_mem hj hi) _ u

/-- Evaluation of a fixed point whose body is evaluated as it should be. -/
theorem Solvent.fix (hm : job.system.Indexed) (hpolicy : job.policy = .never)
    (hf : (Formula.fix k x i f).Steady job.sentence around opened)
    (hbody : ∀ e s e' v, e.Solvent job f (some k) (i :: opened) v →
      evalFormula job (job.system.numStates + 1) f (some k) e = .ok (s, e') →
      ∃ w, f.Frame v w ∧ e'.Solvent job f (some k) (i :: opened) w)
    (he : e.Solvent job (.fix k x i f) around opened v)
    (h : evalFormula job (job.system.numStates + 1) (.fix k x i f) around e = .ok (s, e')) :
    ∃ w, (Formula.fix k x i f).Frame v w ∧ e'.Solvent job (.fix k x i f) around opened w := by
  have hfound := he.represents_denote hm hpolicy hf h
  have hpolar : f.Polar i true := Formula.NegationFree.polar hf.negationFree i
  obtain ⟨e₁, henter, h⟩ := bind_eq_ok_iff.1 h
  obtain ⟨current, hvalue, h⟩ := bind_eq_ok_iff.1 h
  have hstart := he.midway hpolicy hf henter
  have hcurrent : current.Represents job.system.carrier (v i) := by
    obtain ⟨value, hvalue', hrepresents⟩ :=
      (he.tracks.of_enter hpolicy hf henter).value_eq_ok hf.declared.slot_lt
    obtain rfl : current = value := Except.ok.inj (hvalue.symm.trans hvalue')
    exact hrepresents
  have hconst : i ∉ f.free → ∀ d, f.denote job.system (Function.update v i d) =
      f.denote job.system (Function.update v i (v i)) := by
    intro hmem d
    rw [Formula.denote_update_of_notMem hmem, Formula.denote_update_of_notMem hmem]
  have hfirst : k.le (v i) (f.denote job.system (Function.update v i (v i))) ∨
      ∀ d, f.denote job.system (Function.update v i d) =
        f.denote job.system (Function.update v i (v i)) := by
    by_cases hmem : i ∈ f.free
    · exact .inl (hstart.1 hmem)
    · exact .inr (hconst hmem)
  obtain ⟨n, e₂, d, rfl, hs, hmid, hused, hunused⟩ :=
    rounds_entry_advance (Formula.monotone_denote hpolar v)
      (fun c e number current next e' hmid hcurrent hround =>
        hmid.round hm hpolicy hf hbody hcurrent hround) hfirst hcurrent hstart h
  refine hmid.solvent_leave hf (hs.region_eq hfound) hs ?_
  have hpaid : (e.counts i).rounds ≤ (if i ∈ f.free then k.extent (v i) else 0) +
      2 * (e.counts i).entries := he.paid.1
  show (e.counts i).rounds + n ≤ _ + 2 * ((e.counts i).entries + 1)
  by_cases hmem : i ∈ f.free
  · have hn := hused (hstart.1 hmem)
    rw [if_pos hmem] at hpaid ⊢
    omega
  · have hn : n ≤ 2 := hunused (hconst hmem)
    rw [if_neg hmem] at hpaid ⊢
    omega

/-- Two formulas one after the other. -/
theorem Solvent.operands {e₂ : Evaluation} {t : StateSet}
    (hl : l.Steady job.sentence around opened) (hr : r.Steady job.sentence around opened)
    (hlr : ∀ j ∈ l.slots, j ∉ r.slots ∧ j ∉ r.free) (hrl : ∀ j ∈ r.slots, j ∉ l.slots ∧ j ∉ l.free)
    {limit : Nat} (hleft : evalFormula job limit l around e = .ok (s, e₁))
    (hright : evalFormula job limit r around e₁ = .ok (t, e₂))
    (her : e.Solvent job r around opened v) {u : Formula.Valuation job.system} (hu : l.Frame v u)
    (hel : e₁.Solvent job l around opened u)
    (hstep : ∀ v, e₁.Solvent job r around opened v →
      ∃ w, r.Frame v w ∧ e₂.Solvent job r around opened w) :
    ∃ w, r.Frame u w ∧ e₂.Solvent job l around opened w ∧ e₂.Solvent job r around opened w := by
  have hconfinedl := (evalFormula_confined hl.declared hl.apart.nodup hleft).1
  have hconfinedr := (evalFormula_confined hr.declared hr.apart.nodup hright).1
  obtain ⟨w, hw, hright'⟩ := hstep u <| her.congr hel.tracks (hu.same hrl hlr) fun j hj =>
    hconfinedl.counts (hrl j hj).1
  refine ⟨w, hw, hel.congr hright'.tracks (hw.same hlr hrl) fun j hj => ?_, hright'⟩
  exact hconfinedr.counts (hlr j hj).1

/-- Evaluation leaves paid what was paid for before, and pays for its own rounds. -/
theorem evalFormula_solvent (hm : job.system.Indexed) (hpolicy : job.policy = .never)
    (hf : f.Steady job.sentence around opened) (he : e.Solvent job f around opened v)
    (h : evalFormula job (job.system.numStates + 1) f around e = .ok (s, e')) :
    ∃ w, f.Frame v w ∧ e'.Solvent job f around opened w := by
  induction f generalizing around opened e v s e' with
  | top | bot =>
    cases h
    exact ⟨v, Formula.Frame.refl _ v, he⟩
  | var x i =>
    obtain ⟨t, -, h⟩ := bind_eq_ok_iff.1 h
    cases h
    exact ⟨v, Formula.Frame.refl _ v, he⟩
  | and l r ihl ihr | or l r ihl ihr =>
    obtain ⟨hl, hr⟩ := hf.of_append rfl rfl rfl rfl id id
    obtain ⟨-, hlr, hrl⟩ := hf.apart.of_append rfl rfl
    obtain ⟨⟨t, e₁⟩, hleft, h⟩ := bind_eq_ok_iff.1 h
    obtain ⟨⟨t', e₂⟩, hright, h⟩ := bind_eq_ok_iff.1 h
    obtain ⟨both, -, h⟩ := bind_eq_ok_iff.1 h
    cases h
    obtain ⟨u, hu, hel⟩ := ihl hl ⟨he.tracks, he.ready.1, he.paid.1⟩ hleft
    obtain ⟨w, hw, hwl, hwr⟩ := Solvent.operands hl hr hlr hrl hleft hright
      ⟨he.tracks, he.ready.2, he.paid.2⟩ hu hel fun v hv => ihr hr hv hright
    exact ⟨w, Formula.Frame.of_append rfl hu hw, hwl.tracks, ⟨hwl.ready, hwr.ready⟩,
      hwl.paid, hwr.paid⟩
  | not => exact hf.negationFree.elim
  | diamond a f ih | box a f ih =>
    obtain ⟨⟨t, e₁⟩, hoperand, h⟩ := bind_eq_ok_iff.1 h
    obtain ⟨before, -, h⟩ := bind_eq_ok_iff.1 h
    cases h
    obtain ⟨w, hw, hsolvent⟩ := ih ⟨hf.negationFree, hf.oneKind,
      ⟨hf.declared.binders, hf.declared.occurrences⟩, ⟨hf.apart.nodup, hf.apart.notMem⟩,
      ⟨hf.below.free, hf.below.slots⟩⟩ ⟨he.tracks, he.ready, he.paid⟩ hoperand
    exact ⟨w, hw, hsolvent.tracks, hsolvent.ready, hsolvent.paid⟩
  | fix k x i f ih =>
    exact he.fix hm hpolicy hf (fun e s e' v hv hbody => ih hf.body hv hbody) h

end Evaluation

section Run

variable {b : Blueprint} {tag : Nat} {m : TransitionSystem} {src : String} {p : Sentence}

/-- A run from the start without resets. -/
theorem Sentence.WellFormed.exists_run_paid (hm : m.Indexed) (hp : p.WellFormed)
    (hf : p.root.NegationFree) (hdepth : p.alternationDepth ≤ 1) :
    ∃ s e, Evaluation.evalFormula ⟨m, p, .never⟩ (m.numStates + 1) p.root none
        (.start ⟨m, p, .never⟩) = .ok (s, e) ∧ e.cells.size = p.binders.size ∧
      ∃ w : Formula.Valuation m, p.root.Paid e.counts w none := by
  have hkind : p.root.OneKind none := Formula.alternationDepth_le_one_iff.1 hdepth
  have hsteady : p.root.Steady p none [] := ⟨hf, hkind, hp.declared, hp.apart, hp.below⟩
  have hready : p.root.Ready m false none (Evaluation.startValues ⟨m, p, .never⟩) :=
    Formula.ready_of_bottom fun b hb => Evaluation.startValues_slot ⟨m, p, .never⟩ hp hb
  have hstart := Evaluation.start_tracks ⟨m, p, .never⟩
  have hkept : ResetPolicy.never ≠ .always := nofun
  obtain ⟨u, hevaluate, -, -⟩ := Formula.evaluate_ready hkept hf hp.apart
    (hkind.noneOverlooked .never) [] _ hp.below hready
  have hagrees := Evaluation.evalFormula_agrees hm (m.numStates + 1) hp.declared hp.apart.nodup
    hp.below.slots none hstart
  rw [hevaluate] at hagrees
  obtain ⟨s, e, heval, -, he⟩ := hagrees.of_some
  have hpaid : p.root.Paid (Evaluation.start ⟨m, p, .never⟩).counts
      (Evaluation.startValues ⟨m, p, .never⟩) none :=
    Formula.paid_zero (Evaluation.start_counts ⟨m, p, .never⟩)
  obtain ⟨w, -, hsolvent⟩ := Evaluation.evalFormula_solvent hm rfl hsteady ⟨hstart, hready, hpaid⟩ heval
  exact ⟨s, e, heval, he.size, w, hsolvent.paid⟩

/-- In a run from the start of a sentence without negations and alternation, with values that are kept
from entry to entry, no fixed point takes more rounds than there are states and two for each entry. -/
theorem run_rounds_le (hm : b.build tag = .ok m) (hp : Sentence.parse src = .ok p)
    (hf : p.root.NegationFree) (hdepth : p.alternationDepth ≤ 1) {policy : ResetPolicy}
    (hpolicy : policy = .alternation ∨ policy = .never) :
    ∃ s e, Evaluation.run ⟨m, p, policy⟩ (.start ⟨m, p, policy⟩) = .ok (s, e) ∧
      e.tallies.length = p.binders.size ∧
      ∀ t ∈ e.tallies, t.rounds ≤ m.numStates + 2 * t.entries := by
  have hindexed : m.Indexed := (Blueprint.build_eq_ok hm).2.2
  have hwellFormed := Sentence.parse_wellFormed hp
  obtain ⟨s, e, heval, hsize, w, hpaid⟩ := hwellFormed.exists_run_paid hindexed hf hdepth
  have hlength : e.tallies.length = p.binders.size := by
    rw [Evaluation.tallies, List.length_map, Array.length_toList, hsize]
  refine ⟨s, e, ?_, hlength, fun t ht => ?_⟩
  · have hsame : Evaluation.evalFormula ⟨m, p, policy⟩ (m.numStates + 1) p.root none
        (.start ⟨m, p, policy⟩) = .ok (s, e) := by
      rcases hpolicy with rfl | rfl
      · rw [run_alternation_eq_never hdepth, heval]
      · exact heval
    refine Evaluation.eval_eq_ok (fun i hi => ?_) hsame
    rw [hwellFormed.slots, List.mem_range] at hi
    rwa [(Evaluation.start_tracks ⟨m, p, policy⟩).size]
  · obtain ⟨i, hi⟩ := List.mem_iff_getElem?.1 ht
    have hlt : i < p.binders.size := by
      rw [← hlength]
      exact (List.getElem?_eq_some_iff.1 hi).1
    have hb : p.binders[i] ∈ p.root.table := by
      rw [← hwellFormed.binders]
      exact Array.getElem_mem_toList hlt
    have hcounts : e.counts i = t := by
      rw [Evaluation.counts, List.getD_eq_getElem?_getD, hi]
      rfl
    obtain ⟨around, g, hrounds⟩ := Formula.Throughout.of_mem_table hpaid hb
    rw [hwellFormed.slot_eq (Array.getElem?_eq_getElem hlt), hcounts] at hrounds
    have hextent := Formula.extent_le_numStates p.binders[i].kind (w i)
    split at hrounds <;> omega

/-- The innermost of three fixed points is entered six times. Most entries take two rounds, in which its
value stays where it is. -/
theorem run_rounds_le_nested :
    ∃ m p s e, (Blueprint.mk #[none, none, none] 0
        #[⟨0, ⟨"a"⟩, 1⟩, ⟨1, ⟨"b"⟩, 2⟩, ⟨2, ⟨"p"⟩, 2⟩, ⟨2, ⟨"a"⟩, 0⟩]).build 0 = .ok m ∧
      Sentence.parse "mu X.((<p>true) || mu Y.((<b>X) || mu Z.<a>(Y || Z)))" = .ok p ∧
      p.root.NegationFree ∧ p.alternationDepth ≤ 1 ∧
      Evaluation.run ⟨m, p, .alternation⟩ (.start ⟨m, p, .alternation⟩) = .ok (s, e) ∧
      e.tallies = [⟨1, 3, 3, 0⟩, ⟨3, 6, 3, 0⟩, ⟨6, 13, 3, 0⟩] ∧
      ∀ t ∈ e.tallies, t.rounds ≤ m.numStates + 2 * t.entries := by
  obtain ⟨m, p, s, e, hm, hp, hf, hdepth, hrun, htallies⟩ :
      ∃ m p s e, (Blueprint.mk #[none, none, none] 0
        #[⟨0, ⟨"a"⟩, 1⟩, ⟨1, ⟨"b"⟩, 2⟩, ⟨2, ⟨"p"⟩, 2⟩, ⟨2, ⟨"a"⟩, 0⟩]).build 0 = .ok m ∧
      Sentence.parse "mu X.((<p>true) || mu Y.((<b>X) || mu Z.<a>(Y || Z)))" = .ok p ∧
      p.root.NegationFree ∧ p.alternationDepth ≤ 1 ∧
      Evaluation.run ⟨m, p, .alternation⟩ (.start ⟨m, p, .alternation⟩) = .ok (s, e) ∧
      e.tallies = [⟨1, 3, 3, 0⟩, ⟨3, 6, 3, 0⟩, ⟨6, 13, 3, 0⟩] :=
    ⟨_, _, _, _, rfl, rfl, by decide +kernel, by decide +kernel, rfl, rfl⟩
  have hpolicy : ResetPolicy.alternation = .alternation ∨ ResetPolicy.alternation = .never := .inl rfl
  obtain ⟨s', e', hrun', -, hrounds⟩ := run_rounds_le hm hp hf hdepth hpolicy
  obtain ⟨rfl, rfl⟩ := Prod.mk.inj (Except.ok.inj (hrun'.symm.trans hrun))
  exact ⟨m, p, s', e', hm, hp, hf, hdepth, hrun, htallies, hrounds⟩

end Run

end ModalMu
