import ModalMu.Proofs.Faultless
import ModalMu.Proofs.SingleKind
import ModalMu.Proofs.TallyLaws

/-!
# What the tallies say

The tallies of a run obey exact laws (`check_tallies_lawful`). A fixed point is entered once for every
round of the one around it, and reset once for every entry that resets it: under the alternation policy
these are the entries of itself and of the fixed points of its kind around it that stand directly below
one of the other kind, as long as it uses a variable from outside of them.

1. An entry changes the tallies of the fixed points it resets and its own (`enter_tallied`); the flags
   that are up are those of the fixed points around it.
2. Every round evaluates the body once more (`Turns.tallied`), and the exit adds the rounds
   (`leave_tallied`).
3. So an evaluation of a formula is one more in its tallies (`compositional_tallied`), and a run is the
   first one.

Without alternation no entry resets anything, and the alternation policy does what no resets do.
-/

namespace ModalMu

namespace Evaluation

variable {job : Job} {e e₁ e₂ e' : Evaluation} {opened slots : List Nat} {outer : List Binder}
  {k : FixKind} {x : Char} {i j m n : Nat} {f l r : Formula} {s : StateSet}

/-! ## Tallies of an evaluation -/

/-- The tally of the cell with the given slot. -/
def counts (e : Evaluation) (i : Nat) : Tally := e.tallies.getD i .zero

theorem counts_eq (e : Evaluation) (i : Nat) :
    e.counts i = (e.cells[i]?.map (·.tally)).getD .zero := by
  simp [counts, tallies, List.getD_eq_getElem?_getD]

theorem counts_of_getElem? {c : Cell} (h : e.cells[i]? = some c) : e.counts i = c.tally := by
  rw [counts_eq, h]
  rfl

theorem Confined.counts (h : Confined slots e e') (hj : j ∉ slots) : e'.counts j = e.counts j := by
  rw [counts_eq, counts_eq, h.cell j hj]

/-- A change of one tally. -/
theorem counts_update_of_lt (hi : i < e.cells.size) {g : Cell → Cell} {φ : Tally → Tally}
    (hg : ∀ c, (g c).tally = φ c.tally) (j : Nat) :
    (e.update i g).counts j = if j = i then φ (e.counts j) else e.counts j := by
  have hcell : (e.update i g).cells[j]? = e.cells[j]?.map (if j = i then g else id) :=
    cellwise_update e i g j
  by_cases hij : j = i
  · subst hij
    have hc := Array.getElem?_eq_getElem hi
    rw [if_pos rfl, hc] at hcell
    rw [if_pos rfl, counts_of_getElem? hc, counts_of_getElem? hcell, hg]
  · rw [if_neg hij, Option.map_id_fun, id] at hcell
    rw [if_neg hij, counts_eq, counts_eq, hcell]

/-- Changes of values and flags. -/
theorem counts_update (e : Evaluation) (i : Nat) {g : Cell → Cell}
    (hg : ∀ c, (g c).tally = c.tally) : (e.update i g).counts = e.counts := by
  funext j
  rw [counts_eq, counts_eq, cellwise_update e i g j, Option.map_map]
  congr 2
  funext c
  show ((if j = i then g else id) c).tally = c.tally
  split
  · exact hg c
  · rfl

/-- A formula is tallied as before if only other cells change. -/
theorem Confined.tallied {policy : ResetPolicy} (h : Confined slots e e')
    (hf : ∀ j ∈ slots, j ∉ f.slots) (houter : ∀ j ∈ slots, j ∉ outer.map (·.slot))
    (ht : f.Tallied policy e.counts n outer) : f.Tallied policy e'.counts n outer := by
  refine ht.congr (fun j hj => h.counts fun hmem => hf j hmem hj) fun w hw => ?_
  rw [h.counts fun hmem => houter _ hmem (List.mem_map_of_mem hw)]

/-! ## Entry and rounds -/

/-- What the entry of a fixed point does to the tallies inside it. -/
theorem Flagged.enter_counts (he : e.Flagged (outer.map (·.slot)))
    (hf : (Formula.fix k x i f).StandsIn job.sentence outer)
    (hsize : e.cells.size = job.sentence.binders.size)
    (h : enter job k x i (outer.head?.map (·.kind)) e = .ok e') {b : Binder}
    (hb : b ∈ (Formula.fix k x i f).table) :
    e'.counts b.slot =
      (if job.policy.Resets b (Formula.declaration k x i f) outer then Tally.reset else id)
        ((if b.slot = i then Tally.enter else id) (e.counts b.slot)) := by
  obtain ⟨-, hcells⟩ := he.enter_cellwise hf.declared hf.nodup h
  have hlt : b.slot < e.cells.size := by
    rw [hsize]
    exact (Array.getElem?_eq_some_iff.1 (hf.declared.binders b hb)).1
  have hc := Array.getElem?_eq_getElem hlt
  have hc' := hcells b.slot
  rw [hc] at hc'
  rw [counts_of_getElem? hc, counts_of_getElem? hc']
  simp only [Formula.mem_resetSlots_iff hf.declared hb, Function.comp_apply]
  split <;> split <;> rfl

/-- After the entry of a fixed point its tally lacks only the rounds to come. -/
theorem Flagged.enter_tallied (he : e.Flagged (outer.map (·.slot)))
    (hf : (Formula.fix k x i f).StandsIn job.sentence outer)
    (hsize : e.cells.size = job.sentence.binders.size)
    (h : enter job k x i (outer.head?.map (·.kind)) e = .ok e')
    (ht : (Formula.fix k x i f).Tallied job.policy e.counts n outer) :
    (e'.counts i).entries = n + 1 ∧ (e'.counts i).rounds = (e.counts i).rounds ∧
      (e'.counts i).maxRounds = (e.counts i).maxRounds ∧
      (e'.counts i).resets = Tally.resetsDue job.policy e'.counts (Formula.declaration k x i f)
        (Formula.declaration k x i f :: outer) ∧
      f.Tallied job.policy e'.counts (e.counts i).rounds (Formula.declaration k x i f :: outer) := by
  obtain ⟨hlaw, hbody⟩ := ht
  have hi : e'.counts i =
      (if job.policy.Resets (Formula.declaration k x i f) (Formula.declaration k x i f) outer
        then Tally.reset else id) (e.counts i).enter := by
    have h := he.enter_counts hf hsize h List.mem_cons_self
    rwa [if_pos rfl] at h
  have hentries : (e'.counts i).entries = (e.counts i).entries + 1 := by rw [hi]; split <;> rfl
  have houter : ∀ w ∈ outer, (e'.counts w.slot).entries = (e.counts w.slot).entries := by
    intro w hw
    rw [(enter_confined hf.declared hf.nodup h).2.counts fun hmem =>
      hf.apart _ hmem (List.mem_map_of_mem hw)]
  refine ⟨?_, ?_, ?_, ?_, ?_⟩
  · rw [hentries]
    exact congrArg (· + 1) hlaw.entries
  · rw [hi]
    split <;> rfl
  · rw [hi]
    split <;> rfl
  · refine Eq.trans ?_ (Tally.resetsDue_enter [] hentries nofun houter).symm
    rw [List.nil_append, ← hlaw.resets, hi]
    split <;> rfl
  · refine hbody.enter [] (fun b hb => ?_) hentries nofun houter
    have hslot : b.slot ≠ i := by
      rintro rfl
      exact hf.slot_notMem (Formula.mem_slots_of_mem_table hb)
    rw [he.enter_counts hf hsize h (List.mem_cons_of_mem _ hb), if_neg hslot]
    split <;> rfl

theorem Flagged.raise (he : e.Flagged opened) (hi : i < e.cells.size) (current : StateSet) :
    (e.raise i current).Flagged (i :: opened) := by
  intro j
  have hj := cellwise_update e i (fun c => { c with value := current, isOpen := true }) j
  rw [Evaluation.raise, hj]
  by_cases hij : j = i
  · subst hij
    simp [Array.getElem?_eq_getElem hi]
  · simpa [hij] using he j

theorem Flagged.lower (he : e.Flagged (i :: opened)) (hi : i ∉ opened) :
    (e.lower i).Flagged opened := by
  intro j
  have hj := cellwise_update e i (fun c => { c with isOpen := false }) j
  rw [Evaluation.lower, hj]
  by_cases hij : j = i
  · simp [hij, hi]
  · simpa [hij] using he j

/-- Each round is one evaluation more of the body. -/
theorem Turns.tallied {body : Evaluation → StateSet → Evaluation → Prop}
    (hf : (Formula.fix k x i f).StandsIn job.sentence outer)
    (hconfined : ∀ e s e', body e s e' → Confined f.slots e e' ∧ e'.Shut f.slots)
    (hbody : ∀ e s e' n, body e s e' → e.cells.size = job.sentence.binders.size →
      e.Flagged (i :: outer.map (·.slot)) →
      f.Tallied job.policy e.counts n (Formula.declaration k x i f :: outer) →
      f.Tallied job.policy e'.counts (n + 1) (Formula.declaration k x i f :: outer))
    (hsize : e.cells.size = job.sentence.binders.size) (he : e.Flagged (outer.map (·.slot)))
    (ht : f.Tallied job.policy e.counts n (Formula.declaration k x i f :: outer))
    (h : Turns body k x i e m e') :
    e'.cells.size = job.sentence.binders.size ∧ e'.Flagged (outer.map (·.slot)) ∧
      e'.counts i = e.counts i ∧
      f.Tallied job.policy e'.counts (n + m) (Formula.declaration k x i f :: outer) := by
  induction h with
  | zero => exact ⟨hsize, he, rfl, ht⟩
  | @succ m e₁ e₂ current next _ hnext ih =>
    obtain ⟨hsize₁, he₁, hcounts₁, ht₁⟩ := ih
    have hi : i < e₁.cells.size := by
      rw [hsize₁]
      exact hf.declared.slot_lt
    have hraise : (e₁.raise i current).counts = e₁.counts := counts_update e₁ i fun _ => rfl
    have hsize' : (e₁.raise i current).cells.size = job.sentence.binders.size := by
      rw [Evaluation.raise, Evaluation.update, Array.size_modify, hsize₁]
    have hup : (e₁.raise i current).Flagged (i :: outer.map (·.slot)) := he₁.raise hi current
    obtain ⟨hinside, hshut⟩ := hconfined _ _ _ hnext
    have ht₂ := hbody _ _ _ (n + m) hnext hsize' hup (by rwa [hraise])
    have hlower : (e₂.lower i).counts = e₂.counts := counts_update e₂ i fun _ => rfl
    refine ⟨?_, ?_, ?_, ?_⟩
    · show (e₂.lower i).cells.size = _
      rw [Evaluation.lower, Evaluation.update, Array.size_modify, hinside.size, hsize']
    · exact (hup.confined hf.body.apart hinside hshut).lower (hf.apart i List.mem_cons_self)
    · show (e₂.lower i).counts i = e.counts i
      rw [hlower, hinside.counts hf.slot_notMem, hraise, hcounts₁]
    · show f.Tallied job.policy (e₂.lower i).counts (n + (m + 1)) _
      rw [hlower]
      exact ht₂

theorem leave_counts (hi : i < e.cells.size) (j : Nat) :
    (leave k x i n s e).counts j = if j = i then (e.counts j).converge n else e.counts j :=
  counts_update_of_lt (e := e.record (.converged k x n s)) hi (fun _ => rfl) j

/-- The exit from a fixed point, after the entry to `e₁` and `m` rounds to `e₂`. -/
theorem leave_tallied (hf : (Formula.fix k x i f).StandsIn job.sentence outer) (hm : 0 < m)
    (hi : i < e₂.cells.size) (hconfined : Confined (i :: f.slots) e₁ e₂)
    (hlaw : Tally.Lawful job.policy e.counts n (Formula.declaration k x i f) outer)
    (hentries : (e₁.counts i).entries = n + 1)
    (hrounds : (e₁.counts i).rounds = (e.counts i).rounds)
    (hmax : (e₁.counts i).maxRounds = (e.counts i).maxRounds)
    (hresets : (e₁.counts i).resets = Tally.resetsDue job.policy e₁.counts
      (Formula.declaration k x i f) (Formula.declaration k x i f :: outer))
    (hsame : e₂.counts i = e₁.counts i)
    (hbody : f.Tallied job.policy e₂.counts ((e.counts i).rounds + m)
      (Formula.declaration k x i f :: outer)) :
    (Formula.fix k x i f).Tallied job.policy (leave k x i m s e₂).counts (n + 1) outer := by
  have hleave : (leave k x i m s e₂).counts i = (e₁.counts i).converge m := by
    rw [leave_counts hi, if_pos rfl, hsame]
  have hcounts : ∀ j, j ≠ i → (leave k x i m s e₂).counts j = e₂.counts j := fun j hj => by
    rw [leave_counts hi, if_neg hj]
  -- The fixed points around the body keep their entries.
  have hstack : ∀ w ∈ Formula.declaration k x i f :: outer,
      ((leave k x i m s e₂).counts w.slot).entries = (e₁.counts w.slot).entries := by
    intro w hw
    rcases List.mem_cons.1 hw with rfl | hw
    · show ((leave k x i m s e₂).counts i).entries = (e₁.counts i).entries
      rw [hleave]
      rfl
    · have hslot : w.slot ∉ i :: f.slots := fun hmem => hf.apart _ hmem (List.mem_map_of_mem hw)
      rw [hcounts _ (List.ne_of_not_mem_cons hslot), hconfined.counts hslot]
  have hstack' : ∀ w ∈ Formula.declaration k x i f :: outer,
      ((leave k x i m s e₂).counts w.slot).entries = (e₂.counts w.slot).entries := by
    intro w hw
    rw [leave_counts hi]
    split <;> rfl
  refine ⟨hlaw.succ hm ?_ ?_ ?_ ?_, ?_⟩
  · exact (congrArg Tally.entries hleave).trans hentries
  · refine (congrArg Tally.rounds hleave).trans ?_
    exact congrArg (· + m) hrounds
  · refine (congrArg Tally.maxRounds hleave).trans ?_
    exact congrArg (max · m) hmax
  · rw [Tally.resetsDue_congr hstack, ← hresets]
    show ((leave k x i m s e₂).counts i).resets = (e₁.counts i).resets
    rw [hleave]
    rfl
  · rw [hleave]
    show f.Tallied _ _ ((e₁.counts i).rounds + m) _
    rw [hrounds]
    refine hbody.congr (fun j hj => hcounts j ?_) hstack'
    rintro rfl
    exact hf.slot_notMem hj

/-! ## Formulas -/

/-- Two formulas one after the other. -/
theorem tallied_append {around : Option FixKind} {limit : Nat} {t : StateSet}
    (hfl : l.StandsIn job.sentence outer) (hfr : r.StandsIn job.sentence outer)
    (hdisjoint : ∀ j ∈ l.slots, j ∉ r.slots)
    (hl : evalFormula job limit l around e = .ok (s, e₁))
    (hr : evalFormula job limit r around e₁ = .ok (t, e₂))
    (hsize : e.cells.size = job.sentence.binders.size) (he : e.Flagged (outer.map (·.slot)))
    (htl : l.Tallied job.policy e₁.counts (n + 1) outer)
    (htr : r.Tallied job.policy e.counts n outer)
    (hstep : e₁.cells.size = job.sentence.binders.size → e₁.Flagged (outer.map (·.slot)) →
      r.Tallied job.policy e₁.counts n outer → r.Tallied job.policy e₂.counts (n + 1) outer) :
    l.Tallied job.policy e₂.counts (n + 1) outer ∧ r.Tallied job.policy e₂.counts (n + 1) outer := by
  obtain ⟨hconfinedl, hshut⟩ := evalFormula_confined hfl.declared hfl.nodup hl
  obtain ⟨hconfinedr, -⟩ := evalFormula_confined hfr.declared hfr.nodup hr
  refine ⟨hconfinedr.tallied (fun j hj hj' => hdisjoint j hj' hj) hfr.apart htl, ?_⟩
  exact hstep (hconfinedl.size.trans hsize) (he.confined hfl.apart hconfinedl hshut)
    (hconfinedl.tallied hdisjoint hfl.apart htr)

/-- An evaluation of a formula is one more in the tallies of the fixed points inside. -/
theorem compositional_tallied (job : Job) (limit : Nat) :
    Compositional job limit fun f around e _ e' => ∀ outer n, f.StandsIn job.sentence outer →
      around = outer.head?.map (·.kind) → e.cells.size = job.sentence.binders.size →
      e.Flagged (outer.map (·.slot)) → f.Tallied job.policy e.counts n outer →
      f.Tallied job.policy e'.counts (n + 1) outer where
  top _ _ _ _ _ _ _ _ _ := trivial
  bot _ _ _ _ _ _ _ _ _ := trivial
  var _ _ _ _ _ _ _ _ := trivial
  and hl hr ihl ihr _ outer n hf haround hsize he ht := by
    obtain ⟨hfl, hfr, hdisjoint⟩ := hf.of_append rfl rfl rfl
    exact tallied_append hfl hfr hdisjoint hl hr hsize he (ihl outer n hfl haround hsize he ht.1) ht.2
      (ihr outer n hfr haround)
  or hl hr ihl ihr _ outer n hf haround hsize he ht := by
    obtain ⟨hfl, hfr, hdisjoint⟩ := hf.of_append rfl rfl rfl
    exact tallied_append hfl hfr hdisjoint hl hr hsize he (ihl outer n hfl haround hsize he ht.1) ht.2
      (ihr outer n hfr haround)
  not ih outer n hf := ih outer n ((Formula.inherited_standsIn _).not hf)
  diamond ih _ outer n hf := ih outer n ((Formula.inherited_standsIn _).diamond hf)
  box ih _ outer n hf := ih outer n ((Formula.inherited_standsIn _).box hf)
  fix {k x i f around e e₁ e₂ m s} henter hm _ hturns outer n hf haround hsize he ht := by
    subst haround
    obtain ⟨hi, hentry⟩ := enter_confined hf.declared hf.nodup henter
    obtain ⟨hentries, hrounds, hmax, hresets, hbody⟩ := he.enter_tallied hf hsize henter ht
    have hconfined : ∀ e s e', evalFormula job limit f (some k) e = .ok (s, e') →
        Confined f.slots e e' ∧ e'.Shut f.slots :=
      fun e s e' h => evalFormula_confined hf.body.declared hf.body.nodup h
    obtain ⟨-, -, hsame, hbody₂⟩ := hturns.tallied hf (fun e s e' h => hconfined e s e' h.1)
      (fun e s e' n h => h.2 _ n hf.body rfl) (hentry.size.trans hsize)
      (he.after_enter hf.declared hf.nodup henter) hbody
    obtain ⟨hinside, -⟩ := hturns.confined (fun e s e' h => hconfined e s e' h.1)
      (by rwa [hentry.size])
    have hi₂ : i < e₂.cells.size := by
      rw [hinside.size, hentry.size]
      exact hi
    exact leave_tallied hf hm hi₂ hinside ht.1 hentries hrounds hmax hresets hsame hbody₂

theorem start_counts (job : Job) (j : Nat) : (start job).counts j = .zero := by
  rw [counts_eq, getElem?_start_cells]
  cases job.sentence.binders[j]? with
  | none => rfl
  | some b => rfl

/-- A run from the start is one evaluation of the sentence. -/
theorem run_tallied {limit : Nat} (hp : job.sentence.WellFormed)
    (h : evalFormula job limit job.sentence.root none (start job) = .ok (s, e')) :
    job.sentence.root.Tallied job.policy e'.counts 1 [] := by
  have hsize : (start job).cells.size = job.sentence.binders.size := (start_tracks job).size
  exact (compositional_tallied job limit).evalFormula h [] 0 hp.standsIn rfl hsize
    (start_flagged job) (Formula.tallied_zero (start_counts job) [] _)

/-- Where the kind never changes, the alternation policy evaluates as if there were no resets. -/
theorem evalFormula_alternation_eq_never (m : TransitionSystem) (p : Sentence) (limit : Nat)
    {around : Option FixKind} (hf : f.OneKind around) (e : Evaluation) :
    evalFormula ⟨m, p, .alternation⟩ limit f around e = evalFormula ⟨m, p, .never⟩ limit f around e := by
  induction f generalizing around e with
  | top | bot | var => rfl
  | and l r ihl ihr | or l r ihl ihr =>
    have hr := funext fun e => ihr hf.2 e
    simp only [evalFormula, ihl hf.1, hr]
  | not f ih | diamond a f ih | box a f ih => simp only [evalFormula, ih hf]
  | fix k x i f ih =>
    have hbody := funext fun e => ih hf.2 e
    have henter : enter ⟨m, p, .alternation⟩ k x i around e = enter ⟨m, p, .never⟩ k x i around e := by
      unfold enter resetOnEntry
      dsimp only
      rw [if_neg hf.1]
    simp only [evalFormula, henter, hbody]

end Evaluation

/-- The tally of the binder with the given slot. -/
def Verdict.tally (verdict : Verdict) (i : Nat) : Tally := verdict.tallies.getD i .zero

section Check

variable {b : Blueprint} {tag : Nat} {m : TransitionSystem} {src : String} {p : Sentence}

/-- The sentence is tallied in every verdict. -/
theorem Job.tallied_of_check {job : Job} (hp : job.sentence.WellFormed) {verdict : Verdict}
    (h : job.check = .ok verdict) : verdict.tallies.length = job.sentence.binders.size ∧
      job.sentence.root.Tallied job.policy verdict.tally 1 [] := by
  obtain ⟨⟨s, e⟩, hrun, hverdict⟩ := bind_eq_ok_iff.1 h
  cases hverdict
  refine ⟨?_, Evaluation.run_tallied hp hrun⟩
  have hconfined := (Evaluation.evalFormula_confined hp.declared hp.apart.nodup hrun).1
  show (e.cells.toList.map _).length = _
  rw [List.length_map, Array.length_toList, hconfined.size]
  exact (Evaluation.start_tracks job).size

/-- Without resets every tally says so. -/
theorem Job.resets_eq_zero_of_check {job : Job} (hp : job.sentence.WellFormed)
    (hpolicy : job.policy = .never) {verdict : Verdict} (h : job.check = .ok verdict) {t : Tally}
    (ht : t ∈ verdict.tallies) : t.resets = 0 := by
  obtain ⟨hlength, htallied⟩ := Job.tallied_of_check hp h
  obtain ⟨i, hi⟩ := List.mem_iff_getElem?.1 ht
  have hlt : i < job.sentence.binders.size := by
    rw [← hlength]
    exact (List.getElem?_eq_some_iff.1 hi).1
  have hb := Array.getElem?_eq_getElem hlt
  have hslot := hp.slot_eq hb
  have hmem : job.sentence.binders[i] ∈ job.sentence.root.table := by
    rw [← hp.binders]
    exact Array.getElem_mem_toList hlt
  obtain ⟨g, around, hplace, hbinder⟩ := Formula.exists_mem_places hmem []
  have hresets := (htallied.lawful ⟨g, hplace, hbinder⟩).resets
  rw [hpolicy, Tally.resetsDue_never, hslot, Verdict.tally, List.getD_eq_getElem?_getD, hi] at hresets
  exact hresets

/-- Without alternation a check under the alternation policy goes as one without resets. -/
theorem run_alternation_eq_never (hdepth : p.alternationDepth ≤ 1) (limit : Nat) :
    Evaluation.evalFormula ⟨m, p, .alternation⟩ limit p.root none (.start ⟨m, p, .alternation⟩) =
      Evaluation.evalFormula ⟨m, p, .never⟩ limit p.root none (.start ⟨m, p, .never⟩) :=
  Evaluation.evalFormula_alternation_eq_never m p limit
    (Formula.alternationDepth_le_one_iff.1 hdepth) _

/-- If the check of a sentence comes to an end, its tallies obey exact laws. A fixed point is entered
once, or once for each round of the fixed point around it; it takes at least one round per entry and at
most as many as its maximum; and its resets are none, as many as the entries, or the entries of those
fixed points, itself and those around it, that reset it. Without alternation the alternation policy gives
the set and the tallies of a check without resets. -/
theorem check_tallies_lawful (hm : b.build tag = .ok m) (hp : Sentence.parse src = .ok p) :
    (∀ policy, (Job.mk m p policy).Terminates →
      ∃ verdict, (Job.mk m p policy).check = .ok verdict ∧
        verdict.tallies.length = p.binders.size ∧
        ∀ b ∈ p.binders, (∃ around, p.root.BindsAt b around) ∧
          ∀ around, p.root.BindsAt b around →
            (verdict.tally b.slot).entries = Tally.evaluations verdict.tally around ∧
            (verdict.tally b.slot).entries ≤ (verdict.tally b.slot).rounds ∧
            (verdict.tally b.slot).rounds ≤
              (verdict.tally b.slot).entries * (verdict.tally b.slot).maxRounds ∧
            (policy = .never → (verdict.tally b.slot).resets = 0) ∧
            (policy = .always → (verdict.tally b.slot).resets = (verdict.tally b.slot).entries) ∧
            (policy = .alternation → (verdict.tally b.slot).resets =
              Tally.resetsDue .alternation verdict.tally b (b :: around))) ∧
    (p.alternationDepth ≤ 1 →
      ((Job.mk m p .alternation).Terminates ↔ (Job.mk m p .never).Terminates) ∧
      ∀ kept, (Job.mk m p .alternation).check = .ok kept →
        ∃ plain, (Job.mk m p .never).check = .ok plain ∧ kept.satisfying = plain.satisfying ∧
          kept.tallies = plain.tallies ∧ ∀ t ∈ kept.tallies, t.resets = 0) := by
  have hindexed : m.Indexed := (Blueprint.build_eq_ok hm).2.2
  have hwellFormed := Sentence.parse_wellFormed hp
  refine ⟨fun policy hterminates => ?_, fun hdepth => ⟨?_, fun kept hkept => ?_⟩⟩
  · obtain ⟨verdict, hcheck⟩ := (exists_check_iff_terminates hindexed hwellFormed).2 hterminates
    obtain ⟨hlength, htallied⟩ := Job.tallied_of_check hwellFormed hcheck
    refine ⟨verdict, hcheck, hlength, fun b hb => ⟨?_, fun around hplace => ?_⟩⟩
    · have hmem : b ∈ p.root.table := by
        rw [← hwellFormed.binders]
        exact Array.mem_def.1 hb
      obtain ⟨g, around, hplace⟩ := Formula.exists_mem_places hmem []
      exact ⟨around, g, hplace⟩
    · have hlaw := htallied.lawful hplace
      refine ⟨hlaw.entries, hlaw.entries ▸ hlaw.le_rounds, hlaw.entries ▸ hlaw.rounds_le, ?_, ?_, ?_⟩
      · rintro rfl
        rw [hlaw.resets, Tally.resetsDue_never]
      · rintro rfl
        rw [hlaw.resets, Tally.resetsDue_always (hplace.slot_notMem hwellFormed.standsIn)]
      · rintro rfl
        exact hlaw.resets
  · unfold Job.Terminates
    simp only [run_alternation_eq_never hdepth]
  · obtain ⟨⟨s, e⟩, hrun, hverdict⟩ := bind_eq_ok_iff.1 hkept
    cases hverdict
    have hplain : (Job.mk m p .never).check = .ok (Job.verdict ⟨m, p, .never⟩ s e) := by
      refine bind_eq_ok_iff.2 ⟨(s, e), ?_, rfl⟩
      exact (run_alternation_eq_never hdepth _).symm.trans hrun
    exact ⟨_, hplain, rfl, rfl, fun t ht =>
      Job.resets_eq_zero_of_check hwellFormed rfl hplain ht⟩

/-- Three fixed points inside one another, the inner two of one kind: the innermost one is entered six
times, once for each round of the one around it, but reset only on the three entries of that one. The
other sentence does not alternate. -/
theorem check_tallies_lawful_nested :
    ∃ m p flat x y z, (Blueprint.mk #[none, none, none] 0
        #[⟨0, ⟨"a"⟩, 1⟩, ⟨1, ⟨"b"⟩, 2⟩, ⟨1, ⟨"b"⟩, 1⟩]).build 0 = .ok m ∧
      Sentence.parse "nu X.mu Y.((<a>X) || mu Z.((<b>Z) || (Y && <a>X)))" = .ok p ∧
      Sentence.parse "mu X.((<b>true) || mu Y.((<a>X) || <b>Y))" = .ok flat ∧
      z ∈ p.binders ∧ p.root.BindsAt z [y, x] ∧ flat.alternationDepth ≤ 1 ∧
      (Job.mk m p .alternation).Terminates ∧
      (∃ verdict, (Job.mk m p .alternation).check = .ok verdict ∧
        verdict.tallies = [⟨1, 3, 3, 0⟩, ⟨3, 6, 2, 3⟩, ⟨6, 12, 2, 3⟩] ∧
        (verdict.tally z.slot).entries = (verdict.tally y.slot).rounds ∧
        (verdict.tally z.slot).resets = (verdict.tally y.slot).entries) ∧
      ∃ kept plain, (Job.mk m flat .alternation).check = .ok kept ∧
        (Job.mk m flat .never).check = .ok plain ∧ kept.satisfying = plain.satisfying ∧
        kept.tallies = plain.tallies ∧ ∀ t ∈ kept.tallies, t.resets = 0 := by
  obtain ⟨m, p, flat, x, y, z, verdict, kept, hm, hp, hflat, hz, hplace, hdue, hdepth, hcheck, htallies,
      hkept⟩ : ∃ m p flat x y z verdict kept, (Blueprint.mk #[none, none, none] 0
        #[⟨0, ⟨"a"⟩, 1⟩, ⟨1, ⟨"b"⟩, 2⟩, ⟨1, ⟨"b"⟩, 1⟩]).build 0 = .ok m ∧
      Sentence.parse "nu X.mu Y.((<a>X) || mu Z.((<b>Z) || (Y && <a>X)))" = .ok p ∧
      Sentence.parse "mu X.((<b>true) || mu Y.((<a>X) || <b>Y))" = .ok flat ∧
      z ∈ p.binders ∧ p.root.BindsAt z [y, x] ∧
      (∀ t, Tally.resetsDue .alternation t z [z, y, x] = (t y.slot).entries) ∧
      flat.alternationDepth ≤ 1 ∧ (Job.mk m p .alternation).check = .ok verdict ∧
      verdict.tallies = [⟨1, 3, 3, 0⟩, ⟨3, 6, 2, 3⟩, ⟨6, 12, 2, 3⟩] ∧
      (Job.mk m flat .alternation).check = .ok kept :=
    ⟨_, _, _, ⟨'X', .greatest, 0, [1, 2], [0, 2, 1, 0]⟩, ⟨'Y', .least, 1, [2], [0, 2, 1, 0]⟩,
      ⟨'Z', .least, 2, [], [2, 1, 0]⟩, _, _, rfl, rfl, rfl, by decide +kernel,
      ⟨.fix .least 'Z' 2 (.or (.diamond ⟨"b"⟩ (.var 'Z' 2))
        (.and (.var 'Y' 1) (.diamond ⟨"a"⟩ (.var 'X' 0)))), by decide +kernel, rfl⟩,
      fun t => by simp [Tally.resetsDue, ResetPolicy.Resets, FixKind.opposite], by decide +kernel, rfl,
      rfl, rfl⟩
  have hterminates := Job.terminates_of_check hcheck
  obtain ⟨verdict', hcheck', -, hlaws⟩ := (check_tallies_lawful hm hp).1 .alternation hterminates
  obtain rfl : verdict' = verdict := Except.ok.inj (hcheck'.symm.trans hcheck)
  obtain ⟨hentries, -, -, -, -, hresets⟩ := (hlaws z hz).2 [y, x] hplace
  obtain ⟨plain, hplain⟩ := ((check_tallies_lawful hm hflat).2 hdepth).2 kept hkept
  exact ⟨m, p, flat, x, y, z, hm, hp, hflat, hz, hplace, hdepth, hterminates,
    ⟨verdict', hcheck, htallies, hentries, (hresets rfl).trans (hdue _)⟩, kept, plain, hkept, hplain⟩

end Check

end ModalMu
