import ModalMu.Proofs.Binding
import ModalMu.Proofs.Execution

/-!
# The limit on rounds

A result reached with a limit on the rounds per entry is reached with every higher one
(`evalFormula_of_le`), and on the way to it no entry took more rounds than the limit
(`evalFormula_within`). So a result with a limit that is lower than the one of `eval` is the result of
`eval`, and bounds its rounds.
-/

namespace ModalMu

/-- No round that is told of has a number above the limit. -/
def Event.Within (limit : Nat) : Event → Prop
  | round _ _ number _ => number ≤ limit
  | converged _ _ rounds _ => rounds ≤ limit
  | _ => True

namespace Evaluation

variable {job : Job} {e e' e₁ e₂ e₃ : Evaluation} {limit limit' : Nat}

/-! ## A higher limit -/

theorem rounds_of_le {k : FixKind} {x : Char} {i : Nat} {body body' : Action}
    (hbody : ∀ e r, body e = .ok r → body' e = .ok r) {number : Nat} {previous current : StateSet}
    {r : StateSet × Evaluation} (h : rounds k x i body limit number previous current e = .ok r)
    (hle : limit ≤ limit') : rounds k x i body' limit' number previous current e = .ok r := by
  induction limit generalizing limit' number previous current e with
  | zero => simp [rounds] at h
  | succ limit ih =>
    obtain ⟨limit', rfl⟩ : ∃ n, limit' = n + 1 := ⟨limit' - 1, by omega⟩
    obtain ⟨⟨next, e₁⟩, hround, h⟩ := bind_eq_ok_iff.1 h
    obtain ⟨⟨next', e₂⟩, hnext, hrest⟩ := bind_eq_ok_iff.1 hround
    have hround' : round k x i body' number current e = .ok (next, e₁) :=
      bind_eq_ok_iff.2 ⟨(next', e₂), hbody _ _ hnext, hrest⟩
    obtain ⟨stable, hstable, h⟩ := bind_eq_ok_iff.1 h
    refine bind_eq_ok_iff.2 ⟨(next, e₁), hround', bind_eq_ok_iff.2 ⟨stable, hstable, ?_⟩⟩
    cases stable with
    | true => exact h
    | false => exact ih h (by omega)

/-- Results are kept when the limit is raised. -/
theorem evalFormula_of_le {f : Formula} {around : Option FixKind} {r : StateSet × Evaluation}
    (h : evalFormula job limit f around e = .ok r) (hle : limit ≤ limit') :
    evalFormula job limit' f around e = .ok r := by
  induction f generalizing around e r with
  | top | bot | var => exact h
  | and l r ihl ihr | or l r ihl ihr =>
    obtain ⟨⟨s, e₁⟩, hl, h⟩ := bind_eq_ok_iff.1 h
    obtain ⟨⟨t, e₂⟩, hr, h⟩ := bind_eq_ok_iff.1 h
    exact bind_eq_ok_iff.2 ⟨(s, e₁), ihl hl, bind_eq_ok_iff.2 ⟨(t, e₂), ihr hr, h⟩⟩
  | not f ih | diamond a f ih | box a f ih =>
    obtain ⟨⟨s, e₁⟩, hf, h⟩ := bind_eq_ok_iff.1 h
    exact bind_eq_ok_iff.2 ⟨(s, e₁), ih hf, h⟩
  | fix k x i f ih =>
    obtain ⟨e₁, henter, h⟩ := bind_eq_ok_iff.1 h
    obtain ⟨current, hcurrent, h⟩ := bind_eq_ok_iff.1 h
    exact bind_eq_ok_iff.2 ⟨e₁, henter, bind_eq_ok_iff.2 ⟨current, hcurrent,
      rounds_of_le (fun _ _ h => ih h) h hle⟩⟩

/-- Without fixed points the limit does not matter. -/
theorem evalFormula_eq_of_slots_eq_nil {f : Formula} (hf : f.slots = []) (around : Option FixKind)
    (e : Evaluation) : evalFormula job limit f around e = evalFormula job limit' f around e := by
  induction f generalizing around e with
  | top | bot | var => rfl
  | and l r ihl ihr | or l r ihl ihr =>
    obtain ⟨hl, hr⟩ := List.append_eq_nil_iff.1 hf
    simp only [evalFormula, ihl hl, ihr hr]
  | not f ih | diamond a f ih | box a f ih => simp only [evalFormula, ih hf]
  | fix => simp [Formula.slots] at hf

/-- Where there is a cell, the limit of `eval` is at least the number of states and one. -/
theorem numStates_lt_roundLimit (hcells : 0 < e.cells.size) :
    job.system.numStates + 1 ≤ roundLimit job e := by
  have hpow : job.system.numStates < 2 ^ (job.system.numStates * e.cells.size) :=
    calc job.system.numStates < 2 ^ job.system.numStates := Nat.lt_two_pow_self
      _ ≤ 2 ^ (job.system.numStates * e.cells.size) :=
        Nat.pow_le_pow_right (by omega) (Nat.le_mul_of_pos_right _ hcells)
  rw [roundLimit, Nat.pow_eq]
  omega

/-- A result with one round more than there are states is the result. -/
theorem eval_eq_ok {f : Formula} (hf : ∀ i ∈ f.slots, i < e.cells.size) {around : Option FixKind}
    {r : StateSet × Evaluation}
    (h : evalFormula job (job.system.numStates + 1) f around e = .ok r) :
    eval job f around e = .ok r := by
  cases hslots : f.slots with
  | nil => rw [eval, evalFormula_eq_of_slots_eq_nil hslots, h]
  | cons i slots =>
    have hi : i < e.cells.size := hf i (by rw [hslots]; exact List.mem_cons_self)
    exact evalFormula_of_le h (numStates_lt_roundLimit (by omega))

/-! ## Rounds per entry -/

/-- Between `e` and `e'` no entry of a fixed point took more than `limit` rounds: no event that was
added says so, and no tally that was higher before is above the limit. -/
structure Within (limit : Nat) (e e' : Evaluation) : Prop where
  log : ∃ added : List Event, e'.log.toList = e.log.toList ++ added ∧ ∀ a ∈ added, a.Within limit
  tally : ∀ (i : Nat) (c' : Cell), e'.cells[i]? = some c' →
    ∃ c, e.cells[i]? = some c ∧ c'.tally.maxRounds ≤ max c.tally.maxRounds limit

namespace Within

theorem refl (limit : Nat) (e : Evaluation) : Within limit e e where
  log := ⟨[], by simp, by simp⟩
  tally _ c hc := ⟨c, hc, Nat.le_max_left _ _⟩

theorem trans (h₁ : Within limit e₁ e₂) (h₂ : Within limit e₂ e₃) : Within limit e₁ e₃ where
  log := by
    obtain ⟨added₁, hlog₁, hadded₁⟩ := h₁.log
    obtain ⟨added₂, hlog₂, hadded₂⟩ := h₂.log
    refine ⟨added₁ ++ added₂, by rw [hlog₂, hlog₁, List.append_assoc], fun a ha => ?_⟩
    rcases List.mem_append.1 ha with ha | ha
    · exact hadded₁ a ha
    · exact hadded₂ a ha
  tally i c₃ hc₃ := by
    obtain ⟨c₂, hc₂, hle₂⟩ := h₂.tally i c₃ hc₃
    obtain ⟨c₁, hc₁, hle₁⟩ := h₁.tally i c₂ hc₂
    exact ⟨c₁, hc₁, by omega⟩

theorem record (h : Within limit e e') {a : Event} (ha : a.Within limit) :
    Within limit e (e'.record a) where
  log := by
    obtain ⟨added, hlog, hadded⟩ := h.log
    refine ⟨added ++ [a], by simp [Evaluation.record, hlog], fun b hb => ?_⟩
    rcases List.mem_append.1 hb with hb | hb
    · exact hadded b hb
    · rwa [List.mem_singleton.1 hb]
  tally := h.tally

theorem update (h : Within limit e e') {i : Nat} {g : Cell → Cell}
    (hg : ∀ c, (g c).tally.maxRounds ≤ max c.tally.maxRounds limit) :
    Within limit e (e'.update i g) where
  log := h.log
  tally j c' hc' := by
    rw [Evaluation.update, Array.getElem?_modify] at hc'
    split at hc'
    · obtain ⟨d, hd, rfl⟩ := Option.map_eq_some_iff.1 hc'
      obtain ⟨c, hc, hle⟩ := h.tally j d hd
      have := hg d
      exact ⟨c, hc, by omega⟩
    · exact h.tally j c' hc'

theorem foldlM {α : Type} {step : Evaluation → α → Except Fault Evaluation}
    (hstep : ∀ e a e', step e a = .ok e' → Within limit e e') {l : List α}
    (h : l.foldlM step e = .ok e') : Within limit e e' := by
  induction l generalizing e with
  | nil =>
    obtain rfl : e = e' := by simpa [pure, Except.pure] using h
    exact refl limit e
  | cons a l ih =>
    rw [List.foldlM_cons] at h
    obtain ⟨e₁, hfirst, hrest⟩ := bind_eq_ok_iff.1 h
    exact (hstep _ _ _ hfirst).trans (ih hrest)

end Within

theorem resetCell_within {k : FixKind} {i : Nat} (h : e.resetCell k i = .ok e') :
    Within limit e e' := by
  obtain ⟨c, -, h⟩ := bind_eq_ok_iff.1 h
  injection h with h
  subst h
  refine .update (.record (.refl limit e) ?_) fun c => ?_
  · trivial
  · exact Nat.le_max_left _ _

theorem resetIfAffected_within {k : FixKind} {i : Nat} (h : resetIfAffected job k e i = .ok e') :
    Within limit e e' := by
  obtain ⟨b, -, h⟩ := bind_eq_ok_iff.1 h
  split at h
  · obtain ⟨affected, -, h⟩ := bind_eq_ok_iff.1 h
    split at h
    · exact resetCell_within h
    · injection h with h
      exact h ▸ Within.refl limit e
  · injection h with h
    exact h ▸ Within.refl limit e

theorem enter_within {k : FixKind} {x : Char} {i : Nat} {around : Option FixKind}
    (h : enter job k x i around e = .ok e') : Within limit e e' := by
  obtain ⟨c, -, h⟩ := bind_eq_ok_iff.1 h
  have hcount : Within limit e ((e.record (.entered k x i around)).update i fun c =>
      { c with tally := c.tally.enter }) := by
    refine .update (.record (.refl limit e) ?_) fun c => ?_
    · trivial
    · exact Nat.le_max_left _ _
  refine hcount.trans ?_
  unfold resetOnEntry at h
  split at h
  · injection h with h
    exact h ▸ Within.refl limit _
  · exact resetCell_within h
  · split at h
    · obtain ⟨b, -, h⟩ := bind_eq_ok_iff.1 h
      exact Within.foldlM (fun _ _ _ => resetIfAffected_within) h
    · injection h with h
      exact h ▸ Within.refl limit _

theorem Turns.within {k : FixKind} {x : Char} {i n : Nat}
    {body : Evaluation → StateSet → Evaluation → Prop}
    (hbody : ∀ e s e', body e s e' → Within limit e e') (h : Turns body k x i e n e')
    (hn : n ≤ limit) : Within limit e e' := by
  induction h with
  | zero => exact .refl limit e
  | @succ n e₁ e₂ current next _ hnext ih =>
    have hraise : Within limit e₁ (e₁.raise i current) :=
      .update (.refl limit e₁) fun c => Nat.le_max_left _ _
    have hround : Within limit e e₂ :=
      ((ih (by omega)).trans hraise).trans (hbody _ _ _ hnext)
    refine .record (.update hround fun c => ?_) ?_
    · exact Nat.le_max_left _ _
    · show n + 1 ≤ limit
      omega

theorem leave_within {k : FixKind} {x : Char} {i n : Nat} {s : StateSet} (hn : n ≤ limit) :
    Within limit e (leave k x i n s e) := by
  refine .update (.record (.refl limit e) ?_) fun c => ?_
  · exact hn
  · show max c.tally.maxRounds n ≤ max c.tally.maxRounds limit
    omega

theorem compositional_within (job : Job) (limit : Nat) :
    Compositional job limit fun _ _ e _ e' => Within limit e e' where
  top _ e := .refl limit e
  bot _ e := .refl limit e
  var _ := .refl limit _
  and _ _ hl hr _ := hl.trans hr
  or _ _ hl hr _ := hl.trans hr
  not h := h
  diamond h _ := h
  box h _ := h
  fix henter _ hn hturns :=
    ((enter_within henter).trans (hturns.within (fun _ _ _ h => h.2) hn)).trans (leave_within hn)

/-- On the way to a result no entry takes more rounds than the limit. -/
theorem evalFormula_within {f : Formula} {around : Option FixKind} {s : StateSet}
    (h : evalFormula job limit f around e = .ok (s, e')) : Within limit e e' :=
  (compositional_within job limit).evalFormula h

end Evaluation

end ModalMu
