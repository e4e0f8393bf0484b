import ModalMu.Evaluation.Run

/-!
# What an evaluation goes through

An evaluation that gives a result has evaluated the parts of the formula one after the other, and a fixed
point has gone through a number of rounds. `Turns` describes these rounds. A relation between the
evaluations before and after a formula holds of every result if it is made up of what holds of the parts
(`Compositional.evalFormula`).
-/

namespace ModalMu

namespace Evaluation

variable {e e₀ e₁ e₂ e' : Evaluation} {k : FixKind} {x : Char} {i n : Nat} {s : StateSet}

/-- The evaluation in which the body of a fixed point is evaluated on the value `current`. -/
def raise (e : Evaluation) (i : Nat) (current : StateSet) : Evaluation :=
  e.update i fun c => { c with value := current, isOpen := true }

/-- The evaluation after the body, with the flag down again. -/
def lower (e : Evaluation) (i : Nat) : Evaluation :=
  e.update i fun c => { c with isOpen := false }

/-- A number of rounds that lead from `e` to another evaluation, if `body` relates the evaluations before
and after the body, with its set. -/
inductive Turns (body : Evaluation → StateSet → Evaluation → Prop) (k : FixKind) (x : Char) (i : Nat)
    (e : Evaluation) : Nat → Evaluation → Prop
  | zero : Turns body k x i e 0 e
  | succ {n : Nat} {e₁ e₂ : Evaluation} {current next : StateSet} (h : Turns body k x i e n e₁)
      (hbody : body (e₁.raise i current) next e₂) :
      Turns body k x i e (n + 1) ((e₂.lower i).record (.round k x (n + 1) next.size))

/-- Rounds that come to rest: some turns, and the exit from the fixed point. -/
theorem exists_turns_of_rounds {action : Action} {body : Evaluation → StateSet → Evaluation → Prop}
    (hbody : ∀ e s e', action e = .ok (s, e') → body e s e') {limit : Nat} {previous current : StateSet}
    (hturns : Turns body k x i e₀ n e)
    (h : rounds k x i action limit (n + 1) previous current e = .ok (s, e')) :
    ∃ m e₁, n < m ∧ m ≤ n + limit ∧ Turns body k x i e₀ m e₁ ∧ e' = leave k x i m s e₁ := by
  induction limit generalizing n previous current e with
  | zero => cases h
  | succ limit ih =>
    obtain ⟨⟨next, e₁⟩, hround, h⟩ := bind_eq_ok_iff.1 h
    obtain ⟨⟨next', e₂⟩, hnext, hround⟩ := bind_eq_ok_iff.1 hround
    cases hround
    have hturn : Turns body k x i e₀ (n + 1) ((e₂.lower i).record (.round k x (n + 1) next.size)) :=
      hturns.succ (hbody _ _ _ hnext)
    obtain ⟨stable, -, h⟩ := bind_eq_ok_iff.1 h
    cases stable with
    | true =>
      cases h
      exact ⟨n + 1, _, by omega, by omega, hturn, rfl⟩
    | false =>
      obtain ⟨m, e₃, hm, hle, hrest, hleave⟩ := ih hturn h
      exact ⟨m, e₃, by omega, by omega, hrest, hleave⟩

/-- A relation between a formula, the kind of the fixed point around it, and the evaluations before and
after it, with its set, that goes from the parts of a formula to the whole. What is known of a part is
that it was evaluated and that the relation holds of it. -/
structure Compositional (job : Job) (limit : Nat)
    (R : Formula → Option FixKind → Evaluation → StateSet → Evaluation → Prop) : Prop where
  top : ∀ around e, R .top around e (.all job.system.carrier) e
  bot : ∀ around e, R .bot around e (.none job.system.carrier) e
  var : ∀ {x i around e s}, e.value i = .ok s → R (.var x i) around e s e
  and : ∀ {l r around e e₁ e₂ s t both}, evalFormula job limit l around e = .ok (s, e₁) →
    evalFormula job limit r around e₁ = .ok (t, e₂) → R l around e s e₁ → R r around e₁ t e₂ →
    s.inter t = .ok both → R (.and l r) around e both e₂
  or : ∀ {l r around e e₁ e₂ s t either}, evalFormula job limit l around e = .ok (s, e₁) →
    evalFormula job limit r around e₁ = .ok (t, e₂) → R l around e s e₁ → R r around e₁ t e₂ →
    s.union t = .ok either → R (.or l r) around e either e₂
  not : ∀ {f around e e₁ s}, R f around e s e₁ → R (.not f) around e s.complement e₁
  diamond : ∀ {a f around e e₁ s t}, R f around e s e₁ → job.system.diamond a s = .ok t →
    R (.diamond a f) around e t e₁
  box : ∀ {a f around e e₁ s t}, R f around e s e₁ → job.system.boxed a s = .ok t →
    R (.box a f) around e t e₁
  fix : ∀ {k x i f around e e₁ e₂ n s}, enter job k x i around e = .ok e₁ → 0 < n → n ≤ limit →
    Turns (fun e s e' => evalFormula job limit f (some k) e = .ok (s, e') ∧ R f (some k) e s e')
      k x i e₁ n e₂ → R (.fix k x i f) around e s (leave k x i n s e₂)

/-- Such a relation holds of every result. -/
theorem Compositional.evalFormula {job : Job} {limit : Nat}
    {R : Formula → Option FixKind → Evaluation → StateSet → Evaluation → Prop}
    (hR : Compositional job limit R) {f : Formula} {around : Option FixKind}
    (h : evalFormula job limit f around e = .ok (s, e')) : R f around e s e' := by
  induction f generalizing around e s e' with
  | top =>
    cases h
    exact hR.top around e
  | bot =>
    cases h
    exact hR.bot around e
  | var x i =>
    obtain ⟨t, hvalue, h⟩ := bind_eq_ok_iff.1 h
    cases h
    exact hR.var hvalue
  | and l r ihl ihr =>
    obtain ⟨⟨t, e₁⟩, hl, h⟩ := bind_eq_ok_iff.1 h
    obtain ⟨⟨u, e₂⟩, hr, h⟩ := bind_eq_ok_iff.1 h
    obtain ⟨both, hboth, h⟩ := bind_eq_ok_iff.1 h
    cases h
    exact hR.and hl hr (ihl hl) (ihr hr) hboth
  | or l r ihl ihr =>
    obtain ⟨⟨t, e₁⟩, hl, h⟩ := bind_eq_ok_iff.1 h
    obtain ⟨⟨u, e₂⟩, hr, h⟩ := bind_eq_ok_iff.1 h
    obtain ⟨either, heither, h⟩ := bind_eq_ok_iff.1 h
    cases h
    exact hR.or hl hr (ihl hl) (ihr hr) heither
  | not f ih =>
    obtain ⟨⟨t, e₁⟩, hf, h⟩ := bind_eq_ok_iff.1 h
    cases h
    exact hR.not (ih hf)
  | diamond a f ih =>
    obtain ⟨⟨t, e₁⟩, hf, h⟩ := bind_eq_ok_iff.1 h
    obtain ⟨before, hbefore, h⟩ := bind_eq_ok_iff.1 h
    cases h
    exact hR.diamond (ih hf) hbefore
  | box a f ih =>
    obtain ⟨⟨t, e₁⟩, hf, h⟩ := bind_eq_ok_iff.1 h
    obtain ⟨before, hbefore, h⟩ := bind_eq_ok_iff.1 h
    cases h
    exact hR.box (ih hf) hbefore
  | fix k x i f ih =>
    obtain ⟨e₁, henter, h⟩ := bind_eq_ok_iff.1 h
    obtain ⟨current, -, h⟩ := bind_eq_ok_iff.1 h
    have hbody : ∀ e s e', Evaluation.evalFormula job limit f (some k) e = .ok (s, e') →
        Evaluation.evalFormula job limit f (some k) e = .ok (s, e') ∧ R f (some k) e s e' :=
      fun _ _ _ h => ⟨h, ih h⟩
    obtain ⟨n, e₂, hpos, hle, hturns, rfl⟩ := exists_turns_of_rounds hbody .zero h
    exact hR.fix henter hpos (by omega) hturns

end Evaluation

end ModalMu
