import ModalMu.Evaluation.Run
import ModalMu.Proofs.Semantics

/-!
# Evaluation over regions

`Formula.evaluate` evaluates with plain sets of states: it keeps a value for every slot and leaves out
the flags, the tallies and the log. An evaluation whose cells hold the values of a valuation goes the
same way: it gives the region, and leaves the values, that `evaluate` gives, and it diverges where
`evaluate` has no result (`evalFormula_agrees`). No other fault is possible.
-/

namespace ModalMu

namespace Formula

variable {m : TransitionSystem}

/-- The slots of the fixed points of a kind inside which a variable out of `opened` is used. -/
def affected (k : FixKind) (opened : List Nat) (f : Formula) : List Nat :=
  (f.table.filter fun b => b.kind = k ∧ ∃ j ∈ b.occurrences, j ∈ opened).map (·.slot)

theorem mem_affected {f : Formula} {k : FixKind} {opened : List Nat} {j : Nat} :
    j ∈ f.affected k opened ↔
      ∃ b ∈ f.table, (b.kind = k ∧ ∃ o ∈ b.occurrences, o ∈ opened) ∧ b.slot = j := by
  simp [affected, and_assoc]

/-- The values after some slots were reset. -/
def Valuation.reset (v : Valuation m) (k : FixKind) (slots : List Nat) : Valuation m :=
  fun j => if j ∈ slots then k.bottom else v j

/-- The values with which the rounds of a fixed point begin. -/
def onEntry (policy : ResetPolicy) (k : FixKind) (x : Char) (i : Nat) (f : Formula)
    (around : Option FixKind) (opened : List Nat) (v : Valuation m) : Valuation m :=
  match policy with
  | .never => v
  | .always => v.reset k [i]
  | .alternation =>
    if around = some k.opposite then v.reset k ((fix k x i f).affected k opened) else v

/-- An evaluation of some formula: its region, and the values afterwards. -/
abbrev Pass (m : TransitionSystem) : Type := Valuation m → Option (m.Region × Valuation m)

open Classical in
/-- Rounds of a fixed point, until one gives the region of the round before it. -/
noncomputable def iterate (i : Nat) (body : Pass m) :
    (limit : Nat) → (previous current : m.Region) → Pass m
  | 0, _, _, _ => none
  | limit + 1, previous, current, v => do
    let (next, v) ← body (Function.update v i current)
    if next = previous then some (next, Function.update v i next)
    else iterate i body limit next next v

/-- The region of a formula below the fixed points `opened`, the innermost of kind `around`, with at
most `limit` rounds per entry. -/
noncomputable def evaluate (m : TransitionSystem) (policy : ResetPolicy) (limit : Nat) :
    Formula → (around : Option FixKind) → (opened : List Nat) → Pass m
  | top, _, _, v => some (Set.univ, v)
  | bot, _, _, v => some (∅, v)
  | and l r, around, opened, v => do
    let (S, v) ← l.evaluate m policy limit around opened v
    let (T, v) ← r.evaluate m policy limit around opened v
    some (S ∩ T, v)
  | or l r, around, opened, v => do
    let (S, v) ← l.evaluate m policy limit around opened v
    let (T, v) ← r.evaluate m policy limit around opened v
    some (S ∪ T, v)
  | not f, around, opened, v => do
    let (S, v) ← f.evaluate m policy limit around opened v
    some (Sᶜ, v)
  | diamond a f, around, opened, v => do
    let (S, v) ← f.evaluate m policy limit around opened v
    some (m.before a S, v)
  | box a f, around, opened, v => do
    let (S, v) ← f.evaluate m policy limit around opened v
    some (m.within a S, v)
  | fix k x i f, around, opened, v =>
    let v := onEntry policy k x i f around opened v
    iterate i (f.evaluate m policy limit (some k) (i :: opened)) limit k.opposite.bottom (v i) v
  | var _ i, _, _, v => some (v i, v)

@[simp] theorem Valuation.reset_nil (v : Valuation m) (k : FixKind) : v.reset k [] = v := by
  funext j
  simp [reset]

theorem Valuation.reset_cons (v : Valuation m) (k : FixKind) (i : Nat) (slots : List Nat) :
    v.reset k (i :: slots) = (v.reset k [i]).reset k slots := by
  funext j
  by_cases hj : j ∈ slots
  · simp [reset, hj]
  · simp [reset, hj]

theorem Valuation.reset_singleton (v : Valuation m) (k : FixKind) (i : Nat) :
    v.reset k [i] = Function.update v i k.bottom := by
  funext j
  simp [reset, Function.update_apply]

/-- The fixed points of the formula have the entries in the table of the sentence that their place in
the formula calls for, and all variables are in the table. -/
structure Declared (f : Formula) (p : Sentence) : Prop where
  binders : ∀ b ∈ f.table, p.binders[b.slot]? = some b
  occurrences : ∀ i ∈ f.occurrences, i < p.binders.size

namespace Declared

variable {p : Sentence} {l r f : Formula} {k : FixKind} {x : Char} {i : Nat}

theorem body (h : (fix k x i f).Declared p) : f.Declared p where
  binders b hb := h.binders b (List.mem_cons_of_mem _ hb)
  occurrences := h.occurrences

theorem of_append (htable : f.table = l.table ++ r.table)
    (hoccurrences : f.occurrences = l.occurrences ++ r.occurrences) (h : f.Declared p) :
    l.Declared p ∧ r.Declared p := by
  obtain ⟨hb, ho⟩ := h
  rw [htable] at hb
  rw [hoccurrences] at ho
  exact ⟨⟨fun b h => hb b (List.mem_append_left _ h), fun i h => ho i (List.mem_append_left _ h)⟩,
    ⟨fun b h => hb b (List.mem_append_right _ h), fun i h => ho i (List.mem_append_right _ h)⟩⟩

theorem getElem?_slot (h : (fix k x i f).Declared p) :
    p.binders[i]? = some ⟨x, k, i, f.slots, f.occurrences⟩ :=
  h.binders ⟨x, k, i, f.slots, f.occurrences⟩ List.mem_cons_self

theorem slot_lt (h : (fix k x i f).Declared p) : i < p.binders.size :=
  (Array.getElem?_eq_some_iff.1 h.getElem?_slot).1

end Declared

theorem occurrences_subset_of_mem_table {f : Formula} {b : Binder} (hb : b ∈ f.table) {j : Nat}
    (hj : j ∈ b.occurrences) : j ∈ f.occurrences := by
  induction f with
  | top | bot | var => simp [table] at hb
  | and l r ihl ihr | or l r ihl ihr =>
    rcases List.mem_append.1 hb with hb | hb
    · exact List.mem_append_left _ (ihl hb)
    · exact List.mem_append_right _ (ihr hb)
  | not f ih | diamond a f ih | box a f ih => exact ih hb
  | fix k x i f ih =>
    rcases List.mem_cons.1 hb with rfl | hb
    · exact hj
    · exact ih hb

end Formula

/-- The root of a well formed sentence is declared by its table. -/
theorem Sentence.WellFormed.declared {p : Sentence} (h : p.WellFormed) : p.root.Declared p where
  binders _ hb := h.getElem?_binders hb
  occurrences i hi := by
    rcases Formula.mem_free_or_mem_slots hi with hi | hi
    · simp [h.free_eq_nil] at hi
    · simpa [h.slots] using hi

namespace Evaluation

/-! ## Cells that hold a valuation -/

/-- The cells hold the values of `v`, and the flags are up for the slots in `opened`, which matters only
where resets look at them. -/
structure Tracks (e : Evaluation) (job : Job) (opened : List Nat)
    (v : Formula.Valuation job.system) : Prop where
  size : e.cells.size = job.sentence.binders.size
  value : ∀ (i : Nat) (c : Cell), e.cells[i]? = some c → c.value.Represents job.system.carrier (v i)
  isOpen : job.policy = .alternation →
    ∀ (i : Nat) (c : Cell), e.cells[i]? = some c → (c.isOpen = true ↔ i ∈ opened)

variable {job : Job} {e : Evaluation} {opened opened' : List Nat} {v : Formula.Valuation job.system}

theorem Tracks.record (he : e.Tracks job opened v) (event : Event) :
    (e.record event).Tracks job opened v := ⟨he.size, he.value, he.isOpen⟩

theorem Tracks.cell (he : e.Tracks job opened v) {i : Nat} (hi : i < job.sentence.binders.size) :
    ∃ c, e.cell i = .ok c ∧ e.cells[i]? = some c := by
  rw [← he.size] at hi
  have hc := Array.getElem?_eq_getElem hi
  exact ⟨e.cells[i], Fault.lookup_eq_ok_iff.2 hc, hc⟩

theorem Tracks.value_eq_ok (he : e.Tracks job opened v) {i : Nat}
    (hi : i < job.sentence.binders.size) :
    ∃ s, e.value i = .ok s ∧ s.Represents job.system.carrier (v i) := by
  obtain ⟨c, hcell, hc⟩ := he.cell hi
  exact ⟨c.value, by rw [Evaluation.value, hcell]; rfl, he.value i c hc⟩

/-- One cell changes its value and its flag. -/
theorem Tracks.update (he : e.Tracks job opened v) {i : Nat} {g : Cell → Cell} {S : job.system.Region}
    (hvalue : ∀ c, e.cells[i]? = some c → (g c).value.Represents job.system.carrier S)
    (hopen : job.policy = .alternation → ∀ c, e.cells[i]? = some c →
      ((g c).isOpen = true ↔ i ∈ opened'))
    (hrest : ∀ j, j ≠ i → (j ∈ opened' ↔ j ∈ opened)) :
    (e.update i g).Tracks job opened' (Function.update v i S) where
  size := by rw [Evaluation.update, Array.size_modify, he.size]
  value j c hc := by
    rw [Evaluation.update, Array.getElem?_modify] at hc
    split at hc
    · next hij =>
      subst hij
      obtain ⟨d, hd, rfl⟩ := Option.map_eq_some_iff.1 hc
      rw [Function.update_self]
      exact hvalue d hd
    · next hij =>
      rw [Function.update_of_ne (Ne.symm hij)]
      exact he.value j c hc
  isOpen hpolicy j c hc := by
    rw [Evaluation.update, Array.getElem?_modify] at hc
    split at hc
    · next hij =>
      subst hij
      obtain ⟨d, hd, rfl⟩ := Option.map_eq_some_iff.1 hc
      exact hopen hpolicy d hd
    · next hij =>
      rw [hrest j (Ne.symm hij)]
      exact he.isOpen hpolicy j c hc

/-- A change of a cell that leaves its flag alone. -/
theorem Tracks.set_value (he : e.Tracks job opened v) {i : Nat} {g : Cell → Cell}
    {S : job.system.Region} (hflag : ∀ c, (g c).isOpen = c.isOpen)
    (hvalue : ∀ c, e.cells[i]? = some c → (g c).value.Represents job.system.carrier S) :
    (e.update i g).Tracks job opened (Function.update v i S) := by
  refine he.update hvalue (fun hpolicy c hc => ?_) fun _ _ => Iff.rfl
  rw [hflag]
  exact he.isOpen hpolicy i c hc

/-- A change of a cell that leaves its value alone. -/
theorem Tracks.set_flag (he : e.Tracks job opened v) {i : Nat} {g : Cell → Cell}
    (hvalue : ∀ c, (g c).value = c.value)
    (hopen : ∀ c, e.cells[i]? = some c → ((g c).isOpen = true ↔ i ∈ opened'))
    (hrest : ∀ j, j ≠ i → (j ∈ opened' ↔ j ∈ opened)) : (e.update i g).Tracks job opened' v := by
  have h := he.update (S := v i) (fun c hc => (hvalue c).symm ▸ he.value i c hc)
    (fun _ => hopen) hrest
  rwa [Function.update_eq_self] at h

/-! ## Resets -/

theorem represents_extreme (u : Universe) (k : FixKind) :
    (k.extreme u).Represents u k.bottom := by
  cases k
  · exact StateSet.represents_none u
  · exact StateSet.represents_all u

theorem represents_reset {u : Universe} {s : StateSet} {S : Set (Fin u.size)}
    (hs : s.Represents u S) (k : FixKind) : (k.reset s).Represents u k.bottom := by
  cases k
  · exact hs.clear
  · exact hs.fill

theorem Tracks.resetCell (he : e.Tracks job opened v) (k : FixKind) {i : Nat}
    (hi : i < job.sentence.binders.size) :
    ∃ e', e.resetCell k i = .ok e' ∧ e'.Tracks job opened (v.reset k [i]) := by
  obtain ⟨c, hcell, -⟩ := (he.record (.reset i k)).cell hi
  refine ⟨_, by rw [Evaluation.resetCell, hcell]; rfl, ?_⟩
  rw [Formula.Valuation.reset_singleton]
  exact (he.record (.reset i k)).set_value (fun _ => rfl)
    fun c hc => represents_reset ((he.record _).value i c hc) k

/-- A search through slots that have flags. -/
theorem Tracks.anyM_isOpen (he : e.Tracks job opened v) (hpolicy : job.policy = .alternation)
    {slots : List Nat} (hslots : ∀ j ∈ slots, j < job.sentence.binders.size) :
    slots.anyM e.isOpen = .ok (decide (∃ j ∈ slots, j ∈ opened)) := by
  induction slots with
  | nil => rfl
  | cons j slots ih =>
    obtain ⟨c, hcell, hc⟩ := he.cell (hslots j List.mem_cons_self)
    have hrest := ih fun j hj => hslots j (List.mem_cons_of_mem _ hj)
    have hj := he.isOpen hpolicy j c hc
    have hopen : e.isOpen j = .ok c.isOpen := by rw [Evaluation.isOpen, hcell]; rfl
    rw [List.anyM, hopen, hrest]
    cases hflag : c.isOpen with
    | true => simp [hj.1 hflag, pure, Except.pure, bind, Except.bind]
    | false =>
      have hnot : j ∉ opened := fun h => by simp [hj.2 h] at hflag
      simp [hnot, bind, Except.bind]

theorem Tracks.resetIfAffected (he : e.Tracks job opened v) (hpolicy : job.policy = .alternation)
    (k : FixKind) {b : Binder} (hb : job.sentence.binders[b.slot]? = some b)
    (hoccurrences : ∀ j ∈ b.occurrences, j < job.sentence.binders.size) :
    ∃ e', resetIfAffected job k e b.slot = .ok e' ∧
      e'.Tracks job opened (if b.kind = k ∧ ∃ j ∈ b.occurrences, j ∈ opened
        then v.reset k [b.slot] else v) := by
  unfold Evaluation.resetIfAffected
  rw [Fault.lookup_eq_ok_iff.2 hb]
  show ∃ e', (if b.kind = k then _ else _) = _ ∧ _
  by_cases hkind : b.kind = k
  · rw [if_pos hkind, he.anyM_isOpen hpolicy hoccurrences]
    show ∃ e', (if decide (∃ j ∈ b.occurrences, j ∈ opened) = true then _ else _) = _ ∧ _
    by_cases hopen : ∃ j ∈ b.occurrences, j ∈ opened
    · rw [if_pos (decide_eq_true hopen), if_pos ⟨hkind, hopen⟩]
      exact he.resetCell k (Array.getElem?_eq_some_iff.1 hb).1
    · rw [if_neg (by simpa using hopen), if_neg fun h => hopen h.2]
      exact ⟨e, rfl, he⟩
  · rw [if_neg hkind, if_neg fun h => hkind h.1]
    exact ⟨e, rfl, he⟩

/-- The loop over the slots of a fixed point resets the affected ones. -/
theorem Tracks.foldlM_resetIfAffected (he : e.Tracks job opened v)
    (hpolicy : job.policy = .alternation) (k : FixKind) {f : Formula}
    (hf : f.Declared job.sentence) :
    ∃ e', f.slots.foldlM (Evaluation.resetIfAffected job k) e = .ok e' ∧
      e'.Tracks job opened (v.reset k (f.affected k opened)) := by
  have hdeclared : ∀ b ∈ f.table, job.sentence.binders[b.slot]? = some b ∧
      ∀ j ∈ b.occurrences, j < job.sentence.binders.size := fun b hb =>
    ⟨hf.binders b hb, fun j hj =>
      hf.occurrences j (Formula.occurrences_subset_of_mem_table hb hj)⟩
  rw [← Formula.map_slot_table, Formula.affected]
  generalize f.table = bs at hdeclared
  induction bs generalizing e v with
  | nil => exact ⟨e, rfl, by simpa using he⟩
  | cons b bs ih =>
    obtain ⟨hb, hoccurrences⟩ := hdeclared b List.mem_cons_self
    obtain ⟨e₁, hstep, he₁⟩ := he.resetIfAffected hpolicy k hb hoccurrences
    obtain ⟨e₂, hrest, he₂⟩ := ih he₁ fun b hb => hdeclared b (List.mem_cons_of_mem _ hb)
    refine ⟨e₂, ?_, ?_⟩
    · rw [List.map_cons, List.foldlM_cons, hstep]
      exact hrest
    · by_cases haffected : b.kind = k ∧ ∃ j ∈ b.occurrences, j ∈ opened
      · rw [List.filter_cons_of_pos (by simpa using haffected), List.map_cons,
          Formula.Valuation.reset_cons]
        rwa [if_pos haffected] at he₂
      · rw [List.filter_cons_of_neg (by simpa using haffected)]
        rwa [if_neg haffected] at he₂

theorem Tracks.resetOnEntry (he : e.Tracks job opened v) {k : FixKind} {x : Char} {i : Nat}
    {f : Formula} (hf : (Formula.fix k x i f).Declared job.sentence) (around : Option FixKind) :
    ∃ e', resetOnEntry job k i around e = .ok e' ∧
      e'.Tracks job opened (Formula.onEntry job.policy k x i f around opened v) := by
  unfold Evaluation.resetOnEntry Formula.onEntry
  cases hpolicy : job.policy with
  | never => exact ⟨e, rfl, he⟩
  | always => exact he.resetCell k hf.slot_lt
  | alternation =>
    dsimp only
    by_cases haround : around = some k.opposite
    · rw [if_pos haround, if_pos haround, Fault.lookup_eq_ok_iff.2 hf.getElem?_slot]
      exact he.foldlM_resetIfAffected hpolicy k hf
    · rw [if_neg haround, if_neg haround]
      exact ⟨e, rfl, he⟩

theorem Tracks.enter (he : e.Tracks job opened v) {k : FixKind} {x : Char} {i : Nat} {f : Formula}
    (hf : (Formula.fix k x i f).Declared job.sentence) (around : Option FixKind) :
    ∃ e', enter job k x i around e = .ok e' ∧
      e'.Tracks job opened (Formula.onEntry job.policy k x i f around opened v) := by
  have hrecord := he.record (.entered k x i around)
  obtain ⟨c, hcell, -⟩ := hrecord.cell hf.slot_lt
  dsimp only [Evaluation.enter]
  rw [hcell]
  have hcount : ((e.record (.entered k x i around)).update i fun c =>
      { c with tally := c.tally.enter }).Tracks job opened v := by
    have h := hrecord.set_value (i := i) (g := fun c => { c with tally := c.tally.enter })
      (S := v i) (fun _ => rfl) (hrecord.value i)
    rwa [Function.update_eq_self] at h
  exact hcount.resetOnEntry hf around

/-! ## Rounds and formulas -/

/-- The outcomes on cells and on regions say the same. -/
inductive Agrees (job : Job) (opened : List Nat) : Except Fault (StateSet × Evaluation) →
    Option (job.system.Region × Formula.Valuation job.system) → Prop
  | ok {s : StateSet} {e : Evaluation} {S : job.system.Region} {v : Formula.Valuation job.system}
      (hs : s.Represents job.system.carrier S) (he : e.Tracks job opened v) :
      Agrees job opened (.ok (s, e)) (some (S, v))
  | divergence : Agrees job opened (.error .divergence) none

theorem Agrees.bind {x : Except Fault (StateSet × Evaluation)}
    {y : Option (job.system.Region × Formula.Valuation job.system)}
    {g : StateSet × Evaluation → Except Fault (StateSet × Evaluation)}
    {h : job.system.Region × Formula.Valuation job.system →
      Option (job.system.Region × Formula.Valuation job.system)}
    (hxy : Agrees job opened x y)
    (hgh : ∀ s e S v, s.Represents job.system.carrier S → e.Tracks job opened v →
      Agrees job opened' (g (s, e)) (h (S, v))) :
    Agrees job opened' (x >>= g) (y >>= h) := by
  cases hxy with
  | ok hs he => exact hgh _ _ _ _ hs he
  | divergence => exact .divergence

theorem Agrees.of_ok {s : StateSet} {y : Option (job.system.Region × Formula.Valuation job.system)}
    (h : Agrees job opened (.ok (s, e)) y) :
    ∃ S v, y = some (S, v) ∧ s.Represents job.system.carrier S ∧ e.Tracks job opened v := by
  cases h with
  | ok hs he => exact ⟨_, _, rfl, hs, he⟩

theorem Agrees.of_some {x : Except Fault (StateSet × Evaluation)} {S : job.system.Region}
    (h : Agrees job opened x (some (S, v))) :
    ∃ s e, x = .ok (s, e) ∧ s.Represents job.system.carrier S ∧ e.Tracks job opened v := by
  cases h with
  | ok hs he => exact ⟨_, _, rfl, hs, he⟩

section Rounds

variable {k : FixKind} {x : Char} {i : Nat} {body : Action} {pass : Formula.Pass job.system}

theorem Tracks.round_agrees (he : e.Tracks job opened v) (hi : i ∉ opened)
    (hbody : ∀ e v, e.Tracks job (i :: opened) v → Agrees job (i :: opened) (body e) (pass v))
    (number : Nat) {current : StateSet} {C : job.system.Region}
    (hcurrent : current.Represents job.system.carrier C) :
    Agrees job opened (round k x i body number current e) (pass (Function.update v i C)) := by
  have hraise : (e.update i fun c => { c with value := current, isOpen := true }).Tracks job
      (i :: opened) (Function.update v i C) :=
    he.update (fun _ _ => hcurrent) (fun _ _ _ => by simp) fun j hj => by simp [hj]
  rw [← Option.bind_fun_some (pass (Function.update v i C))]
  refine (hbody _ _ hraise).bind fun next e₁ N v₁ hnext he₁ => .ok hnext ?_
  have hlower : (e₁.update i fun c => { c with isOpen := false }).Tracks job opened v₁ :=
    he₁.set_flag (fun _ => rfl) (fun _ _ => by simp [hi]) fun j hj => by simp [hj]
  exact hlower.record _

/-- Rounds on cells go as rounds on regions do. -/
theorem Tracks.rounds_agrees (he : e.Tracks job opened v) (hi : i ∉ opened)
    (hbody : ∀ e v, e.Tracks job (i :: opened) v → Agrees job (i :: opened) (body e) (pass v))
    (limit number : Nat) {previous current : StateSet} {P C : job.system.Region}
    (hprevious : previous.Represents job.system.carrier P)
    (hcurrent : current.Represents job.system.carrier C) :
    Agrees job opened (rounds k x i body limit number previous current e)
      (Formula.iterate i pass limit P C v) := by
  induction limit generalizing e v number previous current P C with
  | zero => exact .divergence
  | succ limit ih =>
    refine (he.round_agrees hi hbody number hcurrent).bind fun next e₁ N v₁ hnext he₁ => ?_
    obtain ⟨same, hequal, hsame⟩ := hnext.equal hprevious
    dsimp only
    rw [hequal]
    show Agrees job opened (if same = true then _ else _) _
    by_cases hstable : N = P
    · rw [if_pos (hsame.2 hstable), if_pos hstable]
      exact .ok hnext ((he₁.record _).set_value (fun _ => rfl) fun _ _ => hnext)
    · rw [if_neg (fun h => hstable (hsame.1 h)), if_neg hstable]
      exact ih he₁ (number + 1) hnext hnext

end Rounds

/-- Evaluation on cells goes as evaluation on regions does. -/
theorem evalFormula_agrees (hm : job.system.Indexed) (limit : Nat) {f : Formula}
    (hf : f.Declared job.sentence) (hslots : f.slots.Nodup) (hopened : ∀ i ∈ f.slots, i ∉ opened)
    (around : Option FixKind) (he : e.Tracks job opened v) :
    Agrees job opened (evalFormula job limit f around e)
      (f.evaluate job.system job.policy limit around opened v) := by
  induction f generalizing opened around e v with
  | top => exact .ok (StateSet.represents_all _) he
  | bot => exact .ok (StateSet.represents_none _) he
  | var x i =>
    obtain ⟨s, hvalue, hs⟩ := he.value_eq_ok (hf.occurrences i List.mem_cons_self)
    rw [evalFormula, hvalue]
    exact .ok hs he
  | and l r ihl ihr =>
    obtain ⟨hl, hr⟩ := hf.of_append rfl rfl
    obtain ⟨hslotsl, hslotsr, -⟩ := List.nodup_append.1 hslots
    refine (ihl hl hslotsl (fun i hi => hopened i (List.mem_append_left _ hi)) around he).bind
      fun s e₁ S v₁ hs he₁ => ?_
    refine (ihr hr hslotsr (fun i hi => hopened i (List.mem_append_right _ hi)) around he₁).bind
      fun t e₂ T v₂ ht he₂ => ?_
    obtain ⟨both, hinter, hboth⟩ := hs.inter ht
    dsimp only
    rw [hinter]
    exact .ok hboth he₂
  | or l r ihl ihr =>
    obtain ⟨hl, hr⟩ := hf.of_append rfl rfl
    obtain ⟨hslotsl, hslotsr, -⟩ := List.nodup_append.1 hslots
    refine (ihl hl hslotsl (fun i hi => hopened i (List.mem_append_left _ hi)) around he).bind
      fun s e₁ S v₁ hs he₁ => ?_
    refine (ihr hr hslotsr (fun i hi => hopened i (List.mem_append_right _ hi)) around he₁).bind
      fun t e₂ T v₂ ht he₂ => ?_
    obtain ⟨either, hunion, heither⟩ := hs.union ht
    dsimp only
    rw [hunion]
    exact .ok heither he₂
  | not f ih =>
    exact (ih ⟨hf.binders, hf.occurrences⟩ hslots hopened around he).bind
      fun s e₁ S v₁ hs he₁ => .ok hs.complement he₁
  | diamond a f ih =>
    refine (ih ⟨hf.binders, hf.occurrences⟩ hslots hopened around he).bind
      fun s e₁ S v₁ hs he₁ => ?_
    obtain ⟨r, hdiamond, hr⟩ := TransitionSystem.diamond_eq_ok hm a hs
    dsimp only
    rw [hdiamond]
    exact .ok hr he₁
  | box a f ih =>
    refine (ih ⟨hf.binders, hf.occurrences⟩ hslots hopened around he).bind
      fun s e₁ S v₁ hs he₁ => ?_
    obtain ⟨r, hboxed, hr⟩ := TransitionSystem.boxed_eq_ok hm a hs
    dsimp only
    rw [hboxed]
    exact .ok hr he₁
  | fix k x i f ih =>
    obtain ⟨hi, hnodup⟩ := List.nodup_cons.1 hslots
    obtain ⟨e₁, henter, he₁⟩ := he.enter hf around
    obtain ⟨current, hvalue, hcurrent⟩ := he₁.value_eq_ok hf.slot_lt
    rw [evalFormula, henter]
    show Agrees job opened (e₁.value i >>= _) _
    rw [hvalue]
    have hbody : ∀ e v, e.Tracks job (i :: opened) v →
        Agrees job (i :: opened) (evalFormula job limit f (some k) e)
          (f.evaluate job.system job.policy limit (some k) (i :: opened) v) := by
      intro e v he
      refine ih hf.body hnodup (fun j hj => ?_) (some k) he
      rw [List.mem_cons, not_or]
      exact ⟨ne_of_mem_of_not_mem hj hi, hopened j (List.mem_cons_of_mem _ hj)⟩
    exact he₁.rounds_agrees (hopened i List.mem_cons_self) hbody limit 1
      (represents_extreme _ k.opposite) hcurrent

end Evaluation

end ModalMu
