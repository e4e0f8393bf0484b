import Mathlib.Data.Fintype.BigOperators
import Mathlib.Data.Fintype.Powerset
import ModalMu.Proofs.KeptValues

/-!
# Divergence

The limit on rounds takes no result away: where some limit gives a result, the limit of `eval` gives it
(`eval_eq_ok_of_evalFormula`), and a check gives a verdict exactly if the job terminates
(`exists_check_iff_terminates`).

1. A round after the first one depends only on the values, and changes only those of the fixed point
   and of the fixed points inside it (`evaluate_frame`).
2. So rounds that come to rest go through as many valuations as there are rounds, no two of which come
   to rest after the same number of rounds (`Rests.exists_of_lt`).
3. There are no more valuations than ways to give every slot a region (`Rests.le_pow`).
-/

namespace ModalMu

namespace Formula

variable {m : TransitionSystem} {f : Formula} {k : FixKind} {x : Char} {i : Nat}
  {v w : Valuation m} {opened : List Nat} {policy : ResetPolicy} {around : Option FixKind}

/-! ## What a round changes -/

theorem frame_reset {slots : List Nat} (hslots : slots ⊆ f.slots) (k : FixKind) (v : Valuation m) :
    f.Frame v (v.reset k slots) := fun _ hj => if_neg fun hmem => hj (hslots hmem)

theorem frame_onEntry (policy : ResetPolicy) (k : FixKind) (x : Char) (i : Nat) (f : Formula)
    (around : Option FixKind) (opened : List Nat) (v : Valuation m) :
    (fix k x i f).Frame v (onEntry policy k x i f around opened v) := by
  unfold onEntry
  split
  · exact Frame.refl _ _
  · exact frame_reset (by simp [slots]) _ _
  · split
    · refine frame_reset (fun j hj => ?_) _ _
      obtain ⟨b, hb, -, rfl⟩ := mem_affected.1 hj
      exact mem_slots_of_mem_table hb
    · exact Frame.refl _ _

theorem iterate_frame {body : Pass m} (hbody : ∀ v S w, body v = some (S, w) → f.Frame v w)
    {limit : Nat} {previous current S : m.Region}
    (h : iterate i body limit previous current v = some (S, w)) : (fix k x i f).Frame v w := by
  induction limit generalizing previous current v with
  | zero => simp [iterate] at h
  | succ limit ih =>
    obtain ⟨⟨next, u⟩, hround, h⟩ := Option.bind_eq_some_iff.1 h
    have hu : (fix k x i f).Frame v u := (hbody _ _ _ hround).of_body
    dsimp only at h
    split at h
    · cases h
      exact hu.update _
    · exact hu.trans (ih h)

/-- Evaluation changes only the values of the fixed points inside the formula. -/
theorem evaluate_frame {limit : Nat} {S : m.Region}
    (h : f.evaluate m policy limit around opened v = some (S, w)) : f.Frame v w := by
  induction f generalizing around opened v w S with
  | top | bot | var =>
    cases h
    exact Frame.refl _ _
  | and l r ihl ihr | or l r ihl ihr =>
    obtain ⟨⟨S₁, u⟩, hl, h⟩ := Option.bind_eq_some_iff.1 h
    obtain ⟨⟨S₂, u₂⟩, hr, h⟩ := Option.bind_eq_some_iff.1 h
    cases h
    exact .of_append rfl (ihl hl) (ihr hr)
  | not f ih | diamond a f ih | box a f ih =>
    obtain ⟨⟨S₁, u⟩, hf, h⟩ := Option.bind_eq_some_iff.1 h
    cases h
    exact ih hf
  | fix k x i f ih =>
    exact (frame_onEntry policy k x i f around opened v).trans (iterate_frame (fun _ _ _ h => ih h) h)

/-! ## Rounds that come to rest -/

section Rounds

variable {body body' : Pass m} {limit limit' number number' : Nat} {previous current : m.Region}
  {r : m.Region × Valuation m}

/-- Results are kept when the limit is raised, here and in the body. -/
theorem iterate_of_le (hbody : ∀ v r, body v = some r → body' v = some r)
    (h : iterate i body limit previous current v = some r) (hle : limit ≤ limit') :
    iterate i body' limit' previous current v = some r := by
  induction limit generalizing limit' previous current v with
  | zero => simp [iterate] at h
  | succ limit ih =>
    obtain ⟨limit', rfl⟩ : ∃ n, limit' = n + 1 := ⟨limit' - 1, by omega⟩
    obtain ⟨⟨next, u⟩, hround, h⟩ := Option.bind_eq_some_iff.1 h
    refine Option.bind_eq_some_iff.2 ⟨(next, u), hbody _ _ hround, ?_⟩
    dsimp only at h ⊢
    split at h
    · next hstable => rwa [if_pos hstable]
    · next hstable => rw [if_neg hstable, ih h (by omega)]

/-- A round puts its value into the valuation itself, so it does not matter what is there before. -/
theorem iterate_update (limit : Nat) (previous current c : m.Region) (v : Valuation m) :
    iterate i body limit previous current (Function.update v i c) =
      iterate i body limit previous current v := by
  cases limit with
  | zero => rfl
  | succ limit => simp only [iterate, Function.update_idem]

/-- Rounds after the first one, seen from the valuation that the next round begins with. -/
theorem iterate_self (limit : Nat) (c : m.Region) (v : Valuation m) :
    iterate i body limit c c v = iterate i body limit (Function.update v i c i)
      (Function.update v i c i) (Function.update v i c) := by
  rw [iterate_update, Function.update_self]

/-- The rounds after the first one, each of which begins with the value in the valuation, come to rest
with this number of rounds, and with no smaller one. -/
def Rests (i : Nat) (body : Pass m) (number : Nat) (v : Valuation m) : Prop :=
  (∃ r, iterate i body number (v i) (v i) v = some r) ∧
    ∀ limit < number, iterate i body limit (v i) (v i) v = none

theorem Rests.unique (h : Rests i body number v) (h' : Rests i body number' v) :
    number = number' := by
  obtain ⟨⟨r, hr⟩, hnone⟩ := h
  obtain ⟨⟨r', hr'⟩, hnone'⟩ := h'
  rcases Nat.lt_trichotomy number number' with hlt | heq | hlt
  · simp [hnone' number hlt] at hr
  · exact heq
  · simp [hnone number' hlt] at hr'

theorem exists_rests (h : iterate i body limit (v i) (v i) v = some r) :
    ∃ number, Rests i body number v := by
  classical
  have hex : ∃ n, (iterate i body n (v i) (v i) v).isSome := ⟨limit, by simp [h]⟩
  refine ⟨Nat.find hex, Option.isSome_iff_exists.1 (Nat.find_spec hex), fun n hn => ?_⟩
  simpa using Nat.find_min hex hn

/-- One round that is not the last leads to a valuation with one round less to go. -/
theorem Rests.next (hbody : ∀ v S w, body v = some (S, w) → f.Frame v w)
    (h : Rests i body (number + 2) v) :
    ∃ w, (fix k x i f).Frame v w ∧ Rests i body (number + 1) w := by
  obtain ⟨⟨r, hr⟩, hnone⟩ := h
  obtain ⟨⟨S, u⟩, hround, -⟩ := Option.bind_eq_some_iff.1 hr
  -- A round that gives the value it begins with would be the only one.
  have hmoves : S ≠ v i := by
    intro hstable
    have hone := hnone 1 (by omega)
    rw [iterate, hround] at hone
    simp [hstable] at hone
  have hrest : ∀ limit, iterate i body (limit + 1) (v i) (v i) v =
      iterate i body limit (Function.update u i S i) (Function.update u i S i)
        (Function.update u i S) := by
    intro limit
    rw [← iterate_self, iterate, hround]
    exact if_neg hmoves
  have hu : (fix k x i f).Frame v u := (hbody _ _ _ hround).of_body
  refine ⟨Function.update u i S, hu.update S, ⟨r, ?_⟩, fun limit hlimit => ?_⟩
  · rw [← hrest, hr]
  · rw [← hrest, hnone (limit + 1) (by omega)]

/-- On the way to rest every smaller number of rounds is left once. -/
theorem Rests.exists_of_lt (hbody : ∀ v S w, body v = some (S, w) → f.Frame v w)
    (h : Rests i body number v) (hlt : number' < number) :
    ∃ w, (fix k x i f).Frame v w ∧ Rests i body (number' + 1) w := by
  induction number generalizing v with
  | zero => omega
  | succ number ih =>
    rcases Nat.eq_or_lt_of_le (Nat.le_of_lt_succ hlt) with rfl | hlt
    · exact ⟨v, Frame.refl _ v, h⟩
    · obtain ⟨number, rfl⟩ := Nat.exists_eq_add_one_of_ne_zero (Nat.ne_zero_of_lt hlt)
      obtain ⟨u, hu, h⟩ := h.next hbody
      obtain ⟨w, hw, hrests⟩ := ih h hlt
      exact ⟨w, hu.trans hw, hrests⟩

/-- The rounds are not more than the ways to give the slots regions: after equal values there are
equally many rounds to come. -/
theorem Rests.le_pow (hbody : ∀ v S w, body v = some (S, w) → f.Frame v w) {size : Nat}
    (hslots : ∀ j ∈ (fix k x i f).slots, j < size) (h : Rests i body number v) :
    number ≤ 2 ^ (m.numStates * size) := by
  classical
  have hvisited : ∀ n : Fin number, ∃ w, (fix k x i f).Frame v w ∧ Rests i body (n + 1) w :=
    fun n => h.exists_of_lt hbody n.isLt
  choose w hframe hrests using hvisited
  have hinjective : Function.Injective fun (n : Fin number) (j : Fin size) => w n j := by
    intro n n' hsame
    have hw : w n = w n' := by
      funext j
      by_cases hj : j < size
      · exact congrFun hsame ⟨j, hj⟩
      · have hj' : j ∉ (fix k x i f).slots := fun hmem => hj (hslots j hmem)
        rw [hframe n j hj', hframe n' j hj']
    have := (hrests n).unique (hw ▸ hrests n')
    omega
  calc number = Fintype.card (Fin number) := (Fintype.card_fin number).symm
    _ ≤ Fintype.card (Fin size → m.Region) := Fintype.card_le_of_injective _ hinjective
    _ = 2 ^ (m.numStates * size) := by
      rw [Fintype.card_fun, Fintype.card_set, Fintype.card_fin, Fintype.card_fin, ← Nat.pow_mul]
      rfl

/-- Rounds after the first one that come to rest do so within that number of rounds. -/
theorem iterate_self_of_pow_le (hbody : ∀ v S w, body v = some (S, w) → f.Frame v w) {size : Nat}
    (hslots : ∀ j ∈ (fix k x i f).slots, j < size)
    (h : iterate i body limit (v i) (v i) v = some r)
    (hlimit : 2 ^ (m.numStates * size) ≤ limit') :
    iterate i body limit' (v i) (v i) v = some r := by
  obtain ⟨number, hrests⟩ := exists_rests h
  have hle := hrests.le_pow hbody hslots
  obtain ⟨⟨r', hr'⟩, hnone⟩ := hrests
  have hnumber : number ≤ limit := by
    by_contra hlt
    simp [hnone limit (by omega)] at h
  rw [iterate_of_le (fun _ _ h => h) hr' hnumber] at h
  rw [← h]
  exact iterate_of_le (fun _ _ h => h) hr' (hle.trans hlimit)

/-- The first round is compared with another value, so it comes on top. -/
theorem iterate_of_pow_lt (hbody : ∀ v S w, body v = some (S, w) → f.Frame v w) {size : Nat}
    (hslots : ∀ j ∈ (fix k x i f).slots, j < size)
    (h : iterate i body limit previous current v = some r)
    (hlimit : 2 ^ (m.numStates * size) < limit') :
    iterate i body limit' previous current v = some r := by
  obtain ⟨limit', rfl⟩ := Nat.exists_eq_add_one_of_ne_zero (Nat.ne_zero_of_lt hlimit)
  cases limit with
  | zero => simp [iterate] at h
  | succ limit =>
    obtain ⟨⟨next, u⟩, hround, h⟩ := Option.bind_eq_some_iff.1 h
    refine Option.bind_eq_some_iff.2 ⟨(next, u), hround, ?_⟩
    dsimp only at h ⊢
    split at h
    · next hstable => rwa [if_pos hstable]
    · next hstable =>
      rw [if_neg hstable]
      rw [iterate_self] at h ⊢
      exact iterate_self_of_pow_le hbody hslots h (Nat.le_of_lt_succ hlimit)

end Rounds

/-- A result that any limit gives is given by a limit above the ways to give the slots regions. -/
theorem evaluate_of_pow_lt {size limit limit' : Nat} (hslots : ∀ j ∈ f.slots, j < size)
    {r : m.Region × Valuation m} (h : f.evaluate m policy limit around opened v = some r)
    (hlimit : 2 ^ (m.numStates * size) < limit') :
    f.evaluate m policy limit' around opened v = some r := by
  induction f generalizing around opened v r with
  | top | bot | var => exact h
  | and l r ihl ihr | or l r ihl ihr =>
    obtain ⟨⟨S, u⟩, hl, h⟩ := Option.bind_eq_some_iff.1 h
    obtain ⟨⟨T, w⟩, hr, h⟩ := Option.bind_eq_some_iff.1 h
    exact Option.bind_eq_some_iff.2 ⟨_, ihl (fun j hj => hslots j (List.mem_append_left _ hj)) hl,
      Option.bind_eq_some_iff.2 ⟨_, ihr (fun j hj => hslots j (List.mem_append_right _ hj)) hr, h⟩⟩
  | not f ih | diamond a f ih | box a f ih =>
    obtain ⟨⟨S, u⟩, hf, h⟩ := Option.bind_eq_some_iff.1 h
    exact Option.bind_eq_some_iff.2 ⟨_, ih hslots hf, h⟩
  | fix k x i f ih =>
    have hbody := iterate_of_le
      (fun _ _ h => ih (fun j hj => hslots j (List.mem_cons_of_mem _ hj)) h) h (Nat.le_refl limit)
    exact iterate_of_pow_lt (k := k) (x := x) (fun _ _ _ h => evaluate_frame h) hslots hbody hlimit

end Formula

namespace Evaluation

/-- The limit of `eval` takes no result away. -/
theorem eval_eq_ok_of_evalFormula {job : Job} {e : Evaluation} {opened : List Nat}
    {v : Formula.Valuation job.system} (hm : job.system.Indexed) {f : Formula}
    (hf : f.Declared job.sentence) (hslots : f.slots.Nodup) (hopened : ∀ i ∈ f.slots, i ∉ opened)
    {around : Option FixKind} (he : e.Tracks job opened v) {limit : Nat} {r : StateSet × Evaluation}
    (h : evalFormula job limit f around e = .ok r) : eval job f around e = .ok r := by
  obtain ⟨s, e'⟩ := r
  have hagrees := evalFormula_agrees hm limit hf hslots hopened around he
  rw [h] at hagrees
  obtain ⟨S, w, hevaluate, -, -⟩ := hagrees.of_ok
  have hsize : ∀ j ∈ f.slots, j < e.cells.size := by
    intro j hj
    rw [← Formula.map_slot_table] at hj
    obtain ⟨b, hb, rfl⟩ := List.mem_map.1 hj
    rw [he.size]
    exact (Array.getElem?_eq_some_iff.1 (hf.binders b hb)).1
  have hagrees' := evalFormula_agrees hm (roundLimit job e) hf hslots hopened around he
  rw [Formula.evaluate_of_pow_lt hsize hevaluate (by rw [roundLimit, Nat.pow_eq]; omega)] at hagrees'
  obtain ⟨s', e₁, heval, -, -⟩ := hagrees'.of_some
  -- Both results are the one with the higher of the two limits.
  have hmax := evalFormula_of_le h (Nat.le_max_left limit (roundLimit job e))
  rw [evalFormula_of_le heval (Nat.le_max_right limit (roundLimit job e))] at hmax
  rw [eval, heval, hmax]

end Evaluation

/-- The evaluation of the job from the start ends if it is given enough rounds. -/
def Job.Terminates (job : Job) : Prop :=
  ∃ limit r, Evaluation.evalFormula job limit job.sentence.root none (.start job) = .ok r

theorem Job.terminates_of_check {job : Job} {verdict : Verdict} (h : job.check = .ok verdict) :
    job.Terminates := by
  obtain ⟨r, hrun, -⟩ := bind_eq_ok_iff.1 h
  exact ⟨_, r, hrun⟩

/-- A check gives a verdict exactly if the evaluation ends. -/
theorem exists_check_iff_terminates {job : Job} (hm : job.system.Indexed)
    (hp : job.sentence.WellFormed) : (∃ verdict, job.check = .ok verdict) ↔ job.Terminates := by
  constructor
  · rintro ⟨verdict, hcheck⟩
    exact Job.terminates_of_check hcheck
  · rintro ⟨limit, ⟨s, e⟩, hlimit⟩
    have hrun : Evaluation.run job (.start job) = .ok (s, e) :=
      Evaluation.eval_eq_ok_of_evalFormula hm hp.declared hp.apart.nodup (by simp)
        (Evaluation.start_tracks job) hlimit
    exact ⟨job.verdict s e, bind_eq_ok_iff.2 ⟨(s, e), hrun, rfl⟩⟩

end ModalMu
