import ModalMu.Proofs.Adjacency

/-!
# What is built from what was asked for

A blueprint is drawn by calls, in any order and number. The calls alone say what is asked for: the last
state to start in, the last name of each state, and the transitions one after the other. `build_exact`
compares this with what building gives, error by error and entry by entry.
-/

namespace ModalMu

/-- Both ends are among `n` states. -/
def Transition.Inside (t : Transition) (n : Nat) : Prop := t.source < n ∧ t.target < n

instance (t : Transition) (n : Nat) : Decidable (t.Inside n) :=
  inferInstanceAs (Decidable (t.source < n ∧ t.target < n))

namespace Blueprint

/-! ## Calls -/

/-- The blueprint of `n` states after the given calls. -/
def drawn (n : Nat) (calls : List Call) : Blueprint := calls.foldl Call.apply (ofSize n)

namespace Call

def initial? : Call → Option Nat
  | .startAt initial => some initial
  | .rename _ _ | .addTransition _ => none

def nameOf? (i : Nat) : Call → Option String
  | .rename j name => if j = i then some name else none
  | .startAt _ | .addTransition _ => none

def transition? : Call → Option Transition
  | .addTransition t => some t
  | .startAt _ | .rename _ _ => none

/-- The last state that is given to start in; without any, the first state. -/
def initial (calls : List Call) : Nat := (calls.reverse.findSome? initial?).getD 0

/-- The last name that is given to a state; without any, its number. -/
def nameOf (calls : List Call) (i : Nat) : String :=
  (calls.reverse.findSome? (nameOf? i)).getD (toString i)

/-- The transitions that are given, in their order. -/
def transitions (calls : List Call) : List Transition := calls.filterMap transition?

end Call

theorem drawn_concat (n : Nat) (calls : List Call) (call : Call) :
    drawn n (calls ++ [call]) = call.apply (drawn n calls) := by
  simp [drawn]

/-! Later calls win, so the inductions take the last call off. -/

theorem numStates_drawn (n : Nat) (calls : List Call) : (drawn n calls).numStates = n := by
  induction calls using List.reverseRecOn with
  | nil => exact Array.size_replicate
  | append_singleton calls call ih =>
    rw [drawn_concat]
    cases call with
    | startAt | addTransition => exact ih
    | rename j name => exact Array.size_setIfInBounds.trans ih

theorem initial_drawn (n : Nat) (calls : List Call) :
    (drawn n calls).initial = Call.initial calls := by
  induction calls using List.reverseRecOn with
  | nil => rfl
  | append_singleton calls call ih =>
    rw [drawn_concat, Call.initial, List.reverse_concat]
    cases call with
    | startAt initial => rfl
    | rename | addTransition => exact ih

theorem toList_transitions_drawn (n : Nat) (calls : List Call) :
    (drawn n calls).transitions.toList = Call.transitions calls := by
  induction calls using List.reverseRecOn with
  | nil => rfl
  | append_singleton calls call ih =>
    rw [drawn_concat, Call.transitions, List.filterMap_append, ← Call.transitions, ← ih]
    cases call with
    | startAt | rename => exact (List.append_nil _).symm
    | addTransition t => exact Array.toList_push

/-- A name for a state that there is not is lost. -/
theorem getElem?_names_drawn (n : Nat) (calls : List Call) (i : Nat) :
    (drawn n calls).names[i]? =
      if i < n then some (calls.reverse.findSome? (Call.nameOf? i)) else none := by
  induction calls using List.reverseRecOn with
  | nil => simp [drawn, ofSize, Array.getElem?_replicate]
  | append_singleton calls call ih =>
    rw [drawn_concat, List.reverse_concat]
    cases call with
    | startAt | addTransition => exact ih
    | rename j name =>
      have hsize : (drawn n calls).names.size = n := numStates_drawn n calls
      show ((drawn n calls).names.setIfInBounds j (some name))[i]? = _
      by_cases hj : j = i
      · subst hj
        rw [Array.getElem?_setIfInBounds_self, hsize, List.findSome?_cons, Call.nameOf?, if_pos rfl]
      · rw [Array.getElem?_setIfInBounds_ne hj, ih, List.findSome?_cons, Call.nameOf?, if_neg hj]

/-! ## Errors -/

theorem attach_eq_error_iff {states : Array State} {t : Transition} {position : Nat} {e : BuildError} :
    attach states (t, position) = .error e ↔
      ¬t.Inside states.size ∧ e = .stateOutOfRange t.source t.target states.size := by
  simp only [attach, Transition.Inside]
  split
  · next hin => exact ⟨fun h => (by cases h), fun h => absurd hin h.1⟩
  · next hout => exact ⟨fun h => ⟨hout, (Except.error.inj h).symm⟩, fun h => congrArg _ h.2.symm⟩

/-- Attaching stops at the first transition that leaves the states. -/
theorem foldlM_attach_eq_error_iff {bare : Array State} {ts : List Transition} {first : Nat}
    {e : BuildError} : (ts.zipIdx first).foldlM attach bare = .error e ↔
      ∃ before t behind, ts = before ++ t :: behind ∧ (∀ u ∈ before, u.Inside bare.size) ∧
        ¬t.Inside bare.size ∧ e = .stateOutOfRange t.source t.target bare.size := by
  induction ts generalizing bare first with
  | nil =>
    refine ⟨nofun, ?_⟩
    rintro ⟨before, t, behind, h, -⟩
    simp at h
  | cons t ts ih =>
    rw [List.zipIdx_cons, List.foldlM_cons]
    by_cases hin : t.Inside bare.size
    · have hattach : attach bare (t, first) = .ok ((bare.modify t.source
          (State.addOutgoing first)).modify t.target (State.addIncoming first)) := if_pos hin
      rw [hattach]
      show (ts.zipIdx (first + 1)).foldlM attach _ = _ ↔ _
      rw [ih, Array.size_modify, Array.size_modify]
      constructor
      · rintro ⟨before, u, behind, rfl, hbefore, hu⟩
        exact ⟨t :: before, u, behind, rfl, List.forall_mem_cons.2 ⟨hin, hbefore⟩, hu⟩
      · rintro ⟨before, u, behind, hts, hbefore, hu⟩
        cases before with
        | nil =>
          obtain ⟨rfl, -⟩ := List.cons.inj hts
          exact absurd hin hu.1
        | cons v before =>
          obtain ⟨rfl, rfl⟩ := List.cons.inj hts
          exact ⟨before, u, behind, rfl, (List.forall_mem_cons.1 hbefore).2, hu⟩
    · rw [attach_eq_error_iff.2 ⟨hin, rfl⟩]
      constructor
      · intro h
        exact ⟨[], t, ts, rfl, by simp, hin, (Except.error.inj h).symm⟩
      · rintro ⟨before, u, behind, hts, hbefore, hu, rfl⟩
        cases before with
        | nil =>
          obtain ⟨rfl, -⟩ := List.cons.inj hts
          rfl
        | cons v before =>
          obtain ⟨rfl, -⟩ := List.cons.inj hts
          exact absurd (hbefore t List.mem_cons_self) hin

theorem build_eq_error_iff {b : Blueprint} {tag : Nat} {e : BuildError} :
    b.build tag = .error e ↔
      (0 < b.numStates ∧ b.numStates ≤ b.initial) ∧ e = .initialOutOfRange b.initial b.numStates ∨
      ¬(0 < b.numStates ∧ b.numStates ≤ b.initial) ∧ ∃ before t behind,
        b.transitions.toList = before ++ t :: behind ∧ (∀ u ∈ before, u.Inside b.numStates) ∧
          ¬t.Inside b.numStates ∧ e = .stateOutOfRange t.source t.target b.numStates := by
  have hsize : b.bareStates.size = b.numStates := by simp [bareStates, numStates]
  unfold build
  split
  · next hinitial => simp [hinitial, eq_comm]
  · next hinitial =>
    have hbind : ∀ x : Except BuildError (Array State), (x >>= fun states =>
        Except.ok (TransitionSystem.mk ⟨tag, states⟩ b.transitions b.initial)) = .error e ↔
          x = .error e := by
      intro x
      cases x <;> simp [bind, Except.bind]
    rw [hbind, foldlM_attach_eq_error_iff, hsize]
    simp [hinitial]

/-! ## The system -/

/-- The entry of a state as the calls ask for it. -/
def Call.state (calls : List Call) (i : Nat) : State where
  id := i
  name := nameOf calls i
  outgoing := (Transition.positions (·.source == i) (transitions calls)).toArray
  incoming := (Transition.positions (·.target == i) (transitions calls)).toArray

end Blueprint

namespace Transition

/-- The transitions at the positions of those with a property are those with the property. -/
theorem mapM_positions {m : TransitionSystem} (p : Transition → Bool) {ts : List Transition}
    (h : ts <+: m.transitions.toList) : (positions p ts).mapM m.transition = .ok (ts.filter p) := by
  induction ts using List.reverseRecOn with
  | nil => rfl
  | append_singleton ts t ih =>
    have hlast : m.transition ts.length = .ok t := by
      obtain ⟨behind, hbehind⟩ := h
      rw [TransitionSystem.transition, Fault.lookup_eq_ok_iff, ← Array.getElem?_toList, ← hbehind]
      simp
    rw [positions_concat, List.mapM_append, ih ((List.prefix_append ts [t]).trans h),
      List.filter_append]
    cases hp : p t with
    | false =>
      rw [List.filter_cons_of_neg (by simp [hp])]
      rfl
    | true =>
      rw [List.filter_cons_of_pos hp, if_pos rfl, List.mapM_cons, hlast]
      rfl

end Transition

namespace Blueprint

/-- Exactly the positions in `ts` of the transitions with a property, ascending. -/
structure Lists (positions : Array Nat) (ts : List Transition) (p : Transition → Prop) : Prop where
  ascending : positions.toList.Pairwise (· < ·)
  mem_iff : ∀ i, i ∈ positions ↔ ∃ t, ts[i]? = some t ∧ p t

theorem lists_positions (ts : List Transition) {p : Transition → Bool} {q : Transition → Prop}
    (h : ∀ t, p t = true ↔ q t) : Lists (Transition.positions p ts).toArray ts q where
  ascending := Transition.positions_pairwise p ts
  mem_iff i := by simp only [List.mem_toArray, Transition.mem_positions, h]

theorem Call.lists_outgoing (calls : List Call) (i : Nat) :
    Lists (state calls i).outgoing (transitions calls) (·.source = i) := lists_positions _ (by simp)

theorem Call.lists_incoming (calls : List Call) (i : Nat) :
    Lists (state calls i).incoming (transitions calls) (·.target = i) := lists_positions _ (by simp)

/-- The system is the one that the calls ask for, and its index is exact. -/
structure Realizes (m : TransitionSystem) (n : Nat) (calls : List Call) : Prop where
  numStates : m.numStates = n
  initial : m.initial = Call.initial calls
  transitions : m.transitions.toList = Call.transitions calls
  state : ∀ i < n, ∃ s, m.carrier.state i = .ok s ∧ s.id = i ∧ s.name = Call.nameOf calls i ∧
    Lists s.outgoing (Call.transitions calls) (·.source = i) ∧
    Lists s.incoming (Call.transitions calls) (·.target = i)
  leaving : ∀ i < n, m.outgoing i = .ok ((Call.transitions calls).filter (·.source == i))
  entering : ∀ i < n, m.incoming i = .ok ((Call.transitions calls).filter (·.target == i))
  once : ∀ position < (Call.transitions calls).length,
    (∃! i, ∃ s, m.carrier.state i = .ok s ∧ position ∈ s.outgoing) ∧
      ∃! i, ∃ s, m.carrier.state i = .ok s ∧ position ∈ s.incoming

section Built

variable {n tag : Nat} {calls : List Call} {m : TransitionSystem}
  (h : (drawn n calls).build tag = .ok m)

include h

theorem toList_transitions_of_build : m.transitions.toList = Call.transitions calls := by
  rw [(build_eq_ok h).2.1, toList_transitions_drawn]

theorem inside_of_build : ∀ t ∈ Call.transitions calls, t.Inside n := by
  obtain ⟨hnum, -, hindexed⟩ := build_eq_ok h
  rw [numStates_drawn] at hnum
  intro t ht
  rw [← toList_transitions_of_build h] at ht
  rw [← hnum]
  exact hindexed.inside t (Array.mem_toList_iff.1 ht)

theorem state_eq_ok_iff_of_build {i : Nat} {s : State} :
    m.carrier.state i = .ok s ↔ i < n ∧ s = Call.state calls i := by
  rw [Universe.state, Fault.lookup_eq_ok_iff, getElem?_states_of_build h, getElem?_names_drawn,
    toList_transitions_drawn]
  by_cases hi : i < n
  · simp [hi, Call.state, Call.nameOf, eq_comm]
  · simp [hi]

theorem select_positions_of_build (p : Transition → Bool) :
    m.select (Transition.positions p (Call.transitions calls)).toArray =
      .ok ((Call.transitions calls).filter p) := by
  rw [← toList_transitions_of_build h]
  exact Transition.mapM_positions p List.prefix_rfl

/-- A transition is found in the list of one state, if the lists tell one end of the transitions. -/
theorem existsUnique_state_of_build {found : State → Array Nat} {side : Transition → Nat}
    (hfound : ∀ i, Lists (found (Call.state calls i)) (Call.transitions calls) (side · = i))
    (hside : ∀ t ∈ Call.transitions calls, side t < n) {position : Nat}
    (hlt : position < (Call.transitions calls).length) :
    ∃! i, ∃ s, m.carrier.state i = .ok s ∧ position ∈ found s := by
  obtain ⟨t, ht⟩ : ∃ t, (Call.transitions calls)[position]? = some t :=
    ⟨_, List.getElem?_eq_getElem hlt⟩
  refine ⟨side t, ⟨Call.state calls (side t), ?_, ?_⟩, ?_⟩
  · exact (state_eq_ok_iff_of_build h).2 ⟨hside t (List.mem_of_getElem? ht), rfl⟩
  · exact ((hfound _).mem_iff _).2 ⟨t, ht, rfl⟩
  · rintro i ⟨s, hs, hmem⟩
    obtain ⟨-, rfl⟩ := (state_eq_ok_iff_of_build h).1 hs
    obtain ⟨u, hu, rfl⟩ := ((hfound i).mem_iff _).1 hmem
    rw [Option.some.inj (ht.symm.trans hu)]

theorem realizes_of_build : Realizes m n calls where
  numStates := (build_eq_ok h).1.trans (numStates_drawn n calls)
  initial := (initial_of_build h).1.trans (initial_drawn n calls)
  transitions := toList_transitions_of_build h
  state i hi := ⟨Call.state calls i, (state_eq_ok_iff_of_build h).2 ⟨hi, rfl⟩, rfl, rfl,
    Call.lists_outgoing calls i, Call.lists_incoming calls i⟩
  leaving i hi := by
    rw [TransitionSystem.outgoing, (state_eq_ok_iff_of_build h).2 ⟨hi, rfl⟩]
    exact select_positions_of_build h _
  entering i hi := by
    rw [TransitionSystem.incoming, (state_eq_ok_iff_of_build h).2 ⟨hi, rfl⟩]
    exact select_positions_of_build h _
  once position hlt :=
    ⟨existsUnique_state_of_build h (Call.lists_outgoing calls) (fun t ht => (inside_of_build h t ht).1) hlt,
      existsUnique_state_of_build h (Call.lists_incoming calls) (fun t ht => (inside_of_build h t ht).2) hlt⟩

end Built

theorem exists_build_drawn_iff (n : Nat) (calls : List Call) (tag : Nat) :
    (∃ m, (drawn n calls).build tag = .ok m) ↔
      ¬(0 < n ∧ n ≤ Call.initial calls) ∧ ∀ t ∈ Call.transitions calls, t.Inside n := by
  constructor
  · rintro ⟨m, h⟩
    have hinitial := (initial_of_build h).2
    rw [numStates_drawn, initial_drawn] at hinitial
    exact ⟨by omega, inside_of_build h⟩
  · rintro ⟨hinitial, hinside⟩
    refine exists_build_eq_ok ?_ ?_ tag
    · rw [numStates_drawn, initial_drawn]
      omega
    · intro t ht
      rw [numStates_drawn]
      refine hinside t ?_
      rw [← toList_transitions_drawn n]
      exact Array.mem_toList_iff.2 ht

/-- Building refuses exactly a state to start in that does not exist although there are states, and else
the first transition that leaves the states. Any other blueprint is built, as its calls ask for it and
with an exact index. -/
theorem build_exact (n : Nat) (calls : List Call) (tag : Nat) :
    (∀ e, (drawn n calls).build tag = .error e ↔
      (0 < n ∧ n ≤ Call.initial calls) ∧ e = .initialOutOfRange (Call.initial calls) n ∨
      ¬(0 < n ∧ n ≤ Call.initial calls) ∧ ∃ before t behind,
        Call.transitions calls = before ++ t :: behind ∧ (∀ u ∈ before, u.Inside n) ∧
          ¬t.Inside n ∧ e = .stateOutOfRange t.source t.target n) ∧
    ((∃ m, (drawn n calls).build tag = .ok m) ↔
      ¬(0 < n ∧ n ≤ Call.initial calls) ∧ ∀ t ∈ Call.transitions calls, t.Inside n) ∧
    ∀ m, (drawn n calls).build tag = .ok m → Realizes m n calls := by
  refine ⟨fun e => ?_, exists_build_drawn_iff n calls tag, fun m => realizes_of_build⟩
  rw [build_eq_error_iff, numStates_drawn, initial_drawn, toList_transitions_drawn]

/-- Names for a state that there is not, a second name, a loop and two transitions alike. -/
theorem build_exact_parallel : ∃ m, (drawn 2 [.rename 1 "a", .addTransition ⟨1, ⟨"t"⟩, 1⟩,
      .rename 7 "b", .addTransition ⟨1, ⟨"t"⟩, 1⟩, .rename 1 "c", .startAt 1]).build 0 = .ok m ∧
    m.initial = 1 ∧ ∃ s, m.carrier.state 1 = .ok s ∧ s.name = "c" ∧
      ∀ i, i ∈ s.outgoing ↔ ∃ t, [(⟨1, ⟨"t"⟩, 1⟩ : Transition), ⟨1, ⟨"t"⟩, 1⟩][i]? = some t ∧
        t.source = 1 := by
  obtain ⟨m, hm⟩ := (build_exact 2 [.rename 1 "a", .addTransition ⟨1, ⟨"t"⟩, 1⟩, .rename 7 "b",
    .addTransition ⟨1, ⟨"t"⟩, 1⟩, .rename 1 "c", .startAt 1] 0).2.1.2 (by decide)
  have hrealizes := (build_exact _ _ _).2.2 m hm
  obtain ⟨s, hs, -, hname, hout, -⟩ := hrealizes.state 1 (by decide)
  exact ⟨m, hm, hrealizes.initial, s, hs, hname, hout.mem_iff⟩

end Blueprint

end ModalMu
