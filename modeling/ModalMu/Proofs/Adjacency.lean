import Mathlib.Data.List.Induction
import ModalMu.TransitionSystem.Blueprint

/-!
# The index of a built system

Building a blueprint enters each transition into the states at its two ends. `build_eq_ok` says what
comes out: the transitions are those of the blueprint, all of them stay inside the system, and every
state lists the positions of exactly the transitions that leave and enter it, ascending.
-/

namespace ModalMu

/-- Entries that are changed one by one keep their number. -/
theorem size_eq_of_getElem?_eq_map {α : Type} {a b : Array α} {f : Nat → α → α}
    (h : ∀ i, a[i]? = b[i]?.map (f i)) : a.size = b.size := by
  have hle : ∀ i, a.size ≤ i ↔ b.size ≤ i := by
    intro i
    rw [← Array.getElem?_eq_none_iff, h, Option.map_eq_none_iff, Array.getElem?_eq_none_iff]
  exact Nat.le_antisymm ((hle _).2 (Nat.le_refl _)) ((hle _).1 (Nat.le_refl _))

/-- The positions in a list of the transitions with a property, ascending. -/
def Transition.positions (p : Transition → Bool) (ts : List Transition) : List Nat :=
  (List.range ts.length).filter fun i => (ts[i]?).any p

namespace Transition

@[simp] theorem positions_nil (p : Transition → Bool) : positions p [] = [] := rfl

theorem positions_concat (p : Transition → Bool) (ts : List Transition) (t : Transition) :
    positions p (ts ++ [t]) = positions p ts ++ if p t then [ts.length] else [] := by
  unfold positions
  rw [List.length_append, List.length_singleton, List.range_succ, List.filter_append]
  congr 1
  · apply List.filter_congr
    intro i hi
    rw [List.getElem?_append_left (List.mem_range.1 hi)]
  · cases hp : p t <;> simp [hp]

theorem mem_positions {p : Transition → Bool} {ts : List Transition} {i : Nat} :
    i ∈ positions p ts ↔ ∃ t, ts[i]? = some t ∧ p t = true := by
  unfold positions
  rw [List.mem_filter, List.mem_range, Option.any_eq_true]
  constructor
  · rintro ⟨-, t, ht, hp⟩
    exact ⟨t, ht, hp⟩
  · rintro ⟨t, ht, hp⟩
    exact ⟨(List.getElem?_eq_some_iff.1 ht).1, t, ht, hp⟩

theorem positions_pairwise (p : Transition → Bool) (ts : List Transition) :
    (positions p ts).Pairwise (· < ·) := List.pairwise_lt_range.filter _

end Transition

/-- A state with the positions of the transitions of a list that leave and enter it. -/
def State.indexed (ts : List Transition) (i : Nat) (s : State) : State :=
  { s with
    outgoing := s.outgoing ++ (Transition.positions (·.source == i) ts).toArray
    incoming := s.incoming ++ (Transition.positions (·.target == i) ts).toArray }

namespace Blueprint

theorem attach_eq_ok {states states' : Array State} {t : Transition} {position : Nat}
    (h : attach states (t, position) = .ok states') :
    (t.source < states.size ∧ t.target < states.size) ∧
      states' = (states.modify t.source (State.addOutgoing position)).modify t.target
        (State.addIncoming position) := by
  simp only [attach] at h
  split at h
  · next hin =>
    injection h with h
    exact ⟨hin, h.symm⟩
  · cases h

/-- One more transition at the end of the list is one more attachment. -/
theorem indexed_concat (ts : List Transition) (t : Transition) (i : Nat) (s : State) :
    State.indexed (ts ++ [t]) i s =
      (if t.target = i then State.addIncoming ts.length else id)
        ((if t.source = i then State.addOutgoing ts.length else id) (State.indexed ts i s)) := by
  unfold State.indexed
  rw [Transition.positions_concat, Transition.positions_concat]
  by_cases hs : t.source = i <;> by_cases ht : t.target = i <;>
    simp [hs, ht, State.addIncoming, State.addOutgoing]

/-- Attaching all transitions of a list indexes every state. -/
theorem foldlM_attach_eq_ok {bare states : Array State} {ts : List Transition}
    (h : ts.zipIdx.foldlM attach bare = .ok states) :
    (∀ t ∈ ts, t.source < bare.size ∧ t.target < bare.size) ∧
      ∀ i, states[i]? = bare[i]?.map (State.indexed ts i) := by
  -- transitions are entered from left to right, so the induction takes the last one off
  induction ts using List.reverseRecOn generalizing states with
  | nil =>
    injection h with h
    subst h
    refine ⟨by simp, fun i => ?_⟩
    cases hb : bare[i]? <;> simp [State.indexed]
  | append_singleton ts t ih =>
    rw [List.zipIdx_append, List.foldlM_append] at h
    obtain ⟨mid, hmid, hlast⟩ := bind_eq_ok_iff.1 h
    obtain ⟨hin, hindex⟩ := ih hmid
    have hsize : mid.size = bare.size := size_eq_of_getElem?_eq_map hindex
    rw [List.zipIdx_singleton, Nat.zero_add, List.foldlM_cons] at hlast
    obtain ⟨last, hattach, hnil⟩ := bind_eq_ok_iff.1 hlast
    injection hnil with hnil
    subst hnil
    obtain ⟨hends, rfl⟩ := attach_eq_ok hattach
    rw [hsize] at hends
    refine ⟨fun u hu => ?_, fun i => ?_⟩
    · rcases List.mem_append.1 hu with hu | hu
      · exact hin u hu
      · rw [List.mem_singleton.1 hu]
        exact hends
    · rw [Array.getElem?_modify, Array.getElem?_modify, hindex i]
      cases hb : bare[i]? with
      | none => simp
      | some s =>
        simp only [Option.map_some, indexed_concat]
        by_cases hs : t.source = i <;> by_cases ht : t.target = i <;> simp [hs, ht]

/-- Transitions that stay inside can all be attached. -/
theorem exists_foldlM_attach_eq_ok {bare : Array State} {ts : List Transition}
    (h : ∀ t ∈ ts, t.source < bare.size ∧ t.target < bare.size) (first : Nat) :
    ∃ states, (ts.zipIdx first).foldlM attach bare = .ok states := by
  induction ts generalizing bare first with
  | nil => exact ⟨bare, rfl⟩
  | cons t ts ih =>
    have hattach : attach bare (t, first) = .ok ((bare.modify t.source (State.addOutgoing first)).modify
        t.target (State.addIncoming first)) := if_pos (h t List.mem_cons_self)
    rw [List.zipIdx_cons, List.foldlM_cons, hattach]
    exact ih (fun u hu => by simpa using h u (List.mem_cons_of_mem _ hu)) (first + 1)

end Blueprint

/-- The transitions stay inside the system, and each state knows the ones that enter it. -/
structure TransitionSystem.Indexed (m : TransitionSystem) : Prop where
  inside : ∀ t ∈ m.transitions, t.source < m.numStates ∧ t.target < m.numStates
  entering : ∀ i s, m.carrier.states[i]? = some s →
    s.incoming.toList = Transition.positions (·.target == i) m.transitions.toList

namespace Blueprint

theorem getElem?_bareStates (b : Blueprint) (i : Nat) :
    b.bareStates[i]? = b.names[i]?.map fun name => ⟨i, name.getD (toString i), #[], #[]⟩ := by
  simp [bareStates]

/-- Every entry of a system that was built, with its number, its name and its two lists. -/
theorem getElem?_states_of_build {b : Blueprint} {tag : Nat} {m : TransitionSystem}
    (h : b.build tag = .ok m) (i : Nat) :
    m.carrier.states[i]? = b.names[i]?.map fun name => ⟨i, name.getD (toString i),
      (Transition.positions (·.source == i) b.transitions.toList).toArray,
      (Transition.positions (·.target == i) b.transitions.toList).toArray⟩ := by
  unfold build at h
  split at h
  · cases h
  · obtain ⟨states, hstates, hm⟩ := bind_eq_ok_iff.1 h
    injection hm with hm
    subst hm
    show states[i]? = _
    rw [(foldlM_attach_eq_ok hstates).2 i, getElem?_bareStates, Option.map_map]
    congr 1
    funext name
    simp [State.indexed]

/-- A system that was built has the states and transitions of its blueprint and a true index. -/
theorem build_eq_ok {b : Blueprint} {tag : Nat} {m : TransitionSystem} (h : b.build tag = .ok m) :
    m.numStates = b.numStates ∧ m.transitions = b.transitions ∧ m.Indexed := by
  have hentries := getElem?_states_of_build h
  unfold build at h
  split at h
  · cases h
  · obtain ⟨states, hstates, hm⟩ := bind_eq_ok_iff.1 h
    injection hm with hm
    subst hm
    obtain ⟨hin, hindex⟩ := foldlM_attach_eq_ok hstates
    have hsize : states.size = b.names.size := by
      rw [size_eq_of_getElem?_eq_map hindex]
      simp [bareStates]
    refine ⟨hsize, rfl, ?_, ?_⟩
    · intro t ht
      have := hin t (Array.mem_toList_iff.2 ht)
      rwa [← size_eq_of_getElem?_eq_map hindex] at this
    · intro i s hs
      rw [hentries] at hs
      obtain ⟨name, -, rfl⟩ := Option.map_eq_some_iff.1 hs
      rfl

/-- A system starts where its blueprint says, which is in one of its states if it has any. -/
theorem initial_of_build {b : Blueprint} {tag : Nat} {m : TransitionSystem} (h : b.build tag = .ok m) :
    m.initial = b.initial ∧ (0 < b.numStates → b.initial < b.numStates) := by
  unfold build at h
  split at h
  · cases h
  · next hinitial =>
    obtain ⟨states, -, hm⟩ := bind_eq_ok_iff.1 h
    injection hm with hm
    subst hm
    exact ⟨rfl, fun hpos => Nat.lt_of_not_le fun hle => hinitial ⟨hpos, hle⟩⟩

/-- A blueprint that stays inside its states can be built. -/
theorem exists_build_eq_ok {b : Blueprint} (hinitial : 0 < b.numStates → b.initial < b.numStates)
    (hinside : ∀ t ∈ b.transitions, t.source < b.numStates ∧ t.target < b.numStates) (tag : Nat) :
    ∃ m, b.build tag = .ok m := by
  have hsize : b.bareStates.size = b.numStates := by simp [bareStates, numStates]
  have hends : ∀ t ∈ b.transitions.toList,
      t.source < b.bareStates.size ∧ t.target < b.bareStates.size := by
    intro t ht
    rw [hsize]
    exact hinside t (Array.mem_toList_iff.1 ht)
  obtain ⟨states, hstates⟩ := exists_foldlM_attach_eq_ok hends 0
  unfold build
  rw [if_neg (by omega), hstates]
  exact ⟨_, rfl⟩

end Blueprint

end ModalMu
