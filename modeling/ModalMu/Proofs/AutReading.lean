import ModalMu.Proofs.Adjacency
import ModalMu.Proofs.Traversal
import ModalMu.TransitionSystem.Aut

/-!
# Reading models

What a text has to be for a system to be read from it, and which system that is: `read_eq_ok_iff`. The
lines that count are a header and as many transitions as it declares, and the system is built from the
blueprint that they make. `transition?_eq_some` opens the line of a transition.
-/

namespace ModalMu

namespace Aut

open Text

/-- The texts of the lines that count. -/
def content (s : List Char) : List (List Char) := (lines s).filter fun line => !(trim line).isEmpty

theorem map_fst_numberedLines (s : List Char) : (numberedLines s).map (·.1) = content s := by
  have hcomp : (fun line : NumberedLine => !(trim line.1).isEmpty) =
      (fun line => !(trim line).isEmpty) ∘ Prod.fst := rfl
  rw [numberedLines, content, hcomp, ← List.filter_map, List.zipIdx_map_fst]

/-- The blueprint of a header and the transitions behind it. -/
def Header.blueprint (h : Header) (ts : List Transition) : Blueprint :=
  ⟨Array.replicate h.numStates none, h.initial, ts.toArray⟩

@[simp] theorem Header.numStates_blueprint (h : Header) (ts : List Transition) :
    (h.blueprint ts).numStates = h.numStates := Array.size_replicate

/-- What can be built stays inside the states that the header declares. -/
theorem Header.inside_of_build {h : Header} {ts : List Transition} {tag : Nat} {m : TransitionSystem}
    (hbuild : (h.blueprint ts).build tag = .ok m) :
    (0 < h.numStates → h.initial < h.numStates) ∧
      ∀ t ∈ ts, t.source < h.numStates ∧ t.target < h.numStates := by
  obtain ⟨hstates, htransitions, hindexed⟩ := Blueprint.build_eq_ok hbuild
  have hinitial := (Blueprint.initial_of_build hbuild).2
  rw [numStates_blueprint] at hstates hinitial
  refine ⟨hinitial, fun t ht => ?_⟩
  have hmem : t ∈ m.transitions := by simpa [htransitions, Header.blueprint] using ht
  have hends := hindexed.inside t hmem
  rwa [hstates] at hends

theorem readTransition_eq_ok_iff {n : Nat} {entry : NumberedLine} {t : Transition} :
    readTransition n entry = .ok t ↔
      transition? entry.1 = some t ∧ t.source < n ∧ t.target < n := by
  obtain ⟨text, line⟩ := entry
  unfold readTransition
  cases htext : transition? text with
  | none => simp [htext]
  | some u =>
    simp only [htext, Option.some.injEq]
    by_cases hs : n ≤ u.source
    · rw [if_pos hs]
      refine ⟨nofun, ?_⟩
      rintro ⟨rfl, hlt, -⟩
      omega
    · rw [if_neg hs]
      by_cases ht : n ≤ u.target
      · rw [if_pos ht]
        refine ⟨nofun, ?_⟩
        rintro ⟨rfl, -, hlt⟩
        omega
      · rw [if_neg ht, Except.ok.injEq]
        refine ⟨?_, And.left⟩
        rintro rfl
        exact ⟨rfl, by omega, by omega⟩

theorem mapM_readTransition_eq_ok_iff {n : Nat} {body : List NumberedLine} {ts : List Transition} :
    body.mapM (readTransition n) = .ok ts ↔
      (body.map (·.1)).map transition? = ts.map some ∧ ∀ t ∈ ts, t.source < n ∧ t.target < n := by
  rw [mapM_eq_ok_iff, ← List.forall₂_eq_eq_eq, List.map_map, List.forall₂_map_left_iff,
    List.forall₂_map_right_iff]
  simp only [readTransition_eq_ok_iff]
  constructor
  · intro h
    refine ⟨h.imp fun _ _ => And.left, fun t ht => ?_⟩
    obtain ⟨i, hi, rfl⟩ := List.mem_iff_getElem.1 ht
    exact (h.get (h.length_eq ▸ hi) hi).2
  · rintro ⟨h, hinside⟩
    exact List.forall₂_iff_get.2 ⟨h.length_eq, fun i hi hi' => ⟨h.get hi hi', hinside _ (List.get_mem _ _)⟩⟩

/-- The lines are read one after the other, each with its transition for the blueprint. -/
theorem foldlM_addLine (n : Nat) (body : List NumberedLine) (b : Blueprint) :
    body.foldlM (addLine n) b = (body.mapM (readTransition n)).map fun ts =>
      { b with transitions := b.transitions ++ ts.toArray } := by
  induction body generalizing b with
  | nil => simp [pure, Except.pure, Except.map]
  | cons line body ih =>
    rw [List.foldlM_cons, List.mapM_cons, addLine]
    cases readTransition n line with
    | error e => rfl
    | ok t =>
      show body.foldlM (addLine n) (b.addTransition t) = _
      rw [ih]
      show _ = Except.map _ (body.mapM (readTransition n) >>= fun ts => pure (t :: ts))
      cases body.mapM (readTransition n) with
      | error e => rfl
      | ok ts => simp [Except.map, bind, Except.bind, pure, Except.pure, Blueprint.addTransition]

/-- What is made of the lines behind a header with a state to start in. There has to be room for the states
before the first line is looked at. -/
theorem readBody_eq {h : Header} (hinitial : h.initial < h.numStates) (body : List NumberedLine) :
    readBody h body =
      if h.numStates ≤ Blueprint.capacity then
        (body.mapM (readTransition h.numStates)).mapError .refused >>= fun ts =>
          if ts.length = h.numTransitions then .ok (h.blueprint ts)
          else .error (.refused (.transitionCount h.numTransitions ts.length))
      else .error (.fault .capacityOverflow) := by
  rw [readBody, if_neg (Nat.not_le.2 hinitial), Blueprint.allocate]
  by_cases hroom : h.numStates ≤ Blueprint.capacity
  · rw [if_pos hroom, if_pos hroom]
    have hlines : body.foldlM (addLine h.numStates) ((Blueprint.ofSize h.numStates).startAt h.initial) =
        (body.mapM (readTransition h.numStates)).map h.blueprint := by
      rw [foldlM_addLine]
      refine congrArg (Except.map · _) (funext fun ts => ?_)
      exact congrArg (Blueprint.mk _ _) Array.empty_append
    show Except.mapError Stop.refused (body.foldlM _ _) >>= _ = _
    rw [hlines]
    cases body.mapM (readTransition h.numStates) <;> rfl
  · rw [if_neg hroom, if_neg hroom]
    rfl

theorem readBody_eq_ok_iff {h : Header} {body : List NumberedLine} {b : Blueprint} :
    readBody h body = .ok b ↔ h.initial < h.numStates ∧ h.numStates ≤ Blueprint.capacity ∧ ∃ ts,
      (body.map (·.1)).map transition? = ts.map some ∧
      (∀ t ∈ ts, t.source < h.numStates ∧ t.target < h.numStates) ∧
      ts.length = h.numTransitions ∧ b = h.blueprint ts := by
  by_cases hinitial : h.initial < h.numStates
  · rw [readBody_eq hinitial]
    by_cases hroom : h.numStates ≤ Blueprint.capacity
    · rw [if_pos hroom, bind_eq_ok_iff]
      simp only [mapError_eq_ok_iff, mapM_readTransition_eq_ok_iff, hinitial, hroom, true_and, and_assoc]
      refine exists_congr fun ts => and_congr_right fun _ => and_congr_right fun _ => ?_
      by_cases hlength : ts.length = h.numTransitions
      · rw [if_pos hlength]
        simp [hlength, eq_comm]
      · rw [if_neg hlength]
        simp [hlength]
    · rw [if_neg hroom]
      simp [hroom]
  · rw [readBody, if_pos (Nat.le_of_not_lt hinitial)]
    simp [hinitial]

theorem readHeader_eq_ok_iff {s : List Char} {h : Header} {body : List NumberedLine} :
    readHeader s = .ok (h, body) ↔
      ∃ first, numberedLines s = first :: body ∧ header? first.1 = some h := by
  unfold readHeader
  cases hlines : numberedLines s with
  | nil => simp
  | cons first rest =>
    obtain ⟨text, line⟩ := first
    cases hheader : header? text with
    | none =>
      simp only [hheader, List.cons.injEq, reduceCtorEq, false_iff, not_exists, not_and]
      rintro _ ⟨rfl, -⟩
      simp [hheader]
    | some h' =>
      simp only [hheader, Except.ok.injEq, Prod.mk.injEq, List.cons.injEq]
      constructor
      · rintro ⟨rfl, rfl⟩
        exact ⟨_, ⟨rfl, rfl⟩, hheader⟩
      · rintro ⟨_, ⟨rfl, rfl⟩, h⟩
        exact ⟨Option.some.inj (hheader.symm.trans h), rfl⟩

theorem assemble_eq_ok_iff {tag : Nat} {h : Header} {body : List NumberedLine}
    {m : TransitionSystem} :
    assemble tag h body = .ok m ↔ ∃ b, readBody h body = .ok b ∧ b.build tag = .ok m := by
  rw [assemble, bind_eq_ok_iff]
  refine exists_congr fun b => and_congr_right fun _ => ?_
  cases b.build tag <;> simp

theorem read_eq (tag : Nat) (s : List Char) :
    read tag s = (readHeader s).mapError .refused >>= fun r => assemble tag r.1 r.2 := by
  unfold read readLogged
  cases readHeader s with
  | error e => rfl
  | ok r =>
    obtain ⟨h, body⟩ := r
    show _ = assemble tag h body
    cases hassemble : assemble tag h body <;> simp only [hassemble]

theorem read_eq_ok_iff_assemble {tag : Nat} {s : List Char} {m : TransitionSystem} :
    read tag s = .ok m ↔ ∃ h body, readHeader s = .ok (h, body) ∧ assemble tag h body = .ok m := by
  rw [read_eq, bind_eq_ok_iff]
  simp only [mapError_eq_ok_iff, Prod.exists]

/-- A system is read from a text whose first line is a header that declares a state, and whose other
lines are as many transitions as it declares, between states that it declares and that there is room for. -/
theorem read_eq_ok_iff {tag : Nat} {s : List Char} {m : TransitionSystem} :
    read tag s = .ok m ↔ ∃ first body h ts, content s = first :: body ∧ header? first = some h ∧
      body.map transition? = ts.map some ∧ ts.length = h.numTransitions ∧
      (0 < h.numStates ∧ h.numStates ≤ Blueprint.capacity) ∧ (h.blueprint ts).build tag = .ok m := by
  simp only [read_eq_ok_iff_assemble, readHeader_eq_ok_iff, assemble_eq_ok_iff, readBody_eq_ok_iff,
    ← map_fst_numberedLines]
  constructor
  · rintro ⟨h, body, ⟨first, hlines, hheader⟩, b, ⟨hinitial, hroom, ts, htexts, -, hlength, rfl⟩,
      hbuild⟩
    exact ⟨first.1, body.map (·.1), h, ts, by rw [hlines, List.map_cons], hheader, htexts, hlength,
      ⟨by omega, hroom⟩, hbuild⟩
  · rintro ⟨text, texts, h, ts, hcontent, hheader, htexts, hlength, ⟨hpos, hroom⟩, hbuild⟩
    obtain ⟨first, body, hlines, rfl, rfl⟩ := List.map_eq_cons_iff.1 hcontent
    obtain ⟨hinitial, hinside⟩ := Header.inside_of_build hbuild
    exact ⟨h, body, ⟨first, hlines, hheader⟩, _,
      ⟨hinitial hpos, hroom, ts, htexts, hinside, hlength, rfl⟩, hbuild⟩

/-! ## Room for the states -/

theorem capacity_lt_numeralBound : Blueprint.capacity < numeralBound := by decide

theorem readBody_eq_fault_iff {h : Header} {body : List NumberedLine} {f : Fault} :
    readBody h body = .error (.fault f) ↔
      h.initial < h.numStates ∧ Blueprint.capacity < h.numStates ∧ f = .capacityOverflow := by
  by_cases hinitial : h.initial < h.numStates
  · rw [readBody_eq hinitial]
    by_cases hroom : h.numStates ≤ Blueprint.capacity
    · rw [if_pos hroom]
      -- The lines are refused or taken, and there is no third outcome.
      have hnone : (body.mapM (readTransition h.numStates)).mapError Stop.refused >>= (fun ts =>
          if ts.length = h.numTransitions then Except.ok (h.blueprint ts)
          else .error (.refused (.transitionCount h.numTransitions ts.length))) ≠ .error (.fault f) := by
        cases body.mapM (readTransition h.numStates) with
        | error e => nofun
        | ok ts =>
          show (if ts.length = h.numTransitions then _ else _) ≠ _
          split <;> nofun
      simp [hnone, Nat.not_lt.2 hroom]
    · rw [if_neg hroom]
      simp [hinitial, Nat.lt_of_not_le hroom, eq_comm]
  · rw [readBody, if_pos (Nat.le_of_not_lt hinitial)]
    simp [hinitial]

theorem assemble_eq_fault_iff {tag : Nat} {h : Header} {body : List NumberedLine} {f : Fault} :
    assemble tag h body = .error (.fault f) ↔ readBody h body = .error (.fault f) := by
  unfold assemble
  cases readBody h body with
  | error e => simp [bind, Except.bind]
  | ok b =>
    refine ⟨fun hfault => ?_, nofun⟩
    cases hbuild : b.build tag <;> simp [hbuild, bind, Except.bind] at hfault

/-- Reading a text faults exactly if its header declares more states than there is room for, one of them
to start in. The lines behind the header do not count. -/
theorem read_eq_fault_iff {tag : Nat} {s : List Char} {f : Fault} :
    read tag s = .error (.fault f) ↔ ∃ h body, readHeader s = .ok (h, body) ∧
      h.initial < h.numStates ∧ Blueprint.capacity < h.numStates ∧ f = .capacityOverflow := by
  rw [read_eq]
  cases readHeader s with
  | error e => exact ⟨nofun, nofun⟩
  | ok r =>
    obtain ⟨h, body⟩ := r
    show assemble tag h body = _ ↔ _
    rw [assemble_eq_fault_iff, readBody_eq_fault_iff]
    simp

/-! ## Lines that are read -/

theorem tuple?_eq_some {s body : List Char} (h : tuple? s = some body) :
    trim s = '(' :: (body ++ [')']) := by
  obtain ⟨opened, hopened, hclosed⟩ := Option.bind_eq_some_iff.1 h
  rw [stripStart?_eq_some hopened, stripLast?_eq_some hclosed]
  rfl

/-- The text of a label is not empty and stands in the text that it is read from. -/
theorem labelText?_eq_some {s text : List Char} (h : labelText? s = some text) :
    text ≠ [] ∧ text ⊆ s := by
  unfold labelText? at h
  split at h
  · next quoted =>
    simp only [Option.bind_eq_bind, Option.bind_eq_some_iff, Option.ite_none_left_eq_some,
      List.isEmpty_iff, Option.some.injEq] at h
    obtain ⟨_, hquoted, hne, rfl⟩ := h
    rw [stripLast?_eq_some hquoted]
    exact ⟨hne, by simp⟩
  · simp only [Option.bind_eq_bind, Option.bind_some, Option.ite_none_left_eq_some,
      List.isEmpty_iff, Option.some.injEq] at h
    obtain ⟨hne, rfl⟩ := h
    exact ⟨hne, List.Subset.refl _⟩

/-- A transition on a line: what stands between its commas. -/
theorem transition?_eq_some {s : List Char} {t : Transition} (h : transition? s = some t) :
    ∃ first second third, trim s = '(' :: (first ++ ',' :: (second ++ ',' :: third) ++ [')']) ∧
      numeral? (trim first) = some t.source ∧ labelText? (trim second) = some t.label.text.toList ∧
      numeral? (trim third) = some t.target := by
  simp only [transition?, Option.bind_eq_bind, Option.bind_eq_some_iff, Prod.exists] at h
  obtain ⟨body, hbody, first, rest, hfirst, second, third, hlast, source, hsource, target, htarget,
    text, htext, ht⟩ := h
  cases ht
  refine ⟨first, second, third, ?_, hsource, by simpa using htext, htarget⟩
  rw [tuple?_eq_some hbody, (splitFirst?_eq_some_iff.1 hfirst).1, (splitLast?_eq_some_iff.1 hlast).1]

/-- A label that is read can be written. -/
theorem label_of_transition?_eq_some {s : List Char} {t : Transition} (h : transition? s = some t)
    (hs : '\n' ∉ s) : t.label.text ≠ "" ∧ '\n' ∉ t.label.text.toList := by
  obtain ⟨first, second, third, htrim, -, hlabel, -⟩ := transition?_eq_some h
  obtain ⟨hne, hsubset⟩ := labelText?_eq_some hlabel
  refine ⟨by simpa [String.toList_eq_nil_iff] using hne, fun hmem => hs (trim_subset s ?_)⟩
  have := trim_subset second (hsubset hmem)
  simp [htrim, this]

theorem lt_of_header?_eq_some {s : List Char} {h : Header} (hs : header? s = some h) :
    h.numTransitions < numeralBound := by
  simp only [header?, Option.bind_eq_bind, Option.bind_eq_some_iff] at hs
  obtain ⟨_, -, _, -, hs⟩ := hs
  split at hs
  · simp only [Option.bind_eq_some_iff, Option.some.injEq] at hs
    obtain ⟨_, -, _, htransitions, _, -, rfl⟩ := hs
    exact lt_of_numeral?_eq_some htransitions
  · cases hs

end Aut

end ModalMu
