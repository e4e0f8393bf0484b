import ModalMu.Proofs.Faultless
import ModalMu.Proofs.Selection
import ModalMu.Proofs.Traversal

/-!
# Sets of states as finite sets

A plain set is a universe and a finite set of numbers. `Shows` ties a set of states to the plain set with
the same members. Each operation on sets over one universe gives the plain set that its name says; a number
without a state and a set over another universe are refused, and the widths of the bitmaps never disagree.
-/

namespace ModalMu

namespace StateSet

open Finset (range)

/-- A set of states of a universe, without bits. -/
structure Plain where
  carrier : Universe
  members : Finset Nat
deriving DecidableEq

def plain (s : StateSet) : Plain := ⟨s.carrier, s.members.toFinset⟩

@[simp] theorem carrier_plain (s : StateSet) : s.plain.carrier = s.carrier := rfl

/-- The set is a well formed one with the members of the plain set, over the same universe. -/
structure Shows (s : StateSet) (U : Plain) : Prop where
  isOver : s.Over U.carrier
  members : s.members.toFinset = U.members

variable {s t : StateSet} {X Y : Plain}

theorem Over.shows (h : s.Over s.carrier) : s.Shows s.plain := ⟨h, rfl⟩

theorem Shows.plain_eq (h : s.Shows X) : s.plain = X := by
  unfold plain
  rw [h.isOver.carrier, h.members]

/-- A set shows what its bitmap represents. -/
theorem shows_iff {u : Universe} {bits : Bitmap} {M : Finset Nat} :
    Shows ⟨u, bits⟩ ⟨u, M⟩ ↔ ∃ S : Selection, bits.Represents S ∧ S.width = u.size ∧ S.members = M := by
  constructor
  · rintro ⟨⟨-, hwidth, hwf⟩, rfl⟩
    have hlt : ∀ i ∈ bits.members.toFinset, i < u.size := by
      intro i hi
      rw [List.mem_toFinset, Bitmap.mem_members hwf] at hi
      exact hwidth ▸ hi.1
    refine ⟨⟨u.size, bits.members.toFinset, hlt⟩, hwf.represents hwidth fun i => ?_, rfl, rfl⟩
    rw [List.mem_toFinset, Bitmap.mem_members hwf]
    refine ⟨fun h => ⟨?_, h⟩, fun h => h.2⟩
    by_contra hi
    rw [hwf.test_of_le i (Nat.le_of_not_lt hi)] at h
    cases h
  · rintro ⟨S, hS, hwidth, rfl⟩
    refine ⟨⟨rfl, hS.width.trans hwidth, hS.wellFormed⟩, ?_⟩
    ext i
    show i ∈ bits.members.toFinset ↔ _
    rw [List.mem_toFinset, Bitmap.mem_members hS.wellFormed, hS.test_iff, hS.width]
    exact ⟨fun h => h.2, fun h => ⟨S.lt_width i h, h⟩⟩

theorem Shows.exists_selection (h : s.Shows X) :
    ∃ S : Selection, s.bits.Represents S ∧ S.width = X.carrier.size ∧ S.members = X.members := by
  obtain ⟨u, bits⟩ := s
  obtain ⟨v, M⟩ := X
  obtain rfl : u = v := h.isOver.carrier
  exact shows_iff.1 h

theorem Shows.of_represents {bits : Bitmap} {S : Selection} {M : Finset Nat} (h : s.Shows X)
    (hbits : bits.Represents S) (hwidth : S.width = X.carrier.size) (hmembers : S.members = M) :
    Shows ⟨s.carrier, bits⟩ ⟨X.carrier, M⟩ := by
  rw [h.isOver.carrier]
  exact shows_iff.2 ⟨S, hbits, hwidth, hmembers⟩

theorem shows_all (u : Universe) : (all u).Shows ⟨u, range u.size⟩ :=
  shows_iff.2 ⟨_, Bitmap.represents_full _, rfl, rfl⟩

theorem shows_none (u : Universe) : (none u).Shows ⟨u, ∅⟩ :=
  shows_iff.2 ⟨_, Bitmap.represents_empty _, rfl, rfl⟩

theorem Shows.complement (h : s.Shows X) :
    s.complement.Shows ⟨X.carrier, range X.carrier.size \ X.members⟩ := by
  obtain ⟨S, hS, hwidth, hmembers⟩ := h.exists_selection
  refine h.of_represents hS.complement hwidth ?_
  rw [← hwidth, ← hmembers]
  rfl

theorem Shows.clear (h : s.Shows X) : s.clear.Shows ⟨X.carrier, ∅⟩ := by
  obtain ⟨S, hS, hwidth, -⟩ := h.exists_selection
  exact h.of_represents hS.clear hwidth rfl

theorem Shows.fill (h : s.Shows X) : s.fill.Shows ⟨X.carrier, range X.carrier.size⟩ := by
  obtain ⟨S, hS, hwidth, -⟩ := h.exists_selection
  exact h.of_represents hS.fill hwidth (by rw [← hwidth]; rfl)

/-! ## One number -/

theorem Shows.contains_of_lt (h : s.Shows X) {i : Nat} (hi : i < X.carrier.size) :
    s.contains i = .ok (i ∈ X.members) := by
  obtain ⟨S, hS, hwidth, hmembers⟩ := h.exists_selection
  rw [contains, (hS.contains i).eq, Selection.contains, Selection.onIndex, dif_pos (hwidth ▸ hi), hmembers]

theorem Shows.insert_of_lt (h : s.Shows X) {i : Nat} (hi : i < X.carrier.size) :
    ∃ r, s.insert i = .ok (i ∉ X.members, r) ∧ r.Shows ⟨X.carrier, Insert.insert i X.members⟩ := by
  obtain ⟨S, hS, hwidth, hmembers⟩ := h.exists_selection
  have hstep := hS.insert i
  rw [Selection.insert, Selection.onIndex, dif_pos (hwidth ▸ hi)] at hstep
  obtain ⟨⟨fresh, bits⟩, hbits, rfl, hrep⟩ := hstep.exists_left
  refine ⟨⟨s.carrier, bits⟩, ?_, h.of_represents hrep hwidth (by rw [← hmembers])⟩
  rw [StateSet.insert, hbits, ← hmembers]
  rfl

theorem Shows.erase_of_lt (h : s.Shows X) {i : Nat} (hi : i < X.carrier.size) :
    ∃ r, s.erase i = .ok (i ∈ X.members, r) ∧ r.Shows ⟨X.carrier, X.members.erase i⟩ := by
  obtain ⟨S, hS, hwidth, hmembers⟩ := h.exists_selection
  have hstep := hS.erase i
  rw [Selection.erase, Selection.onIndex, dif_pos (hwidth ▸ hi)] at hstep
  obtain ⟨⟨found, bits⟩, hbits, rfl, hrep⟩ := hstep.exists_left
  refine ⟨⟨s.carrier, bits⟩, ?_, h.of_represents hrep hwidth (by rw [← hmembers])⟩
  rw [StateSet.erase, hbits, ← hmembers]
  rfl

/-- A number without a state is refused by all three. -/
theorem Shows.refuses_of_le (h : s.Shows X) {i : Nat} (hi : X.carrier.size ≤ i) :
    s.contains i = .error (.bitOutOfRange i X.carrier.size) ∧
      s.insert i = .error (.bitOutOfRange i X.carrier.size) ∧
      s.erase i = .error (.bitOutOfRange i X.carrier.size) := by
  have hnot : ¬i < s.bits.width := by
    rw [h.isOver.width]
    omega
  refine ⟨?_, ?_, ?_⟩
  · rw [contains, Bitmap.contains, if_neg hnot, h.isOver.width]
  · rw [insert, Bitmap.insert, if_neg hnot, h.isOver.width]
    rfl
  · rw [erase, Bitmap.erase, if_neg hnot, h.isOver.width]
    rfl

/-- Numbers are added up to the first one without a state. -/
theorem Shows.foldlM_insert {u : Universe} {M : Finset Nat} (h : s.Shows ⟨u, M⟩) (indices : List Nat) :
    (∀ i, indices.find? (u.size ≤ ·) = some i →
      indices.foldlM (fun s i => do
        let (_, s) ← s.insert i
        .ok s) s = .error (.bitOutOfRange i u.size)) ∧
    (indices.find? (u.size ≤ ·) = Option.none →
      ∃ r, indices.foldlM (fun s i => do
        let (_, s) ← s.insert i
        .ok s) s = .ok r ∧ r.Shows ⟨u, M ∪ indices.toFinset⟩) := by
  induction indices generalizing s M with
  | nil => exact ⟨nofun, fun _ => ⟨s, rfl, by simpa using h⟩⟩
  | cons j indices ih =>
    rw [List.foldlM_cons]
    by_cases hj : u.size ≤ j
    · rw [List.find?_cons_of_pos (by simpa using hj), (h.refuses_of_le hj).2.1]
      refine ⟨fun i hi => ?_, nofun⟩
      obtain rfl := Option.some.inj hi
      rfl
    · obtain ⟨r, hr, hshows⟩ := h.insert_of_lt (Nat.lt_of_not_le hj)
      have hset : Insert.insert j M ∪ indices.toFinset = M ∪ (j :: indices).toFinset := by
        ext i
        simp only [Finset.mem_union, Finset.mem_insert, List.toFinset_cons]
        tauto
      rw [List.find?_cons_of_neg (by simpa using hj), hr, ← hset]
      exact ih hshows

theorem ofList_eq_error {u : Universe} {indices : List Nat} {i : Nat}
    (h : indices.find? (u.size ≤ ·) = some i) : ofList u indices = .error (.bitOutOfRange i u.size) :=
  ((shows_none u).foldlM_insert indices).1 i h

theorem exists_ofList_eq_ok {u : Universe} {indices : List Nat}
    (h : indices.find? (u.size ≤ ·) = Option.none) :
    ∃ s, ofList u indices = .ok s ∧ s.Shows ⟨u, indices.toFinset⟩ := by
  obtain ⟨s, hs, hshows⟩ := ((shows_none u).foldlM_insert indices).2 h
  rw [Finset.empty_union] at hshows
  exact ⟨s, hs, hshows⟩

/-- What a list of numbers makes is a set over the universe. -/
theorem over_of_ofList {u : Universe} {indices : List Nat} (h : ofList u indices = .ok s) : s.Over u := by
  cases hfind : indices.find? (u.size ≤ ·) with
  | none =>
    obtain ⟨r, hr, hshows⟩ := exists_ofList_eq_ok hfind
    obtain rfl : r = s := Except.ok.inj (hr.symm.trans h)
    exact hshows.isOver
  | some i => cases (ofList_eq_error hfind).symm.trans h

theorem Shows.exists_names (h : s.Shows X) : ∃ names, s.names = .ok names := by
  cases hnames : s.names with
  | ok names => exact ⟨names, rfl⟩
  | error e =>
    obtain ⟨before, i, behind, hmembers, -, hi⟩ := mapM_eq_error_iff.1 hnames
    have hmem : i ∈ s.bits.members := by
      show i ∈ s.members
      rw [hmembers]
      exact List.mem_append_right _ List.mem_cons_self
    have hlt : i < s.carrier.states.size := by
      rw [Bitmap.mem_members h.isOver.wellFormed, h.isOver.width, ← h.isOver.carrier] at hmem
      exact hmem.1
    rw [Universe.state, Fault.lookup_eq_ok_iff.2 (Array.getElem?_eq_getElem hlt)] at hi
    cases hi

/-! ## Two sets -/

theorem combine_eq_error {α : Type} (op : Bitmap → Bitmap → Except Fault α)
    (h : s.carrier.same t.carrier = false) : combine op s t = .error .universeMismatch := by
  rw [combine, h]
  rfl

theorem Shows.same (hs : s.Shows X) (ht : t.Shows Y) (h : X.carrier = Y.carrier) :
    s.carrier.same t.carrier = true := by
  rw [hs.isOver.carrier, ht.isOver.carrier, h, Universe.same, beq_self_eq_true]

/-- On sets over one universe the widths agree, so the operation on the bitmaps does not fault. -/
theorem Shows.combine {α β : Type} {R : α → β → Prop} (hs : s.Shows X) (ht : t.Shows Y)
    (h : X.carrier = Y.carrier) {op : Bitmap → Bitmap → Except Fault α}
    {spec : (S T : Selection) → S.width = T.width → β}
    (hop : ∀ S T, s.bits.Represents S → t.bits.Represents T →
      InStep R (op s.bits t.bits) (S.combine T (spec S T))) :
    ∃ (S T : Selection) (hwidth : S.width = T.width) (a : α), S.width = X.carrier.size ∧
      S.members = X.members ∧ T.members = Y.members ∧ StateSet.combine op s t = .ok a ∧
      R a (spec S T hwidth) := by
  obtain ⟨S, hS, hwidthS, hmembersS⟩ := hs.exists_selection
  obtain ⟨T, hT, hwidthT, hmembersT⟩ := ht.exists_selection
  have hwidth : S.width = T.width := by rw [hwidthS, hwidthT, h]
  have hstep := hop S T hS hT
  rw [Selection.combine, dif_pos hwidth] at hstep
  obtain ⟨a, ha, hR⟩ := hstep.exists_left
  refine ⟨S, T, hwidth, a, hwidthS, hmembersS, hmembersT, ?_, hR⟩
  rw [StateSet.combine, if_pos (hs.same ht h), ha]

section Two

variable (hs : s.Shows X) (ht : t.Shows Y) (h : X.carrier = Y.carrier)

include hs ht h

theorem Shows.union : ∃ r, s.union t = .ok r ∧ r.Shows ⟨X.carrier, X.members ∪ Y.members⟩ := by
  obtain ⟨S, T, hwidth, bits, hsize, hX, hY, hbits, hrep⟩ :=
    hs.combine ht h fun S T hS hT => hS.union hT
  refine ⟨⟨s.carrier, bits⟩, ?_, hs.of_represents hrep hsize (by rw [← hX, ← hY])⟩
  rw [StateSet.union, hbits]
  rfl

theorem Shows.inter : ∃ r, s.inter t = .ok r ∧ r.Shows ⟨X.carrier, X.members ∩ Y.members⟩ := by
  obtain ⟨S, T, hwidth, bits, hsize, hX, hY, hbits, hrep⟩ :=
    hs.combine ht h fun S T hS hT => hS.inter hT
  refine ⟨⟨s.carrier, bits⟩, ?_, hs.of_represents hrep hsize (by rw [← hX, ← hY])⟩
  rw [StateSet.inter, hbits]
  rfl

theorem Shows.diff : ∃ r, s.diff t = .ok r ∧ r.Shows ⟨X.carrier, X.members \ Y.members⟩ := by
  obtain ⟨S, T, hwidth, bits, hsize, hX, hY, hbits, hrep⟩ :=
    hs.combine ht h fun S T hS hT => hS.diff hT
  refine ⟨⟨s.carrier, bits⟩, ?_, hs.of_represents hrep hsize (by rw [← hX, ← hY])⟩
  rw [StateSet.diff, hbits]
  rfl

theorem Shows.isSubset : s.isSubset t = .ok (X.members ⊆ Y.members) := by
  obtain ⟨S, T, hwidth, yes, -, hX, hY, hyes, rfl⟩ :=
    hs.combine ht h fun S T hS hT => hS.isSubset hT
  rw [StateSet.isSubset, hyes, ← hX, ← hY]

theorem Shows.equal : s.equal t = .ok (X.members = Y.members) := by
  obtain ⟨S, hS, hwidthS, hX⟩ := hs.exists_selection
  obtain ⟨T, hT, hwidthT, hY⟩ := ht.exists_selection
  have hiff : s.bits = t.bits ↔ X.members = Y.members := by
    rw [hS.eq_iff hT, Selection.ext_iff, hwidthS, hwidthT, h, hX, hY, and_iff_right rfl]
  rw [StateSet.equal, StateSet.combine, if_pos (hs.same ht h)]
  congr 1
  rw [Bool.eq_iff_iff, beq_iff_eq, hiff, decide_eq_true_iff]

end Two

end StateSet

end ModalMu
