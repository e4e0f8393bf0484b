import Mathlib.Logic.ExistsUnique
import ModalMu.Bitmap.Lemmas
import ModalMu.Bitmap.Scan

/-!
# Scans find all members

What a scan has yet to find is a list, `left`. One call of `next` answers with the head of this list and
leaves its tail (`next_eq`), however many empty words it has to skip; so call number `n` answers with
entry number `n` of the list that the scan began with (`found_eq`). For the scan of a well formed bitmap
that is the list of its members, and `scan_exact` says what follows: they come in ascending order, each of
them once, there are as many as the bitmap counts, and afterwards every call answers with nothing.
-/

namespace ModalMu

namespace Bitmap

variable {b : Bitmap} {w : UInt64} {i : Nat}

/-! ## Words -/

/-- An empty word has no members. -/
theorem membersFrom_cons_of_lowest?_eq_none (h : Word.lowest? w = none) (base : Nat)
    (later : List UInt64) : membersFrom base (w :: later) = membersFrom (base + 64) later := by
  obtain rfl := Word.lowest?_eq_none_iff.1 h
  rw [membersFrom, Word.indices, if_pos rfl]

/-- The lowest bit of the first word is the first member, and the others are those without it. -/
theorem membersFrom_cons_of_lowest?_eq_some (h : Word.lowest? w = some i) (base : Nat)
    (later : List UInt64) :
    membersFrom base (w :: later) = (base + i) :: membersFrom base (Word.dropLowest w :: later) :=
  Word.indices_eq_cons h base _

namespace Scan

/-! ## Calls -/

/-- The members that are left to find. -/
def left (s : Scan) : List Nat := membersFrom s.base (s.word :: s.later)

/-- The scan behind `n` calls of `next`. -/
def after : Nat → Scan → Scan
  | 0, s => s
  | n + 1, s => after n s.next.2

/-- What call number `n` of `next` answers; the first call has number zero. -/
def found (s : Scan) (n : Nat) : Option Nat := (s.after n).next.1

theorem advance_eq (base : Nat) (word : UInt64) (later : List UInt64) :
    (advance base word later).1 = (membersFrom base (word :: later)).head? ∧
      (advance base word later).2.left = (membersFrom base (word :: later)).tail := by
  -- The recursion is over the empty words that are skipped.
  fun_induction advance base word later with
  | case1 base word =>
    cases h : Word.lowest? word with
    | none =>
      obtain rfl := Word.lowest?_eq_none_iff.1 h
      exact ⟨rfl, rfl⟩
    | some i =>
      rw [membersFrom_cons_of_lowest?_eq_some h]
      exact ⟨rfl, rfl⟩
  | case2 base word w later i h =>
    rw [membersFrom_cons_of_lowest?_eq_some h]
    exact ⟨rfl, rfl⟩
  | case3 base word w later h ih =>
    rw [membersFrom_cons_of_lowest?_eq_none h]
    exact ih

/-- A call takes the first of the members that are left. -/
theorem next_eq (s : Scan) : s.next.1 = s.left.head? ∧ s.next.2.left = s.left.tail :=
  advance_eq s.base s.word s.later

theorem left_after (s : Scan) (n : Nat) : (s.after n).left = s.left.drop n := by
  induction n generalizing s with
  | zero => rfl
  | succ n ih =>
    rw [after, ih, (next_eq s).2, List.drop_tail]

/-- The calls answer with the members that were left, one after the other. -/
theorem found_eq (s : Scan) (n : Nat) : s.found n = s.left[n]? := by
  rw [found, (next_eq _).1, left_after, List.head?_drop]

theorem take_eq (s : Scan) (n : Nat) : s.take n = s.left.take n := by
  induction n generalizing s with
  | zero => rw [take, List.take_zero]
  | succ n ih =>
    obtain ⟨hfirst, hrest⟩ := next_eq s
    rw [take]
    cases hnext : s.next with
    | mk first rest =>
      rw [hnext] at hfirst hrest
      cases hleft : s.left with
      | nil =>
        rw [hleft] at hfirst
        obtain rfl : first = none := hfirst
        rfl
      | cons j later =>
        rw [hleft] at hfirst hrest
        obtain rfl : first = some j := hfirst
        show j :: take n rest = _
        rw [ih, hrest]
        rfl

end Scan

/-! ## Bitmaps -/

theorem left_scan (b : Bitmap) : b.scan.left = b.members := by
  unfold scan members
  cases b.words.toList with
  | nil => rfl
  | cons w later => rfl

theorem found_scan (b : Bitmap) (n : Nat) : b.scan.found n = b.members[n]? := by
  rw [Scan.found_eq, left_scan]

theorem contains_eq_ok_true_iff : b.contains i = .ok true ↔ i < b.width ∧ b.test i = true := by
  unfold contains
  split
  · next hi => simp [hi]
  · next hi => simp [hi]

/-- The calls on the scan of a well formed bitmap answer with the members in strictly ascending order,
each of them exactly once and all of them below the width. There are as many as the bitmap counts, and
every later call answers with nothing. The list of the members has the answers of all calls, and taking
at most `n` members gives its beginning. -/
theorem scan_exact (hb : b.WellFormed) :
    (∀ m n i j, m < n → b.scan.found m = some i → b.scan.found n = some j → i < j) ∧
    (∀ n i, b.scan.found n = some i → i < b.width ∧ b.contains i = .ok true) ∧
    (∀ i, b.contains i = .ok true → ∃! n, b.scan.found n = some i) ∧
    (∀ n, b.scan.found n = none ↔ b.size ≤ n) ∧
    (∀ n, b.scan.found n = b.members[n]?) ∧
    ∀ n, b.scan.take n = b.members.take n := by
  have hascending : ∀ m n i j, m < n → b.scan.found m = some i → b.scan.found n = some j → i < j := by
    intro m n i j hmn hi hj
    rw [found_scan] at hi hj
    obtain ⟨hm, rfl⟩ := List.getElem?_eq_some_iff.1 hi
    obtain ⟨hn, rfl⟩ := List.getElem?_eq_some_iff.1 hj
    exact List.pairwise_iff_getElem.1 (members_pairwise hb) m n hm hn hmn
  refine ⟨hascending, fun n i h => ?_, fun i hi => ?_, fun n => ?_, found_scan b, fun n => ?_⟩
  · rw [found_scan] at h
    have hmember := (mem_members hb).1 (List.mem_of_getElem? h)
    exact ⟨hmember.1, contains_eq_ok_true_iff.2 hmember⟩
  · have hmember : i ∈ b.members := (mem_members hb).2 (contains_eq_ok_true_iff.1 hi)
    obtain ⟨n, hn⟩ := List.mem_iff_getElem?.1 hmember
    rw [← found_scan] at hn
    refine ⟨n, hn, fun m hm => ?_⟩
    rcases Nat.lt_trichotomy m n with hlt | rfl | hlt
    · exact absurd (hascending m n i i hlt hm hn) (Nat.lt_irrefl i)
    · rfl
    · exact absurd (hascending n m i i hlt hn hm) (Nat.lt_irrefl i)
  · rw [found_scan, List.getElem?_eq_none_iff, length_members]
  · rw [Scan.take_eq, left_scan]

/-- The members 3, 5 and 129 of three words, the one in the middle empty and the last one padded. -/
theorem scan_exact_gap : ∃ b : Bitmap, b = ⟨#[40, 0, 2], 130⟩ ∧ b.WellFormed ∧ b.size = 3 ∧
    b.scan.take 2 = [3, 5] ∧ b.scan.found 2 = some 129 ∧
    (∀ n, b.scan.found n = none ↔ 3 ≤ n) ∧ ∃! n, b.scan.found n = some 129 := by
  have hb : (⟨#[40, 0, 2], 130⟩ : Bitmap).WellFormed :=
    wellFormed_clearPadding (b := ⟨#[40, 0, 2], 130⟩) rfl
  have hsize : (⟨#[40, 0, 2], 130⟩ : Bitmap).size = 3 := by decide +kernel
  obtain ⟨-, -, honce, hnone, -, -⟩ := scan_exact hb
  rw [hsize] at hnone
  exact ⟨_, rfl, hb, hsize, by decide +kernel, by decide +kernel, hnone,
    honce 129 (contains_eq_ok_true_iff.2 (by decide +kernel))⟩

end Bitmap

end ModalMu
