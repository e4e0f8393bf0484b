import ModalMu.Bitmap.Lemmas
import ModalMu.Edit

/-!
# Bitmaps in place

The operations on bitmaps again, as edits that read and write one word at a time. A word is asked for by its
index, which is a fault if there is no such word. On bitmaps whose words fit their width there always is, and
the widths and the number are looked at before anything is written. So each edit does what the operation on
values does, and a fault leaves the bitmap as it was (`on_contains`, `on_insert`, `on_erase`, `on_combine`).
-/

namespace ModalMu

namespace Bitmap.Edit

/-! ## Edits -/

/-- The word and the bit of a number, which has to be below the width. -/
def locate (i : Nat) : Edit Bitmap (Nat × Nat) := do
  let b ← get
  if i < b.width then return (i / 64, i % 64) else throw (.bitOutOfRange i b.width)

def word (k : Nat) : Edit Bitmap UInt64 := do
  let b ← get
  Fault.lookup b.words k

/-- One word is changed. -/
def change (k : Nat) (f : UInt64 → UInt64) : Edit Bitmap Unit := do
  let w ← word k
  modify fun b => { b with words := b.words.setIfInBounds k (f w) }

def contains (i : Nat) : Edit Bitmap Bool := do
  let (k, j) ← locate i
  let w ← word k
  return Word.bit w j

def insert (i : Nat) : Edit Bitmap Bool := do
  let (k, j) ← locate i
  let w ← word k
  change k (· ||| Word.single j)
  return w &&& Word.single j == 0

def erase (i : Nat) : Edit Bitmap Bool := do
  let (k, j) ← locate i
  let w ← word k
  change k (· &&& ~~~Word.single j)
  return w &&& Word.single j != 0

/-- The words of another bitmap of the same width are combined into this one, one after the other. -/
def combine (f : UInt64 → UInt64 → UInt64) (other : Bitmap) : Edit Bitmap Unit := do
  let b ← get
  if b.width = other.width then
    forM (List.range (min b.words.size other.words.size)) fun k => do
      let w ← Fault.lookup other.words k
      change k (f · w)
  else
    throw (.widthMismatch b.width other.width)

def unionWith (other : Bitmap) : Edit Bitmap Unit := combine (· ||| ·) other

def interWith (other : Bitmap) : Edit Bitmap Unit := combine (· &&& ·) other

def diffWith (other : Bitmap) : Edit Bitmap Unit := combine (fun v w => v &&& ~~~w) other

def negate : Edit Bitmap Unit := modify Bitmap.complement

def clear : Edit Bitmap Unit := modify Bitmap.clear

def fill : Edit Bitmap Unit := modify Bitmap.fill

/-! ## Single members -/

open ModalMu.Edit

variable {b other : Bitmap} {i k : Nat} {w : UInt64} {f : UInt64 → UInt64}

theorem on_locate_of_lt (h : i < b.width) : on (locate i) b = (.ok (i / 64, i % 64), b) := by
  rw [locate, on_bind_of_ok (on_get b), if_pos h]
  rfl

theorem on_locate_of_le (h : b.width ≤ i) : on (locate i) b = (.error (.bitOutOfRange i b.width), b) := by
  rw [locate, on_bind_of_ok (on_get b), if_neg (Nat.not_lt.2 h)]
  rfl

theorem on_word (h : b.words[k]? = some w) : on (word k) b = (.ok w, b) := by
  rw [word, on_bind_of_ok (on_get b), Fault.lookup_eq_ok_iff.2 h]
  rfl

/-- A word that is there is changed as it is in values. -/
theorem on_change (h : b.words[k]? = some w) (f : UInt64 → UInt64) :
    on (change k f) b = (.ok (), { b with words := b.words.modify k f }) := by
  obtain ⟨hk, hw⟩ := Array.getElem?_eq_some_iff.1 h
  have hset : b.words.setIfInBounds k (f w) = b.words.modify k f := by
    refine Array.ext_getElem? fun j => ?_
    rw [Array.getElem?_setIfInBounds, Array.getElem?_modify]
    by_cases hj : k = j
    · subst hj
      simp [hk, hw]
    · rw [if_neg hj, if_neg hj]
  rw [change, on_bind_of_ok (on_word h), on_modify, hset]

theorem exists_word (hb : b.WellFormed) (h : i < b.width) : ∃ w, b.words[i / 64]? = some w := by
  have hlt : i / 64 < b.words.size := hb.size_words ▸ bit_lt_wordCount h
  exact ⟨_, Array.getElem?_eq_getElem hlt⟩

/-- A word has a bit in common with the word of a single bit exactly if it has this bit. -/
theorem and_single_eq_zero_iff {j : Nat} (hj : j < 64) : w &&& Word.single j = 0 ↔ Word.bit w j = false := by
  constructor
  · intro h
    have hbit := Word.bit_and w (Word.single j) j
    rw [h, Word.bit_zero, Word.bit_single hj, decide_eq_true rfl, Bool.and_true] at hbit
    exact hbit.symm
  · intro h
    refine Word.eq_of_bit_eq fun n _ => ?_
    rw [Word.bit_and, Word.bit_single hj, Word.bit_zero]
    by_cases hn : n = j
    · rw [hn, h, Bool.false_and]
    · rw [decide_eq_false hn, Bool.and_false]

theorem on_contains (hb : b.WellFormed) (i : Nat) :
    on (contains i) b = atomic b ((b.contains i).map (·, b)) := by
  unfold contains Bitmap.contains
  by_cases hi : i < b.width
  · obtain ⟨w, hw⟩ := exists_word hb hi
    rw [if_pos hi, on_bind_of_ok (on_locate_of_lt hi), on_bind_of_ok (on_word hw), test_eq_of_getElem? hw]
    rfl
  · rw [if_neg hi, on_bind_of_error (on_locate_of_le (Nat.le_of_not_lt hi))]
    rfl

theorem on_insert (hb : b.WellFormed) (i : Nat) : on (insert i) b = atomic b (b.insert i) := by
  unfold insert Bitmap.insert
  by_cases hi : i < b.width
  · obtain ⟨w, hw⟩ := exists_word hb hi
    have hfresh : (w &&& Word.single (i % 64) == 0) = !b.test i := by
      rw [test_eq_of_getElem? hw, Bool.eq_iff_iff, beq_iff_eq,
        and_single_eq_zero_iff (Nat.mod_lt _ (by decide)), Bool.not_eq_true']
    rw [if_pos hi, on_bind_of_ok (on_locate_of_lt hi), on_bind_of_ok (on_word hw),
      on_bind_of_ok (on_change hw _), hfresh]
    rfl
  · rw [if_neg hi, on_bind_of_error (on_locate_of_le (Nat.le_of_not_lt hi))]
    rfl

theorem on_erase (hb : b.WellFormed) (i : Nat) : on (erase i) b = atomic b (b.erase i) := by
  unfold erase Bitmap.erase
  by_cases hi : i < b.width
  · obtain ⟨w, hw⟩ := exists_word hb hi
    have hfound : (w &&& Word.single (i % 64) != 0) = b.test i := by
      rw [test_eq_of_getElem? hw, Bool.eq_iff_iff, bne_iff_ne, Ne,
        and_single_eq_zero_iff (Nat.mod_lt _ (by decide)), Bool.not_eq_false]
    rw [if_pos hi, on_bind_of_ok (on_locate_of_lt hi), on_bind_of_ok (on_word hw),
      on_bind_of_ok (on_change hw _), hfound]
    rfl
  · rw [if_neg hi, on_bind_of_error (on_locate_of_le (Nat.le_of_not_lt hi))]
    rfl

/-! ## Two bitmaps -/

/-- Word by word the loop changes the words with the given indices, and it does not fault on the way. -/
theorem on_forM_change (g : UInt64 → UInt64 → UInt64) {indices : List Nat} (hnodup : indices.Nodup)
    (h : ∀ k ∈ indices, k < b.words.size ∧ k < other.words.size) :
    ∃ c : Bitmap, on (forM indices fun k => do
        let w ← Fault.lookup other.words k
        change k (g · w)) b = (.ok (), c) ∧ c.width = b.width ∧
      ∀ j, c.words[j]? =
        if j ∈ indices then b.words[j]?.map (g · (other.words.getD j 0)) else b.words[j]? := by
  induction indices generalizing b with
  | nil => exact ⟨b, rfl, rfl, fun j => by simp⟩
  | cons k indices ih =>
    obtain ⟨hk, hk'⟩ := h k List.mem_cons_self
    obtain ⟨hnot, hnodup⟩ := List.nodup_cons.1 hnodup
    have hword : other.words[k]? = some other.words[k] := Array.getElem?_eq_getElem hk'
    have hchange := on_change (Array.getElem?_eq_getElem hk) (g · other.words[k])
    obtain ⟨c, hc, hwidth, hwords⟩ := ih (b := { b with words := b.words.modify k (g · other.words[k]) })
      hnodup fun j hj => by
        rw [Array.size_modify]
        exact h j (List.mem_cons_of_mem _ hj)
    refine ⟨c, ?_, hwidth, fun j => ?_⟩
    · rw [List.forM_cons, on_bind_of_ok, hc]
      rw [Fault.lookup_eq_ok_iff.2 hword, on_bind_of_ok (on_lift _ _)]
      exact hchange
    · rw [hwords, Array.getElem?_modify]
      by_cases hj : k = j
      · subst hj
        simp [hnot, hk, hk']
      · simp [hj, Ne.symm hj]

theorem on_combine (hb : b.WellFormed) (hother : other.WellFormed) (f : UInt64 → UInt64 → UInt64) :
    on (combine f other) b = atomic b ((zip f b other).map ((), ·)) := by
  rw [combine, on_bind_of_ok (on_get b), zip]
  by_cases hwidth : b.width = other.width
  · have hsize : b.words.size = other.words.size := by
      rw [hb.size_words, hother.size_words, hwidth]
    have hlt : ∀ k ∈ List.range (min b.words.size other.words.size),
        k < b.words.size ∧ k < other.words.size := by
      intro k hk
      have hk := List.mem_range.1 hk
      omega
    obtain ⟨c, hc, hcwidth, hwords⟩ := on_forM_change f List.nodup_range hlt
    have hzip : c.words = (zipWords f b other).toArray := by
      refine Array.ext_getElem? fun j => ?_
      have hlist : (zipWords f b other).toArray[j]? = (zipWords f b other)[j]? := List.getElem?_toArray
      rw [hwords, ← hsize, Nat.min_self, hlist]
      by_cases hj : j < b.words.size
      · have hj' : j < other.words.size := hsize ▸ hj
        rw [getElem?_zipWords f hj hj']
        simp [hj, hj']
      · have hle : (zipWords f b other).length ≤ j := by
          rw [zipWords, List.length_zipWith, Array.length_toList, Array.length_toList]
          omega
        rw [List.getElem?_eq_none hle]
        simp [hj]
    obtain ⟨words, width⟩ := c
    obtain rfl : words = _ := hzip
    obtain rfl : width = _ := hcwidth
    rw [if_pos hwidth, if_pos hwidth, hc]
    rfl
  · rw [if_neg hwidth, if_neg hwidth]
    rfl

end Bitmap.Edit

end ModalMu
