import ModalMu.Bitmap.Basic

/-!
# The members of bitmaps

What each operation does to the view `test`, and that it keeps bitmaps well formed.
-/

namespace ModalMu

namespace Bitmap

theorem bit_lt_wordCount {width i : Nat} (h : i < width) : i / 64 < wordCount width := by
  unfold wordCount
  omega

/-- The bit of a word of a bitmap, for a word that is there. -/
theorem test_eq_of_getElem? {b : Bitmap} {i : Nat} {w : UInt64} (h : b.words[i / 64]? = some w) :
    b.test i = Word.bit w (i % 64) := by
  simp [test, Array.getD_eq_getD_getElem?, h]

theorem test_eq_false_of_size_le {b : Bitmap} {i : Nat} (h : b.words.size ≤ i / 64) :
    b.test i = false := by
  simp [test, Array.getD_eq_getD_getElem?, Array.getElem?_eq_none h]

/-- Changing one word changes the bits of that word only. -/
theorem test_modifyWord (b : Bitmap) (n : Nat) (f : UInt64 → UInt64) (i : Nat)
    (hn : n / 64 < b.words.size) :
    (b.modifyWord n f).test i =
      if i / 64 = n / 64 then Word.bit (f (b.words.getD (n / 64) 0)) (i % 64) else b.test i := by
  unfold test modifyWord
  simp only [Array.getD_eq_getD_getElem?, Array.getElem?_modify]
  by_cases h : i / 64 = n / 64
  · simp [h, hn]
  · have h' : ¬n / 64 = i / 64 := fun e => h e.symm
    simp [h, h']

@[simp] theorem width_modifyWord (b : Bitmap) (n : Nat) (f : UInt64 → UInt64) :
    (b.modifyWord n f).width = b.width := rfl

@[simp] theorem size_words_modifyWord (b : Bitmap) (n : Nat) (f : UInt64 → UInt64) :
    (b.modifyWord n f).words.size = b.words.size := by
  simp [modifyWord]

@[simp] theorem size_words_mapWords (b : Bitmap) (f : UInt64 → UInt64) :
    (b.mapWords f).words.size = b.words.size := by
  simp [mapWords]

@[simp] theorem width_mapWords (b : Bitmap) (f : UInt64 → UInt64) : (b.mapWords f).width = b.width := rfl

/-- Changing all words changes each bit by the word it is in. -/
theorem test_mapWords (b : Bitmap) (f : UInt64 → UInt64) (i : Nat) (hi : i / 64 < b.words.size) :
    (b.mapWords f).test i = Word.bit (f (b.words.getD (i / 64) 0)) (i % 64) := by
  simp [test, mapWords, Array.getD_eq_getD_getElem?, hi]

/-- Two well formed bitmaps of one width with the same members are equal. -/
theorem eq_of_test_eq {a b : Bitmap} (ha : a.WellFormed) (hb : b.WellFormed)
    (hwidth : a.width = b.width) (h : ∀ i < a.width, a.test i = b.test i) : a = b := by
  have hsize : a.words.size = b.words.size := by
    rw [ha.size_words, hb.size_words, hwidth]
  have htest : ∀ i, a.test i = b.test i := by
    intro i
    by_cases hi : i < a.width
    · exact h i hi
    · rw [ha.test_of_le i (by omega), hb.test_of_le i (by omega)]
  have hwords : a.words = b.words := by
    apply Array.ext hsize
    intro k hka hkb
    apply Word.eq_of_bit_eq
    intro j hj
    have hk : (64 * k + j) / 64 = k := by omega
    have hm : (64 * k + j) % 64 = j := by omega
    have := htest (64 * k + j)
    rw [test_eq_of_getElem? (w := a.words[k]) (by simp [hk]),
      test_eq_of_getElem? (w := b.words[k]) (by simp [hk]), hm] at this
    exact this
  cases a
  cases b
  simp_all

/-! ## Empty and full -/

@[simp] theorem width_empty (width : Nat) : (empty width).width = width := rfl

@[simp] theorem test_empty (width i : Nat) : (empty width).test i = false := by
  simp only [test, empty, Array.getD_eq_getD_getElem?, Array.getElem?_replicate]
  split <;> simp

theorem wellFormed_empty (width : Nat) : (empty width).WellFormed where
  size_words := by simp [empty]
  test_of_le i _ := test_empty width i

@[simp] theorem width_clear (b : Bitmap) : b.clear.width = b.width := rfl

@[simp] theorem test_clear (b : Bitmap) (i : Nat) : b.clear.test i = false := by
  by_cases hi : i / 64 < b.words.size
  · unfold clear
    rw [test_mapWords b _ i hi, Word.bit_zero]
  · exact test_eq_false_of_size_le (by simp [clear]; omega)

theorem WellFormed.clear {b : Bitmap} (hb : b.WellFormed) : b.clear.WellFormed where
  size_words := by simp [Bitmap.clear, hb.size_words]
  test_of_le i _ := test_clear b i

/-! ## Padding -/

/-- Words that fit the width, with anything beyond the width. -/
theorem test_clearPadding {b : Bitmap} (h : b.words.size = wordCount b.width) (i : Nat) :
    b.clearPadding.test i = (b.test i && decide (i < b.width)) := by
  by_cases hlast : b.width / 64 < b.words.size
  · unfold clearPadding
    rw [test_modifyWord b _ _ i hlast]
    have hmod : b.width % 64 < 64 := Nat.mod_lt _ (by decide)
    by_cases hi : i / 64 = b.width / 64
    · rw [if_pos hi, Word.bit_and, Word.bit_below hmod, ← hi]
      have : decide (i % 64 < b.width % 64) = decide (i < b.width) := by
        rw [decide_eq_decide]
        omega
      rw [this]
      rfl
    · rw [if_neg hi]
      by_cases hlt : i < b.width
      · simp [hlt]
      · rw [test_eq_false_of_size_le (b := b) (i := i) (by unfold wordCount at h; omega)]
        rfl
  · have hsame : ∀ f, b.words.modify (b.width / 64) f = b.words := by
      intro f
      apply Array.ext (by simp)
      intro k hk _
      rw [Array.getElem_modify, if_neg]
      rw [Array.size_modify] at hk
      omega
    rw [clearPadding, modifyWord, hsame]
    by_cases hlt : i < b.width
    · simp [hlt]
    · rw [test_eq_false_of_size_le (b := b) (i := i) (by unfold wordCount at h; omega)]
      rfl

theorem wellFormed_clearPadding {b : Bitmap} (h : b.words.size = wordCount b.width) :
    b.clearPadding.WellFormed where
  size_words := by simp [clearPadding, h]
  test_of_le i hi := by
    have hnot : ¬i < b.width := Nat.not_lt.2 hi
    simp [test_clearPadding h, hnot]

@[simp] theorem width_fill (b : Bitmap) : b.fill.width = b.width := rfl

theorem WellFormed.fill {b : Bitmap} (hb : b.WellFormed) : b.fill.WellFormed :=
  wellFormed_clearPadding (by simp [hb.size_words])

theorem test_fill {b : Bitmap} (hb : b.WellFormed) (i : Nat) : b.fill.test i = decide (i < b.width) := by
  unfold Bitmap.fill
  rw [test_clearPadding (by simp [hb.size_words])]
  by_cases hi : i < b.width
  · have hword : i / 64 < b.words.size := hb.size_words ▸ bit_lt_wordCount hi
    rw [test_mapWords b _ i hword, Word.bit_ones]
    simp [hi, Nat.mod_lt]
  · simp [hi]

@[simp] theorem width_full (width : Nat) : (full width).width = width := rfl

theorem wellFormed_full (width : Nat) : (full width).WellFormed := (wellFormed_empty width).fill

@[simp] theorem test_full (width i : Nat) : (full width).test i = decide (i < width) :=
  test_fill (wellFormed_empty width) i

@[simp] theorem width_complement (b : Bitmap) : b.complement.width = b.width := rfl

theorem WellFormed.complement {b : Bitmap} (hb : b.WellFormed) : b.complement.WellFormed :=
  wellFormed_clearPadding (by simp [hb.size_words])

theorem test_complement {b : Bitmap} (hb : b.WellFormed) (i : Nat) :
    b.complement.test i = (decide (i < b.width) && !b.test i) := by
  unfold Bitmap.complement
  rw [test_clearPadding (by simp [hb.size_words])]
  by_cases hi : i < b.width
  · have hword : i / 64 < b.words.size := hb.size_words ▸ bit_lt_wordCount hi
    rw [test_mapWords b _ i hword, Word.bit_not]
    simp [hi, Nat.mod_lt, test]
  · simp [hi]

/-! ## Two bitmaps -/

theorem getElem?_zipWords (f : UInt64 → UInt64 → UInt64) {a b : Bitmap} {k : Nat} (ha : k < a.words.size)
    (hb : k < b.words.size) : (zipWords f a b)[k]? = some (f a.words[k] b.words[k]) := by
  rw [zipWords, List.getElem?_zipWith, Array.getElem?_toList, Array.getElem?_toList,
    Array.getElem?_eq_getElem ha, Array.getElem?_eq_getElem hb]

theorem test_zip {f : UInt64 → UInt64 → UInt64} {g : Bool → Bool → Bool}
    (hf : ∀ v w i, i < 64 → Word.bit (f v w) i = g (Word.bit v i) (Word.bit w i)) (hg : g false false = false)
    {a b c : Bitmap} (ha : a.WellFormed) (hb : b.WellFormed) (h : zip f a b = .ok c) :
    c.width = a.width ∧ c.WellFormed ∧ ∀ i, c.test i = g (a.test i) (b.test i) := by
  unfold zip at h
  split at h
  · next hwidth =>
    have hc : c = { a with words := (zipWords f a b).toArray } := by
      injection h with h
      exact h.symm
    have hsize : a.words.size = b.words.size := by
      rw [ha.size_words, hb.size_words, hwidth]
    have htest : ∀ i, c.test i = g (a.test i) (b.test i) := by
      intro i
      by_cases hi : i / 64 < a.words.size
      · have hi' : i / 64 < b.words.size := hsize ▸ hi
        rw [test_eq_of_getElem? (b := a) (Array.getElem?_eq_getElem hi),
          test_eq_of_getElem? (b := b) (Array.getElem?_eq_getElem hi'),
          test_eq_of_getElem? (b := c) (w := f a.words[i / 64] b.words[i / 64])
            (by rw [hc, List.getElem?_toArray, getElem?_zipWords f hi hi'])]
        exact hf _ _ _ (Nat.mod_lt _ (by decide))
      · rw [test_eq_false_of_size_le (b := a) (by omega),
          test_eq_false_of_size_le (b := b) (by omega),
          test_eq_false_of_size_le (b := c) (by simp [hc, zipWords]; omega), hg]
    refine ⟨by rw [hc], ⟨?_, ?_⟩, htest⟩
    · simp [hc, zipWords, ← hsize, ha.size_words]
    · intro i hi
      have hia : a.width ≤ i := by simpa [hc] using hi
      rw [htest, ha.test_of_le i hia, hb.test_of_le i (hwidth ▸ hia), hg]
  · simp at h

theorem union_eq_ok {a b c : Bitmap} (ha : a.WellFormed) (hb : b.WellFormed)
    (h : a.union b = .ok c) :
    c.width = a.width ∧ c.WellFormed ∧ ∀ i, c.test i = (a.test i || b.test i) :=
  test_zip (fun v w i _ => Word.bit_or v w i) rfl ha hb h

theorem inter_eq_ok {a b c : Bitmap} (ha : a.WellFormed) (hb : b.WellFormed)
    (h : a.inter b = .ok c) :
    c.width = a.width ∧ c.WellFormed ∧ ∀ i, c.test i = (a.test i && b.test i) :=
  test_zip (fun v w i _ => Word.bit_and v w i) rfl ha hb h

theorem diff_eq_ok {a b c : Bitmap} (ha : a.WellFormed) (hb : b.WellFormed)
    (h : a.diff b = .ok c) :
    c.width = a.width ∧ c.WellFormed ∧ ∀ i, c.test i = (a.test i && !b.test i) := by
  refine test_zip (g := fun x y => x && !y) (fun v w i hi => ?_) rfl ha hb h
  rw [Word.bit_and, Word.bit_not]
  simp [hi]

/-! ## Single members -/

/-- Changing one bit of the word that a number below the width belongs to. -/
theorem test_modifyWord_single {b : Bitmap} (hb : b.WellFormed) {n : Nat} (hn : n < b.width)
    {f : UInt64 → UInt64} {v : Bool}
    (hf : ∀ w i, i < 64 → Word.bit (f w) i = if i = n % 64 then v else Word.bit w i) (i : Nat) :
    (b.modifyWord n f).test i = if i = n then v else b.test i := by
  have hword : n / 64 < b.words.size := hb.size_words ▸ bit_lt_wordCount hn
  rw [test_modifyWord b _ _ i hword]
  by_cases hi : i / 64 = n / 64
  · rw [if_pos hi, hf _ _ (Nat.mod_lt _ (by decide)), ← hi]
    by_cases hin : i = n
    · simp [hin]
    · have hmod : ¬i % 64 = n % 64 := by omega
      rw [if_neg hmod, if_neg hin]
      rfl
  · have hin : ¬i = n := fun h => hi (by rw [h])
    rw [if_neg hi, if_neg hin]

theorem insert_eq_ok {b c : Bitmap} {n : Nat} {fresh : Bool} (hb : b.WellFormed)
    (h : b.insert n = .ok (fresh, c)) :
    n < b.width ∧ fresh = !b.test n ∧ c.width = b.width ∧ c.WellFormed ∧
      ∀ i, c.test i = if i = n then true else b.test i := by
  unfold Bitmap.insert at h
  split at h
  · next hn =>
    injection h with h
    injection h with hfresh hc
    have htest : ∀ i, c.test i = if i = n then true else b.test i := by
      intro i
      rw [← hc]
      refine test_modifyWord_single hb hn (fun w j _ => ?_) i
      rw [Word.bit_or, Word.bit_single (Nat.mod_lt _ (by decide))]
      by_cases hj : j = n % 64 <;> simp [hj]
    refine ⟨hn, hfresh.symm, by rw [← hc, width_modifyWord], ⟨?_, ?_⟩, htest⟩
    · rw [← hc]
      simp [hb.size_words]
    · intro i hi
      rw [← hc] at hi
      have hle : b.width ≤ i := hi
      rw [htest, if_neg (by omega), hb.test_of_le i hle]
  · simp at h

theorem erase_eq_ok {b c : Bitmap} {n : Nat} {found : Bool} (hb : b.WellFormed)
    (h : b.erase n = .ok (found, c)) :
    n < b.width ∧ found = b.test n ∧ c.width = b.width ∧ c.WellFormed ∧
      ∀ i, c.test i = if i = n then false else b.test i := by
  unfold Bitmap.erase at h
  split at h
  · next hn =>
    injection h with h
    injection h with hfound hc
    have htest : ∀ i, c.test i = if i = n then false else b.test i := by
      intro i
      rw [← hc]
      refine test_modifyWord_single hb hn (fun w j hj => ?_) i
      rw [Word.bit_and, Word.bit_not, Word.bit_single (Nat.mod_lt _ (by decide))]
      by_cases hjn : j = n % 64 <;> simp [hjn, hj]
    refine ⟨hn, hfound.symm, by rw [← hc, width_modifyWord], ⟨?_, ?_⟩, htest⟩
    · rw [← hc]
      simp [hb.size_words]
    · intro i hi
      rw [← hc] at hi
      have hle : b.width ≤ i := hi
      rw [htest, if_neg (by omega), hb.test_of_le i hle]
  · simp at h

/-! ## Comparisons -/

/-- All words are zero exactly if no bit is set. -/
theorem isEmpty_iff (b : Bitmap) : b.isEmpty = true ↔ ∀ i, b.test i = false := by
  rw [isEmpty, List.all_eq_true]
  constructor
  · intro hzero i
    by_cases hi : i / 64 < b.words.size
    · have hword := Array.getElem?_eq_getElem hi
      have hmem : b.words[i / 64] ∈ b.words.toList := Array.mem_toList_iff.2 (Array.getElem_mem hi)
      rw [test_eq_of_getElem? hword, beq_iff_eq.1 (hzero _ hmem), Word.bit_zero]
    · exact test_eq_false_of_size_le (Nat.le_of_not_lt hi)
  · intro hclear w hw
    obtain ⟨n, hn⟩ := List.mem_iff_getElem?.1 hw
    rw [Array.getElem?_toList] at hn
    apply Classical.byContradiction
    intro hne
    obtain ⟨i, hi, hbit⟩ := Word.exists_bit_of_ne_zero fun h => hne (beq_iff_eq.2 h)
    have hword : b.words[(64 * n + i) / 64]? = some w := by
      rwa [show (64 * n + i) / 64 = n by omega]
    have htest := test_eq_of_getElem? hword
    rw [hclear, show (64 * n + i) % 64 = i by omega, hbit] at htest
    exact Bool.false_ne_true htest

/-- Inclusion is tested on the words that the difference would have. -/
theorem isSubset_eq (a b : Bitmap) : a.isSubset b = (a.diff b).map isEmpty := by
  unfold isSubset diff zip
  split
  · rfl
  · rfl

/-! ## All members -/

/-- The members in some words are the numbers whose bit is set. -/
theorem membersFrom_eq (base : Nat) (words : List UInt64) :
    membersFrom base words =
      ((List.range (64 * words.length)).filter fun i => Word.bit (words.getD (i / 64) 0) (i % 64)).map
        (base + ·) := by
  induction words generalizing base with
  | nil => rfl
  | cons w later ih =>
    have hfirst : (List.range 64).filter (fun i => Word.bit ((w :: later).getD (i / 64) 0) (i % 64)) =
        (List.range 64).filter (Word.bit w) := by
      apply List.filter_congr
      intro i hi
      have hi' : i < 64 := List.mem_range.1 hi
      rw [Nat.div_eq_of_lt hi', Nat.mod_eq_of_lt hi']
      rfl
    have hlater : (fun i => Word.bit ((w :: later).getD (i / 64) 0) (i % 64)) ∘ (64 + ·) =
        fun i => Word.bit (later.getD (i / 64) 0) (i % 64) := by
      funext i
      have hdiv : (64 + i) / 64 = i / 64 + 1 := by omega
      have hmod : (64 + i) % 64 = i % 64 := by omega
      simp only [Function.comp_apply, hdiv, hmod]
      rfl
    have hraise : (base + ·) ∘ (64 + ·) = (base + 64 + ·) := by
      funext i
      simp only [Function.comp_apply]
      omega
    have hlength : 64 * (w :: later).length = 64 + 64 * later.length := by
      rw [List.length_cons]
      omega
    rw [membersFrom, Word.indices_eq, ih, hlength, List.range_add, List.filter_append, hfirst,
      List.filter_map, hlater, List.map_append, List.map_map, hraise]

/-- The members of a well formed bitmap are the numbers below the width whose bit is set. -/
theorem members_eq {b : Bitmap} (hb : b.WellFormed) : b.members = (List.range b.width).filter b.test := by
  have hle : b.width ≤ 64 * b.words.size := by
    rw [hb.size_words, wordCount]
    omega
  have htest : (fun i => Word.bit (b.words.toList.getD (i / 64) 0) (i % 64)) = b.test := by
    funext i
    simp [test, Array.getD_eq_getD_getElem?, List.getD_eq_getElem?_getD]
  have hbeyond : b.test ∘ (b.width + ·) = fun _ => false := by
    funext i
    exact hb.test_of_le _ (Nat.le_add_right _ _)
  have hsplit : 64 * b.words.toList.length = b.width + (64 * b.words.size - b.width) := by
    rw [Array.length_toList]
    omega
  rw [members, membersFrom_eq, htest, hsplit, List.range_add, List.filter_append, List.filter_map,
    hbeyond]
  simp

theorem mem_members {b : Bitmap} (hb : b.WellFormed) {i : Nat} :
    i ∈ b.members ↔ i < b.width ∧ b.test i = true := by
  simp [members_eq hb]

theorem members_pairwise {b : Bitmap} (hb : b.WellFormed) : b.members.Pairwise (· < ·) := by
  rw [members_eq hb]
  exact List.pairwise_lt_range.filter _

theorem length_membersFrom (base : Nat) (words : List UInt64) :
    (membersFrom base words).length = words.foldr (fun w n => Word.count w + n) 0 := by
  induction words generalizing base with
  | nil => rfl
  | cons w later ih =>
    rw [membersFrom, Word.indices_eq, List.length_append, List.length_map, ih, List.foldr_cons,
      Word.count_eq, List.countP_eq_length_filter]

theorem length_members (b : Bitmap) : b.members.length = b.size := length_membersFrom 0 _

end Bitmap

end ModalMu
