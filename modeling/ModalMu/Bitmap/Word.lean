/-!
# Words of 64 bits

The view of a word is `bit`, its bit with a given index. The lemmas say what each operation on words
does to the bits.
-/

namespace ModalMu

namespace Word

/-- The bit of a word with the index `i`, counted from the least significant one. -/
def bit (w : UInt64) (i : Nat) : Bool := decide (i < 64) && (w >>> UInt64.ofNat i) &&& 1 == 1

/-- The word whose only bit is the one with the index `i`. -/
def single (i : Nat) : UInt64 := 1 <<< UInt64.ofNat i

/-- The word whose bits are those below `n`. -/
def below (n : Nat) : UInt64 := (1 <<< UInt64.ofNat n) - 1

/-- The word with all bits. -/
def ones : UInt64 := ~~~0

/-- The number of bits that are set among the lowest `n`. -/
def countBelow : (n : Nat) → UInt64 → Nat
  | 0, _ => 0
  | n + 1, w => countBelow n (w >>> 1) + if w &&& 1 = 0 then 0 else 1

/-- The number of bits that are set. -/
def count (w : UInt64) : Nat := countBelow 64 w

/-- The number of zeros before the first bit that is set, among the lowest `n` bits. -/
def zerosBelow : (n : Nat) → UInt64 → Nat
  | 0, _ => 0
  | n + 1, w => if w &&& 1 = 0 then zerosBelow n (w >>> 1) + 1 else 0

/-- The index of the lowest bit that is set. -/
def lowest? (w : UInt64) : Option Nat := if w = 0 then none else some (zerosBelow 64 w)

/-- The indices of the bits that are set among the lowest `n`, counted from `base`, before `rest`. -/
def indices : (n base : Nat) → UInt64 → List Nat → List Nat
  | 0, _, _, rest => rest
  | n + 1, base, w, rest =>
    if w = 0 then rest
    else if w &&& 1 = 0 then indices n (base + 1) (w >>> 1) rest
    else base :: indices n (base + 1) (w >>> 1) rest

/-- The word without its lowest bit. -/
def dropLowest (w : UInt64) : UInt64 := w &&& (w - 1)

/-! ## Bits -/

theorem shift_toNat {i : Nat} (h : i < 64) : ((UInt64.ofNat i).toBitVec % 64).toNat = i := by
  rw [BitVec.toNat_umod, UInt64.toNat_toBitVec,
    UInt64.toNat_ofNat_of_lt' (by simp [UInt64.size]; omega)]
  exact Nat.mod_eq_of_lt h

theorem and_one_eq_one_iff (w : UInt64) : w &&& 1 = 1 ↔ w.toBitVec.getLsbD 0 = true := by
  have hone : ∀ i, (1 : UInt64).toBitVec.getLsbD i = decide (i = 0) := by
    intro i
    rw [show (1 : UInt64).toBitVec = 1#64 from rfl, BitVec.getLsbD_one]
    simp
  constructor
  · intro h
    have := congrArg (fun v => v.toBitVec.getLsbD 0) h
    simpa [hone] using this
  · intro h
    apply UInt64.eq_of_toBitVec_eq
    apply BitVec.eq_of_getLsbD_eq
    intro i _
    rw [UInt64.toBitVec_and, BitVec.getLsbD_and, hone]
    by_cases hi : i = 0
    · simp [hi, h]
    · simp [hi]

/-- The bits are those of the word as a bit vector. -/
theorem bit_eq_getLsbD (w : UInt64) (i : Nat) : bit w i = w.toBitVec.getLsbD i := by
  by_cases hi : i < 64
  · have hshift : (w >>> UInt64.ofNat i).toBitVec.getLsbD 0 = w.toBitVec.getLsbD i := by
      simp only [UInt64.toBitVec_shiftRight, BitVec.ushiftRight_eq', shift_toNat hi,
        BitVec.getLsbD_ushiftRight, Nat.add_zero]
    rw [← hshift, Bool.eq_iff_iff, ← and_one_eq_one_iff]
    simp [bit, hi]
  · rw [BitVec.getLsbD_of_ge _ _ (by omega)]
    simp [bit, hi]

theorem eq_of_bit_eq {v w : UInt64} (h : ∀ i < 64, bit v i = bit w i) : v = w := by
  apply UInt64.eq_of_toBitVec_eq
  apply BitVec.eq_of_getLsbD_eq
  intro i hi
  rw [← bit_eq_getLsbD, ← bit_eq_getLsbD]
  exact h i hi

@[simp] theorem bit_zero (i : Nat) : bit 0 i = false := by simp [bit_eq_getLsbD]

@[simp] theorem bit_and (v w : UInt64) (i : Nat) : bit (v &&& w) i = (bit v i && bit w i) := by
  simp [bit_eq_getLsbD]

@[simp] theorem bit_or (v w : UInt64) (i : Nat) : bit (v ||| w) i = (bit v i || bit w i) := by
  simp [bit_eq_getLsbD]

theorem bit_not (w : UInt64) (i : Nat) : bit (~~~w) i = (decide (i < 64) && !bit w i) := by
  simp [bit_eq_getLsbD]

theorem bit_ones (i : Nat) : bit ones i = decide (i < 64) := by
  rw [ones, bit_not, bit_zero, Bool.not_false, Bool.and_true]

theorem bit_single {n : Nat} (hn : n < 64) (i : Nat) : bit (single n) i = decide (i = n) := by
  simp only [bit_eq_getLsbD, single, UInt64.toBitVec_shiftLeft, BitVec.shiftLeft_eq', shift_toNat hn,
    BitVec.getLsbD_shiftLeft]
  rw [show (1 : UInt64).toBitVec = 1#64 from rfl, BitVec.getLsbD_one]
  rw [Bool.eq_iff_iff]
  simp
  omega

theorem bit_below {n : Nat} (hn : n < 64) (i : Nat) : bit (below n) i = decide (i < n) := by
  have hpow : 2 ^ n < 2 ^ 64 := Nat.pow_lt_pow_right (by decide) hn
  have hone : ((1 : UInt64) <<< UInt64.ofNat n).toNat = 2 ^ n := by
    rw [UInt64.toNat_shiftLeft, UInt64.toNat_ofNat_of_lt' (by simp [UInt64.size]; omega),
      Nat.mod_eq_of_lt hn, Nat.shiftLeft_eq, UInt64.toNat_one, Nat.one_mul, Nat.mod_eq_of_lt hpow]
  have hle : (1 : UInt64) ≤ 1 <<< UInt64.ofNat n := by
    rw [UInt64.le_iff_toNat_le, hone, UInt64.toNat_one]
    exact Nat.one_le_two_pow
  have hbelow : (below n).toNat = 2 ^ n - 1 := by
    rw [below, UInt64.toNat_sub_of_le _ _ hle, hone, UInt64.toNat_one]
  have hbit : bit (below n) i = (below n).toNat.testBit i := bit_eq_getLsbD _ i
  rw [hbit, hbelow, Nat.testBit_two_pow_sub_one]

theorem bit_shiftRight_one (w : UInt64) (i : Nat) : bit (w >>> 1) i = bit w (i + 1) := by
  have hshift : ((1 : UInt64).toBitVec % 64).toNat = 1 := by decide
  simp only [bit_eq_getLsbD, UInt64.toBitVec_shiftRight, BitVec.ushiftRight_eq', hshift,
    BitVec.getLsbD_ushiftRight]
  rw [Nat.add_comm]

theorem and_one_eq_zero_iff (w : UInt64) : w &&& 1 = 0 ↔ bit w 0 = false := by
  have hone : ∀ i, bit 1 i = decide (i = 0) := bit_single (n := 0) (by decide)
  constructor
  · intro h
    have := congrArg (bit · 0) h
    simpa [hone] using this
  · intro h
    apply eq_of_bit_eq
    intro i _
    rw [bit_and, hone, bit_zero]
    by_cases hi : i = 0
    · simp [hi, h]
    · simp [hi]

theorem exists_bit_of_ne_zero {w : UInt64} (h : w ≠ 0) : ∃ i < 64, bit w i = true := by
  apply Classical.byContradiction
  intro hall
  apply h
  apply eq_of_bit_eq
  intro i hi
  cases hb : bit w i
  · rw [bit_zero]
  · exact absurd ⟨i, hi, hb⟩ hall

/-! ## Counting bits -/

/-- The recursion counts the indices whose bit is set. -/
theorem countBelow_eq (n : Nat) (w : UInt64) : countBelow n w = (List.range n).countP (bit w) := by
  induction n generalizing w with
  | zero => rfl
  | succ n ih =>
    have hshift : bit w ∘ Nat.succ = bit (w >>> 1) := by
      funext i
      exact (bit_shiftRight_one w i).symm
    rw [countBelow, ih, List.range_succ_eq_map, List.countP_cons, List.countP_map, hshift]
    by_cases h : w &&& 1 = 0
    · simp [h, (and_one_eq_zero_iff w).1 h]
    · have hb : bit w 0 = true := by
        simpa using fun hf => h ((and_one_eq_zero_iff w).2 hf)
      simp [h, hb]

theorem count_eq (w : UInt64) : count w = (List.range 64).countP (bit w) := countBelow_eq 64 w

/-- The recursion lists the indices whose bit is set. -/
theorem indices_eq (n base : Nat) (w : UInt64) (rest : List Nat) :
    indices n base w rest = ((List.range n).filter (bit w)).map (base + ·) ++ rest := by
  induction n generalizing base w with
  | zero => rfl
  | succ n ih =>
    have hshift : bit w ∘ Nat.succ = bit (w >>> 1) := by
      funext i
      exact (bit_shiftRight_one w i).symm
    have hraise : (base + ·) ∘ Nat.succ = (base + 1 + ·) := by
      funext i
      simp only [Function.comp_apply]
      omega
    rw [indices, ih, List.range_succ_eq_map, List.filter_cons, List.filter_map, hshift]
    by_cases hw : w = 0
    · subst hw
      simp
    · by_cases h : w &&& 1 = 0
      · simp [hw, h, (and_one_eq_zero_iff w).1 h, hraise]
      · have hb : bit w 0 = true := by
          simpa using fun hf => h ((and_one_eq_zero_iff w).2 hf)
        simp [hw, h, hb, hraise]

/-- If a bit is set, the recursion stops at the first such bit. -/
theorem zerosBelow_spec {n : Nat} {w : UInt64} (h : ∃ i < n, bit w i = true) :
    zerosBelow n w < n ∧ bit w (zerosBelow n w) = true ∧
      ∀ j < zerosBelow n w, bit w j = false := by
  induction n generalizing w with
  | zero =>
    obtain ⟨i, hi, -⟩ := h
    omega
  | succ n ih =>
    rw [zerosBelow]
    by_cases hw : w &&& 1 = 0
    · have hzero := (and_one_eq_zero_iff w).1 hw
      obtain ⟨i, hi, hb⟩ := h
      have hpos : i ≠ 0 := by
        rintro rfl
        simp [hzero] at hb
      obtain ⟨hlt, hbit, hbefore⟩ := ih (w := w >>> 1)
        ⟨i - 1, by omega, by rw [bit_shiftRight_one, Nat.sub_add_cancel (by omega)]; exact hb⟩
      rw [if_pos hw]
      refine ⟨by omega, by rw [← bit_shiftRight_one]; exact hbit, ?_⟩
      intro j hj
      cases j with
      | zero => exact hzero
      | succ j =>
        rw [← bit_shiftRight_one]
        exact hbefore j (by omega)
    · rw [if_neg hw]
      refine ⟨by omega, ?_, by omega⟩
      simpa using fun hf => hw ((and_one_eq_zero_iff w).2 hf)

theorem lowest?_eq_none_iff {w : UInt64} : lowest? w = none ↔ w = 0 := by
  unfold lowest?
  split <;> simp_all

/-- The lowest bit is set and no bit before it is. -/
theorem lowest?_eq_some {w : UInt64} {i : Nat} (h : lowest? w = some i) :
    i < 64 ∧ bit w i = true ∧ ∀ j < i, bit w j = false := by
  unfold lowest? at h
  split at h
  · simp at h
  · next hw =>
    injection h with h
    rw [← h]
    exact zerosBelow_spec (exists_bit_of_ne_zero hw)

/-! ## Taking bits out one by one -/

/-- A word whose lowest bit has the index `i` is an odd number shifted by `i`. -/
theorem exists_toNat_eq_shiftLeft {w : UInt64} {i : Nat} (h : lowest? w = some i) :
    ∃ q, w.toNat = (2 * q + 1) <<< i := by
  obtain ⟨-, hbit, hbefore⟩ := lowest?_eq_some h
  have htest : ∀ j, w.toNat.testBit j = bit w j := fun j => (bit_eq_getLsbD w j).symm
  have hlow : w.toNat % 2 ^ i = 0 := by
    apply Nat.eq_of_testBit_eq
    intro j
    rw [Nat.testBit_mod_two_pow, htest, Nat.zero_testBit]
    by_cases hj : j < i
    · simp [hbefore j hj]
    · simp [hj]
  have hodd : w.toNat / 2 ^ i % 2 = 1 := by
    have := htest i
    rw [hbit, Nat.testBit_eq_decide_div_mod_eq] at this
    exact of_decide_eq_true this
  refine ⟨w.toNat / 2 ^ i / 2, ?_⟩
  have hhalf : 2 * (w.toNat / 2 ^ i / 2) + 1 = w.toNat / 2 ^ i := by omega
  rw [hhalf, Nat.shiftLeft_eq]
  exact (Nat.div_mul_cancel (Nat.dvd_of_mod_eq_zero hlow)).symm

/-- Taking the lowest bit away leaves all other bits. -/
theorem bit_dropLowest {w : UInt64} {i : Nat} (h : lowest? w = some i) (j : Nat) :
    bit (dropLowest w) j = (bit w j && decide (j ≠ i)) := by
  obtain ⟨q, hq⟩ := exists_toNat_eq_shiftLeft h
  rw [Nat.shiftLeft_eq, Nat.mul_comm] at hq
  have hpow : 0 < 2 ^ i := Nat.two_pow_pos i
  have hpred : (w - 1).toNat = 2 ^ i * (2 * q) + (2 ^ i - 1) := by
    have hle : (1 : UInt64) ≤ w := by
      rw [UInt64.le_iff_toNat_le, UInt64.toNat_one, hq]
      exact Nat.mul_pos hpow (by omega)
    rw [UInt64.toNat_sub_of_le _ _ hle, UInt64.toNat_one, hq, Nat.mul_add]
    omega
  have hbit : bit w j = (2 ^ i * (2 * q + 1) + 0).testBit j := hq ▸ bit_eq_getLsbD w j
  have hbitPred : bit (w - 1) j = (2 ^ i * (2 * q) + (2 ^ i - 1)).testBit j :=
    hpred ▸ bit_eq_getLsbD (w - 1) j
  rw [dropLowest, bit_and, hbit, hbitPred, Nat.testBit_two_pow_mul_add _ hpow,
    Nat.testBit_two_pow_mul_add _ (by omega : 2 ^ i - 1 < 2 ^ i)]
  rcases Nat.lt_trichotomy j i with hj | rfl | hj
  · simp [hj]
  · simp
  · -- Above the lowest bit, subtracting one changes nothing.
    obtain ⟨n, rfl⟩ : ∃ n, j = i + (n + 1) := ⟨j - i - 1, by omega⟩
    have hnot : ¬i + (n + 1) < i := by omega
    have hhalf : (2 * q + 1) / 2 = q := by omega
    simp [hnot, Nat.testBit_succ, hhalf]

/-- The indices begin with that of the lowest bit. -/
theorem indices_eq_cons {w : UInt64} {i : Nat} (h : lowest? w = some i) (base : Nat)
    (rest : List Nat) : indices 64 base w rest = (base + i) :: indices 64 base (dropLowest w) rest := by
  obtain ⟨hi, hbit, hbefore⟩ := lowest?_eq_some h
  have hrange : List.range 64 = List.range i ++ i :: List.range' (i + 1) (63 - i) := by
    rw [← List.range'_succ, show 63 - i + 1 = 64 - i by omega, List.range_eq_range',
      List.range_eq_range']
    have := List.range'_append_1 (s := 0) (m := i) (n := 64 - i)
    rw [Nat.zero_add, show i + (64 - i) = 64 by omega] at this
    exact this.symm
  have hbelow : (List.range i).filter (bit w) = [] := by
    rw [List.filter_eq_nil_iff]
    intro j hj
    simp [hbefore j (List.mem_range.1 hj)]
  have hset : (List.range 64).filter (bit w) = i :: (List.range' (i + 1) (63 - i)).filter (bit w) := by
    rw [hrange, List.filter_append, hbelow, List.nil_append, List.filter_cons_of_pos hbit]
  have hdropped : (List.range 64).filter (bit (dropLowest w)) =
      (List.range' (i + 1) (63 - i)).filter (bit w) := by
    have hcomm : bit (dropLowest w) = fun j => decide (j ≠ i) && bit w j := by
      funext j
      rw [bit_dropLowest h, Bool.and_comm]
    rw [hcomm, ← List.filter_filter, hset, List.filter_cons_of_neg (by simp), List.filter_eq_self]
    intro j hj
    have hij := (List.mem_range'_1.1 (List.mem_filter.1 hj).1).1
    exact decide_eq_true (by omega)
  rw [indices_eq, indices_eq, hset, hdropped]
  rfl

end Word

end ModalMu
