import Mathlib.Data.Finset.Card
import Mathlib.Data.Finset.Range
import ModalMu.Proofs.Atomicity
import ModalMu.Proofs.InStep

/-!
# Bitmaps as finite sets

A selection is a finite set of numbers below a width, without words and bits. It has the operations
that bitmaps have, and scripts can be run on registers that hold selections. Whatever the script, and
whatever the widths, its run on bitmaps is in lock-step with its run on selections (`runScript_exact`):
the same commands are refused, for the same reason, and the others give the answers that are right for
the sets, with bitmaps that represent them. Only what the commands `first` and `text` say is left open:
it is about the order of the members and about the words.
-/

namespace ModalMu

/-- A finite set of numbers below a width. -/
@[ext]
structure Selection where
  width : Nat
  members : Finset Nat
  lt_width : ∀ i ∈ members, i < width
deriving DecidableEq

namespace Selection

def empty (width : Nat) : Selection := ⟨width, ∅, by simp⟩

def full (width : Nat) : Selection := ⟨width, Finset.range width, by simp⟩

def complement (S : Selection) : Selection :=
  ⟨S.width, Finset.range S.width \ S.members, fun i hi => by
    rw [Finset.mem_sdiff, Finset.mem_range] at hi
    exact hi.1⟩

/-! ## One number -/

/-- An operation on a number, which has to be below the width. -/
def onIndex {α : Type} (S : Selection) (i : Nat) (op : i < S.width → α) : Except Fault α :=
  if h : i < S.width then .ok (op h) else .error (.bitOutOfRange i S.width)

def contains (S : Selection) (i : Nat) : Except Fault Bool :=
  S.onIndex i fun _ => decide (i ∈ S.members)

/-- The set with `i`, and whether `i` was missing. -/
def insert (S : Selection) (i : Nat) : Except Fault (Bool × Selection) :=
  S.onIndex i fun h => (decide (i ∉ S.members), ⟨S.width, Insert.insert i S.members, fun j hj => by
    rcases Finset.mem_insert.1 hj with rfl | hj
    · exact h
    · exact S.lt_width j hj⟩)

/-- The set without `i`, and whether `i` was there. -/
def erase (S : Selection) (i : Nat) : Except Fault (Bool × Selection) :=
  S.onIndex i fun _ => (decide (i ∈ S.members), ⟨S.width, S.members.erase i, fun j hj =>
    S.lt_width j (Finset.mem_of_mem_erase hj)⟩)

/-! ## Two sets of one width -/

/-- An operation on two sets, which have to be of one width. -/
def combine {α : Type} (S T : Selection) (op : S.width = T.width → α) : Except Fault α :=
  if h : S.width = T.width then .ok (op h) else .error (.widthMismatch S.width T.width)

def union (S T : Selection) : Except Fault Selection :=
  S.combine T fun h => ⟨S.width, S.members ∪ T.members, fun i hi => by
    rcases Finset.mem_union.1 hi with hi | hi
    · exact S.lt_width i hi
    · exact h ▸ T.lt_width i hi⟩

def inter (S T : Selection) : Except Fault Selection :=
  S.combine T fun _ => ⟨S.width, S.members ∩ T.members, fun i hi =>
    S.lt_width i (Finset.mem_of_mem_inter_left hi)⟩

def diff (S T : Selection) : Except Fault Selection :=
  S.combine T fun _ => ⟨S.width, S.members \ T.members, fun i hi =>
    S.lt_width i (Finset.mem_sdiff.1 hi).1⟩

def isSubset (S T : Selection) : Except Fault Bool :=
  S.combine T fun _ => decide (S.members ⊆ T.members)

/-- One set is in another one if nothing is left of it without the other one. -/
theorem isSubset_eq (S T : Selection) :
    S.isSubset T = (S.diff T).map fun U => decide (U.members = ∅) := by
  unfold isSubset diff combine
  split
  · simp [Except.map, Finset.sdiff_eq_empty_iff_subset]
  · rfl

/-! ## Scripts -/

open Refusal in
/-- The answer of a command, where it is about the sets, and the new value of its register. -/
def exec (sets : Registers Selection) :
    Bitmap.Command → Except Refusal (Option Bitmap.Answer × Selection)
  | .empty _ width => .ok (some .unit, empty width)
  | .full _ width => .ok (some .unit, full width)
  | .copy _ x => do
    let S ← read sets x
    .ok (some .unit, S)
  | .insert r i => do
    let S ← read sets r
    let (fresh, S) ← ofFault (S.insert i)
    .ok (some (.flag fresh), S)
  | .erase r i => do
    let S ← read sets r
    let (found, S) ← ofFault (S.erase i)
    .ok (some (.flag found), S)
  | .contains r i => do
    let S ← read sets r
    let found ← ofFault (S.contains i)
    .ok (some (.flag found), S)
  | .union r x => do
    let S ← read sets r
    let T ← read sets x
    let U ← ofFault (S.union T)
    .ok (some .unit, U)
  | .inter r x => do
    let S ← read sets r
    let T ← read sets x
    let U ← ofFault (S.inter T)
    .ok (some .unit, U)
  | .diff r x => do
    let S ← read sets r
    let T ← read sets x
    let U ← ofFault (S.diff T)
    .ok (some .unit, U)
  | .complement r => do
    let S ← read sets r
    .ok (some .unit, S.complement)
  | .clear r => do
    let S ← read sets r
    .ok (some .unit, empty S.width)
  | .fill r => do
    let S ← read sets r
    .ok (some .unit, full S.width)
  | .isSubset r x => do
    let S ← read sets r
    let T ← read sets x
    let yes ← ofFault (S.isSubset T)
    .ok (some (.flag yes), S)
  | .equal r x => do
    let S ← read sets r
    let T ← read sets x
    .ok (some (.flag (decide (S = T))), S)
  | .first r _ | .text r => do
    let S ← read sets r
    .ok (none, S)

/-- The registers after a command. -/
def apply (sets : Registers Selection) (c : Bitmap.Command) : Registers Selection :=
  match exec sets c with
  | .ok (_, S) => sets.set c.register S
  | .error _ => sets

/-- The outcomes of all commands of a script. -/
def runScript : List Bitmap.Command → Registers Selection →
    List (Except Refusal (Option Bitmap.Answer × Selection))
  | [], _ => []
  | c :: rest, sets => exec sets c :: runScript rest (apply sets c)

end Selection

theorem InStep.ofFault {α β : Type} {R : α → β → Prop} {x : Except Fault α} {y : Except Fault β}
    (h : InStep R x y) : InStep R (Refusal.ofFault x) (Refusal.ofFault y) := by
  cases h with
  | ok h => exact .ok h
  | error fault => exact .error (Refusal.fault fault)

namespace Bitmap

/-! ## Bitmaps that represent selections -/

/-- The bitmap has the words that the width needs, no bit beyond the width and the bits of the members;
what it says of its size is true of the set. -/
structure Represents (b : Bitmap) (S : Selection) : Prop where
  width : b.width = S.width
  size_words : b.words.size = (S.width + 63) / 64
  test_of_le : ∀ i, S.width ≤ i → b.test i = false
  test_iff : ∀ i, b.test i = true ↔ i ∈ S.members
  size : b.size = S.members.card
  isEmpty : b.isEmpty = true ↔ S.members = ∅
  isFull : b.isFull = true ↔ S.members = Finset.range S.width

variable {a b : Bitmap} {S T : Selection}

theorem WellFormed.size_eq_card (hb : b.WellFormed) (htest : ∀ i, b.test i = true ↔ i ∈ S.members) :
    b.size = S.members.card := by
  have hmembers : S.members = b.members.toFinset := by
    ext i
    rw [List.mem_toFinset, mem_members hb, ← htest]
    refine ⟨fun h => ⟨?_, h⟩, fun h => h.2⟩
    by_contra hi
    simp [hb.test_of_le i (Nat.le_of_not_lt hi)] at h
  have hnodup : b.members.Nodup := (members_pairwise hb).imp Nat.ne_of_lt
  rw [hmembers, List.toFinset_card_of_nodup hnodup, length_members]

/-- The right bits in a well formed bitmap are enough. -/
theorem WellFormed.represents (hb : b.WellFormed) (hwidth : b.width = S.width)
    (htest : ∀ i, b.test i = true ↔ i ∈ S.members) : b.Represents S where
  width := hwidth
  size_words := hwidth ▸ hb.size_words
  test_of_le := hwidth ▸ hb.test_of_le
  test_iff := htest
  size := hb.size_eq_card htest
  isEmpty := by
    rw [isEmpty_iff, Finset.eq_empty_iff_forall_notMem]
    exact forall_congr' fun i => by rw [← htest, Bool.not_eq_true]
  isFull := by
    have hsubset : S.members ⊆ Finset.range S.width := fun i hi => Finset.mem_range.2 (S.lt_width i hi)
    rw [Bitmap.isFull, beq_iff_eq, hb.size_eq_card htest, hwidth]
    constructor
    · intro hcard
      exact Finset.eq_of_subset_of_card_le hsubset (by rw [Finset.card_range, hcard])
    · intro hall
      rw [hall, Finset.card_range]

theorem Represents.wellFormed (h : b.Represents S) : b.WellFormed where
  size_words := h.width ▸ h.size_words
  test_of_le := h.width ▸ h.test_of_le

theorem represents_empty (width : Nat) : (empty width).Represents (.empty width) :=
  (wellFormed_empty width).represents rfl (by simp [Selection.empty])

theorem represents_full (width : Nat) : (full width).Represents (.full width) :=
  (wellFormed_full width).represents rfl (by simp [Selection.full])

theorem Represents.clear (h : b.Represents S) : b.clear.Represents (.empty S.width) :=
  h.wellFormed.clear.represents h.width (by simp [Selection.empty])

theorem Represents.fill (h : b.Represents S) : b.fill.Represents (.full S.width) :=
  h.wellFormed.fill.represents h.width (by simp [Selection.full, test_fill h.wellFormed, h.width])

theorem Represents.complement (h : b.Represents S) : b.complement.Represents S.complement := by
  refine h.wellFormed.complement.represents h.width fun i => ?_
  rw [test_complement h.wellFormed, h.width, Selection.complement, Finset.mem_sdiff, Finset.mem_range,
    ← h.test_iff]
  simp

/-- A bitmap that represents a set is the only one that does, and it represents no other set. -/
theorem Represents.eq_iff (ha : a.Represents S) (hb : b.Represents T) : a = b ↔ S = T := by
  constructor
  · rintro rfl
    ext i
    · rw [← ha.width, hb.width]
    · rw [← ha.test_iff, hb.test_iff]
  · rintro rfl
    refine eq_of_test_eq ha.wellFormed hb.wellFormed (ha.width.trans hb.width.symm) fun i _ => ?_
    rw [Bool.eq_iff_iff, ha.test_iff, hb.test_iff]

/-! ### One number -/

/-- A number is refused by both or by none, so it is enough to look at the result. -/
theorem Represents.onIndex {α β : Type} {R : α → β → Prop} (h : b.Represents S) {i : Nat}
    {x : Except Fault α} {op : i < S.width → β}
    (hx : ∃ r, x = if i < b.width then .ok r else .error (.bitOutOfRange i b.width))
    (hop : ∀ r, x = .ok r → ∀ hi, R r (op hi)) : InStep R x (S.onIndex i op) := by
  obtain ⟨r, hx⟩ := hx
  rw [h.width] at hx
  by_cases hi : i < S.width
  · rw [if_pos hi] at hx
    rw [hx, Selection.onIndex, dif_pos hi]
    exact .ok (hop r hx hi)
  · rw [hx, if_neg hi, Selection.onIndex, dif_neg hi]
    exact .error _

theorem Represents.contains (h : b.Represents S) (i : Nat) :
    InStep Eq (b.contains i) (S.contains i) := by
  refine h.onIndex ⟨_, rfl⟩ fun found hfound hi => ?_
  rw [Bitmap.contains, if_pos (h.width ▸ hi)] at hfound
  cases hfound
  rw [Bool.eq_iff_iff, h.test_iff, decide_eq_true_iff]

theorem Represents.insert (h : b.Represents S) (i : Nat) :
    InStep (fun r r' => r.1 = r'.1 ∧ r.2.Represents r'.2) (b.insert i) (S.insert i) := by
  refine h.onIndex ⟨_, rfl⟩ fun ⟨fresh, c⟩ hc _ => ?_
  obtain ⟨-, hfresh, hwidth, hwf, htest⟩ := insert_eq_ok h.wellFormed hc
  refine ⟨?_, hwf.represents (hwidth.trans h.width) fun j => ?_⟩
  · rw [hfresh, Bool.eq_iff_iff, decide_eq_true_iff, ← h.test_iff]
    simp
  · rw [htest, Finset.mem_insert, ← h.test_iff]
    by_cases hj : j = i <;> simp [hj]

theorem Represents.erase (h : b.Represents S) (i : Nat) :
    InStep (fun r r' => r.1 = r'.1 ∧ r.2.Represents r'.2) (b.erase i) (S.erase i) := by
  refine h.onIndex ⟨_, rfl⟩ fun ⟨found, c⟩ hc _ => ?_
  obtain ⟨-, hfound, hwidth, hwf, htest⟩ := erase_eq_ok h.wellFormed hc
  refine ⟨?_, hwf.represents (hwidth.trans h.width) fun j => ?_⟩
  · rw [hfound, Bool.eq_iff_iff, decide_eq_true_iff, h.test_iff]
  · rw [htest, Finset.mem_erase, ← h.test_iff]
    by_cases hj : j = i <;> simp [hj]

/-! ### Two sets -/

/-- Two widths are refused by both or by none. -/
theorem Represents.zip (ha : a.Represents S) (hb : b.Represents T)
    {f : UInt64 → UInt64 → UInt64} {op : S.width = T.width → Selection}
    (hop : ∀ c, zip f a b = .ok c → ∀ h, c.Represents (op h)) :
    InStep Represents (zip f a b) (S.combine T op) := by
  by_cases hwidth : S.width = T.width
  · obtain ⟨c, hc⟩ : ∃ c, Bitmap.zip f a b = .ok c :=
      ⟨_, if_pos (ha.width.trans (hwidth.trans hb.width.symm))⟩
    rw [hc, Selection.combine, dif_pos hwidth]
    exact .ok (hop c hc hwidth)
  · rw [Bitmap.zip, ha.width, hb.width, if_neg hwidth, Selection.combine, dif_neg hwidth]
    exact .error _

theorem Represents.union (ha : a.Represents S) (hb : b.Represents T) :
    InStep Represents (a.union b) (S.union T) := by
  refine ha.zip hb fun c hc _ => ?_
  obtain ⟨hwidth, hwf, htest⟩ := union_eq_ok ha.wellFormed hb.wellFormed hc
  refine hwf.represents (hwidth.trans ha.width) fun i => ?_
  rw [htest, Bool.or_eq_true, ha.test_iff, hb.test_iff, Finset.mem_union]

theorem Represents.inter (ha : a.Represents S) (hb : b.Represents T) :
    InStep Represents (a.inter b) (S.inter T) := by
  refine ha.zip hb fun c hc _ => ?_
  obtain ⟨hwidth, hwf, htest⟩ := inter_eq_ok ha.wellFormed hb.wellFormed hc
  refine hwf.represents (hwidth.trans ha.width) fun i => ?_
  rw [htest, Bool.and_eq_true, ha.test_iff, hb.test_iff, Finset.mem_inter]

theorem Represents.diff (ha : a.Represents S) (hb : b.Represents T) :
    InStep Represents (a.diff b) (S.diff T) := by
  refine ha.zip hb fun c hc _ => ?_
  obtain ⟨hwidth, hwf, htest⟩ := diff_eq_ok ha.wellFormed hb.wellFormed hc
  refine hwf.represents (hwidth.trans ha.width) fun i => ?_
  rw [htest, Finset.mem_sdiff, ← ha.test_iff, ← hb.test_iff]
  simp

theorem Represents.isSubset (ha : a.Represents S) (hb : b.Represents T) :
    InStep Eq (a.isSubset b) (S.isSubset T) := by
  rw [isSubset_eq, Selection.isSubset_eq]
  refine (ha.diff hb).map fun c U hc => ?_
  rw [Bool.eq_iff_iff, hc.isEmpty, decide_eq_true_iff]

/-! ## Scripts -/

/-- The bitmap represents the set, and the answer is the one that is right for the sets, where there is
one. -/
def Shows (outcome : Answer × Bitmap) (expected : Option Answer × Selection) : Prop :=
  (∀ answer ∈ expected.1, outcome.1 = answer) ∧ outcome.2.Represents expected.2

/-- Registers with the same names, each of which holds a bitmap that represents the set there. -/
def Holds (regs : Registers Bitmap) (sets : Registers Selection) : Prop :=
  ∀ name, Option.Rel Represents (regs.get? name) (sets.get? name)

variable {regs : Registers Bitmap} {sets : Registers Selection}

theorem holds_empty : Holds .empty .empty := fun _ => .none

theorem Holds.read (h : Holds regs sets) (name : String) :
    InStep Represents (Refusal.read regs name) (Refusal.read sets name) := by
  have hname := h name
  unfold Refusal.read
  generalize regs.get? name = x at hname ⊢
  generalize sets.get? name = y at hname ⊢
  cases hname with
  | some hb => exact .ok hb
  | none => exact .error _

theorem Shows.flag {x y : Bool} (hxy : x = y) (hb : b.Represents S) :
    Shows (.flag x, b) (some (.flag y), S) := ⟨fun _ ha => hxy ▸ (Option.some.inj ha), hb⟩

theorem Shows.unit (hb : b.Represents S) : Shows (.unit, b) (some .unit, S) :=
  ⟨fun _ ha => Option.some.inj ha, hb⟩

/-- A command that edits one bitmap does what its edit does to the set. -/
theorem Holds.edit (h : Holds regs sets) (r : String) {α : Type} {change : Edit Bitmap α} {g : α → Answer}
    {k : Selection → Except Refusal (Option Answer × Selection)}
    (hchange : ∀ b S, b.Represents S → InStep Shows
      (Refusal.ofFault (change.result b) >>= fun a => .ok (g a.1, a.2)) (k S)) :
    InStep Shows (Effect.edit regs r (.ok (g <$> change))).1 (Refusal.read sets r >>= k) := by
  rw [Effect.fst_edit]
  exact (h.read r).bind hchange

/-- A command that combines a bitmap with a second one does what `op` does to the sets. -/
theorem Holds.edit_with (h : Holds regs sets) (r x : String) {f : UInt64 → UInt64 → UInt64}
    {op : Selection → Selection → Except Fault Selection}
    (hop : ∀ a b S T, a.Represents S → b.Represents T → InStep Represents (Bitmap.zip f a b) (op S T)) :
    InStep Shows
      (Effect.edit regs r do
        let b ← Refusal.read regs x
        .ok ((fun _ => Answer.unit) <$> Edit.combine f b)).1
      (do
        let S ← Refusal.read sets r
        let T ← Refusal.read sets x
        let U ← Refusal.ofFault (op S T)
        .ok (some .unit, U)) := by
  rw [Effect.fst_edit_with]
  refine (h.read r).bind fun a S ha => (h.read x).bind fun b T hb => ?_
  rw [Edit.copied_of_atomic (Edit.on_combine ha.wellFormed hb.wellFormed f)]
  exact (hop a b S T ha hb).ofFault.bind fun _ _ hc => .ok (.unit hc)

/-- A command does with the bitmaps what it does with the sets. -/
theorem Holds.exec (h : Holds regs sets) (c : Command) :
    InStep Shows (c.exec regs) (Selection.exec sets c) := by
  cases c with
  | empty r width => exact .ok (.unit (represents_empty width))
  | full r width => exact .ok (.unit (represents_full width))
  | copy r x =>
    show InStep Shows (Effect.assign regs r Answer.unit (Refusal.read regs x)).1 _
    rw [Effect.fst_assign]
    exact (h.read x).bind fun _ _ hb => .ok (.unit hb)
  | insert r i =>
    refine h.edit r fun b S hb => ?_
    rw [Edit.result_of_atomic (Edit.on_insert hb.wellFormed i)]
    refine (hb.insert i).ofFault.bind ?_
    rintro ⟨fresh, c⟩ ⟨fresh', U⟩ ⟨hfresh, hc⟩
    exact .ok (.flag hfresh hc)
  | erase r i =>
    refine h.edit r fun b S hb => ?_
    rw [Edit.result_of_atomic (Edit.on_erase hb.wellFormed i)]
    refine (hb.erase i).ofFault.bind ?_
    rintro ⟨found, c⟩ ⟨found', U⟩ ⟨hfound, hc⟩
    exact .ok (.flag hfound hc)
  | contains r i =>
    refine h.edit r fun b S hb => ?_
    rw [Edit.result_of_atomic (Edit.on_contains hb.wellFormed i), (hb.contains i).eq]
    cases S.contains i with
    | ok found => exact .ok (.flag rfl hb)
    | error f => exact .error _
  | union r x => exact h.edit_with r x fun _ _ _ _ ha hb => ha.union hb
  | inter r x => exact h.edit_with r x fun _ _ _ _ ha hb => ha.inter hb
  | diff r x => exact h.edit_with r x fun _ _ _ _ ha hb => ha.diff hb
  | complement r => exact h.edit r fun _ _ hb => .ok (.unit hb.complement)
  | clear r => exact h.edit r fun _ _ hb => .ok (.unit hb.clear)
  | fill r => exact h.edit r fun _ _ hb => .ok (.unit hb.fill)
  | isSubset r x =>
    refine (h.read r).bind fun _ _ ha => ?_
    rw [bind_assoc]
    refine (h.read x).bind fun _ _ hb => ?_
    rw [bind_assoc]
    exact (ha.isSubset hb).ofFault.bind fun _ _ hyes => .ok (.flag hyes ha)
  | equal r x =>
    refine (h.read r).bind fun a S ha => ?_
    rw [bind_assoc]
    refine (h.read x).bind fun b T hb => .ok (.flag ?_ ha)
    rw [Bool.eq_iff_iff, beq_iff_eq, decide_eq_true_iff, ha.eq_iff hb]
  | first r n | text r => exact (h.read r).bind fun _ _ hb => .ok ⟨nofun, hb⟩

theorem Holds.wellFormed (h : Holds regs sets) (name : String) (b : Bitmap) (hb : regs.get? name = some b) :
    b.WellFormed := by
  have hname := h name
  rw [hb] at hname
  generalize sets.get? name = y at hname
  cases hname with
  | some hb => exact hb.wellFormed

theorem Holds.apply (h : Holds regs sets) (c : Command) :
    Holds (c.apply regs) (Selection.apply sets c) := by
  have hexec := h.exec c
  have hsettles := Command.settles_effect h.wellFormed c
  intro name
  unfold Selection.apply
  generalize hx : c.exec regs = x at hexec
  generalize Selection.exec sets c = y at hexec ⊢
  cases hexec with
  | ok hshows =>
    rw [Command.apply, hsettles.get?_of_ok hx, Registers.get?_set]
    split
    · exact .some hshows.2
    · exact h name
  | error e =>
    rw [Command.apply, hsettles.get?_of_error hx]
    exact h name

/-- A script does with the bitmaps what it does with the sets, command by command. -/
theorem Holds.runScript (h : Holds regs sets) (script : List Command) :
    List.Forall₂ (InStep Shows) (runScript script regs) (Selection.runScript script sets) := by
  induction script generalizing regs sets with
  | nil => exact .nil
  | cons c rest ih => exact .cons (h.exec c) (ih (h.apply c))

/-- Bitmaps are exact finite sets: after every command of every script its register is what set algebra
makes of it, and its answer is true of the sets. -/
theorem runScript_exact (script : List Command) :
    List.Forall₂ (InStep Shows) (runScript script .empty) (Selection.runScript script .empty) :=
  holds_empty.runScript script

example : runScript [.empty "a" 65, .complement "a", .erase "a" 64, .insert "a" 65] .empty =
    [.ok (.unit, ⟨#[0, 0], 65⟩), .ok (.unit, ⟨#[Word.ones, 1], 65⟩),
      .ok (.flag true, ⟨#[Word.ones, 0], 65⟩), .error (.fault (.bitOutOfRange 65 65))] := by decide

end Bitmap

end ModalMu
