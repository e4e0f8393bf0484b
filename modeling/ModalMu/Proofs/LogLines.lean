import Mathlib.Data.List.Forall2
import ModalMu.Event
import ModalMu.Proofs.SelfDelimiting

/-!
# What the lines of a log say

The log of a check is a list of texts. A line says of the evaluation that a fixed point is entered, that one
is reset, that a round is over, or that a fixed point has come to rest. This is its mark, and the line begins
with the text of the mark. No text begins as another one does (`Mark.text_selfDelimiting`), so the lines of a
log tell their marks (`Mark.eq_of_forall₂_on`).
-/

namespace ModalMu

open Text (SelfDelimiting toDigits_append_inj)

/-- What a line says of the evaluation. -/
inductive Mark where
  /-- A fixed point is entered; `around` is the kind of the innermost fixed point around it. -/
  | entered (kind : FixKind) (name : Char) (slot : Nat) (around : Option FixKind)
  /-- A fixed point is reset to the extreme value of a kind. -/
  | reset (slot : Nat) (kind : FixKind)
  /-- A round is over, with so many states. -/
  | round (kind : FixKind) (name : Char) (number states : Nat)
  /-- A fixed point has come to rest. -/
  | converged (kind : FixKind) (name : Char) (rounds : Nat)
deriving DecidableEq, Repr

namespace Mark

/-- The text that a line with the mark begins with. -/
def text : Mark → String
  | entered kind name slot around =>
    s!"enter {kind.keyword} {name} (#{slot}), surrounding = {Event.aroundText around}"
  | reset slot kind => s!"reset #{slot} to {Event.extremeText kind}"
  | round kind name number states =>
    s!"{kind.keyword} {name} iteration {number}: {states} states"
  | converged kind name rounds => s!"{kind.keyword} {name} converged after {rounds} iterations: "

/-- The line has the mark. -/
def On (m : Mark) (line : String) : Prop := m.text.toList <+: line.toList

instance (m : Mark) (line : String) : Decidable (m.On line) :=
  inferInstanceAs (Decidable (m.text.toList <+: line.toList))

/-! ## Lines of an evaluation -/

theorem on_entered (k : FixKind) (x : Char) (i : Nat) (around : Option FixKind) :
    (entered k x i around).On (Event.entered k x i around).message := List.prefix_rfl

theorem on_reset (i : Nat) (k : FixKind) : (reset i k).On (Event.reset i k).message := List.prefix_rfl

theorem on_round (k : FixKind) (x : Char) (i n : Nat) : (round k x i n).On (Event.round k x i n).message :=
  List.prefix_rfl

/-- The line of an exit goes on with the value. -/
theorem on_converged (k : FixKind) (x : Char) (n : Nat) (value : StateSet) :
    (converged k x n).On (Event.converged k x n value).message := by
  refine ⟨value.text.toList, ?_⟩
  rw [← String.toList_append]
  rfl

/-! ## The texts as lists -/

section Texts

variable (k : FixKind) (x : Char) (i n : Nat) (around : Option FixKind)

theorem toList_toString_char (c : Char) : (toString c).toList = [c] := String.toList_singleton c

theorem toString_string (s : String) : toString s = s := rfl

theorem toList_text_entered : (entered k x i around).text.toList =
    "enter ".toList ++ (k.keyword.toList ++ ' ' :: x :: (" (#".toList ++ (Nat.toDigits 10 i ++
      ')' :: (", surrounding = ".toList ++ (Event.aroundText around).toList)))) := by
  simp [text, toList_toString_char, toString_string]

theorem toList_text_reset : (reset i k).text.toList =
    "reset #".toList ++ (Nat.toDigits 10 i ++ ' ' :: ("to ".toList ++ (Event.extremeText k).toList)) := by
  simp [text, toString_string]

theorem toList_text_round : (round k x i n).text.toList =
    k.keyword.toList ++ ' ' :: x :: (" iteration ".toList ++ (Nat.toDigits 10 i ++
      ':' :: ' ' :: (Nat.toDigits 10 n ++ ' ' :: "states".toList))) := by
  simp [text, toList_toString_char, toString_string]

theorem toList_text_converged : (converged k x n).text.toList =
    k.keyword.toList ++ ' ' :: x :: (" converged after ".toList ++ (Nat.toDigits 10 n ++
      ' ' :: "iterations: ".toList)) := by
  simp [text, toList_toString_char, toString_string]

end Texts

/-! ## The texts tell the marks -/

theorem keyword_selfDelimiting : SelfDelimiting fun k : FixKind => k.keyword.toList := by
  intro k k' u v h
  cases k <;> cases k' <;> simp_all [FixKind.keyword]

theorem aroundText_selfDelimiting : SelfDelimiting fun around => (Event.aroundText around).toList := by
  intro around around' u v h
  rcases around with _ | _ | _ <;> rcases around' with _ | _ | _ <;> simp_all [Event.aroundText]

theorem extremeText_selfDelimiting : SelfDelimiting fun k => (Event.extremeText k).toList := by
  intro k k' u v h
  cases k <;> cases k' <;> simp_all [Event.extremeText]

section Pairs

variable {k k' : FixKind} {x x' : Char} {i i' n n' : Nat} {around around' : Option FixKind} {u v : List Char}

/-- The kind and the name that rounds and exits begin with. -/
theorem keyword_name_inj (h : k.keyword.toList ++ ' ' :: x :: u = k'.keyword.toList ++ ' ' :: x' :: v) :
    k = k' ∧ x = x' ∧ u = v := by
  obtain ⟨hk, h⟩ := keyword_selfDelimiting h
  obtain ⟨hx, huv⟩ := List.cons.inj (List.cons.inj h).2
  exact ⟨hk, hx, huv⟩

theorem text_entered_inj
    (h : (entered k x i around).text.toList ++ u = (entered k' x' i' around').text.toList ++ v) :
    entered k x i around = entered k' x' i' around' ∧ u = v := by
  rw [toList_text_entered, toList_text_entered] at h
  simp only [List.append_assoc, List.cons_append] at h
  obtain ⟨rfl, rfl, hslot⟩ := keyword_name_inj (List.append_cancel_left h)
  obtain ⟨rfl, -, haround⟩ := toDigits_append_inj rfl rfl (List.append_cancel_left hslot)
  obtain ⟨rfl, rfl⟩ := aroundText_selfDelimiting (List.append_cancel_left haround)
  exact ⟨rfl, rfl⟩

theorem text_reset_inj (h : (reset i k).text.toList ++ u = (reset i' k').text.toList ++ v) :
    reset i k = reset i' k' ∧ u = v := by
  rw [toList_text_reset, toList_text_reset] at h
  simp only [List.append_assoc, List.cons_append] at h
  obtain ⟨rfl, -, hextreme⟩ := toDigits_append_inj rfl rfl (List.append_cancel_left h)
  obtain ⟨rfl, rfl⟩ := extremeText_selfDelimiting (List.append_cancel_left hextreme)
  exact ⟨rfl, rfl⟩

theorem text_round_inj (h : (round k x i n).text.toList ++ u = (round k' x' i' n').text.toList ++ v) :
    round k x i n = round k' x' i' n' ∧ u = v := by
  rw [toList_text_round, toList_text_round] at h
  simp only [List.append_assoc, List.cons_append] at h
  obtain ⟨rfl, rfl, hnumber⟩ := keyword_name_inj h
  obtain ⟨rfl, -, hstates⟩ := toDigits_append_inj rfl rfl (List.append_cancel_left hnumber)
  obtain ⟨rfl, -, hend⟩ := toDigits_append_inj rfl rfl (List.cons.inj hstates).2
  exact ⟨rfl, List.append_cancel_left hend⟩

theorem text_converged_inj
    (h : (converged k x n).text.toList ++ u = (converged k' x' n').text.toList ++ v) :
    converged k x n = converged k' x' n' ∧ u = v := by
  rw [toList_text_converged, toList_text_converged] at h
  simp only [List.append_assoc, List.cons_append] at h
  obtain ⟨rfl, rfl, hrounds⟩ := keyword_name_inj h
  obtain ⟨rfl, -, hend⟩ := toDigits_append_inj rfl rfl (List.append_cancel_left hrounds)
  exact ⟨rfl, List.append_cancel_left hend⟩

theorem text_round_ne_converged :
    (round k x i n).text.toList ++ u ≠ (converged k' x' n').text.toList ++ v := by
  intro h
  rw [toList_text_round, toList_text_converged] at h
  simp only [List.append_assoc, List.cons_append] at h
  obtain ⟨-, -, h⟩ := keyword_name_inj h
  exact absurd (List.cons.inj (List.cons.inj h).2).1 (by decide)

end Pairs

/-- The first character of a text. -/
def first : Mark → Char
  | entered .. => 'e'
  | reset .. => 'r'
  | round k .. | converged k .. => if k = .least then 'm' else 'n'

theorem head?_text_append (m : Mark) (u : List Char) : (m.text.toList ++ u).head? = some m.first := by
  cases m with
  | entered => rw [toList_text_entered]; rfl
  | reset => rw [toList_text_reset]; rfl
  | round k => rw [toList_text_round]; cases k <;> rfl
  | converged k => rw [toList_text_converged]; cases k <;> rfl

/-- The text of a mark tells the mark, whatever follows it. -/
theorem text_selfDelimiting : SelfDelimiting fun m : Mark => m.text.toList := by
  intro m m' u v h
  have hfirst : m.first = m'.first := by
    have hhead : (m.text.toList ++ u).head? = (m'.text.toList ++ v).head? := congrArg List.head? h
    rwa [head?_text_append, head?_text_append, Option.some.injEq] at hhead
  cases m with
  | entered =>
    cases m' with
    | entered => exact text_entered_inj h
    | reset => simp [first] at hfirst
    | round k | converged k => cases k <;> simp [first] at hfirst
  | reset =>
    cases m' with
    | reset => exact text_reset_inj h
    | entered => simp [first] at hfirst
    | round k | converged k => cases k <;> simp [first] at hfirst
  | round k =>
    cases m' with
    | round => exact text_round_inj h
    | converged => exact absurd h text_round_ne_converged
    | entered | reset => cases k <;> simp [first] at hfirst
  | converged k =>
    cases m' with
    | converged => exact text_converged_inj h
    | round => exact absurd h.symm text_round_ne_converged
    | entered | reset => cases k <;> simp [first] at hfirst

/-- The first line of a check and the last one begin so. -/
def IsCheck (line : String) : Prop := "check: ".toList <+: line.toList

theorem IsCheck.append {s : String} (h : IsCheck s) (t : String) : IsCheck (s ++ t) := by
  unfold IsCheck
  rw [String.toList_append]
  exact List.IsPrefix.trans h (List.prefix_append _ _)

theorem isCheck_started (f : Formula) (binders depth : Nat) (policy : ResetPolicy) :
    IsCheck (Event.started f binders depth policy).message := by
  unfold Event.message
  repeat refine IsCheck.append ?_ _
  exact List.prefix_rfl

theorem isCheck_finished (satisfying states rounds : Nat) :
    IsCheck (Event.finished satisfying states rounds).message := by
  unfold Event.message
  repeat refine IsCheck.append ?_ _
  exact List.prefix_rfl

/-- The lines of an evaluation are none of the two lines around them. -/
theorem On.not_isCheck {m : Mark} {line : String} (h : m.On line) : ¬IsCheck line := by
  rintro ⟨v, hv⟩
  obtain ⟨u, hu⟩ := h
  have hfirst : some m.first = some 'c' := by
    rw [← head?_text_append m u, hu, ← hv]
    rfl
  cases m with
  | entered | reset => simp [first] at hfirst
  | round k | converged k => cases k <;> simp [first] at hfirst

/-- No line has two marks. -/
theorem On.eq {m m' : Mark} {line : String} (h : m.On line) (h' : m'.On line) : m = m' := by
  obtain ⟨u, hu⟩ := h
  obtain ⟨v, hv⟩ := h'
  exact (text_selfDelimiting (hu.trans hv.symm)).1

theorem not_isCheck_of_forall₂_on {marks : List Mark} {lines : List String}
    (h : List.Forall₂ On marks lines) : ∀ line ∈ lines, ¬IsCheck line := by
  induction h with
  | nil => nofun
  | cons hfirst _ ih => exact List.forall_mem_cons.2 ⟨hfirst.not_isCheck, ih⟩

/-- The lines of a log tell their marks. -/
theorem eq_of_forall₂_on {marks marks' : List Mark} {lines : List String} (h : List.Forall₂ On marks lines)
    (h' : List.Forall₂ On marks' lines) : marks = marks' := by
  induction h generalizing marks' with
  | nil =>
    cases h' with
    | nil => rfl
  | cons hfirst _ ih =>
    cases h' with
    | cons hfirst' hrest' => rw [hfirst.eq hfirst', ih hrest']

end Mark

end ModalMu
