import ModalMu.Proofs.Grammar
import ModalMu.Sentence.Offset

/-!
# Reading by offsets

The reader in place and the reader on lists of characters find the same tokens. The latter cannot tear a
character apart, because it never lets go of the rest of the text. At each step the offset of the one is
where the rest of the other begins (`At`), or differs from it by white space and comments only (`Near`), so
every cut succeeds. Two readers agree (`Agrees`) if both go on or both report the same error at the same
place. What a reader of formulas can report is said along with it (`Inner`).
-/

namespace ModalMu

namespace Offset

open Text SyntaxError
open ModalMu.Parser (Failure isWordChar)

/-! ## Cuts -/

theorem ok_bind {ε α β : Type} (a : α) (f : α → Except ε β) : (Except.ok a >>= f) = f a := rfl

theorem cut_append (s t : List Char) : cut (s ++ t) (byteLength s) = .ok (s, t) := by
  induction s with
  | nil => cases t <;> rfl
  | cons c s ih =>
    have hpos := c.utf8Size_pos
    obtain ⟨k, hk⟩ : ∃ k, c.utf8Size + byteLength s = k + 1 := ⟨c.utf8Size + byteLength s - 1, by omega⟩
    have hrest : k + 1 - c.utf8Size = byteLength s := by omega
    rw [List.cons_append, byteLength, hk, cut, if_pos (by omega), hrest, ih]
    rfl

/-- A cut succeeds exactly at an offset between two characters. -/
theorem cut_eq_ok_iff {src s t : List Char} {n : Nat} :
    cut src n = .ok (s, t) ↔ src = s ++ t ∧ n = byteLength s := by
  constructor
  · intro h
    fun_induction cut src n generalizing s with
    | case1 src =>
      obtain ⟨rfl, rfl⟩ := Prod.mk.inj (Except.ok.inj h)
      exact ⟨rfl, rfl⟩
    | case2 => cases h
    | case3 c src n hc ih =>
      obtain ⟨⟨before, rest⟩, hcut, h⟩ := bind_eq_ok_iff.1 h
      obtain ⟨rfl, rfl⟩ : c :: before = s ∧ rest = t := Prod.mk.inj (Except.ok.inj h)
      obtain ⟨rfl, hn⟩ := ih hcut
      refine ⟨rfl, ?_⟩
      rw [byteLength]
      omega
    | case4 => cases h
  · rintro ⟨rfl, rfl⟩
    exact cut_append s t

example : cut ['é'] 1 = .error .torn := rfl

/-- The text from the offset on is `s`. -/
def At (src : List Char) (n : Nat) (s : List Char) : Prop :=
  ∃ before, src = before ++ s ∧ n = byteLength before

section At

variable {src s t : List Char} {n : Nat}

theorem at_zero (src : List Char) : At src 0 src := ⟨[], rfl, rfl⟩

theorem At.textFrom (h : At src n s) : textFrom src n = .ok s := by
  obtain ⟨before, rfl, rfl⟩ := h
  rw [Offset.textFrom, cut_append]
  rfl

/-- A step over the beginning of the text. -/
theorem At.advance {w : List Char} (h : At src n t) (ht : t = w ++ s) : At src (n + byteLength w) s := by
  obtain ⟨before, rfl, rfl⟩ := h
  exact ⟨before ++ w, by rw [ht, List.append_assoc], (Position.byteLength_append before w).symm⟩

theorem At.next {c : Char} (h : At src n (c :: s)) : At src (n + c.utf8Size) s := h.advance (w := [c]) rfl

/-- The offset of a remainder is the size of the whole text less that of the remainder. -/
theorem At.remainder {w : List Char} (h : At src n t) (ht : t = w ++ s) :
    At src (byteLength src - byteLength s) s := by
  obtain ⟨before, rfl, rfl⟩ := h
  refine ⟨before ++ w, by rw [ht, List.append_assoc], ?_⟩
  simp only [ht, Position.byteLength_append]
  omega

theorem At.length_le (h : At src n s) : s.length ≤ src.length := by
  obtain ⟨before, rfl, rfl⟩ := h
  simp

end At

/-! ## Places -/

/-- A text is its earlier lines and the one that it ends in. -/
theorem eq_earlier_append_current (before : List Char) :
    before = (before.reverse.dropWhile (· != '\n')).reverse ++
      (before.reverse.takeWhile (· != '\n')).reverse := by
  rw [← List.reverse_append, List.takeWhile_append_dropWhile, List.reverse_reverse]

theorem position_append (before rest : List Char) :
    position (before ++ rest) (byteLength before) = .ok (Position.after before) := by
  have hcut := cut_eq_ok_iff.2 ⟨eq_earlier_append_current before, rfl⟩
  simp only [position, cut_append, ok_bind, hcut, List.length_reverse]
  rfl

theorem At.refuse_eq {src s : List Char} {n : Nat} (h : At src n s) {α : Type} (cause : Cause) :
    (refuse src cause n : Except Stop α) = .error (.refused ⟨cause, Position.locate src s⟩) := by
  obtain ⟨before, rfl, rfl⟩ := h
  rw [refuse, position_append, Position.locate_append]
  rfl

/-! ## In step -/

/-- What the reader of formulas may report: the end of the text only at the end, and never that there is more
of it. -/
def Inner (failure : Failure) : Prop :=
  match failure.cause with
  | .unexpectedEnd _ => failure.rest = []
  | .trailingInput _ => False
  | .unexpectedToken .. | .duplicateBinder _ | .unboundVariable _ | .unterminatedLabel .. | .invalidLabel _ =>
    True

theorem Inner.rest_eq_nil {failure : Failure} {expected : Expectation} (h : Inner failure)
    (hcause : failure.cause = .unexpectedEnd expected) : failure.rest = [] := by
  rw [Inner, hcause] at h
  exact h

theorem Inner.cause_ne {failure : Failure} (h : Inner failure) (text : String) :
    failure.cause ≠ .trailingInput text := by
  intro hcause
  rw [Inner, hcause] at h
  exact h

/-- The two readers stop with the same error, at a place in the text, or both go on. -/
inductive Agrees {α β : Type} (src : List Char) (R : α → β → Prop) : Except Stop α → Except Failure β → Prop
  | ok {a : α} {b : β} (h : R a b) : Agrees src R (.ok a) (.ok b)
  | refused {failure : Failure} (h : failure.rest <:+ src) (hinner : Inner failure) :
      Agrees src R (.error (.refused ⟨failure.cause, Position.locate src failure.rest⟩)) (.error failure)

section InStep

variable {α β γ δ : Type} {src s rest : List Char} {n : Nat} {R : α → β → Prop} {Q : γ → δ → Prop}

theorem Agrees.bind {x : Except Stop α} {y : Except Failure β} {f : α → Except Stop γ}
    {g : β → Except Failure δ} (h : Agrees src R x y) (hfg : ∀ a b, R a b → Agrees src Q (f a) (g b)) :
    Agrees src Q (x >>= f) (y >>= g) := by
  cases h with
  | ok h => exact hfg _ _ h
  | refused h hinner => exact .refused h hinner

theorem At.refuse (h : At src n s) {cause : Cause} (hinner : Inner ⟨cause, s⟩) :
    Agrees src R (refuse src cause n) (.error ⟨cause, s⟩) := by
  rw [h.refuse_eq]
  obtain ⟨before, rfl, rfl⟩ := h
  exact .refused (List.suffix_append before s) hinner

theorem At.unexpected (h : At src n s) (expected : Expectation) :
    Agrees src R (unexpected src expected n) (.error (Parser.unexpected expected s)) := by
  rw [Offset.unexpected, h.textFrom]
  cases s with
  | nil => exact h.refuse rfl
  | cons c s => exact h.refuse trivial

/-- Comment by comment the reader by offsets comes to the end of the trivia. -/
theorem At.skipWithin (h : At src n s) {bound : Nat} (hbound : s.length ≤ bound) :
    ∃ n', skipWithin src bound n = .ok n' ∧ At src n' (Parser.skipTrivia s) := by
  induction bound generalizing n s with
  | zero =>
    obtain rfl : s = [] := List.eq_nil_of_length_eq_zero (Nat.le_zero.1 hbound)
    rw [Parser.skipTrivia]
    exact ⟨n, rfl, h⟩
  | succ bound ih =>
    obtain ⟨blanks, -, hs⟩ := exists_blank_append_trimStart s
    have htrimmed : At src (byteLength src - byteLength (trimStart s)) (trimStart s) :=
      h.remainder hs
    have hle : (trimStart s).length ≤ bound + 1 := by
      have hlength := congrArg List.length hs
      rw [List.length_append] at hlength
      omega
    simp only [Offset.skipWithin, h.textFrom, ok_bind]
    rw [← Grammar.skipTrivia_trimStart]
    by_cases hpercent : (trimStart s).head? = some '%'
    · obtain ⟨t, ht⟩ := List.head?_eq_some_iff.1 hpercent
      have hline : At src _ ((trimStart s).dropWhile (· != '\n')) :=
        htrimmed.advance List.takeWhile_append_dropWhile.symm
      have hlt : ((trimStart s).dropWhile (· != '\n')).length ≤ bound := by
        rw [ht, List.dropWhile_cons_of_pos (by decide)]
        rw [ht, List.length_cons] at hle
        exact Nat.le_trans (List.dropWhile_suffix _).length_le (Nat.le_of_succ_le_succ hle)
      have hskip : Parser.skipTrivia (trimStart s) =
          Parser.skipTrivia ((trimStart s).dropWhile (· != '\n')) := by
        rw [Grammar.skipTrivia_dropWhile, ht, Grammar.skipTrivia_percent, Parser.skipComment,
          if_neg (by decide)]
      rw [if_pos hpercent, hskip]
      exact ih hline hlt
    · have hskip : Parser.skipTrivia (trimStart s) = trimStart s := by
        cases ht : trimStart s with
        | nil => rw [Parser.skipTrivia]
        | cons c t =>
          have hc := List.head?_dropWhile_not isBlank s
          rw [← trimStart, ht] at hc
          refine Grammar.skipTrivia_cons hc ?_ t
          rintro rfl
          exact hpercent (by rw [ht]; rfl)
      rw [if_neg hpercent, hskip]
      exact ⟨_, rfl, htrimmed⟩

theorem At.skipTrivia (h : At src n s) :
    ∃ n', skipTrivia src n = .ok n' ∧ At src n' (Parser.skipTrivia s) := h.skipWithin h.length_le

/-- The reader has moved on to the text `rest`, which is shorter than `s`. -/
structure Onward (src s : List Char) (n : Nat) (rest : List Char) : Prop where
  place : At src n rest
  length_lt : rest.length < s.length

/-- The text from the offset on is `s`, but for white space and comments in front of the two. -/
def Near (src : List Char) (n : Nat) (s : List Char) : Prop :=
  ∃ t, At src n t ∧ Parser.skipTrivia t = Parser.skipTrivia s

theorem At.near (h : At src n s) : Near src n s := ⟨s, h, rfl⟩

theorem At.near_of_skipTrivia (h : At src n (Parser.skipTrivia s)) : Near src n s :=
  ⟨_, h, Grammar.skipTrivia_skipTrivia s⟩

theorem Near.skipTrivia (h : Near src n s) :
    ∃ n', skipTrivia src n = .ok n' ∧ At src n' (Parser.skipTrivia s) := by
  obtain ⟨t, hat, ht⟩ := h
  rw [← ht]
  exact hat.skipTrivia

theorem Near.expect (h : Near src n s) (c : Char) (expected : Expectation) :
    Agrees src (Onward src s) (expect src c expected n) (Parser.expect c expected s) := by
  obtain ⟨n', hskip, hat⟩ := h.skipTrivia
  have hle := Grammar.length_skipTrivia_le s
  simp only [Offset.expect, Parser.expect, hskip, hat.textFrom, ok_bind]
  cases ht : Parser.skipTrivia s with
  | nil =>
    rw [ht] at hat
    exact hat.unexpected expected
  | cons d t =>
    rw [ht] at hat hle
    by_cases hd : d = c
    · subst hd
      simp only [List.head?_cons, if_true]
      exact .ok ⟨hat.next, hle⟩
    · simp only [List.head?_cons, Option.some.injEq, if_neg hd]
      exact hat.unexpected expected

theorem At.label {opening closing : Char} (h : At src n (opening :: s)) :
    Agrees src (fun r r' => r.1 = r'.1 ∧ Onward src (opening :: s) r.2 r'.2) (label src opening closing n)
      (Parser.label opening closing s) := by
  simp only [Offset.label, Parser.label, h.next.textFrom, ok_bind]
  cases hsplit : splitFirst? closing s with
  | none => exact h.refuse trivial
  | some parts =>
    obtain ⟨inside, rest⟩ := parts
    obtain ⟨hs, -⟩ := splitFirst?_eq_some_iff.1 hsplit
    have hcut : cut s (byteLength inside) = .ok (inside, closing :: rest) := cut_eq_ok_iff.2 ⟨hs, rfl⟩
    simp only [hcut, ok_bind]
    split
    · refine .ok ⟨rfl, (h.next.advance hs).next, ?_⟩
      simp only [hs, List.length_cons, List.length_append]
      omega
    · exact h.refuse trivial

end InStep

end Offset

end ModalMu
