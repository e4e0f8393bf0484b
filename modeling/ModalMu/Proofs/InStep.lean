import ModalMu.Fault

/-!
# Computations in lock-step

Two computations are in lock-step for a relation if they stop with the same error, or both give results
and these are in the relation. Computations that are made of such steps are in lock-step.
-/

namespace ModalMu

/-- Both computations stop with the same error, or their results are in the relation. -/
inductive InStep {ε α β : Type} (R : α → β → Prop) : Except ε α → Except ε β → Prop
  | ok {a : α} {b : β} (h : R a b) : InStep R (.ok a) (.ok b)
  | error (x : ε) : InStep R (.error x) (.error x)

namespace InStep

variable {ε α β γ δ : Type} {R : α → β → Prop} {Q : γ → δ → Prop}

theorem bind {x : Except ε α} {y : Except ε β} {f : α → Except ε γ}
    {g : β → Except ε δ} (h : InStep R x y) (hfg : ∀ a b, R a b → InStep Q (f a) (g b)) :
    InStep Q (x >>= f) (y >>= g) := by
  cases h with
  | ok h => exact hfg _ _ h
  | error x => exact .error x

theorem map {x : Except ε α} {y : Except ε β} {f : α → γ} {g : β → δ} (h : InStep R x y)
    (hfg : ∀ a b, R a b → Q (f a) (g b)) : InStep Q (x.map f) (y.map g) := by
  cases h with
  | ok h => exact .ok (hfg _ _ h)
  | error x => exact .error x

theorem symm {R : α → α → Prop} (hR : ∀ a b, R a b → R b a) {x y : Except ε α}
    (h : InStep R x y) : InStep R y x := by
  cases h with
  | ok h => exact .ok (hR _ _ h)
  | error x => exact .error x

theorem exists_right {y : Except ε β} {a : α} (h : InStep R (.ok a) y) :
    ∃ b, y = .ok b ∧ R a b := by
  cases h with
  | ok h => exact ⟨_, rfl, h⟩

theorem exists_left {x : Except ε α} {b : β} (h : InStep R x (.ok b)) :
    ∃ a, x = .ok a ∧ R a b := by
  cases h with
  | ok h => exact ⟨_, rfl, h⟩

theorem of_eq {x y : Except ε α} (h : x = y) : InStep Eq x y := by
  subst h
  cases x with
  | ok a => exact .ok rfl
  | error x => exact .error x

theorem eq {x y : Except ε α} (h : InStep Eq x y) : x = y := by
  cases h with
  | ok h => rw [h]
  | error => rfl

theorem foldlM {f : α → γ → Except ε α} {g : β → γ → Except ε β}
    (hstep : ∀ a b c, R a b → InStep R (f a c) (g b c)) {a : α} {b : β} (h : R a b) (l : List γ) :
    InStep R (l.foldlM f a) (l.foldlM g b) := by
  induction l generalizing a b with
  | nil => exact .ok h
  | cons c l ih =>
    rw [List.foldlM_cons, List.foldlM_cons]
    exact (hstep a b c h).bind fun _ _ => ih

/-- Tables of one size whose entries are in the relation. -/
theorem lookup {s : Array α} {t : Array β} (hsize : t.size = s.size) {i : Nat}
    (h : ∀ a b, s[i]? = some a → t[i]? = some b → R a b) :
    InStep R (Fault.lookup s i) (Fault.lookup t i) := by
  by_cases hi : i < s.size
  · have hs := Array.getElem?_eq_getElem hi
    have ht := Array.getElem?_eq_getElem (hsize.symm ▸ hi : i < t.size)
    rw [Fault.lookup_eq_ok_iff.2 hs, Fault.lookup_eq_ok_iff.2 ht]
    exact .ok (h _ _ hs ht)
  · have hs := Fault.lookup_eq_error_iff.2 ⟨Nat.le_of_not_lt hi, rfl⟩
    have ht := Fault.lookup_eq_error_iff.2 ⟨hsize.symm ▸ Nat.le_of_not_lt hi, rfl⟩
    rw [hs, ht, hsize]
    exact .error _

end InStep

end ModalMu
