import Mathlib.Data.List.Forall2
import ModalMu.Fault

/-!
# Lists that are worked through

A computation that works through a list, entry by entry, and may fail on the way: what it gives, and where
it fails.
-/

namespace ModalMu

/-- A loop that may fail: its first failure is the outcome. -/
theorem mapM_eq_error_iff {α β ε : Type} {f : α → Except ε β} {l : List α} {e : ε} :
    l.mapM f = .error e ↔ ∃ before a behind, l = before ++ a :: behind ∧
      (∀ b ∈ before, ∃ r, f b = .ok r) ∧ f a = .error e := by
  induction l with
  | nil => simp [pure, Except.pure]
  | cons b l ih =>
    rw [List.mapM_cons]
    cases hb : f b with
    | error e' =>
      constructor
      · intro h
        cases h
        exact ⟨[], b, l, rfl, nofun, hb⟩
      · rintro ⟨before, a, behind, hl, hbefore, ha⟩
        cases before with
        | nil =>
          obtain ⟨rfl, rfl⟩ := List.cons.inj hl
          rw [ha] at hb
          cases hb
          rfl
        | cons c before =>
          obtain ⟨rfl, -⟩ := List.cons.inj hl
          obtain ⟨r, hr⟩ := hbefore b List.mem_cons_self
          cases hr.symm.trans hb
    | ok r =>
      have hstep : (Except.ok r >>= fun r => l.mapM f >>= fun rs => pure (r :: rs)) = .error e ↔
          l.mapM f = .error e := by
        cases hrest : l.mapM f <;> simp [bind, Except.bind, pure, Except.pure]
      rw [hstep, ih]
      constructor
      · rintro ⟨before, a, behind, rfl, hbefore, ha⟩
        refine ⟨b :: before, a, behind, rfl, fun c hc => ?_, ha⟩
        rcases List.mem_cons.1 hc with rfl | hc
        · exact ⟨r, hb⟩
        · exact hbefore c hc
      · rintro ⟨before, a, behind, hl, hbefore, ha⟩
        cases before with
        | nil =>
          obtain ⟨rfl, rfl⟩ := List.cons.inj hl
          cases ha.symm.trans hb
        | cons c before =>
          obtain ⟨rfl, rfl⟩ := List.cons.inj hl
          exact ⟨before, a, behind, rfl, fun d hd => hbefore d (List.mem_cons_of_mem _ hd), ha⟩

theorem mapM_eq_ok_iff {α β ε : Type} {f : α → Except ε β} {l : List α} {rs : List β} :
    l.mapM f = .ok rs ↔ List.Forall₂ (fun a r => f a = .ok r) l rs := by
  induction l generalizing rs with
  | nil =>
    rw [List.mapM_nil, List.forall₂_nil_left_iff]
    exact ⟨fun h => by cases h; rfl, fun h => by rw [h]; rfl⟩
  | cons a l ih =>
    rw [List.mapM_cons, bind_eq_ok_iff, List.forall₂_cons_left_iff]
    constructor
    · rintro ⟨r, hr, h⟩
      obtain ⟨rs', hrs, h⟩ := bind_eq_ok_iff.1 h
      cases h
      exact ⟨r, rs', hr, ih.1 hrs, rfl⟩
    · rintro ⟨r, rs', hr, hrs, rfl⟩
      exact ⟨r, hr, bind_eq_ok_iff.2 ⟨rs', ih.2 hrs, rfl⟩⟩

end ModalMu
