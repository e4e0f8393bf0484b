import ModalMu.Fault

/-!
# Edits

An edit works on a value in place. It may stop with a fault at any point, and what it did to the value up to
then stays done: an edit gives its outcome and the value that it leaves behind, for both outcomes. That a
fault leaves the value as it was (`Edit.atomic`) has to be proved of each edit.
-/

namespace ModalMu

/-- An operation on a value in place. -/
abbrev Edit (σ : Type) := ExceptT Fault (StateM σ)

namespace Edit

variable {σ α β : Type}

/-- The outcome of an edit, and the value that it leaves behind. -/
def on (edit : Edit σ α) (s : σ) : Except Fault α × σ := edit.run.run s

/-- All or nothing: a fault leaves the value as it was. -/
def atomic (s : σ) : Except Fault (α × σ) → Except Fault α × σ
  | .ok (a, s') => (.ok a, s')
  | .error f => (.error f, s)

/-- What an edit gives if it comes to its end: its answer and the new value. -/
def result (edit : Edit σ α) (s : σ) : Except Fault (α × σ) :=
  match edit.on s with
  | (.ok a, s') => .ok (a, s')
  | (.error f, _) => .error f

/-- The value that an edit makes of a copy. -/
def copied (edit : Edit σ α) (s : σ) : Except Fault σ := (edit.result s).map (·.2)

variable {edit : Edit σ α} {next : α → Edit σ β} {s s' : σ} {a : α} {f : Fault}

theorem on_get (s : σ) : on get s = (.ok s, s) := rfl

theorem on_modify (g : σ → σ) (s : σ) : on (modify g : Edit σ Unit) s = (.ok (), g s) := rfl

/-- A computation that has nothing to do with the value. -/
theorem on_lift (x : Except Fault α) (s : σ) : on (liftM x : Edit σ α) s = (x, s) := rfl

theorem on_bind_of_ok (h : on edit s = (.ok a, s')) : on (edit >>= next) s = on (next a) s' := by
  unfold on at h ⊢
  rw [ExceptT.run_bind, StateT.run_bind, h]
  rfl

/-- After a fault there is no second edit. -/
theorem on_bind_of_error (h : on edit s = (.error f, s')) : on (edit >>= next) s = (.error f, s') := by
  unfold on at h ⊢
  rw [ExceptT.run_bind, StateT.run_bind, h]
  rfl

theorem on_map (g : α → β) (edit : Edit σ α) (s : σ) :
    on (g <$> edit) s = ((on edit s).1.map g, (on edit s).2) := by
  unfold on
  rw [ExceptT.run_map, StateT.run_map]
  rfl

theorem result_of_atomic {x : Except Fault (α × σ)} (h : on edit s = atomic s x) : edit.result s = x := by
  unfold result
  rw [h]
  rcases x with _ | ⟨_, _⟩ <;> rfl

theorem copied_of_atomic {edit : Edit σ Unit} {x : Except Fault σ}
    (h : on edit s = atomic s (x.map ((), ·))) : edit.copied s = x := by
  rw [copied, result_of_atomic h]
  cases x <;> rfl

theorem on_map_of_atomic {x : Except Fault (α × σ)} (h : on edit s = atomic s x) (g : α → β) :
    on (g <$> edit) s = atomic s (x.map fun p => (g p.1, p.2)) := by
  rw [on_map, h]
  rcases x with _ | ⟨_, _⟩ <;> rfl

end Edit

end ModalMu
