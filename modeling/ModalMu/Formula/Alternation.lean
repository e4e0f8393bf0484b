import ModalMu.Formula.Basic

/-!
# Alternation depth

The depth counts how often the kind of fixed point changes on the way inwards; the outermost fixed
point counts one.
-/

namespace ModalMu

namespace Formula

/-- The depth of a fixed point of kind `kind` below `outer`, the innermost fixed point around it. -/
def depthBelow (kind : FixKind) : Option (FixKind × Nat) → Nat
  | none => 1
  | some (outer, depth) => if outer = kind then depth else depth + 1

/-- The largest depth that a fixed point inside has, given the innermost fixed point around. -/
def alternation (outer : Option (FixKind × Nat)) : Formula → Nat
  | top | bot | var _ _ => (outer.map (·.2)).getD 0
  | and l r | or l r => max (l.alternation outer) (r.alternation outer)
  | not f | diamond _ f | box _ f => f.alternation outer
  | fix kind _ _ f => f.alternation (some (kind, depthBelow kind outer))

/-- The number of changes between least and greatest fixed points, along the worst branch. -/
def alternationDepth (f : Formula) : Nat := f.alternation none

/-- The depth goes up by one unless the fixed point around is of the same kind. -/
theorem depthBelow_cases (k : FixKind) (outer : Option (FixKind × Nat)) :
    outer.map (·.1) = some k ∧ depthBelow k outer = (outer.map (·.2)).getD 0 ∨
      outer.map (·.1) ≠ some k ∧ depthBelow k outer = (outer.map (·.2)).getD 0 + 1 := by
  rcases outer with _ | ⟨l, d⟩
  · exact .inr ⟨by simp, rfl⟩
  · by_cases hl : l = k
    · exact .inl ⟨by simp [hl], by simp [depthBelow, hl]⟩
    · exact .inr ⟨by simpa using hl, by simp [depthBelow, hl]⟩

end Formula

end ModalMu
