import Mathlib.Order.Bounds.Defs
import ModalMu.Proofs.Places
import ModalMu.Proofs.SingleKind

/-!
# Alternating chains

An alternating chain goes from a fixed point to one in its body of the other kind, and on from there; it
may pass over any nodes in between, fixed points as well. The alternation depth of a formula is the length
of its longest alternating chain (`alternationDepth_isGreatest`).

The depth is computed on the way inwards, with a count for the innermost fixed point around, and goes up
at once when the kind changes. No chain does better: on the way to a fixed point inside, the count gets at
least as high as if there were nothing in between (`alternation_body_le`), so along a chain it goes up with
every link. And some chain does as well: the one that takes a fixed point wherever the count goes up
(`exists_alternatingChain`).
-/

namespace ModalMu

namespace Formula

variable {f g : Formula} {k : FixKind} {x : Char} {i : Nat} {chain : List Formula}

/-- A fixed point in the body of another one, of the other kind. -/
inductive Alternates : Formula → Formula → Prop where
  | intro {k : FixKind} {x : Char} {i : Nat} {g : Formula} {y : Char} {j : Nat} {h : Formula} :
      fix k.opposite y j h ∈ g.subformulas → Alternates (fix k x i g) (fix k.opposite y j h)

/-- Fixed points of a formula, each in the body of the one before and of the other kind. -/
structure AlternatingChain (f : Formula) (chain : List Formula) : Prop where
  mem_fixedPoints : ∀ b ∈ chain, b ∈ f.fixedPoints
  alternates : chain.IsChain Alternates

theorem mem_fixedPoints_iff :
    g ∈ f.fixedPoints ↔ g ∈ f.subformulas ∧ ∃ k x i h, g = fix k x i h := by
  rw [fixedPoints, List.mem_filter]
  refine and_congr_right fun _ => ?_
  cases g <;> simp [binder?]

/-! ## No chain is longer -/

theorem depthBelow_opposite (k : FixKind) (d : Nat) : depthBelow k.opposite (some (k, d)) = d + 1 := by
  simp [depthBelow, k.opposite_ne.symm]

/-- A fixed point in between does not lower the count of those inside it. -/
theorem depthBelow_le_depthBelow (k l : FixKind) (outer : Option (FixKind × Nat)) :
    depthBelow k outer ≤ depthBelow k (some (l, depthBelow l outer)) := by
  by_cases hl : l = k
  · simp [depthBelow, hl]
  · have hraised : depthBelow k (some (l, depthBelow l outer)) = depthBelow l outer + 1 := by
      simp [depthBelow, hl]
    rw [hraised]
    rcases depthBelow_cases k outer with ⟨-, hk⟩ | ⟨-, hk⟩ <;>
      rcases depthBelow_cases l outer with ⟨-, hl⟩ | ⟨-, hl⟩ <;> omega

/-- The depth grows with the count around. -/
theorem alternation_mono (f : Formula) (k : FixKind) {d e : Nat} (hde : d ≤ e) :
    f.alternation (some (k, d)) ≤ f.alternation (some (k, e)) := by
  induction f generalizing k d e with
  | top | bot | var => exact hde
  | and l r ihl ihr | or l r ihl ihr => exact max_le_max (ihl k hde) (ihr k hde)
  | not f ih | diamond a f ih | box a f ih => exact ih k hde
  | fix l x i f ih =>
    refine ih l ?_
    simp only [depthBelow]
    split <;> omega

/-- The body of a fixed point inside has at least the depth that it would have if nothing stood in
between. -/
theorem alternation_body_le (hmem : fix k x i g ∈ f.subformulas) (outer : Option (FixKind × Nat)) :
    g.alternation (some (k, depthBelow k outer)) ≤ f.alternation outer := by
  induction f generalizing outer with
  | top | bot | var => simp [subformulas] at hmem
  | and l r ihl ihr | or l r ihl ihr =>
    rcases List.mem_append.1 (List.mem_of_ne_of_mem (by simp) hmem) with hmem | hmem
    · exact (ihl hmem outer).trans (Nat.le_max_left _ _)
    · exact (ihr hmem outer).trans (Nat.le_max_right _ _)
  | not f ih | diamond a f ih | box a f ih => exact ih (List.mem_of_ne_of_mem (by simp) hmem) outer
  | fix l y j f ih =>
    rcases List.mem_cons.1 hmem with heq | hmem
    · cases heq
      exact Nat.le_refl _
    · calc g.alternation (some (k, depthBelow k outer))
          ≤ g.alternation (some (k, depthBelow k (some (l, depthBelow l outer)))) :=
            alternation_mono g k (depthBelow_le_depthBelow k l outer)
        _ ≤ f.alternation (some (l, depthBelow l outer)) := ih hmem _

/-- Along a chain the count goes up with every link. -/
theorem length_add_le_alternation (hchain : (fix k x i g :: chain).IsChain Alternates) (d : Nat) :
    chain.length + d ≤ g.alternation (some (k, d)) := by
  induction chain generalizing k x i g d with
  | nil => simpa using le_alternation (some (k, d)) g
  | cons b rest ih =>
    rw [List.isChain_cons_cons] at hchain
    obtain ⟨hlink, hrest⟩ := hchain
    cases hlink with
    | @intro _ _ _ _ y j h hmem =>
      calc (fix k.opposite y j h :: rest).length + d
          = rest.length + (d + 1) := by rw [List.length_cons]; omega
        _ ≤ h.alternation (some (k.opposite, d + 1)) := ih hrest (d + 1)
        _ ≤ g.alternation (some (k, d)) := by
            rw [← depthBelow_opposite]
            exact alternation_body_le hmem (some (k, d))

theorem AlternatingChain.length_le (hchain : f.AlternatingChain chain) :
    chain.length ≤ f.alternationDepth := by
  cases chain with
  | nil => exact Nat.zero_le _
  | cons b rest =>
    obtain ⟨hmem, k, x, i, g, rfl⟩ :=
      mem_fixedPoints_iff.1 (hchain.mem_fixedPoints b List.mem_cons_self)
    exact (length_add_le_alternation hchain.alternates 1).trans (alternation_body_le hmem none)

/-! ## A chain that is as long -/

theorem AlternatingChain.mono (hchain : g.AlternatingChain chain)
    (hsub : g.subformulas ⊆ f.subformulas) : f.AlternatingChain chain where
  mem_fixedPoints b hb := by
    obtain ⟨hmem, hfix⟩ := mem_fixedPoints_iff.1 (hchain.mem_fixedPoints b hb)
    exact mem_fixedPoints_iff.2 ⟨hsub hmem, hfix⟩
  alternates := hchain.alternates

/-- The chain can go on below a fixed point of kind `k`: it is empty or begins with the other kind. -/
def ContinuesBelow (k : FixKind) (chain : List Formula) : Prop :=
  ∀ b ∈ chain.head?, ∃ x i g, b = fix k.opposite x i g

theorem AlternatingChain.cons (hchain : g.AlternatingChain chain) (hbelow : ContinuesBelow k chain)
    (x : Char) (i : Nat) : (fix k x i g).AlternatingChain (fix k x i g :: chain) where
  mem_fixedPoints b hb := by
    rcases List.mem_cons.1 hb with rfl | hb
    · exact mem_fixedPoints_iff.2 ⟨mem_subformulas_self _, k, x, i, g, rfl⟩
    · obtain ⟨hmem, hfix⟩ := mem_fixedPoints_iff.1 (hchain.mem_fixedPoints b hb)
      exact mem_fixedPoints_iff.2 ⟨List.mem_cons_of_mem _ hmem, hfix⟩
  alternates := by
    rw [List.isChain_cons]
    refine ⟨fun b hb => ?_, hchain.alternates⟩
    obtain ⟨y, j, h, rfl⟩ := hbelow b hb
    exact .intro (mem_fixedPoints_iff.1 (hchain.mem_fixedPoints _ (List.mem_of_mem_head? hb))).1

/-- Some chain that continues the count around is as long as the depth says. -/
theorem exists_alternatingChain (f : Formula) (outer : Option (FixKind × Nat)) :
    ∃ chain, f.AlternatingChain chain ∧ (∀ k ∈ outer.map (·.1), ContinuesBelow k chain) ∧
      f.alternation outer = (outer.map (·.2)).getD 0 + chain.length := by
  induction f generalizing outer with
  | top | bot | var => exact ⟨[], ⟨by simp, .nil⟩, by simp [ContinuesBelow], rfl⟩
  | and l r ihl ihr | or l r ihl ihr =>
    -- The longer of the two chains.
    rcases Nat.le_total (r.alternation outer) (l.alternation outer) with hle | hle
    · obtain ⟨chain, hchain, hbelow, hlength⟩ := ihl outer
      refine ⟨chain, hchain.mono fun b hb => ?_, hbelow, (Nat.max_eq_left hle).trans hlength⟩
      exact List.mem_cons_of_mem _ (List.mem_append_left _ hb)
    · obtain ⟨chain, hchain, hbelow, hlength⟩ := ihr outer
      refine ⟨chain, hchain.mono fun b hb => ?_, hbelow, (Nat.max_eq_right hle).trans hlength⟩
      exact List.mem_cons_of_mem _ (List.mem_append_right _ hb)
  | not f ih | diamond a f ih | box a f ih =>
    obtain ⟨chain, hchain, hbelow, hlength⟩ := ih outer
    exact ⟨chain, hchain.mono (List.subset_cons_self _ _), hbelow, hlength⟩
  | fix k x i f ih =>
    obtain ⟨chain, hchain, hbelow, hlength⟩ := ih (some (k, depthBelow k outer))
    have hbelow : ContinuesBelow k chain := hbelow k rfl
    have hlength : (fix k x i f).alternation outer = depthBelow k outer + chain.length := hlength
    rcases depthBelow_cases k outer with ⟨hkind, hdepth⟩ | ⟨hkind, hdepth⟩
    · -- The kind stays the same, so the chain passes over this fixed point.
      refine ⟨chain, hchain.mono (List.subset_cons_self _ _), ?_, hdepth ▸ hlength⟩
      rw [hkind]
      rintro _ ⟨⟩
      exact hbelow
    · refine ⟨fix k x i f :: chain, hchain.cons hbelow x i, ?_, ?_⟩
      · rintro l hl _ ⟨⟩
        have hkl : k = l.opposite := FixKind.eq_opposite_of_ne fun heq => hkind (heq ▸ hl)
        exact ⟨x, i, f, by rw [hkl]⟩
      · rw [hlength, hdepth, List.length_cons]
        omega

/-! ## Fixed points directly below one another -/

/-- A condition on all fixed points, in terms of their places. -/
theorem throughout_iff_places {P : Option FixKind → FixKind → Char → Nat → Formula → Prop}
    (f : Formula) (around : List Binder) :
    f.Throughout P (around.head?.map (·.kind)) ↔
      ∀ k x i g around', (fix k x i g, around') ∈ f.places around →
        P (around'.head?.map (·.kind)) k x i g := by
  induction f generalizing around with
  | top | bot | var => exact iff_of_true trivial (by simp [places])
  | and l r ihl ihr | or l r ihl ihr =>
    simp only [Throughout, ihl, ihr, places, List.mem_cons, List.mem_append, Prod.mk.injEq, reduceCtorEq,
      false_and, false_or, or_imp, forall_and]
  | not f ih | diamond a f ih | box a f ih =>
    simp only [Throughout, ih, places, List.mem_cons, Prod.mk.injEq, reduceCtorEq, false_and, false_or]
  | fix k x i f ih =>
    have hbody := ih (declaration k x i f :: around)
    simp only [places, List.mem_cons]
    constructor
    · rintro ⟨hself, hinside⟩ l y j g around' (hplace | hplace)
      · cases hplace
        exact hself
      · exact hbody.1 hinside l y j g around' hplace
    · intro hall
      refine ⟨hall k x i f around (.inl rfl), hbody.2 fun l y j g around' hplace => ?_⟩
      exact hall l y j g around' (.inr hplace)

/-- The alternation depth is the length of the longest chain of fixed points, each in the body of the one
before and of the other kind. It is at most one exactly if the innermost fixed point around a fixed point
is never of the other kind. -/
theorem alternationDepth_isGreatest (f : Formula) :
    IsGreatest {n | ∃ chain, f.AlternatingChain chain ∧ chain.length = n} f.alternationDepth ∧
    (f.alternationDepth ≤ 1 ↔ ∀ k x i g around, (fix k x i g, around) ∈ f.places [] →
      around.head?.map (·.kind) ≠ some k.opposite) := by
  refine ⟨⟨?_, ?_⟩, ?_⟩
  · obtain ⟨chain, hchain, -, hlength⟩ := exists_alternatingChain f none
    exact ⟨chain, hchain, (hlength.trans (Nat.zero_add _)).symm⟩
  · rintro _ ⟨chain, hchain, rfl⟩
    exact hchain.length_le
  · exact alternationDepth_le_one_iff.trans (throughout_iff_places f [])

end Formula

end ModalMu
