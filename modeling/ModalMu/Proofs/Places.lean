import ModalMu.Proofs.Numbering

/-!
# Places in a formula

`subformulas` lists the nodes of a formula, each before those inside it. `places` lists them in the same
order, each with the fixed points around it. The table of a sentence that is well formed says of every
binder what these lists say (`Sentence.WellFormed.exists_body`): where it stands, what is bound inside it,
and what is used there.
-/

namespace ModalMu

namespace Formula

variable {f g l r : Formula} {k : FixKind} {x : Char} {i : Nat} {b : Binder} {around' : List Binder}

/-- The declaration of a fixed point: its header, and the slots bound and used in its body. -/
def declaration (k : FixKind) (x : Char) (i : Nat) (body : Formula) : Binder :=
  ⟨x, k, i, body.slots, body.occurrences⟩

/-- The declaration of a node that is a fixed point. -/
def binder? : Formula → Option Binder
  | fix k x i f => some (declaration k x i f)
  | _ => none

/-- The slot of a node that is a fixed point. -/
def boundSlot? : Formula → Option Nat
  | fix _ _ i _ => some i
  | _ => none

/-- The slot of a node that is a variable. -/
def usedSlot? : Formula → Option Nat
  | var _ i => some i
  | _ => none

/-- The nodes that are fixed points, each before those inside it. -/
def fixedPoints (f : Formula) : List Formula := f.subformulas.filter (·.binder?.isSome)

/-- All nodes, each before those inside it, with the fixed points around them, innermost first. -/
def places (around : List Binder) : Formula → List (Formula × List Binder)
  | top => [(top, around)]
  | bot => [(bot, around)]
  | and l r => (and l r, around) :: (l.places around ++ r.places around)
  | or l r => (or l r, around) :: (l.places around ++ r.places around)
  | not f => (not f, around) :: f.places around
  | diamond a f => (diamond a f, around) :: f.places around
  | box a f => (box a f, around) :: f.places around
  | fix k x i f => (fix k x i f, around) :: f.places (declaration k x i f :: around)
  | var x i => [(var x i, around)]

/-- The places are those of all nodes. -/
theorem map_fst_places (around : List Binder) (f : Formula) :
    (f.places around).map (·.1) = f.subformulas := by
  induction f generalizing around with
  | top | bot | var => rfl
  | and l r ihl ihr | or l r ihl ihr => simp [places, subformulas, ihl, ihr]
  | not f ih | diamond a f ih | box a f ih | fix k x i f ih => simp [places, subformulas, ih]

theorem binder?_eq_some_iff :
    g.binder? = some b ↔ ∃ body, g = fix b.kind b.name b.slot body ∧
      b.descendants = body.slots ∧ b.occurrences = body.occurrences := by
  constructor
  · intro h
    cases g with
    | fix k x i body =>
      obtain rfl := Option.some.inj h
      exact ⟨body, rfl, rfl, rfl⟩
    | _ => cases h
  · rintro ⟨body, rfl, hdescendants, hoccurrences⟩
    rw [binder?, declaration, ← hdescendants, ← hoccurrences]

/-! ## Nodes in order -/

/-- The table has the declarations of the fixed points, in their order. -/
theorem filterMap_binder?_subformulas (f : Formula) :
    f.subformulas.filterMap binder? = f.table := by
  induction f with
  | top | bot | var => rfl
  | and l r ihl ihr | or l r ihl ihr =>
    simp [subformulas, table, List.filterMap_cons, binder?, ihl, ihr]
  | not f ih | diamond a f ih | box a f ih =>
    simp [subformulas, table, List.filterMap_cons, binder?, ih]
  | fix k x i f ih =>
    simp [subformulas, table, binder?, declaration, ih]

theorem filterMap_boundSlot?_subformulas (f : Formula) :
    f.subformulas.filterMap boundSlot? = f.slots := by
  have hslot : (fun g : Formula => g.binder?.map (·.slot)) = boundSlot? := by
    funext g
    cases g <;> rfl
  rw [← map_slot_table, ← filterMap_binder?_subformulas, List.map_filterMap, hslot]

theorem filterMap_usedSlot?_subformulas (f : Formula) :
    f.subformulas.filterMap usedSlot? = f.occurrences := by
  induction f with
  | top | bot | var => rfl
  | and l r ihl ihr | or l r ihl ihr =>
    simp [subformulas, occurrences, List.filterMap_cons, usedSlot?, ihl, ihr]
  | not f ih | diamond a f ih | box a f ih | fix k x i f ih =>
    simp [subformulas, occurrences, List.filterMap_cons, usedSlot?, ih]

theorem map_binder?_fixedPoints (f : Formula) : f.fixedPoints.map binder? = f.table.map some := by
  rw [← filterMap_binder?_subformulas, List.map_filterMap_some_eq_filter_map_isSome, List.filter_map]
  rfl

theorem length_fixedPoints (f : Formula) : f.fixedPoints.length = f.slots.length := by
  have h := congrArg List.length (map_binder?_fixedPoints f)
  rw [List.length_map, List.length_map] at h
  rw [h, ← map_slot_table, List.length_map]

/-- The fixed point that an entry of the table declares. -/
theorem getElem?_fixedPoints (h : f.table[i]? = some b) :
    ∃ body, f.fixedPoints[i]? = some (fix b.kind b.name b.slot body) ∧
      b.descendants = body.slots ∧ b.occurrences = body.occurrences := by
  have hmap : (f.fixedPoints.map binder?)[i]? = some (some b) := by
    rw [map_binder?_fixedPoints, List.getElem?_map, h]
    rfl
  rw [List.getElem?_map] at hmap
  obtain ⟨g, hg, hb⟩ := Option.map_eq_some_iff.1 hmap
  obtain ⟨body, rfl, hbody⟩ := binder?_eq_some_iff.1 hb
  exact ⟨body, hg, hbody⟩

/-! ## Parts of a formula -/

/-- The nodes of a part stand in a row among those of the whole. -/
theorem subformulas_isInfix (h : g ∈ f.subformulas) : g.subformulas <:+: f.subformulas := by
  induction f with
  | top | bot | var =>
    obtain rfl := List.mem_singleton.1 h
    exact List.infix_rfl
  | and l r ihl ihr | or l r ihl ihr =>
    rcases List.mem_cons.1 h with rfl | h
    · exact List.infix_rfl
    · refine List.IsInfix.trans ?_ (List.suffix_cons _ _).isInfix
      rcases List.mem_append.1 h with h | h
      · exact (ihl h).trans (List.prefix_append _ _).isInfix
      · exact (ihr h).trans (List.suffix_append _ _).isInfix
  | not f ih | diamond a f ih | box a f ih | fix k x i f ih =>
    rcases List.mem_cons.1 h with rfl | h
    · exact List.infix_rfl
    · exact (ih h).trans (List.suffix_cons _ _).isInfix

theorem table_isInfix (h : g ∈ f.subformulas) : g.table <:+: f.table := by
  rw [← filterMap_binder?_subformulas, ← filterMap_binder?_subformulas]
  exact (subformulas_isInfix h).filterMap _

theorem slots_isInfix (h : g ∈ f.subformulas) : g.slots <:+: f.slots := by
  rw [← map_slot_table, ← map_slot_table]
  exact (table_isInfix h).map _

theorem occurrences_isInfix (h : g ∈ f.subformulas) : g.occurrences <:+: f.occurrences := by
  rw [← filterMap_usedSlot?_subformulas, ← filterMap_usedSlot?_subformulas]
  exact (subformulas_isInfix h).filterMap _

/-- Slots that count up do so in every part. -/
theorem slots_eq_range' (h : fix k x i g ∈ f.subformulas) {next n : Nat}
    (hslots : f.slots = List.range' next n) : g.slots = List.range' (i + 1) g.slots.length := by
  obtain ⟨before, behind, hsplit⟩ := slots_isInfix h
  rw [hslots] at hsplit
  obtain ⟨_, -, hbefore, -⟩ := List.range'_eq_append_iff.1 hsplit.symm
  obtain ⟨_, -, -, hpart⟩ := List.range'_eq_append_iff.1 hbefore.symm
  have hlength := congrArg List.length hpart
  rw [slots, List.length_cons, List.length_range'] at hlength
  rw [slots, ← hlength, List.range'_succ] at hpart
  obtain ⟨hi, hbody⟩ := List.cons.inj hpart
  rw [hi]
  exact hbody

/-! ## From the whole to a place -/

/-- A property of a formula and the fixed points around it that is handed down to its parts. -/
structure Inherited (P : Formula → List Binder → Prop) : Prop where
  and : ∀ {l r around}, P (and l r) around → P l around ∧ P r around
  or : ∀ {l r around}, P (or l r) around → P l around ∧ P r around
  not : ∀ {f around}, P (not f) around → P f around
  diamond : ∀ {a f around}, P (diamond a f) around → P f around
  box : ∀ {a f around}, P (box a f) around → P f around
  fix : ∀ {k x i f around}, P (fix k x i f) around → P f (declaration k x i f :: around)

theorem Inherited.of_mem_places {P : Formula → List Binder → Prop} (hP : Inherited P)
    (around : List Binder) (hf : P f around) (hg : (g, around') ∈ f.places around) : P g around' := by
  induction f generalizing around with
  | top | bot | var =>
    obtain ⟨rfl, rfl⟩ := Prod.mk.inj (List.mem_singleton.1 hg)
    exact hf
  | and l r ihl ihr =>
    rcases List.mem_cons.1 hg with hg | hg
    · obtain ⟨rfl, rfl⟩ := Prod.mk.inj hg
      exact hf
    · rcases List.mem_append.1 hg with hg | hg
      · exact ihl _ (hP.and hf).1 hg
      · exact ihr _ (hP.and hf).2 hg
  | or l r ihl ihr =>
    rcases List.mem_cons.1 hg with hg | hg
    · obtain ⟨rfl, rfl⟩ := Prod.mk.inj hg
      exact hf
    · rcases List.mem_append.1 hg with hg | hg
      · exact ihl _ (hP.or hf).1 hg
      · exact ihr _ (hP.or hf).2 hg
  | not f ih =>
    rcases List.mem_cons.1 hg with hg | hg
    · obtain ⟨rfl, rfl⟩ := Prod.mk.inj hg
      exact hf
    · exact ih _ (hP.not hf) hg
  | diamond a f ih =>
    rcases List.mem_cons.1 hg with hg | hg
    · obtain ⟨rfl, rfl⟩ := Prod.mk.inj hg
      exact hf
    · exact ih _ (hP.diamond hf) hg
  | box a f ih =>
    rcases List.mem_cons.1 hg with hg | hg
    · obtain ⟨rfl, rfl⟩ := Prod.mk.inj hg
      exact hf
    · exact ih _ (hP.box hf) hg
  | fix k x i f ih =>
    rcases List.mem_cons.1 hg with hg | hg
    · obtain ⟨rfl, rfl⟩ := Prod.mk.inj hg
      exact hf
    · exact ih _ (hP.fix hf) hg

/-- At every place the names around it lead to the slots they should. -/
theorem inherited_scoped :
    Inherited fun f around => f.Scoped (around.map fun b => (b.name, b.slot)) where
  and h := h
  or h := h
  not h := h
  diamond h := h
  box h := h
  fix h := h.2

/-- Every entry of the table has a place. -/
theorem exists_mem_places (hb : b ∈ f.table) (around : List Binder) :
    ∃ g around', (g, around') ∈ f.places around ∧ g.binder? = some b := by
  rw [← filterMap_binder?_subformulas, ← map_fst_places around, List.filterMap_map] at hb
  obtain ⟨⟨g, around'⟩, hplace, hbinder⟩ := List.mem_filterMap.1 hb
  exact ⟨g, around', hplace, hbinder⟩

end Formula

namespace Sentence.WellFormed

variable {p : Sentence} {i j : Nat} {b : Binder} {x : Char} {around : List Binder}

theorem slot_eq (h : p.WellFormed) (hb : p.binders[i]? = some b) : b.slot = i := by
  rw [← Array.getElem?_toList, h.binders] at hb
  have hslot : p.root.slots[i]? = some b.slot := by
    rw [← Formula.map_slot_table, List.getElem?_map, hb]
    rfl
  rw [h.slots, List.getElem?_eq_some_iff] at hslot
  obtain ⟨_, hslot⟩ := hslot
  rw [← hslot, List.getElem_range]

/-- The fixed point that a binder in the table declares. -/
theorem exists_body (h : p.WellFormed) (hb : p.binders[i]? = some b) :
    ∃ body, p.root.fixedPoints[i]? = some (.fix b.kind b.name i body) ∧
      b.descendants = body.slots ∧ body.slots = List.range' (i + 1) body.slots.length ∧
      b.occurrences = body.occurrences := by
  have hslot := h.slot_eq hb
  rw [← Array.getElem?_toList, h.binders] at hb
  obtain ⟨body, hnode, hdescendants, hoccurrences⟩ := Formula.getElem?_fixedPoints hb
  rw [hslot] at hnode
  have hmem : .fix b.kind b.name i body ∈ p.root.subformulas :=
    (List.mem_filter.1 (List.mem_of_getElem? hnode)).1
  exact ⟨body, hnode, hdescendants,
    Formula.slots_eq_range' hmem (h.slots.trans List.range_eq_range'), hoccurrences⟩

/-- A variable belongs to a fixed point around it that binds its name. -/
theorem exists_mem_around (h : p.WellFormed) (hplace : (.var x j, around) ∈ p.root.places []) :
    ∃ b ∈ around, b.name = x ∧ b.slot = j := by
  have hlookup := Formula.inherited_scoped.of_mem_places [] h.wellScoped hplace
  obtain ⟨_, _, hsplit, -⟩ := List.lookup_eq_some_iff.1 hlookup
  have hmem : (x, j) ∈ around.map fun b => (b.name, b.slot) := by simp [hsplit]
  obtain ⟨b, hb, heq⟩ := List.mem_map.1 hmem
  obtain ⟨hname, hslot⟩ := Prod.mk.inj heq
  exact ⟨b, hb, hname, hslot⟩

/-- A fixed point binds another name than those around it. -/
theorem name_ne_of_mem_around (h : p.WellFormed) {k : FixKind} {body : Formula}
    (hplace : (.fix k x i body, around) ∈ p.root.places []) (hb : b ∈ around) : b.name ≠ x := by
  have hlookup := (Formula.inherited_scoped.of_mem_places [] h.wellScoped hplace).1
  rintro rfl
  refine Formula.lookup_eq_none_iff.1 hlookup ?_
  rw [List.map_map]
  exact List.mem_map.2 ⟨b, hb, rfl⟩

end Sentence.WellFormed

end ModalMu
