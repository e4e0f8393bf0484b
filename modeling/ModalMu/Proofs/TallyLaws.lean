import ModalMu.Proofs.Confinement

/-!
# Laws of the tallies

Which entries reset a fixed point depends on the policy and on the fixed points around it (`Resets`).
`Tallied` says of a formula that was evaluated `n` times what the tallies of the fixed points inside it
are: a fixed point was entered once for every evaluation of the place where it stands, took at least one
round per entry, and was reset once for every entry that resets it. Its body was evaluated once for every
round.
-/

namespace ModalMu

/-! ## Entries that reset -/

/-- An entry of the fixed point `z`, which stands inside the fixed points `outer`, resets the fixed point
`b` inside it. -/
def ResetPolicy.Resets (policy : ResetPolicy) (b z : Binder) (outer : List Binder) : Prop :=
  match policy with
  | .never => False
  | .always => b.slot = z.slot
  | .alternation => b.kind = z.kind ∧ outer.head?.map (·.kind) = some z.kind.opposite ∧
    ∃ o ∈ b.occurrences, o ∈ outer.map (·.slot)

instance (policy : ResetPolicy) (b z : Binder) (outer : List Binder) :
    Decidable (policy.Resets b z outer) :=
  match policy with
  | .never => inferInstanceAs (Decidable False)
  | .always => inferInstanceAs (Decidable (b.slot = z.slot))
  | .alternation => inferInstanceAs (Decidable (_ ∧ _ ∧ _))

namespace Tally

variable {policy : ResetPolicy} {t t' : Nat → Tally} {b z : Binder} {outer l : List Binder}

/-- The resets of the fixed point `b` on the entries of the given fixed points, each of which stands
inside those that follow. -/
def resetsDue (policy : ResetPolicy) (t : Nat → Tally) (b : Binder) : List Binder → Nat
  | [] => 0
  | z :: outer =>
    (if policy.Resets b z outer then (t z.slot).entries else 0) + resetsDue policy t b outer

theorem resetsDue_congr (h : ∀ w ∈ l, (t' w.slot).entries = (t w.slot).entries) :
    resetsDue policy t' b l = resetsDue policy t b l := by
  induction l with
  | nil => rfl
  | cons w l ih =>
    unfold resetsDue
    rw [h w List.mem_cons_self, ih fun w hw => h w (List.mem_cons_of_mem _ hw)]

/-- One entry more of one of the fixed points. -/
theorem resetsDue_enter (inner : List Binder) (hz : (t' z.slot).entries = (t z.slot).entries + 1)
    (hinner : ∀ w ∈ inner, (t' w.slot).entries = (t w.slot).entries)
    (houter : ∀ w ∈ outer, (t' w.slot).entries = (t w.slot).entries) :
    resetsDue policy t' b (inner ++ z :: outer) =
      resetsDue policy t b (inner ++ z :: outer) + if policy.Resets b z outer then 1 else 0 := by
  induction inner with
  | nil =>
    rw [List.nil_append, resetsDue, resetsDue, resetsDue_congr houter, hz]
    by_cases hresets : policy.Resets b z outer
    · rw [if_pos hresets, if_pos hresets, if_pos hresets]
      omega
    · rw [if_neg hresets, if_neg hresets, if_neg hresets]
      omega
  | cons w inner ih =>
    have hrest := ih fun w hw => hinner w (List.mem_cons_of_mem _ hw)
    rw [List.cons_append, resetsDue, resetsDue, hinner w List.mem_cons_self, hrest]
    omega

/-- Nothing in the list resets the fixed point. -/
theorem resetsDue_eq_zero (h : ∀ w ∈ l, ∀ outer, ¬policy.Resets b w outer) :
    resetsDue policy t b l = 0 := by
  induction l with
  | nil => rfl
  | cons w l ih =>
    rw [resetsDue, if_neg (h w List.mem_cons_self l), ih fun w hw => h w (List.mem_cons_of_mem _ hw)]

theorem resetsDue_never (t : Nat → Tally) (b : Binder) (l : List Binder) :
    resetsDue .never t b l = 0 :=
  resetsDue_eq_zero fun _ _ _ => id

theorem resetsDue_always (hb : b.slot ∉ outer.map (·.slot)) :
    resetsDue .always t b (b :: outer) = (t b.slot).entries := by
  have hrest : resetsDue .always t b outer = 0 := resetsDue_eq_zero fun w hw _ hslot => by
    refine hb ?_
    rw [show b.slot = w.slot from hslot]
    exact List.mem_map_of_mem hw
  rw [resetsDue, if_pos (show ResetPolicy.always.Resets b b outer from rfl), hrest, Nat.add_zero]

/-- How often a place inside the given fixed points was evaluated: once for each round of the innermost
one. -/
def evaluations (t : Nat → Tally) : List Binder → Nat
  | [] => 1
  | parent :: _ => (t parent.slot).rounds

/-- What the tallies of a run say about a fixed point that was entered `n` times. -/
structure Lawful (policy : ResetPolicy) (t : Nat → Tally) (n : Nat) (b : Binder)
    (outer : List Binder) : Prop where
  entries : (t b.slot).entries = n
  le_rounds : n ≤ (t b.slot).rounds
  rounds_le : (t b.slot).rounds ≤ n * (t b.slot).maxRounds
  resets : (t b.slot).resets = resetsDue policy t b (b :: outer)

/-- Tallies that differ at most in resets. -/
theorem Lawful.of_eq {n : Nat} (h : Lawful policy t n b outer)
    (hentries : (t' b.slot).entries = (t b.slot).entries)
    (hrounds : (t' b.slot).rounds = (t b.slot).rounds)
    (hmax : (t' b.slot).maxRounds = (t b.slot).maxRounds)
    (hresets : (t' b.slot).resets = resetsDue policy t' b (b :: outer)) :
    Lawful policy t' n b outer where
  entries := hentries.trans h.entries
  le_rounds := by
    rw [hrounds]
    exact h.le_rounds
  rounds_le := by
    rw [hrounds, hmax]
    exact h.rounds_le
  resets := hresets

/-- One entry more, with a number of rounds. -/
theorem Lawful.succ {n m : Nat} (h : Lawful policy t n b outer) (hm : 0 < m)
    (hentries : (t' b.slot).entries = n + 1)
    (hrounds : (t' b.slot).rounds = (t b.slot).rounds + m)
    (hmax : (t' b.slot).maxRounds = max (t b.slot).maxRounds m)
    (hresets : (t' b.slot).resets = resetsDue policy t' b (b :: outer)) :
    Lawful policy t' (n + 1) b outer where
  entries := hentries
  le_rounds := by
    have hle := h.le_rounds
    rw [hrounds]
    omega
  rounds_le := by
    rw [hrounds, hmax]
    calc (t b.slot).rounds + m
      _ ≤ n * (t b.slot).maxRounds + m := Nat.add_le_add_right h.rounds_le m
      _ ≤ n * max (t b.slot).maxRounds m + max (t b.slot).maxRounds m :=
        Nat.add_le_add (Nat.mul_le_mul_left n (Nat.le_max_left _ _)) (Nat.le_max_right _ _)
      _ = (n + 1) * max (t b.slot).maxRounds m := (Nat.succ_mul n _).symm
  resets := hresets

end Tally

namespace Formula

variable {policy : ResetPolicy} {t t' : Nat → Tally} {n : Nat} {b z : Binder}
  {outer : List Binder} {f l r : Formula} {p : Sentence} {k : FixKind} {x : Char} {i : Nat}

/-- The tallies of the fixed points in the formula, which stands inside `outer` and was evaluated `n`
times. -/
def Tallied (policy : ResetPolicy) (t : Nat → Tally) : Nat → List Binder → Formula → Prop
  | _, _, top => True
  | _, _, bot => True
  | n, outer, and l r => l.Tallied policy t n outer ∧ r.Tallied policy t n outer
  | n, outer, or l r => l.Tallied policy t n outer ∧ r.Tallied policy t n outer
  | n, outer, not f => f.Tallied policy t n outer
  | n, outer, diamond _ f => f.Tallied policy t n outer
  | n, outer, box _ f => f.Tallied policy t n outer
  | n, outer, fix k x i f => Tally.Lawful policy t n (declaration k x i f) outer ∧
    f.Tallied policy t (t i).rounds (declaration k x i f :: outer)
  | _, _, var _ _ => True

theorem Tallied.congr (h : f.Tallied policy t n outer) (hf : ∀ j ∈ f.slots, t' j = t j)
    (houter : ∀ w ∈ outer, (t' w.slot).entries = (t w.slot).entries) :
    f.Tallied policy t' n outer := by
  induction f generalizing n outer with
  | top | bot | var => trivial
  | and l r ihl ihr | or l r ihl ihr =>
    exact ⟨ihl h.1 (fun j hj => hf j (List.mem_append_left _ hj)) houter,
      ihr h.2 (fun j hj => hf j (List.mem_append_right _ hj)) houter⟩
  | not f ih | diamond a f ih | box a f ih => exact ih h hf houter
  | fix k x i f ih =>
    obtain ⟨hlaw, hbody⟩ := h
    have hi : t' i = t i := hf i List.mem_cons_self
    have houter' : ∀ w ∈ declaration k x i f :: outer,
        (t' w.slot).entries = (t w.slot).entries :=
      List.forall_mem_cons.2 ⟨congrArg Tally.entries hi, houter⟩
    refine ⟨hlaw.of_eq (congrArg _ hi) (congrArg _ hi) (congrArg _ hi) ?_, ?_⟩
    · show (t' i).resets = _
      rw [hi, Tally.resetsDue_congr houter']
      exact hlaw.resets
    · rw [hi]
      exact ih hbody (fun j hj => hf j (List.mem_cons_of_mem _ hj)) houter'

/-- An entry of a fixed point around the formula, which resets some of the fixed points inside. -/
theorem Tallied.enter (inner : List Binder) (h : f.Tallied policy t n (inner ++ z :: outer))
    (hf : ∀ b ∈ f.table, t' b.slot = if policy.Resets b z outer then (t b.slot).reset else t b.slot)
    (hz : (t' z.slot).entries = (t z.slot).entries + 1)
    (hinner : ∀ w ∈ inner, (t' w.slot).entries = (t w.slot).entries)
    (houter : ∀ w ∈ outer, (t' w.slot).entries = (t w.slot).entries) :
    f.Tallied policy t' n (inner ++ z :: outer) := by
  induction f generalizing n inner with
  | top | bot | var => trivial
  | and l r ihl ihr | or l r ihl ihr =>
    exact ⟨ihl _ h.1 (fun b hb => hf b (List.mem_append_left _ hb)) hinner,
      ihr _ h.2 (fun b hb => hf b (List.mem_append_right _ hb)) hinner⟩
  | not f ih | diamond a f ih | box a f ih => exact ih _ h hf hinner
  | fix k x i f ih =>
    obtain ⟨hlaw, hbody⟩ := h
    have hi : t' i = if policy.Resets (declaration k x i f) z outer then (t i).reset else t i :=
      hf _ List.mem_cons_self
    have hentries : (t' i).entries = (t i).entries := by rw [hi]; split <;> rfl
    have hrounds : (t' i).rounds = (t i).rounds := by rw [hi]; split <;> rfl
    have hmax : (t' i).maxRounds = (t i).maxRounds := by rw [hi]; split <;> rfl
    have hresets : (t' i).resets = (t i).resets +
        if policy.Resets (declaration k x i f) z outer then 1 else 0 := by
      rw [hi]
      split <;> rfl
    have hinner' : ∀ w ∈ declaration k x i f :: inner,
        (t' w.slot).entries = (t w.slot).entries := List.forall_mem_cons.2 ⟨hentries, hinner⟩
    refine ⟨hlaw.of_eq hentries hrounds hmax ?_, ?_⟩
    · show (t' i).resets = _
      rw [hresets, ← List.cons_append, Tally.resetsDue_enter _ hz hinner' houter]
      exact congrArg (· + _) hlaw.resets
    · rw [hrounds]
      exact ih _ hbody (fun b hb => hf b (List.mem_cons_of_mem _ hb)) hinner'

/-- Tallies that count nothing. -/
theorem tallied_zero (ht : ∀ j, t j = .zero) (outer : List Binder) (f : Formula) :
    f.Tallied policy t 0 outer := by
  have hdue : ∀ (b : Binder) (l : List Binder), Tally.resetsDue policy t b l = 0 := by
    intro b l
    induction l with
    | nil => rfl
    | cons w l ih => simp [Tally.resetsDue, ih, ht, Tally.zero]
  induction f generalizing outer with
  | top | bot | var => trivial
  | and l r ihl ihr | or l r ihl ihr => exact ⟨ihl outer, ihr outer⟩
  | not f ih | diamond a f ih | box a f ih => exact ih outer
  | fix k x i f ih =>
    have hi : t i = .zero := ht i
    refine ⟨⟨?_, ?_, ?_, ?_⟩, ?_⟩
    · exact congrArg Tally.entries hi
    · exact Nat.zero_le _
    · show (t i).rounds ≤ 0 * (t i).maxRounds
      rw [hi]
      exact Nat.zero_le _
    · rw [hdue]
      exact congrArg Tally.resets hi
    · rw [hi]
      exact ih _

/-- The formula has its entries in the table of the sentence, and binds other slots than the fixed points
`outer` around it. -/
structure StandsIn (f : Formula) (p : Sentence) (outer : List Binder) : Prop where
  declared : f.Declared p
  nodup : f.slots.Nodup
  apart : ∀ j ∈ f.slots, j ∉ outer.map (·.slot)

namespace StandsIn

theorem of_append (h : f.StandsIn p outer) (htable : f.table = l.table ++ r.table)
    (hslots : f.slots = l.slots ++ r.slots)
    (hoccurrences : f.occurrences = l.occurrences ++ r.occurrences) :
    l.StandsIn p outer ∧ r.StandsIn p outer ∧ ∀ j ∈ l.slots, j ∉ r.slots := by
  obtain ⟨hdeclaredl, hdeclaredr⟩ := h.declared.of_append htable hoccurrences
  have hnodup := h.nodup
  have hapart := h.apart
  rw [hslots] at hnodup hapart
  obtain ⟨hl, hr, hdisjoint⟩ := List.nodup_append.1 hnodup
  exact ⟨⟨hdeclaredl, hl, fun j hj => hapart j (List.mem_append_left _ hj)⟩,
    ⟨hdeclaredr, hr, fun j hj => hapart j (List.mem_append_right _ hj)⟩,
    fun j hj hj' => hdisjoint j hj j hj' rfl⟩

theorem slot_notMem (h : (fix k x i f).StandsIn p outer) : i ∉ f.slots :=
  (List.nodup_cons.1 h.nodup).1

theorem body (h : (fix k x i f).StandsIn p outer) :
    f.StandsIn p (declaration k x i f :: outer) where
  declared := h.declared.body
  nodup := (List.nodup_cons.1 h.nodup).2
  apart j hj hmem := by
    rcases List.mem_cons.1 hmem with rfl | hmem
    · exact h.slot_notMem hj
    · exact h.apart j (List.mem_cons_of_mem _ hj) hmem

end StandsIn

/-- The slots that an entry resets are those of the fixed points it resets. -/
theorem mem_resetSlots_iff (hf : (fix k x i f).Declared p) (hb : b ∈ (fix k x i f).table) :
    b.slot ∈ resetSlots policy k x i f (outer.head?.map (·.kind)) (outer.map (·.slot)) ↔
      policy.Resets b (declaration k x i f) outer := by
  unfold resetSlots ResetPolicy.Resets
  cases policy with
  | never => exact iff_of_false List.not_mem_nil id
  | always => exact List.mem_singleton
  | alternation =>
    dsimp only
    split
    · next haround =>
      rw [mem_affected]
      constructor
      · rintro ⟨b', hb', ⟨hkind, hopen⟩, hslot⟩
        -- The table has one entry for each slot.
        have heq : b' = b := by
          have h := hf.binders b' hb'
          rw [hslot, hf.binders b hb] at h
          exact (Option.some.inj h).symm
        rw [heq] at hkind hopen
        exact ⟨hkind, haround, hopen⟩
      · rintro ⟨hkind, -, hopen⟩
        exact ⟨b, hb, ⟨hkind, hopen⟩, rfl⟩
    · next haround => exact iff_of_false List.not_mem_nil fun h => haround h.2.1

/-- Every part of a formula stands inside the fixed points around it. -/
theorem inherited_standsIn (p : Sentence) : Inherited fun f outer => f.StandsIn p outer where
  and h := ⟨(h.of_append rfl rfl rfl).1, (h.of_append rfl rfl rfl).2.1⟩
  or h := ⟨(h.of_append rfl rfl rfl).1, (h.of_append rfl rfl rfl).2.1⟩
  not h := ⟨⟨h.declared.binders, h.declared.occurrences⟩, h.nodup, h.apart⟩
  diamond h := ⟨⟨h.declared.binders, h.declared.occurrences⟩, h.nodup, h.apart⟩
  box h := ⟨⟨h.declared.binders, h.declared.occurrences⟩, h.nodup, h.apart⟩
  fix h := h.body

/-- A part was evaluated once for every round of the innermost fixed point around it. -/
theorem inherited_tallied (policy : ResetPolicy) (t : Nat → Tally) :
    Inherited fun f outer => f.Tallied policy t (Tally.evaluations t outer) outer where
  and h := h
  or h := h
  not h := h
  diamond h := h
  box h := h
  fix h := h.2

/-- The fixed point with the declaration `b` stands in the formula inside the fixed points `around`. -/
def BindsAt (f : Formula) (b : Binder) (around : List Binder) : Prop :=
  ∃ g, (g, around) ∈ f.places [] ∧ g.binder? = some b

theorem Tallied.lawful {around : List Binder} (h : f.Tallied policy t 1 [])
    (hb : f.BindsAt b around) : Tally.Lawful policy t (Tally.evaluations t around) b around := by
  obtain ⟨g, hplace, hbinder⟩ := hb
  have hg := (inherited_tallied policy t).of_mem_places [] h hplace
  cases g with
  | fix k x i body =>
    obtain rfl := Option.some.inj hbinder
    exact hg.1
  | _ => cases hbinder

theorem BindsAt.slot_notMem {around : List Binder} (hf : f.StandsIn p []) (hb : f.BindsAt b around) :
    b.slot ∉ around.map (·.slot) := by
  obtain ⟨g, hplace, hbinder⟩ := hb
  have hg := (inherited_standsIn p).of_mem_places [] hf hplace
  cases g with
  | fix k x i body =>
    obtain rfl := Option.some.inj hbinder
    exact hg.apart i List.mem_cons_self
  | _ => cases hbinder

end Formula

/-- The root of a well formed sentence stands inside nothing. -/
theorem Sentence.WellFormed.standsIn {p : Sentence} (h : p.WellFormed) :
    p.root.StandsIn p [] where
  declared := h.declared
  nodup := h.apart.nodup
  apart _ _ := List.not_mem_nil

end ModalMu
