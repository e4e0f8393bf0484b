import ModalMu.Proofs.Offsets
import ModalMu.Proofs.Places
import ModalMu.Proofs.Reading

/-!
# The table of binders while it is filled in

The reader in place notes down every fixed point and every variable at all binders that are open at the time,
and looks names up among them. The reader on lists of characters knows neither a table nor a stack: it has a
scope, and puts the binders of a formula together from those of its parts. The two agree
(`Offset.sentence_eq`), so the notes add up to what the finished formula says (`parse_binders_exact`).

1. The stack of open binders with the names in the table is the scope (`Tracks`), so both find the same
   binder for a name (`Tracks.findOpen_eq`).
2. Reading a formula does two things to the table (`Shows`). Every open binder absorbs the slots of the
   fixed points and variables that were read, and the binders of the formula are put behind the table.
   Other binders are left alone, and the stack is as before.
3. A fixed point has itself on the stack while its body is read. So its own entry absorbs what is in the
   body and nothing else (`noted_push`), which is what the other reader puts there (`Follows.fixedPoint`).
4. The right side of a junction takes in all the junctions behind it, so the loop of the reader in place goes
   round at most once (`exists_junctions_eq_ok`), as the other reader does.
-/

namespace ModalMu

/-- The binder with more in its body. -/
def Binder.absorb (slots occurrences : List Nat) (b : Binder) : Binder :=
  { b with descendants := b.descendants ++ slots, occurrences := b.occurrences ++ occurrences }

namespace Binder

theorem absorb_comp_absorb (slots slots' occurrences occurrences' : List Nat) :
    absorb slots' occurrences' ∘ absorb slots occurrences =
      absorb (slots ++ slots') (occurrences ++ occurrences') := by
  funext b
  simp [absorb]

theorem addDescendant_eq_absorb (i : Nat) : addDescendant i = absorb [i] [] := by
  funext b
  simp [addDescendant, absorb]

theorem addOccurrence_eq_absorb (i : Nat) : addOccurrence i = absorb [] [i] := by
  funext b
  simp [addOccurrence, absorb]

end Binder

namespace Offset

open ModalMu.Parser (Scope Reach Failure Piece junction? isWordChar)

/-! ## Entries of the table -/

/-- The table with something noted down at some of its entries. -/
def noted (opened : List Nat) (note : Binder → Binder) (binders : Array Binder) : Array Binder :=
  binders.mapIdx fun i b => if i ∈ opened then note b else b

section Noted

variable {opened : List Nat} {note note' : Binder → Binder} {binders : Array Binder} {i : Nat}

@[simp] theorem size_noted : (noted opened note binders).size = binders.size := Array.size_mapIdx

theorem getElem?_noted : (noted opened note binders)[i]? =
    binders[i]?.map fun b => if i ∈ opened then note b else b := Array.getElem?_mapIdx

theorem noted_nil : noted [] note binders = binders := by
  refine Array.ext_getElem? fun i => ?_
  simp [getElem?_noted]

theorem noted_noted : noted opened note' (noted opened note binders) =
    noted opened (note' ∘ note) binders := by
  refine Array.ext_getElem? fun i => ?_
  rw [getElem?_noted, getElem?_noted, getElem?_noted, Option.map_map]
  congr 1
  funext b
  by_cases hi : i ∈ opened <;> simp [hi]

theorem noted_append (h : ∀ i ∈ opened, i < binders.size) (later : Array Binder) :
    noted opened note (binders ++ later) = noted opened note binders ++ later := by
  refine Array.ext_getElem? fun i => ?_
  rw [getElem?_noted, Array.getElem?_append, Array.getElem?_append, size_noted, getElem?_noted]
  by_cases hi : i < binders.size
  · rw [if_pos hi, if_pos hi]
  · have hnot : i ∉ opened := fun hmem => hi (h i hmem)
    simp [hi, hnot]

/-- A new entry that is open besides. -/
theorem noted_push (opened : List Nat) (note : Binder → Binder) (binders : Array Binder) (b : Binder) :
    noted (binders.size :: opened) note (binders.push b) = (noted opened note binders).push (note b) := by
  refine Array.ext_getElem? fun i => ?_
  rw [getElem?_noted, Array.getElem?_push, Array.getElem?_push, size_noted]
  by_cases hi : i = binders.size
  · simp [hi]
  · rw [if_neg hi, if_neg hi, getElem?_noted]
    simp [hi]

/-- Entry by entry the notes are made, and none is made twice. -/
theorem noteOpen_eq (hnodup : opened.Nodup) (h : ∀ i ∈ opened, i < binders.size) :
    noteOpen note opened binders = .ok (noted opened note binders) := by
  induction opened generalizing binders with
  | nil => rw [noted_nil]; rfl
  | cons i opened ih =>
    have hi : i < binders.size := h i List.mem_cons_self
    obtain ⟨hnot, hnodup⟩ := List.nodup_cons.1 hnodup
    have hlookup : Fault.lookup binders i = .ok binders[i] :=
      Fault.lookup_eq_ok_iff.2 (Array.getElem?_eq_getElem hi)
    rw [noteOpen, hlookup, ok_bind, ih hnodup fun j hj => by
      rw [Array.size_setIfInBounds]
      exact h j (List.mem_cons_of_mem _ hj)]
    congr 1
    refine Array.ext_getElem? fun j => ?_
    rw [getElem?_noted, getElem?_noted, Array.getElem?_setIfInBounds]
    by_cases hij : i = j
    · subst hij
      simp [hi, hnot]
    · simp [hij, Ne.symm hij]

end Noted

/-! ## The stack and the scope -/

/-- The scope has the slots on the stack, with the names that they have in the table. -/
structure Tracks (binders : Array Binder) (opened : List Nat) (scope : Scope) : Prop where
  named : opened.map (fun i => (i, binders[i]?.map (·.name))) = scope.map fun p => (p.2, some p.1)
  nodup : opened.Nodup

namespace Tracks

variable {binders : Array Binder} {opened : List Nat} {scope : Scope}

theorem lt_size (h : Tracks binders opened scope) : ∀ i ∈ opened, i < binders.size := by
  intro i hi
  have hmem : (i, binders[i]?.map (·.name)) ∈ scope.map fun p => (p.2, some p.1) := by
    rw [← h.named]
    exact List.mem_map.2 ⟨i, hi, rfl⟩
  obtain ⟨p, -, hp⟩ := List.mem_map.1 hmem
  obtain ⟨b, hb, -⟩ := Option.map_eq_some_iff.1 (Prod.mk.inj hp).2.symm
  exact (Array.getElem?_eq_some_iff.1 hb).1

theorem findOpen_eq (h : Tracks binders opened scope) (x : Char) :
    findOpen binders x opened = .ok (scope.lookup x) := by
  obtain ⟨hnamed, -⟩ := h
  induction opened generalizing scope with
  | nil =>
    obtain rfl : scope = [] := List.map_eq_nil_iff.1 hnamed.symm
    rfl
  | cons i opened ih =>
    obtain ⟨⟨y, j⟩, scope, rfl, hp, hrest⟩ := List.map_eq_cons_iff.1 hnamed.symm
    obtain ⟨rfl, hname⟩ := Prod.mk.inj hp
    obtain ⟨b, hb, rfl⟩ := Option.map_eq_some_iff.1 hname.symm
    rw [findOpen, Fault.lookup_eq_ok_iff.2 hb, ok_bind, List.lookup_cons]
    by_cases hx : b.name = x
    · rw [if_pos hx, beq_iff_eq.2 hx.symm]
    · rw [if_neg hx, beq_eq_false_iff_ne.2 (Ne.symm hx)]
      exact ih hrest.symm

/-- Only the names in the table matter. -/
theorem of_names (h : Tracks binders opened scope) {binders' : Array Binder}
    (hnames : ∀ i ∈ opened, binders'[i]?.map (·.name) = binders[i]?.map (·.name)) :
    Tracks binders' opened scope := by
  refine ⟨?_, h.nodup⟩
  rw [← h.named]
  exact List.map_congr_left fun i hi => by rw [hnames i hi]

theorem noted (h : Tracks binders opened scope) (note : Binder → Binder)
    (hnote : ∀ b, (note b).name = b.name) : Tracks (noted opened note binders) opened scope := by
  refine h.of_names fun i _ => ?_
  rw [getElem?_noted, Option.map_map]
  congr 1
  funext b
  by_cases hi : i ∈ opened <;> simp [hi, hnote]

theorem append (h : Tracks binders opened scope) (later : Array Binder) :
    Tracks (binders ++ later) opened scope := by
  refine h.of_names fun i hi => ?_
  rw [Array.getElem?_append_left (h.lt_size i hi)]

/-- A new binder is opened. -/
theorem push (h : Tracks binders opened scope) (b : Binder) :
    Tracks (binders.push b) (binders.size :: opened) ((b.name, binders.size) :: scope) := by
  have hlt := h.lt_size
  have hold : Tracks (binders.push b) opened scope := by
    refine h.of_names fun i hi => ?_
    rw [Array.getElem?_push, if_neg (Nat.ne_of_lt (hlt i hi))]
  refine ⟨?_, List.nodup_cons.2 ⟨fun hmem => Nat.lt_irrefl _ (hlt _ hmem), h.nodup⟩⟩
  rw [List.map_cons, List.map_cons, hold.named, Array.getElem?_push_size]
  rfl

end Tracks

/-! ## In step -/

/-- How far a formula under the ceiling reaches. -/
def Priority.reach (ceiling : Priority) : Reach :=
  if Priority.junction.admissible ceiling then .junction else .operand

/-- What was read with a table and a stack is the piece: the open binders have absorbed it, and its own
binders are behind the rest of the table. -/
structure Shows (src s : List Char) (binders : Array Binder) (opened : List Nat) (q : Formula × State)
    (p : Piece) : Prop where
  formula : q.1 = p.formula
  binders : q.2.binders =
    noted opened (Binder.absorb (p.binders.map (·.slot)) p.occurrences) binders ++ p.binders.toArray
  opened : q.2.opened = opened
  near : Near src q.2.offset p.rest
  length_lt : p.rest.length < s.length

/-- Two readers of inner formulas are in step on texts up to a length. -/
def Follows (src : List Char) (bound : Nat) (read : Reading) (read' : Parser.Reading) : Prop :=
  ∀ ceiling scope st {s}, At src st.offset s → Tracks st.binders st.opened scope → s.length ≤ bound →
    Agrees src (Shows src s st.binders st.opened) (read ceiling st)
      (read' ceiling.reach scope st.binders.size s)

section InStep

variable {src s rest : List Char} {bound : Nat} {read : Reading} {read' : Parser.Reading} {scope : Scope}
  {binders : Array Binder} {opened : List Nat} {st : State} {q : Formula × State} {p : Piece}

theorem noted_absorb_nil : noted opened (Binder.absorb [] []) binders = binders := by
  refine Array.ext_getElem? fun i => ?_
  simp [getElem?_noted, Binder.absorb]

theorem Shows.size (h : Shows src s binders opened q p) :
    q.2.binders.size = binders.size + p.binders.length := by
  rw [h.binders, Array.size_append, size_noted]
  rfl

theorem Shows.tracks (h : Shows src s binders opened q p) (ht : Tracks binders opened scope) :
    Tracks q.2.binders q.2.opened scope := by
  rw [h.binders, h.opened]
  exact (ht.noted (Binder.absorb _ _) fun _ => rfl).append _

/-- A constant leaves the table as it is. -/
theorem Near.shows_constant {n : Nat} (h : Near src n rest) (hlt : rest.length < s.length) (f : Formula) :
    Shows src s binders opened (f, ⟨n, binders, opened⟩) ⟨f, [], [], rest⟩ where
  formula := rfl
  binders := by
    rw [List.map_nil, noted_absorb_nil]
    exact Array.append_empty.symm
  opened := rfl
  near := h
  length_lt := hlt

theorem Shows.change (h : Shows src rest binders opened q p) (hle : rest.length ≤ s.length)
    (g : Formula → Formula) :
    Shows src s binders opened (g q.1, q.2) { p with formula := g p.formula } where
  formula := congrArg g h.formula
  binders := h.binders
  opened := h.opened
  near := h.near
  length_lt := Nat.lt_of_lt_of_le h.length_lt hle

theorem Agrees.of_length_le {x : Except Stop (Formula × State)} {y : Except Failure Piece}
    (h : Agrees src (Shows src rest binders opened) x y) (hle : rest.length ≤ s.length) :
    Agrees src (Shows src s binders opened) x y := by
  cases h with
  | ok h => exact .ok (h.change hle id)
  | refused h hinner => exact .refused h hinner

/-- A formula whose text is shorter, with something done to it. -/
theorem Agrees.change {x : Except Stop (Formula × State)} {y : Except Failure Piece}
    (h : Agrees src (Shows src rest binders opened) x y) (hle : rest.length ≤ s.length)
    (g : Formula → Formula) :
    Agrees src (Shows src s binders opened) (x >>= fun q => .ok (g q.1, q.2))
      (y >>= fun p => .ok { p with formula := g p.formula }) :=
  h.bind fun _ _ hshows => .ok (hshows.change hle g)

/-- A variable is noted down at all open binders. -/
theorem At.occurrence (st : State) {x : Char} (h : At src st.offset (x :: s))
    (ht : Tracks st.binders st.opened scope) :
    Agrees src (Shows src (x :: s) st.binders st.opened) (occurrence src x st)
      (Parser.occurrence scope x s) := by
  unfold Offset.occurrence Parser.occurrence
  rw [ht.findOpen_eq]
  cases hx : scope.lookup x with
  | none => exact h.refuse trivial
  | some i =>
    simp only [ofFault, noteOpen_eq ht.nodup ht.lt_size]
    exact .ok {
      formula := rfl
      binders := by
        rw [Binder.addOccurrence_eq_absorb]
        exact Array.append_empty.symm
      opened := rfl
      near := h.next.near
      length_lt := Nat.lt_succ_self _ }

/-- A fixed point is noted down at all open binders, and then it is one of them until its body is read. -/
theorem Shows.fixedPoint {x : Char} {k : FixKind}
    (h : Shows src rest ((noted opened (Binder.addDescendant binders.size) binders).push
      ⟨x, k, binders.size, [], []⟩) (binders.size :: opened) q p) (hle : rest.length ≤ s.length) :
    Shows src s binders opened
      (.fix k x binders.size q.1, { q.2 with opened := q.2.opened.tail })
      ⟨.fix k x binders.size p.formula,
        ⟨x, k, binders.size, p.binders.map (·.slot), p.occurrences⟩ :: p.binders, p.occurrences,
        p.rest⟩ where
  formula := by rw [h.formula]
  binders := by
    have hsize : (noted opened (Binder.addDescendant binders.size) binders).size = binders.size := size_noted
    have hpush := noted_push opened (Binder.absorb (p.binders.map (·.slot)) p.occurrences)
      (noted opened (Binder.addDescendant binders.size) binders) ⟨x, k, binders.size, [], []⟩
    rw [hsize] at hpush
    rw [h.binders, hpush, noted_noted, Binder.addDescendant_eq_absorb, Binder.absorb_comp_absorb,
      List.toArray_cons, ← Array.append_assoc]
    rfl
  opened := by rw [h.opened]; rfl
  near := h.near
  length_lt := Nat.lt_of_lt_of_le h.length_lt hle

theorem Follows.fixedPoint (hread : Follows src bound read read') (k : FixKind) (st : State)
    (h : At src st.offset s) (ht : Tracks st.binders st.opened scope) (hbound : s.length ≤ bound) :
    Agrees src (Shows src s st.binders st.opened) (fixedPoint src read k st)
      (Parser.fixedPoint read' k scope st.binders.size s) := by
  obtain ⟨n', hskip, hat⟩ := h.skipTrivia
  have hle := Grammar.length_skipTrivia_le s
  simp only [Offset.fixedPoint, Parser.fixedPoint, hskip, hat.textFrom, ok_bind]
  cases hs : Parser.skipTrivia s with
  | nil =>
    rw [hs] at hat
    exact hat.unexpected .binderName
  | cons x t =>
    rw [hs] at hat hle
    by_cases hx : x.isUpper = true
    · simp only [if_pos hx]
      refine (hat.next.near.expect '.' .dot).bind fun inside rest hon => ?_
      rw [ht.findOpen_eq]
      cases hscope : scope.lookup x with
      | some i => exact hat.refuse trivial
      | none =>
        have hlt : rest.length < s.length := Nat.lt_trans hon.length_lt hle
        -- While the body is read, the fixed point is in the table and on the stack.
        have hinside := (ht.noted (Binder.addDescendant st.binders.size) fun _ => rfl).push
          ⟨x, k, st.binders.size, [], []⟩
        rw [size_noted] at hinside
        have hbody := hread .fixedPoint _
          ⟨inside, (noted st.opened (Binder.addDescendant st.binders.size) st.binders).push
            ⟨x, k, st.binders.size, [], []⟩, st.binders.size :: st.opened⟩ hon.place hinside (by omega)
        simp only [Array.size_push, size_noted] at hbody
        simp only [ofFault, noteOpen_eq ht.nodup ht.lt_size]
        exact hbody.bind fun _ _ hshows => .ok (hshows.fixedPoint (Nat.le_of_lt hlt))
    · simp only [if_neg hx]
      exact hat.unexpected .binderName

theorem Follows.keyword (hread : Follows src bound read read') (st : State) {c : Char}
    (h : At src st.offset (c :: s)) (ht : Tracks st.binders st.opened scope) (hc : isWordChar c = true)
    (hbound : s.length ≤ bound) :
    Agrees src (Shows src (c :: s) st.binders st.opened) (keyword src read st)
      (Parser.keyword read' scope st.binders.size (c :: s)) := by
  have hsplit : c :: s = (c :: s).takeWhile isWordChar ++ (c :: s).dropWhile isWordChar :=
    List.takeWhile_append_dropWhile.symm
  have hbehind := h.advance hsplit
  have hle : ((c :: s).dropWhile isWordChar).length ≤ s.length := by
    rw [List.dropWhile_cons_of_pos hc]
    exact (List.dropWhile_suffix _).length_le
  have hlt : ((c :: s).dropWhile isWordChar).length < (c :: s).length := Nat.lt_succ_of_le hle
  have hfix := fun k => (hread.fixedPoint k ⟨_, st.binders, st.opened⟩ hbehind ht
    (Nat.le_trans hle hbound)).of_length_le (Nat.le_of_lt hlt)
  simp only [Offset.keyword, Parser.keyword, h.textFrom, ok_bind, cut_eq_ok_iff.2 ⟨hsplit, rfl⟩]
  split
  · exact .ok (hbehind.near.shows_constant hlt .top)
  split
  · exact .ok (hbehind.near.shows_constant hlt .bot)
  split
  · exact hfix .least
  split
  · exact hfix .greatest
  · exact h.refuse trivial

theorem Follows.modality (hread : Follows src bound read read') {n : Nat} {opening closing : Char}
    (h : At src n (opening :: s)) (ht : Tracks st.binders st.opened scope) (hbound : s.length ≤ bound)
    (g : Label → Formula → Formula) :
    Agrees src (Shows src (opening :: s) st.binders st.opened)
      (do
        let (a, behind) ← label src opening closing n
        let (body, st) ← read .modality { st with offset := behind }
        .ok (g a body, st))
      (do
        let (a, behind) ← Parser.label opening closing s
        let body ← read' .junction scope st.binders.size behind
        .ok { body with formula := g a body.formula }) := by
  refine h.label.bind ?_
  rintro ⟨a, m⟩ ⟨a', rest⟩ ⟨ha, hon⟩
  obtain rfl : a = a' := ha
  have hlt := hon.length_lt
  rw [List.length_cons] at hlt
  exact (hread .modality scope ⟨m, st.binders, st.opened⟩ hon.place ht (by omega)).change
    (Nat.le_of_lt hon.length_lt) (g a)

theorem Follows.operand (hread : Follows src bound read read') (h : At src st.offset s)
    (ht : Tracks st.binders st.opened scope) (hbound : s.length ≤ bound + 1) :
    Agrees src (Shows src s st.binders st.opened) (operand src read st)
      (Parser.operand read' scope st.binders.size s) := by
  obtain ⟨n', hskip, hat⟩ := h.skipTrivia
  have hle := Grammar.length_skipTrivia_le s
  simp only [Offset.operand, Parser.operand, hskip, hat.textFrom, ok_bind]
  cases hs : Parser.skipTrivia s with
  | nil =>
    rw [hs] at hat
    exact hat.unexpected .formula
  | cons c t =>
    rw [hs] at hat hle
    have hlt : t.length < s.length := hle
    simp only
    split
    · have hinside := hread .whole scope ⟨_, st.binders, st.opened⟩ hat.next ht (by omega)
      refine hinside.bind fun q p hshows => ?_
      refine (hshows.near.expect ')' .closing).bind fun m r hclose => .ok ?_
      have hinner := hshows.length_lt
      have houter := hclose.length_lt
      exact ⟨hshows.formula, hshows.binders, hshows.opened, hclose.place.near, Nat.lt_trans houter (by omega)⟩
    split
    · next hc =>
      subst hc
      exact (hread.modality hat ht (by omega) .diamond).of_length_le hle
    split
    · next hc =>
      subst hc
      exact (hread.modality hat ht (by omega) .box).of_length_le hle
    split
    · exact (hread .negation scope ⟨_, st.binders, st.opened⟩ hat.next ht (by omega)).change
        (Nat.le_of_lt hlt) .not
    split
    · exact (At.occurrence ⟨n', st.binders, st.opened⟩ hat ht).of_length_le hle
    split
    · next hlower =>
      have hword : isWordChar c = true := Grammar.isWordChar_iff.2 (.inl (.inl (.inr hlower)))
      exact (hread.keyword ⟨n', st.binders, st.opened⟩ hat ht hword (by omega)).of_length_le hle
    · exact hat.unexpected .formula

/-! ### Junctions -/

/-- Where no junction follows, the loop ends at once. -/
theorem exists_junctions_eq_ok (read : Reading) (ceiling : Priority) (turns : Nat) (f : Formula)
    (h : Near src st.offset rest) (hstops : Grammar.Stops rest) :
    ∃ n, junctions src read ceiling turns f st = .ok (f, { st with offset := n }) ∧ Near src n rest := by
  cases turns with
  | zero => exact ⟨st.offset, rfl, h⟩
  | succ turns =>
    obtain ⟨n, hskip, hat⟩ := h.skipTrivia
    refine ⟨n, ?_, hat.near_of_skipTrivia⟩
    rw [Grammar.Stops] at hstops
    simp only [junctions, hskip, hat.textFrom, ok_bind, hstops]

/-- The open binders absorb the left side and then the right side. -/
theorem Shows.join {left right : Piece} {l r : Formula × State} (ht : Tracks binders opened scope)
    (hl : Shows src s binders opened l left) (hr : Shows src rest l.2.binders l.2.opened r right)
    (hle : rest.length ≤ s.length) (j : Parser.Junction) :
    Shows src s binders opened (j.join l.1 r.1, r.2)
      ⟨j.join left.formula right.formula, left.binders ++ right.binders,
        left.occurrences ++ right.occurrences, right.rest⟩ where
  formula := by rw [hl.formula, hr.formula]
  binders := by
    have hlt : ∀ i ∈ opened,
        i < (noted opened (Binder.absorb (left.binders.map (·.slot)) left.occurrences) binders).size := by
      intro i hi
      rw [size_noted]
      exact ht.lt_size i hi
    rw [hr.binders, hl.binders, hl.opened, noted_append hlt, noted_noted, Binder.absorb_comp_absorb,
      Array.append_assoc, List.map_append]
    exact congrArg _ (List.append_toArray _ _)
  opened := hr.opened.trans hl.opened
  near := hr.near
  length_lt := Nat.lt_of_lt_of_le hr.length_lt hle

theorem follows_formula (src : List Char) (bound : Nat) :
    Follows src bound (formula src bound) (Parser.formula bound) := by
  induction bound with
  | zero =>
    intro ceiling scope st s h _ hbound
    obtain rfl : s = [] := List.eq_nil_of_length_eq_zero (Nat.le_zero.1 hbound)
    exact h.refuse rfl
  | succ bound ih =>
    intro ceiling scope st s h ht hbound
    rw [formula, Parser.formula]
    refine (ih.operand h ht hbound).bind fun l left hleft => ?_
    obtain ⟨n, hskip, hat⟩ := hleft.near.skipTrivia
    have hle := Grammar.length_skipTrivia_le left.rest
    have hlt := hleft.length_lt
    -- The operand alone, with the offset behind the trivia that follow it.
    have hstays : Shows src s st.binders st.opened (l.1, { l.2 with offset := n }) left :=
      ⟨hleft.formula, hleft.binders, hleft.opened, hat.near_of_skipTrivia, hlt⟩
    simp only [junctions, hskip, hat.textFrom, ok_bind, Priority.reach]
    cases hceiling : Priority.junction.admissible ceiling with
    | false =>
      cases junction? (Parser.skipTrivia left.rest) with
      | none => exact .ok hstays
      | some found => exact .ok hstays
    | true =>
      cases hj : junction? (Parser.skipTrivia left.rest) with
      | none => exact .ok hstays
      | some found =>
        obtain ⟨j, t⟩ := found
        have htext := Grammar.junction?_eq_some_iff.1 hj
        have hbehind : At src (n + 2) t := by
          have hsymbol := hat.advance htext
          cases j <;> exact hsymbol
        have hshort : t.length < left.rest.length := by
          rw [htext] at hle
          cases j <;> exact Nat.lt_of_succ_lt hle
        have hright : Agrees src (Shows src t l.2.binders l.2.opened)
            (formula src bound .junction ⟨n + 2, l.2.binders, l.2.opened⟩)
            (Parser.formula bound .junction scope (st.binders.size + left.binders.length) t) := by
          rw [← hleft.size]
          exact ih .junction scope ⟨n + 2, _, _⟩ hbehind (hleft.tracks ht) (by omega)
        simp only [if_true]
        generalize hpiece : Parser.formula bound .junction scope (st.binders.size + left.binders.length) t =
          y at hright ⊢
        generalize formula src bound .junction ⟨n + 2, l.2.binders, l.2.opened⟩ = x at hright ⊢
        cases hright with
        | refused h hinner => exact .refused h hinner
        | @ok r right hright =>
          -- The right side has taken in every junction behind it.
          obtain ⟨m, hloop, hnear⟩ := exists_junctions_eq_ok (formula src bound) ceiling bound
            (j.join l.1 r.1) hright.near (Grammar.formula_grammatical bound hpiece).2
          simp only [ok_bind, hloop]
          have hjoin := hleft.join ht hright (by omega) j
          exact .ok ⟨hjoin.formula, hjoin.binders, hjoin.opened, hnear, hjoin.length_lt⟩

end InStep

/-- The two readers, set on the whole text. -/
theorem agrees_whole (src : List Char) :
    Agrees src (Shows src src #[] []) (formula src src.length .whole ⟨0, #[], []⟩)
      (Parser.formula src.length .junction [] 0 src) :=
  follows_formula src src.length .whole [] ⟨0, #[], []⟩ (at_zero src) ⟨rfl, .nil⟩ (Nat.le_refl _)

/-- The reader in place gives what the reader on lists gives. So it never tears a character apart, and never
asks for an entry that the table does not have. -/
theorem sentence_eq (src : List Char) : sentence src = (Sentence.ofChars src).mapError .refused := by
  have h := agrees_whole src
  unfold sentence Sentence.ofChars Parser.sentence
  generalize formula src src.length .whole ⟨0, #[], []⟩ = whole at h
  generalize Parser.formula src.length .junction [] 0 src = piece at h
  cases h with
  | refused => rfl
  | @ok q p h =>
    obtain ⟨n, hskip, hend⟩ := h.near.skipTrivia
    have hbinders : q.2.binders = p.binders.toArray := by
      rw [h.binders, noted_nil]
      exact Array.empty_append
    simp only [hskip, hend.textFrom, ok_bind]
    cases ht : Parser.skipTrivia p.rest with
    | nil =>
      simp only [hbinders, h.formula]
      rfl
    | cons c t =>
      rw [ht] at hend
      exact hend.refuse_eq _

end Offset

/-- The table that is filled in while a sentence is read is exact. The reader in place gives what `parse`
gives. Binder `i` of the table is the fixed point number `i` in the order of the text, with its name and
kind; its descendants are the slots of the fixed points in the body, which count up from `i + 1`, and its
occurrences the slots of the variables there. Every variable has the slot of a fixed point around it with
its name, and no fixed point stands inside one with its name. -/
theorem parse_binders_exact (src : String) :
    Offset.sentence src.toList = (Sentence.parse src).mapError .refused ∧
    ∀ p, Sentence.parse src = .ok p →
      p.binders.size = p.root.fixedPoints.length ∧
      (∀ (i : Nat) (b : Binder), p.binders[i]? = some b → b.slot = i ∧
        ∃ body, p.root.fixedPoints[i]? = some (.fix b.kind b.name i body) ∧
          b.descendants = body.subformulas.filterMap Formula.boundSlot? ∧
          b.descendants = List.range' (i + 1) body.fixedPoints.length ∧
          b.occurrences = body.subformulas.filterMap Formula.usedSlot?) ∧
      (∀ x j around, (.var x j, around) ∈ p.root.places [] →
        ∃ b ∈ around, b.name = x ∧ b.slot = j) ∧
      ∀ k x i body around, (.fix k x i body, around) ∈ p.root.places [] →
        ∀ b ∈ around, b.name ≠ x := by
  refine ⟨Offset.sentence_eq src.toList, fun p hp => ?_⟩
  have hwellFormed := Sentence.parse_wellFormed hp
  refine ⟨?_, fun i b hb => ?_, fun _ _ _ => hwellFormed.exists_mem_around,
    fun _ _ _ _ _ hplace _ hb => hwellFormed.name_ne_of_mem_around hplace hb⟩
  · rw [Formula.length_fixedPoints, hwellFormed.slots, List.length_range]
  · obtain ⟨body, hnode, hdescendants, hcount, hoccurrences⟩ := hwellFormed.exists_body hb
    refine ⟨hwellFormed.slot_eq hb, body, hnode, ?_, ?_, ?_⟩
    · rw [Formula.filterMap_boundSlot?_subformulas, hdescendants]
    · rw [Formula.length_fixedPoints, hdescendants, hcount, List.length_range']
    · rw [Formula.filterMap_usedSlot?_subformulas, hoccurrences]

/-- Two fixed points side by side bind the same name, and both use the variable around them. -/
theorem parse_binders_exact_siblings :
    ∃ p b body, Sentence.parse "nu X.(([a] mu Y.([b]Y || X)) && nu Y.(<c>X || <b>Y))" = .ok p ∧
      Offset.sentence "nu X.(([a] mu Y.([b]Y || X)) && nu Y.(<c>X || <b>Y))".toList = .ok p ∧
      p.binders[0]? = some b ∧ p.root.fixedPoints.length = 3 ∧
      p.root.fixedPoints[0]? = some (.fix .greatest 'X' 0 body) ∧
      body.subformulas.filterMap Formula.boundSlot? = [1, 2] ∧ body.fixedPoints.length = 2 ∧
      body.subformulas.filterMap Formula.usedSlot? = [1, 0, 0, 2] ∧
      ∀ around, (.var 'Y' 2, around) ∈ p.root.places [] → ∃ b ∈ around, b.name = 'Y' ∧ b.slot = 2 := by
  obtain ⟨p, b, hp, hb, hheader, hsize, hdescendants, hoccurrences⟩ : ∃ p b,
      Sentence.parse "nu X.(([a] mu Y.([b]Y || X)) && nu Y.(<c>X || <b>Y))" = .ok p ∧
      p.binders[0]? = some b ∧ (b.name = 'X' ∧ b.kind = .greatest) ∧ p.binders.size = 3 ∧
      b.descendants = [1, 2] ∧ b.occurrences = [1, 0, 0, 2] :=
    ⟨_, _, rfl, rfl, ⟨rfl, rfl⟩, rfl, rfl, rfl⟩
  obtain ⟨hread, hexact⟩ := parse_binders_exact "nu X.(([a] mu Y.([b]Y || X)) && nu Y.(<c>X || <b>Y))"
  rw [hp] at hread
  obtain ⟨hlength, hbinders, hvariables, -⟩ := hexact p hp
  obtain ⟨-, body, hnode, hbound, hcount, hused⟩ := hbinders 0 b hb
  rw [hheader.1, hheader.2] at hnode
  refine ⟨p, b, body, hp, hread, hb, hlength.symm.trans hsize, hnode, hbound.symm.trans hdescendants, ?_,
    hused.symm.trans hoccurrences, hvariables 'Y' 2⟩
  rw [hdescendants] at hcount
  simpa using (congrArg List.length hcount).symm

end ModalMu
