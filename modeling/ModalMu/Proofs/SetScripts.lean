import ModalMu.Model
import ModalMu.Proofs.Atomicity
import ModalMu.Proofs.AutReading
import ModalMu.Proofs.PlainSets

/-!
# Scripts that keep universes apart

What a command on registers has to do is said in three tables: the registers that it combines
(`operands`), the states that it asks for (`accesses`), and what set algebra makes of it (`result`).
`Kept.outcome` says that a command does what the tables say, as long as the registers are kept, which they
are after every script, and `Kept.settles` that a refused command leaves them alone. `runScript_guarded`
reads the faults and the results off this.

Universes are told apart by their tags, so the family has to be coherent: no tag is on two universes. The
universes of models are (`Model.coherent_universes`).
-/

namespace ModalMu

/-- Equal tags are on one and the same universe. -/
def Universe.Coherent (family : Array Universe) : Prop :=
  ∀ u ∈ family, ∀ v ∈ family, u.tag = v.tag → u = v

namespace StateSet

open Finset (range)

/-! ## What commands are to do -/

/-- The plain set in a register. -/
def plainAt (regs : Registers StateSet) (name : String) : Option Plain := (regs.get? name).map plain

namespace Plain

/-- A new set over a universe of the family. -/
def ofUniverse (family : Array Universe) (u : Nat) (g : Nat → Finset Nat) :
    Option (Option Answer × Plain) := do
  let v ← family[u]?
  some (some .unit, ⟨v, g v.size⟩)

/-- An answer about one set, and what becomes of it; `g` is given the size of its universe. -/
def ofOne (sets : String → Option Plain) (x : String) (g : Nat → Finset Nat → Option Answer × Finset Nat) :
    Option (Option Answer × Plain) := do
  let X ← sets x
  let (answer, members) := g X.carrier.size X.members
  some (answer, ⟨X.carrier, members⟩)

/-- An answer about two sets, and what becomes of the first one. -/
def ofTwo (sets : String → Option Plain) (x y : String)
    (g : Finset Nat → Finset Nat → Option Answer × Finset Nat) : Option (Option Answer × Plain) := do
  let X ← sets x
  let Y ← sets y
  let (answer, members) := g X.members Y.members
  some (answer, ⟨X.carrier, members⟩)

end Plain

namespace Command

open Plain

/-- The registers whose sets a command combines or compares. -/
def operands : Command → Option (String × String)
  | .union _ x y | .inter _ x y | .diff _ x y | .unionWith x y | .interWith x y | .diffWith x y
  | .isSubset x y | .isSuperset x y | .equal x y => some (x, y)
  | .all .. | .none .. | .ofList .. | .complement .. | .negate _ | .clear _ | .fill _ | .insert ..
  | .erase .. | .contains .. | .names _ | .text _ => Option.none

/-- The numbers by which a command asks for states, and the universe that they are asked of. -/
def accesses (family : Array Universe) (sets : String → Option Plain) :
    Command → Option (Universe × List Nat)
  | .insert r i | .erase r i | .contains r i => (sets r).map fun R => (R.carrier, [i])
  | .ofList _ u indices => family[u]?.map fun v => (v, indices)
  | .all .. | .none .. | .union .. | .inter .. | .diff .. | .complement .. | .unionWith ..
  | .interWith .. | .diffWith .. | .negate _ | .clear _ | .fill _ | .isSubset .. | .isSuperset ..
  | .equal .. | .names _ | .text _ => Option.none

/-- The fault that a command is to be refused with: two universes, or the first number without a state. -/
def fault? (family : Array Universe) (sets : String → Option Plain) (c : Command) : Option Fault :=
  match c.operands with
  | some (x, y) => do
    let X ← sets x
    let Y ← sets y
    if X.carrier.same Y.carrier then Option.none else some .universeMismatch
  | Option.none => (c.accesses family sets).bind fun (u, indices) =>
    (indices.find? (u.size ≤ ·)).map fun i => .bitOutOfRange i u.size

/-- What set algebra makes of a command: its answer, where it is about the members, and its register.
There is no result if the command names a register or a universe that there is not. -/
def result (family : Array Universe) (sets : String → Option Plain) :
    Command → Option (Option Answer × Plain)
  | .all _ u => ofUniverse family u range
  | .none _ u => ofUniverse family u fun _ => ∅
  | .ofList _ u indices => ofUniverse family u fun _ => indices.toFinset
  | .union _ x y => ofTwo sets x y fun X Y => (some .unit, X ∪ Y)
  | .inter _ x y => ofTwo sets x y fun X Y => (some .unit, X ∩ Y)
  | .diff _ x y => ofTwo sets x y fun X Y => (some .unit, X \ Y)
  | .complement _ x => ofOne sets x fun n X => (some .unit, range n \ X)
  | .unionWith r x => ofTwo sets r x fun R X => (some .unit, R ∪ X)
  | .interWith r x => ofTwo sets r x fun R X => (some .unit, R ∩ X)
  | .diffWith r x => ofTwo sets r x fun R X => (some .unit, R \ X)
  | .negate r => ofOne sets r fun n R => (some .unit, range n \ R)
  | .clear r => ofOne sets r fun _ _ => (some .unit, ∅)
  | .fill r => ofOne sets r fun n _ => (some .unit, range n)
  | .insert r i => ofOne sets r fun _ R => (some (.flag (i ∉ R)), Insert.insert i R)
  | .erase r i => ofOne sets r fun _ R => (some (.flag (i ∈ R)), R.erase i)
  | .contains r i => ofOne sets r fun _ R => (some (.flag (i ∈ R)), R)
  | .isSubset r x => ofTwo sets r x fun R X => (some (.flag (R ⊆ X)), R)
  | .isSuperset r x => ofTwo sets r x fun R X => (some (.flag (X ⊆ R)), R)
  | .equal r x => ofTwo sets r x fun R X => (some (.flag (R = X)), R)
  | .names r | .text r => ofOne sets r fun _ R => (Option.none, R)

end Command

/-! ## Commands -/

/-- Every register holds a well formed set over a universe of the family. -/
def Kept (family : Array Universe) (regs : Registers StateSet) : Prop :=
  ∀ name s, regs.get? name = some s → s.carrier ∈ family ∧ s.Over s.carrier

variable {family : Array Universe} {sets : String → Option Plain} {regs : Registers StateSet} {c : Command}

namespace Command

/-- What comes of a command: it names something that there is not, or it has its fault, or it does what
set algebra says. -/
inductive Outcome (family : Array Universe) (sets : String → Option Plain) (c : Command) :
    Except Refusal (Answer × StateSet) → Prop
  | missing {e : Refusal} (hresult : c.result family sets = Option.none)
      (he : ∀ f, e = .fault f → ∃ size index, f = .indexOutOfBounds size index) :
      Outcome family sets c (.error e)
  | fault {f : Fault} (hfault : c.fault? family sets = some f) : Outcome family sets c (.error (.fault f))
  | done {answer : Option Answer} {U : Plain} {a : Answer} {s : StateSet}
      (hresult : c.result family sets = some (answer, U)) (hfault : c.fault? family sets = Option.none)
      (hanswer : ∀ b ∈ answer, a = b) (hshows : s.Shows U) (hmem : U.carrier ∈ family) :
      Outcome family sets c (.ok (a, s))

theorem fault?_of_operands {x y : String} {X Y : Plain} (h : c.operands = some (x, y))
    (hx : sets x = some X) (hy : sets y = some Y) : c.fault? family sets =
      if X.carrier.same Y.carrier then Option.none else some .universeMismatch := by
  simp [fault?, h, hx, hy]

theorem fault?_of_accesses {u : Universe} {indices : List Nat} (hnone : c.operands = Option.none)
    (h : c.accesses family sets = some (u, indices)) : c.fault? family sets =
      (indices.find? (u.size ≤ ·)).map fun i => .bitOutOfRange i u.size := by
  simp only [fault?, hnone, h]
  rfl

end Command

/-- A command on two registers. -/
theorem Kept.outcome_two (h : Kept family regs) (hfamily : Universe.Coherent family)
    {x y : String} {α : Type} (g : Finset Nat → Finset Nat → Option Answer × Finset Nat)
    (op : StateSet → StateSet → Except Fault α) (k : StateSet → α → Answer × StateSet)
    (hexec : c.exec family regs = do
      let s ← Refusal.read regs x
      let t ← Refusal.read regs y
      let a ← Refusal.ofFault (op s t)
      .ok (k s a))
    (hoperands : c.operands = some (x, y))
    (hresult : ∀ sets, c.result family sets = Plain.ofTwo sets x y g)
    (hmixed : ∀ s t, s.carrier.same t.carrier = false → op s t = .error .universeMismatch)
    (hop : ∀ s t X Y, s.Shows X → t.Shows Y → X.carrier = Y.carrier → ∃ a, op s t = .ok a ∧
      (∀ b ∈ (g X.members Y.members).1, (k s a).1 = b) ∧
      (k s a).2.Shows ⟨X.carrier, (g X.members Y.members).2⟩) :
    c.Outcome family (plainAt regs) (c.exec family regs) := by
  rw [hexec]
  unfold Refusal.read
  cases hx : regs.get? x with
  | none => exact .missing (by simp [hresult, Plain.ofTwo, plainAt, hx]) nofun
  | some s =>
    cases hy : regs.get? y with
    | none => exact .missing (by simp [hresult, Plain.ofTwo, plainAt, hx, hy]) nofun
    | some t =>
      obtain ⟨hsmem, hs⟩ := h x s hx
      obtain ⟨htmem, ht⟩ := h y t hy
      have hX : plainAt regs x = some s.plain := by rw [plainAt, hx, Option.map_some]
      have hY : plainAt regs y = some t.plain := by rw [plainAt, hy, Option.map_some]
      have hfault : c.fault? family (plainAt regs) = _ := Command.fault?_of_operands hoperands hX hY
      show Command.Outcome _ _ _ (Refusal.ofFault (op s t) >>= _)
      cases hsame : s.carrier.same t.carrier with
      | false =>
        rw [hmixed s t hsame]
        refine .fault (hfault.trans ?_)
        rw [show s.plain.carrier.same t.plain.carrier = false from hsame]
        rfl
      | true =>
        have hcarrier : s.carrier = t.carrier := hfamily _ hsmem _ htmem (beq_iff_eq.1 hsame)
        obtain ⟨a, ha, hanswer, hshows⟩ := hop s t _ _ hs.shows ht.shows hcarrier
        rw [ha]
        refine .done ?_ (hfault.trans (if_pos hsame)) hanswer hshows hsmem
        simp [hresult, Plain.ofTwo, hX, hY]

/-- A command that combines two sets by an edit, in place or on a copy. -/
theorem Kept.outcome_combined (h : Kept family regs) (hfamily : Universe.Coherent family)
    {x y : String} (g : Finset Nat → Finset Nat → Finset Nat) (change : StateSet → Edit StateSet Unit)
    (op : StateSet → StateSet → Except Fault StateSet)
    (hexec : c.exec family regs = do
      let s ← Refusal.read regs x
      let t ← Refusal.read regs y
      let s ← Refusal.ofFault ((change t).copied s)
      .ok (.unit, s))
    (hoperands : c.operands = some (x, y))
    (hresult : ∀ sets, c.result family sets = Plain.ofTwo sets x y fun X Y => (some .unit, g X Y))
    (hmixed : ∀ s t, s.carrier.same t.carrier = false →
      (change t).on s = (.error .universeMismatch, s))
    (hchange : ∀ s t, s.bits.WellFormed → t.bits.WellFormed →
      (change t).on s = Edit.atomic s ((op s t).map ((), ·)))
    (hop : ∀ s t X Y, s.Shows X → t.Shows Y → X.carrier = Y.carrier →
      ∃ r, op s t = .ok r ∧ r.Shows ⟨X.carrier, g X.members Y.members⟩) :
    c.Outcome family (plainAt regs) (c.exec family regs) := by
  refine h.outcome_two hfamily (fun X Y => (some .unit, g X Y)) (fun s t => (change t).copied s)
    (fun _ s => (.unit, s)) hexec hoperands hresult (fun s t hne => ?_) fun s t X Y hs ht hXY => ?_
  · exact Edit.copied_of_atomic (x := .error .universeMismatch) (hmixed s t hne)
  · obtain ⟨r, hr, hshows⟩ := hop s t X Y hs ht hXY
    refine ⟨r, ?_, fun _ => Option.some.inj, hshows⟩
    rw [← hr]
    exact Edit.copied_of_atomic (hchange s t hs.isOver.wellFormed ht.isOver.wellFormed)

/-- A command on one register. -/
theorem Kept.outcome_one (h : Kept family regs) {x : String} {α : Type}
    (g : Nat → Finset Nat → Option Answer × Finset Nat) (op : StateSet → Except Fault α)
    (k : StateSet → α → Answer × StateSet) (refused : Plain → Option Fault)
    (hexec : c.exec family regs = do
      let s ← Refusal.read regs x
      let a ← Refusal.ofFault (op s)
      .ok (k s a))
    (hfault : ∀ X, plainAt regs x = some X → c.fault? family (plainAt regs) = refused X)
    (hresult : ∀ sets, c.result family sets = Plain.ofOne sets x g)
    (hrefused : ∀ s X f, s.Shows X → refused X = some f → op s = .error f)
    (hop : ∀ s X, s.Shows X → refused X = Option.none → ∃ a, op s = .ok a ∧
      (∀ b ∈ (g X.carrier.size X.members).1, (k s a).1 = b) ∧
      (k s a).2.Shows ⟨X.carrier, (g X.carrier.size X.members).2⟩) :
    c.Outcome family (plainAt regs) (c.exec family regs) := by
  rw [hexec]
  unfold Refusal.read
  cases hx : regs.get? x with
  | none => exact .missing (by simp [hresult, Plain.ofOne, plainAt, hx]) nofun
  | some s =>
    obtain ⟨hmem, hs⟩ := h x s hx
    have hX : plainAt regs x = some s.plain := by rw [plainAt, hx, Option.map_some]
    show Command.Outcome _ _ _ (Refusal.ofFault (op s) >>= _)
    cases hf : refused s.plain with
    | some f =>
      rw [hrefused s _ f hs.shows hf]
      exact .fault ((hfault _ hX).trans hf)
    | none =>
      obtain ⟨a, ha, hanswer, hshows⟩ := hop s _ hs.shows hf
      rw [ha]
      refine .done ?_ ((hfault _ hX).trans hf) hanswer hshows hmem
      simp [hresult, Plain.ofOne, hX]

/-- A command that makes a set. -/
theorem outcome_new {u : Nat} (g : Nat → Finset Nat) (op : Universe → Except Fault StateSet)
    (refused : Universe → Option Fault)
    (hexec : c.exec family regs = do
      let v ← Refusal.ofFault (Fault.lookup family u)
      let s ← Refusal.ofFault (op v)
      .ok (.unit, s))
    (hfault : ∀ v, family[u]? = some v → c.fault? family sets = refused v)
    (hresult : c.result family sets = Plain.ofUniverse family u g)
    (hrefused : ∀ v f, refused v = some f → op v = .error f)
    (hop : ∀ v, refused v = Option.none → ∃ s, op v = .ok s ∧ s.Shows ⟨v, g v.size⟩) :
    c.Outcome family sets (c.exec family regs) := by
  rw [hexec]
  cases hu : family[u]? with
  | none =>
    have hlookup : Fault.lookup family u = .error (.indexOutOfBounds family.size u) :=
      Fault.lookup_eq_error_iff.2 ⟨Array.getElem?_eq_none_iff.1 hu, rfl⟩
    rw [hlookup]
    refine .missing (by simp [hresult, Plain.ofUniverse, hu]) fun f hf => ?_
    exact ⟨_, _, (Refusal.fault.inj hf).symm⟩
  | some v =>
    rw [Fault.lookup_eq_ok_iff.2 hu]
    show Command.Outcome _ _ _ (Refusal.ofFault (op v) >>= _)
    cases hf : refused v with
    | some f =>
      rw [hrefused v f hf]
      exact .fault ((hfault v hu).trans hf)
    | none =>
      obtain ⟨s, hs, hshows⟩ := hop v hf
      rw [hs]
      refine .done ?_ ((hfault v hu).trans hf) (fun _ => Option.some.inj) hshows ?_
      · simp [hresult, Plain.ofUniverse, hu]
      · exact Array.mem_of_getElem? hu

/-- A command on one register that cannot fault. -/
theorem Kept.outcome_unary (h : Kept family regs) {x : String}
    (g : Nat → Finset Nat → Option Answer × Finset Nat) (k : StateSet → Answer × StateSet)
    (hexec : c.exec family regs = do
      let s ← Refusal.read regs x
      .ok (k s))
    (hfault : c.fault? family (plainAt regs) = Option.none)
    (hresult : ∀ sets, c.result family sets = Plain.ofOne sets x g)
    (hk : ∀ s X, s.Shows X → (∀ b ∈ (g X.carrier.size X.members).1, (k s).1 = b) ∧
      (k s).2.Shows ⟨X.carrier, (g X.carrier.size X.members).2⟩) :
    c.Outcome family (plainAt regs) (c.exec family regs) :=
  h.outcome_one g (fun _ => .ok ()) (fun s _ => k s) (fun _ => Option.none) hexec
    (fun _ _ => hfault) hresult nofun fun s X hs _ => ⟨(), rfl, hk s X hs⟩

/-- A command that asks for one state. -/
theorem Kept.outcome_access (h : Kept family regs) {x : String} {i : Nat} {α : Type}
    (g : Nat → Finset Nat → Option Answer × Finset Nat) (op : StateSet → Except Fault α)
    (k : StateSet → α → Answer × StateSet)
    (hexec : c.exec family regs = do
      let s ← Refusal.read regs x
      let a ← Refusal.ofFault (op s)
      .ok (k s a))
    (hoperands : c.operands = Option.none)
    (haccesses : ∀ sets, c.accesses family sets = (sets x).map fun R => (R.carrier, [i]))
    (hresult : ∀ sets, c.result family sets = Plain.ofOne sets x g)
    (hrefused : ∀ s X, s.Shows X → X.carrier.size ≤ i → op s = .error (.bitOutOfRange i X.carrier.size))
    (hop : ∀ s X, s.Shows X → i < X.carrier.size → ∃ a, op s = .ok a ∧
      (∀ b ∈ (g X.carrier.size X.members).1, (k s a).1 = b) ∧
      (k s a).2.Shows ⟨X.carrier, (g X.carrier.size X.members).2⟩) :
    c.Outcome family (plainAt regs) (c.exec family regs) := by
  refine h.outcome_one g op k
    (fun X => (([i].find? (X.carrier.size ≤ ·)).map fun i => .bitOutOfRange i X.carrier.size))
    hexec (fun X hX => ?_) hresult (fun s X f hs hf => ?_) fun s X hs hf => ?_
  · rw [Command.fault?_of_accesses hoperands ((haccesses _).trans (congrArg _ hX))]
  · obtain ⟨j, hj, rfl⟩ := Option.map_eq_some_iff.1 hf
    obtain rfl := List.mem_singleton.1 (List.mem_of_find?_eq_some hj)
    exact hrefused s X hs (by simpa using List.find?_some hj)
  · refine hop s X hs ?_
    have := List.find?_eq_none.1 (Option.map_eq_none_iff.1 hf) i List.mem_cons_self
    simpa using this

theorem Kept.outcome (h : Kept family regs) (hfamily : Universe.Coherent family) (c : Command) :
    c.Outcome family (plainAt regs) (c.exec family regs) := by
  cases c with
  | all r u =>
    exact outcome_new range (fun v => .ok (all v)) (fun _ => Option.none)
      ((Effect.fst_assign _ _).trans (bind_assoc _ _ _)) (fun _ _ => rfl) rfl (by simp)
      fun v _ => ⟨_, rfl, shows_all v⟩
  | none r u =>
    exact outcome_new (fun _ => ∅) (fun v => .ok (none v)) (fun _ => Option.none)
      ((Effect.fst_assign _ _).trans (bind_assoc _ _ _)) (fun _ _ => rfl) rfl (by simp)
      fun v _ => ⟨_, rfl, shows_none v⟩
  | ofList r u indices =>
    refine outcome_new (fun _ => indices.toFinset) (fun v => ofList v indices)
      (fun v => (indices.find? (v.size ≤ ·)).map fun i => .bitOutOfRange i v.size)
      ((Effect.fst_assign _ _).trans (bind_assoc _ _ _)) (fun v hv => Command.fault?_of_accesses rfl ?_) rfl
      (fun v f hf => ?_) fun v hf => ?_
    · rw [Command.accesses, hv, Option.map_some]
    · obtain ⟨i, hi, rfl⟩ := Option.map_eq_some_iff.1 hf
      exact ofList_eq_error hi
    · exact exists_ofList_eq_ok (Option.map_eq_none_iff.1 hf)
  | union r x y =>
    refine h.outcome_combined hfamily (· ∪ ·) Edit.unionWith StateSet.union
      ((Effect.fst_assign _ _).trans ?_) rfl (fun _ => rfl) (fun _ _ hne => Edit.on_mixed hne _)
      (fun _ _ => Edit.on_unionWith) fun _ _ _ _ hs ht => hs.union ht
    simp only [bind_assoc]
  | inter r x y =>
    refine h.outcome_combined hfamily (· ∩ ·) Edit.interWith StateSet.inter
      ((Effect.fst_assign _ _).trans ?_) rfl (fun _ => rfl) (fun _ _ hne => Edit.on_mixed hne _)
      (fun _ _ => Edit.on_interWith) fun _ _ _ _ hs ht => hs.inter ht
    simp only [bind_assoc]
  | diff r x y =>
    refine h.outcome_combined hfamily (· \ ·) Edit.diffWith StateSet.diff
      ((Effect.fst_assign _ _).trans ?_) rfl (fun _ => rfl) (fun _ _ hne => Edit.on_mixed hne _)
      (fun _ _ => Edit.on_diffWith) fun _ _ _ _ hs ht => hs.diff ht
    simp only [bind_assoc]
  | unionWith r x =>
    exact h.outcome_combined hfamily (· ∪ ·) Edit.unionWith StateSet.union (Effect.fst_edit_with x _ _) rfl
      (fun _ => rfl) (fun _ _ hne => Edit.on_mixed hne _) (fun _ _ => Edit.on_unionWith)
      fun _ _ _ _ hs ht => hs.union ht
  | interWith r x =>
    exact h.outcome_combined hfamily (· ∩ ·) Edit.interWith StateSet.inter (Effect.fst_edit_with x _ _) rfl
      (fun _ => rfl) (fun _ _ hne => Edit.on_mixed hne _) (fun _ _ => Edit.on_interWith)
      fun _ _ _ _ hs ht => hs.inter ht
  | diffWith r x =>
    exact h.outcome_combined hfamily (· \ ·) Edit.diffWith StateSet.diff (Effect.fst_edit_with x _ _) rfl
      (fun _ => rfl) (fun _ _ hne => Edit.on_mixed hne _) (fun _ _ => Edit.on_diffWith)
      fun _ _ _ _ hs ht => hs.diff ht
  | complement r x =>
    exact h.outcome_unary (fun n X => (some .unit, range n \ X)) (fun s => (.unit, s.complement))
      ((Effect.fst_assign _ _).trans (bind_assoc _ _ _)) rfl (fun _ => rfl)
      fun s X hs => ⟨fun _ => Option.some.inj, hs.complement⟩
  | negate r =>
    exact h.outcome_unary (fun n X => (some .unit, range n \ X)) (fun s => (.unit, s.complement))
      (Effect.fst_edit _ _) rfl (fun _ => rfl) fun s X hs => ⟨fun _ => Option.some.inj, hs.complement⟩
  | clear r =>
    exact h.outcome_unary (fun _ _ => (some .unit, ∅)) (fun s => (.unit, s.clear))
      (Effect.fst_edit _ _) rfl (fun _ => rfl) fun s X hs => ⟨fun _ => Option.some.inj, hs.clear⟩
  | fill r =>
    exact h.outcome_unary (fun n _ => (some .unit, range n)) (fun s => (.unit, s.fill))
      (Effect.fst_edit _ _) rfl (fun _ => rfl) fun s X hs => ⟨fun _ => Option.some.inj, hs.fill⟩
  | insert r i =>
    refine h.outcome_access (fun _ R => (some (.flag (i ∉ R)), Insert.insert i R)) (Edit.insert i).result
      (fun _ a => (.flag a.1, a.2)) (Effect.fst_edit _ _) rfl (fun _ => rfl) (fun _ => rfl)
      (fun s X hs hi => ?_) fun s X hs hi => ?_
    · rw [Edit.result_of_atomic (Edit.on_insert hs.isOver.wellFormed i)]
      exact (hs.refuses_of_le hi).2.1
    · obtain ⟨r, hr, hshows⟩ := hs.insert_of_lt hi
      rw [Edit.result_of_atomic (Edit.on_insert hs.isOver.wellFormed i)]
      exact ⟨_, hr, fun _ => Option.some.inj, hshows⟩
  | erase r i =>
    refine h.outcome_access (fun _ R => (some (.flag (i ∈ R)), R.erase i)) (Edit.erase i).result
      (fun _ a => (.flag a.1, a.2)) (Effect.fst_edit _ _) rfl (fun _ => rfl) (fun _ => rfl)
      (fun s X hs hi => ?_) fun s X hs hi => ?_
    · rw [Edit.result_of_atomic (Edit.on_erase hs.isOver.wellFormed i)]
      exact (hs.refuses_of_le hi).2.2
    · obtain ⟨r, hr, hshows⟩ := hs.erase_of_lt hi
      rw [Edit.result_of_atomic (Edit.on_erase hs.isOver.wellFormed i)]
      exact ⟨_, hr, fun _ => Option.some.inj, hshows⟩
  | contains r i =>
    refine h.outcome_access (fun _ R => (some (.flag (i ∈ R)), R)) (Edit.contains i).result
      (fun _ a => (.flag a.1, a.2)) (Effect.fst_edit _ _) rfl (fun _ => rfl) (fun _ => rfl)
      (fun s X hs hi => ?_) fun s X hs hi => ?_
    · rw [Edit.result_of_atomic (Edit.on_contains hs.isOver.wellFormed i), (hs.refuses_of_le hi).1]
      rfl
    · rw [Edit.result_of_atomic (Edit.on_contains hs.isOver.wellFormed i), hs.contains_of_lt hi]
      exact ⟨_, rfl, fun _ => Option.some.inj, hs⟩
  | isSubset r x =>
    refine h.outcome_two hfamily (fun R X => (some (.flag (R ⊆ X)), R)) StateSet.isSubset
      (fun s yes => (.flag yes, s)) ?_ rfl (fun _ => rfl) (fun s t hne => combine_eq_error _ hne)
      fun s t X Y hs ht hXY => ⟨_, hs.isSubset ht hXY, fun _ => Option.some.inj, hs⟩
    simp only [Command.exec, Command.effect, Effect.ask, bind_assoc]
    rfl
  | isSuperset r x =>
    refine h.outcome_two hfamily (fun R X => (some (.flag (X ⊆ R)), R)) StateSet.isSuperset
      (fun s yes => (.flag yes, s)) ?_ rfl (fun _ => rfl) (fun s t hne => combine_eq_error _ ?_)
      fun s t X Y hs ht hXY => ⟨_, ht.isSubset hs hXY.symm, fun _ => Option.some.inj, hs⟩
    · simp only [Command.exec, Command.effect, Effect.ask, bind_assoc]
      rfl
    · rwa [Universe.same, Bool.beq_comm]
  | equal r x =>
    refine h.outcome_two hfamily (fun R X => (some (.flag (R = X)), R)) StateSet.equal
      (fun s yes => (.flag yes, s)) ?_ rfl (fun _ => rfl) (fun s t hne => combine_eq_error _ hne)
      fun s t X Y hs ht hXY => ⟨_, hs.equal ht hXY, fun _ => Option.some.inj, hs⟩
    simp only [Command.exec, Command.effect, Effect.ask, bind_assoc]
    rfl
  | names r =>
    refine h.outcome_one (fun _ R => (Option.none, R)) StateSet.names (fun s names => (.names names, s))
      (fun _ => Option.none) ?_ (fun _ _ => rfl) (fun _ => rfl) (by simp) fun s X hs _ => ?_
    · simp only [Command.exec, Command.effect, Effect.ask, bind_assoc]
      rfl
    · obtain ⟨names, hnames⟩ := hs.exists_names
      exact ⟨names, hnames, by simp, hs⟩
  | text r =>
    exact h.outcome_unary (fun _ R => (Option.none, R)) (fun s => (.text s.text, s)) rfl rfl (fun _ => rfl)
      fun s X hs => ⟨by simp, hs⟩

/-! ## Scripts -/

/-- The registers after a script. -/
def registersAfter (family : Array Universe) (script : List Step) : Registers StateSet :=
  script.foldl (Step.apply family) .empty

theorem length_runScript (family : Array Universe) (script : List Step) (regs : Registers StateSet) :
    (runScript family script regs).length = script.length := by
  induction script generalizing regs with
  | nil => rfl
  | cons step script ih => rw [runScript, List.length_cons, List.length_cons, ih]

theorem runScript_append (family : Array Universe) (script rest : List Step) (regs : Registers StateSet) :
    runScript family (script ++ rest) regs =
      runScript family script regs ++ runScript family rest (script.foldl (Step.apply family) regs) := by
  induction script generalizing regs with
  | nil => rfl
  | cons step script ih => simp only [List.cons_append, runScript, List.foldl_cons, ih]

/-- The outcome of a step is that of its execution on the registers after the steps before it. -/
theorem getElem?_runScript (family : Array Universe) (script : List Step) (step : Step) (rest : List Step) :
    (runScript family (script ++ step :: rest) .empty)[script.length]? =
      some (step.exec family (registersAfter family script)) := by
  rw [runScript_append, List.getElem?_append_right (Nat.le_of_eq (length_runScript family script .empty)),
    length_runScript, Nat.sub_self]
  rfl

theorem Kept.settles (h : Kept family regs) (c : Command) :
    Effect.Settles regs c.register (c.effect family regs) :=
  Command.settles_effect (fun name s hs => (h name s hs).2.wellFormed) c

theorem Kept.apply (h : Kept family regs) (hfamily : Universe.Coherent family) (step : Step) :
    Kept family (step.apply family regs) := by
  cases step with
  | query q => exact h
  | command c =>
    show Kept family (c.apply family regs)
    intro name s hs
    cases hexec : c.exec family regs with
    | error e =>
      rw [Command.apply, (h.settles c).get?_of_error hexec] at hs
      exact h name s hs
    | ok r =>
      have hout := h.outcome hfamily c
      rw [hexec] at hout
      rw [Command.apply, (h.settles c).get?_of_ok hexec] at hs
      cases hout with
      | done hresult hfault hanswer hshows hmem =>
        split at hs
        · obtain rfl := Option.some.inj hs
          have hcarrier := hshows.isOver.carrier
          exact ⟨hcarrier ▸ hmem, hcarrier ▸ hshows.isOver⟩
        · exact h name s hs

theorem kept_registersAfter (hfamily : Universe.Coherent family) (script : List Step) :
    Kept family (registersAfter family script) := by
  induction script using List.reverseRecOn with
  | nil => exact nofun
  | append_singleton script step ih =>
    rw [registersAfter, List.foldl_append]
    exact ih.apply hfamily step

/-! ### Faults -/

namespace Command

/-- A command has one of two faults. -/
theorem fault?_cases {f : Fault} (h : c.fault? family sets = some f) :
    (∃ x y X Y, c.operands = some (x, y) ∧ sets x = some X ∧ sets y = some Y ∧
      X.carrier.same Y.carrier = false ∧ f = .universeMismatch) ∨
    ∃ u indices i, c.accesses family sets = some (u, indices) ∧
      indices.find? (u.size ≤ ·) = some i ∧ f = .bitOutOfRange i u.size := by
  cases hoperands : c.operands with
  | some p =>
    obtain ⟨x, y⟩ := p
    simp only [fault?, hoperands] at h
    obtain ⟨X, hX, h⟩ := Option.bind_eq_some_iff.1 h
    obtain ⟨Y, hY, h⟩ := Option.bind_eq_some_iff.1 h
    obtain ⟨hne, hf⟩ := Option.ite_none_left_eq_some.1 h
    exact .inl ⟨x, y, X, Y, rfl, hX, hY, by simpa using hne, (Option.some.inj hf).symm⟩
  | none =>
    simp only [fault?, hoperands] at h
    obtain ⟨⟨u, indices⟩, hu, h⟩ := Option.bind_eq_some_iff.1 h
    obtain ⟨i, hi, rfl⟩ := Option.map_eq_some_iff.1 h
    exact .inr ⟨u, indices, i, hu, hi, rfl⟩

theorem operands_eq_none_of_accesses {p : Universe × List Nat} (h : c.accesses family sets = some p) :
    c.operands = Option.none := by
  cases c with
  | insert | erase | contains | ofList => rfl
  | _ => cases h

theorem fault?_eq_mismatch_iff : c.fault? family sets = some .universeMismatch ↔
    ∃ x y X Y, c.operands = some (x, y) ∧ sets x = some X ∧ sets y = some Y ∧
      X.carrier.same Y.carrier = false := by
  constructor
  · intro h
    rcases fault?_cases h with ⟨x, y, X, Y, hoperands, hX, hY, hne, -⟩ | ⟨_, _, _, _, _, hf⟩
    · exact ⟨x, y, X, Y, hoperands, hX, hY, hne⟩
    · cases hf
  · rintro ⟨x, y, X, Y, hoperands, hX, hY, hne⟩
    rw [fault?_of_operands hoperands hX hY, hne]
    rfl

theorem fault?_eq_range_iff {i n : Nat} : c.fault? family sets = some (.bitOutOfRange i n) ↔
    ∃ u indices, c.accesses family sets = some (u, indices) ∧ n = u.size ∧
      indices.find? (u.size ≤ ·) = some i := by
  constructor
  · intro h
    rcases fault?_cases h with ⟨_, _, _, _, _, _, _, _, hf⟩ | ⟨u, indices, j, hu, hj, hf⟩
    · cases hf
    · cases hf
      exact ⟨u, indices, hu, rfl, hj⟩
  · rintro ⟨u, indices, hu, rfl, hi⟩
    rw [fault?_of_accesses (operands_eq_none_of_accesses hu) hu, hi]
    rfl

/-- A command that has a fault finds what it names. -/
theorem result_ne_none_of_fault? {f : Fault} (h : c.fault? family sets = some f) :
    c.result family sets ≠ Option.none := by
  cases c with
  | union r x y | inter r x y | diff r x y | unionWith x y | interWith x y | diffWith x y | isSubset x y
  | isSuperset x y | equal x y =>
    obtain ⟨X, hX, h⟩ := Option.bind_eq_some_iff.1 h
    obtain ⟨Y, hY, -⟩ := Option.bind_eq_some_iff.1 h
    simp [result, Plain.ofTwo, hX, hY]
  | insert r i | erase r i | contains r i =>
    obtain ⟨p, hp, -⟩ := Option.bind_eq_some_iff.1 h
    obtain ⟨R, hR, -⟩ := Option.map_eq_some_iff.1 hp
    simp [result, Plain.ofOne, hR]
  | ofList r u indices =>
    obtain ⟨p, hp, -⟩ := Option.bind_eq_some_iff.1 h
    obtain ⟨v, hv, -⟩ := Option.map_eq_some_iff.1 hp
    simp [result, Plain.ofUniverse, hv]
  | all | none | complement | negate | clear | fill | names | text => cases h

end Command

/-- With registers that are kept, a command is refused with a fault exactly if it has this fault, except
that it may name a universe that there is not. -/
theorem Kept.exec_eq_fault_iff (h : Kept family regs) (hfamily : Universe.Coherent family) (f : Fault)
    (hf : ∀ size index, f ≠ .indexOutOfBounds size index) :
    c.exec family regs = .error (.fault f) ↔ c.fault? family (plainAt regs) = some f := by
  have hout := h.outcome hfamily c
  constructor
  · intro hexec
    rw [hexec] at hout
    cases hout with
    | missing hresult he =>
      obtain ⟨size, index, hindex⟩ := he f rfl
      exact absurd hindex (hf size index)
    | fault hfault => exact hfault
  · intro hfault
    generalize c.exec family regs = x at hout
    cases hout with
    | missing hresult => exact absurd hresult (Command.result_ne_none_of_fault? hfault)
    | fault hfault' => rw [Option.some.inj (hfault.symm.trans hfault')]
    | done _ hnone => exact absurd (hfault.symm.trans hnone) (by simp)

theorem Kept.exists_exec_eq_ok (h : Kept family regs) (hfamily : Universe.Coherent family)
    {answer : Option Answer} {U : Plain} (hresult : c.result family (plainAt regs) = some (answer, U))
    (hfault : c.fault? family (plainAt regs) = Option.none) :
    ∃ a s, c.exec family regs = .ok (a, s) ∧ (∀ b ∈ answer, a = b) ∧ s.plain = U := by
  have hout := h.outcome hfamily c
  generalize c.exec family regs = x at hout ⊢
  cases hout with
  | missing hnone => exact absurd (hresult.symm.trans hnone) (by simp)
  | fault hsome => exact absurd (hfault.symm.trans hsome) (by simp)
  | done hresult' _ hanswer hshows _ =>
    obtain ⟨rfl, rfl⟩ := Prod.mk.inj (Option.some.inj (hresult.symm.trans hresult'))
    exact ⟨_, _, rfl, hanswer, hshows.plain_eq⟩

/-- Why a command is refused, and what it does if it is not: the registers that it combines hold sets over
two universes, or it asks for a state that there is not; otherwise it does what set algebra says. -/
structure Command.Guarded (family : Array Universe) (regs : Registers StateSet) (c : Command) : Prop where
  mixed_iff : c.exec family regs = .error (.fault .universeMismatch) ↔
    ∃ x y s t, c.operands = some (x, y) ∧ regs.get? x = some s ∧ regs.get? y = some t ∧
      s.carrier.tag ≠ t.carrier.tag
  beyond_iff : ∀ i n, c.exec family regs = .error (.fault (.bitOutOfRange i n)) ↔
    ∃ u indices, c.accesses family (plainAt regs) = some (u, indices) ∧ n = u.size ∧
      indices.find? (u.size ≤ ·) = some i
  width_agrees : ∀ left right, c.exec family regs ≠ .error (.fault (.widthMismatch left right))
  unchanged : ∀ e, c.exec family regs = .error e →
    ∀ name, (c.apply family regs).get? name = regs.get? name
  algebra : ∀ answer U, c.result family (plainAt regs) = some (answer, U) →
    c.exec family regs = .error (.fault .universeMismatch) ∨
    (∃ i n, c.exec family regs = .error (.fault (.bitOutOfRange i n))) ∨
    ∃ a s, c.exec family regs = .ok (a, s) ∧ (∀ b ∈ answer, a = b) ∧ s.plain = U ∧
      ∀ name, (c.apply family regs).get? name = if name = c.register then some s else regs.get? name

theorem Kept.guarded (h : Kept family regs) (hfamily : Universe.Coherent family) (c : Command) :
    c.Guarded family regs where
  mixed_iff := by
    rw [h.exec_eq_fault_iff hfamily .universeMismatch (by simp), Command.fault?_eq_mismatch_iff]
    simp only [plainAt, Option.map_eq_some_iff]
    constructor
    · rintro ⟨x, y, _, _, hoperands, ⟨s, hs, rfl⟩, ⟨t, ht, rfl⟩, hne⟩
      exact ⟨x, y, s, t, hoperands, hs, ht, by simpa [Universe.same] using hne⟩
    · rintro ⟨x, y, s, t, hoperands, hs, ht, hne⟩
      exact ⟨x, y, _, _, hoperands, ⟨s, hs, rfl⟩, ⟨t, ht, rfl⟩, by simpa [Universe.same] using hne⟩
  beyond_iff i n := by
    rw [h.exec_eq_fault_iff hfamily (.bitOutOfRange i n) (by simp), Command.fault?_eq_range_iff]
  width_agrees left right := by
    rw [Ne, h.exec_eq_fault_iff hfamily (.widthMismatch left right) (by simp)]
    intro hfault
    rcases Command.fault?_cases hfault with ⟨_, _, _, _, _, _, _, _, hf⟩ | ⟨_, _, _, _, _, hf⟩ <;> cases hf
  unchanged e he := (h.settles c).get?_of_error he
  algebra answer U hresult := by
    cases hfault : c.fault? family (plainAt regs) with
    | some f =>
      rcases Command.fault?_cases hfault with ⟨_, _, _, _, _, _, _, _, rfl⟩ | ⟨u, _, i, _, _, rfl⟩
      · exact .inl ((h.exec_eq_fault_iff hfamily .universeMismatch (by simp)).2 hfault)
      · have hexec := (h.exec_eq_fault_iff hfamily (.bitOutOfRange i u.size) (by simp)).2 hfault
        exact .inr (.inl ⟨i, u.size, hexec⟩)
    | none =>
      obtain ⟨a, s, hexec, hanswer, hplain⟩ := h.exists_exec_eq_ok hfamily hresult hfault
      exact .inr (.inr ⟨a, s, hexec, hanswer, hplain, (h.settles c).get?_of_ok hexec⟩)

/-- Whatever a script did before, its registers hold sets as wide as their universes, and its next command
is refused exactly for two universes or for a number without a state. A refused command changes no
register, also if it works in place; any other one leaves the set in its register that set algebra makes. -/
theorem runScript_guarded (hfamily : Universe.Coherent family) (script : List Step) :
    (∀ step rest, (runScript family (script ++ step :: rest) .empty)[script.length]? =
      some (step.exec family (registersAfter family script))) ∧
    (∀ name s, (registersAfter family script).get? name = some s →
      s.carrier ∈ family ∧ s.bits.width = s.carrier.size) ∧
    ∀ c : Command, c.Guarded family (registersAfter family script) := by
  have hkept := kept_registersAfter hfamily script
  refine ⟨getElem?_runScript family script, fun name s hs => ?_, hkept.guarded hfamily⟩
  obtain ⟨hmem, hover⟩ := hkept name s hs
  exact ⟨hmem, hover.width⟩

end StateSet

/-! ## Families of models -/

theorem Blueprint.tag_of_build {b : Blueprint} {tag : Nat} {m : TransitionSystem}
    (h : b.build tag = .ok m) : m.carrier.tag = tag := by
  unfold build at h
  split at h
  · cases h
  · obtain ⟨states, -, hm⟩ := bind_eq_ok_iff.1 h
    injection hm with hm
    subst hm
    rfl

theorem Model.tag_of_load {model : Model} {tag : Nat} {m : TransitionSystem}
    (h : model.load tag = .ok m) : m.carrier.tag = tag := by
  cases model with
  | aut text =>
    have hread : (Aut.read tag text.toList).mapError ModelError.ofStop = .ok m := h
    obtain ⟨_, _, _, _, _, _, _, _, _, hbuild⟩ := Aut.read_eq_ok_iff.1 (mapError_eq_ok_iff.1 hread)
    exact Blueprint.tag_of_build hbuild
  | drawn n calls =>
    cases hroom : Blueprint.allocate n with
    | error f =>
      simp only [load, loadLogged, hroom] at h
      cases h
    | ok b =>
      cases hm : (calls.foldl Blueprint.Call.apply b).build tag with
      | error e =>
        simp only [load, loadLogged, hroom, hm] at h
        cases h
      | ok m' =>
        simp only [load, loadLogged, hroom, hm] at h
        cases h
        exact Blueprint.tag_of_build hm

/-- The universes of several models are different ones, whatever they look like. -/
theorem Model.coherent_universes {models : List Model} {family : Array Universe}
    (h : Model.universes models = .ok family) : Universe.Coherent family := by
  obtain ⟨systems, hsystems, hfamily⟩ := bind_eq_ok_iff.1 h
  cases hfamily
  have htags : models.zipIdx.map (·.2) = systems.map (·.carrier.tag) := by
    rw [← List.forall₂_eq_eq_eq, List.forall₂_map_left_iff, List.forall₂_map_right_iff]
    exact (mapM_eq_ok_iff.1 hsystems).imp fun p m hm => (tag_of_load hm).symm
  have hnodup : (systems.map (·.carrier.tag)).Nodup := by
    rw [← htags, List.zipIdx_map_snd]
    exact List.nodup_range'
  intro u hu v hv htag
  obtain ⟨m, hm, rfl⟩ := List.mem_map.1 (List.mem_toArray.1 hu)
  obtain ⟨m', hm', rfl⟩ := List.mem_map.1 (List.mem_toArray.1 hv)
  rw [List.inj_on_of_nodup_map hnodup hm hm' htag]

/-- Two models that look alike: their sets cannot be compared, nor can the one be added to the other in
place. A list with numbers beyond the states is refused as a whole, at the first of them. -/
theorem StateSet.runScript_guarded_alike : ∃ family regs,
    Model.universes [.drawn 2 [], .drawn 2 []] = .ok family ∧
    regs = registersAfter family [.command (.all "a" 0), .command (.none "b" 1)] ∧
    (Command.equal "a" "b").exec family regs = .error (.fault .universeMismatch) ∧
    (Command.unionWith "b" "a").exec family regs = .error (.fault .universeMismatch) ∧
    ((Command.unionWith "b" "a").apply family regs).get? "b" = regs.get? "b" ∧
    (Command.ofList "b" 1 [0, 2, 5]).exec family regs = .error (.fault (.bitOutOfRange 2 2)) ∧
    ∀ name, ((Command.ofList "b" 1 [0, 2, 5]).apply family regs).get? name = regs.get? name := by
  have hfamily : Model.universes [.drawn 2 [], .drawn 2 []] =
      .ok #[.ofSize 0 2, .ofSize 1 2] := rfl
  obtain ⟨-, -, hguarded⟩ := runScript_guarded (Model.coherent_universes hfamily)
    [.command (.all "a" 0), .command (.none "b" 1)]
  have hbeyond := ((hguarded (.ofList "b" 1 [0, 2, 5])).beyond_iff 2 2).2 ⟨_, _, rfl, rfl, rfl⟩
  have hmixed := (hguarded (.unionWith "b" "a")).mixed_iff.2 ⟨"b", "a", _, _, rfl, rfl, rfl, by decide⟩
  refine ⟨_, _, hfamily, rfl, ?_, hmixed, (hguarded _).unchanged _ hmixed "b", hbeyond,
    (hguarded _).unchanged _ hbeyond⟩
  exact (hguarded (.equal "a" "b")).mixed_iff.2 ⟨"a", "b", _, _, rfl, rfl, rfl, by decide⟩

end ModalMu
