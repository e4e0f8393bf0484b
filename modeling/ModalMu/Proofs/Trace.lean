import ModalMu.Proofs.LogLines
import ModalMu.Proofs.Tallies

/-!
# The log as a trace

The log of a check tells what its evaluation went through, and nothing else. The marks on its lines are well
bracketed (`Mark.Bracketed`), and the tallies can be read off them (`check_log_faithful`).

1. Which rounds belong to which fixed point is a matter of the brackets alone: a fixed point that comes to
   rest is the last one that was entered and has not come to rest yet (`Mark.closed`). Well bracketed
   marks can be read apart from what is before and after them (`Bracketed.selfContained`).
2. An evaluation adds lines to the log, and their marks account for all changes of the tallies
   (`Evaluation.Records`). An entry adds its line and those of the resets (`enter_records`), rounds add
   what the body adds and a line each (`Turns.exists_records`), and the exit closes the entry
   (`leave_records`).
3. So the evaluation of a formula adds well bracketed lines (`compositional_records`). Their kinds and names
   are those of the binders, since all fixed points of the formula are in the table of the sentence.
-/

namespace ModalMu

namespace Tally

/-- The tally of something that goes on after what another tally counts. -/
def add (t u : Tally) : Tally :=
  ⟨t.entries + u.entries, t.rounds + u.rounds, max t.maxRounds u.maxRounds, t.resets + u.resets⟩

@[simp] theorem add_zero (t : Tally) : t.add .zero = t := by simp [add, zero]

@[simp] theorem zero_add (t : Tally) : zero.add t = t := by simp [add, zero]

theorem add_assoc (t u v : Tally) : (t.add u).add v = t.add (u.add v) := by
  simp [add, Nat.add_assoc, Nat.max_assoc]

theorem enter_eq_add (t : Tally) : t.enter = t.add ⟨1, 0, 0, 0⟩ := by simp [add, enter]

theorem reset_eq_add (t : Tally) : t.reset = t.add ⟨0, 0, 0, 1⟩ := by simp [add, reset]

theorem add_converge (t u : Tally) (n : Nat) : (t.add u).converge n = t.add (u.converge n) := by
  simp [add, converge, Nat.add_assoc, Nat.max_assoc]

end Tally

namespace Mark

variable {k : FixKind} {x : Char} {i j n : Nat} {around : Option FixKind} {slots : List Nat}
  {bodies : List (List Mark × Nat)} {binders : Array Binder} {l l' : List Mark}

/-! ## Brackets -/

/-- The marks of the rounds of a fixed point, numbered from one on. The one of a round has the number of
states that it found, and stands after the marks of the body. -/
def roundLines (k : FixKind) (x : Char) (bodies : List (List Mark × Nat)) : List Mark :=
  bodies.zipIdx.flatMap fun (body, n) => body.1 ++ [.round k x (n + 1) body.2]

/-- The marks of the entry itself: the resets come at once. -/
def entryLines (k : FixKind) (x : Char) (i : Nat) (around : Option FixKind) (resets : List Nat) :
    List Mark :=
  .entered k x i around :: resets.map (.reset · k)

/-- Marks that are well bracketed, below a fixed point of the kind `around`: entries of fixed points, one
after the other, each with the kind, the name and the slot of a binder. It has its resets at once, then
rounds, with well bracketed marks of the body before the mark of each, and is closed after them with their
number. -/
inductive Bracketed (binders : Array Binder) : Option FixKind → List Mark → Prop
  | nil (around : Option FixKind) : Bracketed binders around []
  | entry (around : Option FixKind) {b : Binder} (hb : b ∈ binders) (resets : List Nat)
      {bodies : List (List Mark × Nat)} {rest : List Mark}
      (hbodies : ∀ body ∈ bodies, Bracketed binders (some b.kind) body.1)
      (hrest : Bracketed binders around rest) :
      Bracketed binders around (entryLines b.kind b.name b.slot around resets ++
        roundLines b.kind b.name bodies ++ .converged b.kind b.name bodies.length :: rest)

theorem roundLines_concat (k : FixKind) (x : Char) (bodies : List (List Mark × Nat))
    (body : List Mark × Nat) : roundLines k x (bodies ++ [body]) =
      roundLines k x bodies ++ (body.1 ++ [.round k x (bodies.length + 1) body.2]) := by
  simp [roundLines, List.zipIdx_append]

theorem Bracketed.append (h : Bracketed binders around l) (h' : Bracketed binders around l') :
    Bracketed binders around (l ++ l') := by
  induction h with
  | nil => exact h'
  | entry around hb resets hbodies _ _ ih =>
    rw [List.append_assoc, List.cons_append]
    exact .entry around hb resets hbodies (ih h')

/-! ## What the marks tell -/

/-- The mark of an entry of the fixed point with the slot `j`. -/
def isEntryOf (j : Nat) : Mark → Bool
  | entered _ _ i _ => i == j
  | _ => false

/-- The mark of a reset of the fixed point with the slot `j`. -/
def isResetOf (j : Nat) : Mark → Bool
  | reset i _ => i == j
  | _ => false

/-- The entries that are closed by some marks, with the slots of their fixed points and the numbers of
their rounds. A fixed point that comes to rest closes the last entry that is still open; `opened` has the
slots of those that are so before the first mark. -/
def closed : (opened : List Nat) → List Mark → List (Nat × Nat)
  | _, [] => []
  | opened, a :: marks =>
    match a, opened with
    | entered _ _ i _, opened => closed (i :: opened) marks
    | converged _ _ n, i :: opened => (i, n) :: closed opened marks
    | _, opened => closed opened marks

/-- The numbers of rounds of the entries of the fixed point with the slot `j`. -/
def roundsOf (j : Nat) (marks : List Mark) : List Nat :=
  ((closed [] marks).filter (·.1 == j)).map (·.2)

/-- The tally of the fixed point with the slot `j` that can be read off some marks. -/
def told (marks : List Mark) (j : Nat) : Tally where
  entries := marks.countP (isEntryOf j)
  rounds := (roundsOf j marks).sum
  maxRounds := (roundsOf j marks).foldr max 0
  resets := marks.countP (isResetOf j)

/-- The entries in the marks are closed by the marks, and no others. -/
def SelfContained (l : List Mark) : Prop :=
  ∀ opened rest, closed opened (l ++ rest) = closed [] l ++ closed opened rest

theorem SelfContained.append (h : SelfContained l) (h' : SelfContained l') :
    SelfContained (l ++ l') := by
  intro opened rest
  rw [List.append_assoc, h, h', h [] l', List.append_assoc]

theorem closed_resets (k : FixKind) (slots opened : List Nat) (marks : List Mark) :
    closed opened (slots.map (.reset · k) ++ marks) = closed opened marks := by
  induction slots with
  | nil => rfl
  | cons j slots ih => exact ih

theorem closed_resets_eq_nil (k : FixKind) (slots opened : List Nat) :
    closed opened (slots.map (.reset · k)) = [] := by
  have h := closed_resets k slots opened []
  rwa [List.append_nil] at h

theorem selfContained_resets (k : FixKind) (slots : List Nat) :
    SelfContained (slots.map (.reset · k)) := by
  intro opened rest
  rw [closed_resets, closed_resets_eq_nil]
  rfl

theorem closed_entryLines (opened : List Nat) (marks : List Mark) :
    closed opened (entryLines k x i around slots ++ marks) = closed (i :: opened) marks :=
  closed_resets k slots (i :: opened) marks

theorem selfContained_roundLines (h : ∀ body ∈ bodies, SelfContained body.1) :
    SelfContained (roundLines k x bodies) := by
  induction bodies using List.reverseRecOn with
  | nil => exact fun _ _ => rfl
  | append_singleton bodies body ih =>
    rw [roundLines_concat]
    refine (ih fun b hb => h b (List.mem_append_left _ hb)).append (SelfContained.append ?_ ?_)
    · exact h body (List.mem_append_right _ List.mem_cons_self)
    · exact fun _ _ => rfl

theorem closed_entry (h : SelfContained (roundLines k x bodies)) (opened : List Nat)
    (rest : List Mark) :
    closed opened (entryLines k x i around slots ++ roundLines k x bodies ++
        .converged k x n :: rest) =
      closed [] (roundLines k x bodies) ++ (i, n) :: closed opened rest := by
  rw [List.append_assoc, closed_entryLines, h]
  rfl

theorem Bracketed.selfContained (h : Bracketed binders around l) : SelfContained l := by
  induction h with
  | nil => exact fun _ _ => rfl
  | @entry around b hb resets bodies _ _ _ ihbodies ih =>
    intro opened rest
    have hrounds := selfContained_roundLines (k := b.kind) (x := b.name) ihbodies
    rw [List.append_assoc, List.cons_append, closed_entry hrounds, closed_entry hrounds, ih,
      List.append_assoc, List.cons_append]

theorem foldr_max_append (l l' : List Nat) :
    (l ++ l').foldr max 0 = max (l.foldr max 0) (l'.foldr max 0) := by
  induction l with
  | nil => exact (Nat.zero_max _).symm
  | cons n l ih => rw [List.cons_append, List.foldr_cons, List.foldr_cons, ih, Nat.max_assoc]

theorem told_entered (k : FixKind) (x : Char) (i : Nat) (around : Option FixKind) (j : Nat) :
    told [.entered k x i around] j = if j = i then ⟨1, 0, 0, 0⟩ else .zero := by
  by_cases hij : j = i
  · simp [told, roundsOf, closed, isEntryOf, isResetOf, hij]
  · simp [told, roundsOf, closed, isEntryOf, isResetOf, hij, Ne.symm hij, Tally.zero]

theorem told_reset (i : Nat) (k : FixKind) (j : Nat) :
    told [.reset i k] j = if j = i then ⟨0, 0, 0, 1⟩ else .zero := by
  by_cases hij : j = i
  · simp [told, roundsOf, closed, isEntryOf, isResetOf, hij]
  · simp [told, roundsOf, closed, isEntryOf, isResetOf, hij, Ne.symm hij, Tally.zero]

/-- Marks that can be read apart from one another. -/
theorem told_append (h : closed [] (l ++ l') = closed [] l ++ closed [] l') (j : Nat) :
    told (l ++ l') j = (told l j).add (told l' j) := by
  have hrounds : roundsOf j (l ++ l') = roundsOf j l ++ roundsOf j l' := by
    rw [roundsOf, h, List.filter_append, List.map_append]
    rfl
  unfold told Tally.add
  rw [hrounds, List.sum_append, foldr_max_append, List.countP_append, List.countP_append]

/-- The exit from a fixed point tells of the rounds since its entry. -/
theorem told_entry (h : SelfContained (roundLines k x bodies)) (j : Nat) :
    told (entryLines k x i around slots ++ roundLines k x bodies ++ [.converged k x n]) j =
      (if j = i then Tally.converge n else id)
        ((told (entryLines k x i around slots) j).add (told (roundLines k x bodies) j)) := by
  have hentry : roundsOf j (entryLines k x i around slots) = [] := by
    have h : closed [] (entryLines k x i around slots) = [] := closed_resets_eq_nil k slots [i]
    rw [roundsOf, h]
    rfl
  have hrounds : roundsOf j (entryLines k x i around slots ++ roundLines k x bodies ++
      [.converged k x n]) = roundsOf j (roundLines k x bodies) ++ if j = i then [n] else [] := by
    rw [roundsOf, closed_entry h, List.filter_append, List.map_append]
    by_cases hij : j = i
    · simp [roundsOf, closed, hij]
    · simp [roundsOf, closed, hij, Ne.symm hij]
  have hentries : ∀ q : Mark → Bool, q (converged k x n) = false →
      (entryLines k x i around slots ++ roundLines k x bodies ++ [converged k x n]).countP q =
        (entryLines k x i around slots).countP q + (roundLines k x bodies).countP q := by
    intro q hq
    simp [List.countP_append, hq]
  unfold told Tally.add
  rw [hrounds, hentry, hentries _ rfl, hentries _ rfl, List.sum_append, foldr_max_append]
  by_cases hij : j = i
  · simp [hij, Tally.converge]
  · simp [hij]

end Mark

namespace Evaluation

variable {job : Job} {e e₁ e₂ e' : Evaluation} {k : FixKind} {x : Char} {i n : Nat}
  {around : Option FixKind} {slots : List Nat} {binders : Array Binder} {l l' : List Mark} {s : StateSet}

/-! ## Lines that account for the tallies -/

/-- The marks are those of the lines that were added to the log, and account for all changes of the
tallies. -/
structure Records (e : Evaluation) (marks : List Mark) (e' : Evaluation) : Prop where
  log : ∃ added : List Event, e'.log.toList = e.log.toList ++ added ∧
    List.Forall₂ Mark.On marks (added.map Event.message)
  size : e'.cells.size = e.cells.size
  counts : ∀ j, e'.counts j = (e.counts j).add (Mark.told marks j)

namespace Records

theorem refl (e : Evaluation) : Records e [] e where
  log := ⟨[], (List.append_nil _).symm, .nil⟩
  size := rfl
  counts _ := (Tally.add_zero _).symm

theorem trans (h : Records e l e₁) (h' : Records e₁ l' e₂)
    (hclosed : Mark.closed [] (l ++ l') = Mark.closed [] l ++ Mark.closed [] l') :
    Records e (l ++ l') e₂ where
  log := by
    obtain ⟨added, hadded, hon⟩ := h.log
    obtain ⟨later, hlater, hon'⟩ := h'.log
    refine ⟨added ++ later, by rw [hlater, hadded, List.append_assoc], ?_⟩
    rw [List.map_append]
    exact List.rel_append hon hon'
  size := h'.size.trans h.size
  counts j := by rw [h'.counts, h.counts, Mark.told_append hclosed, Tally.add_assoc]

/-- Changes of values and flags are not told of. -/
theorem update (h : Records e l e') (i : Nat) {g : Cell → Cell} (hg : ∀ c, (g c).tally = c.tally) :
    Records e l (e'.update i g) where
  log := h.log
  size := by
    rw [Evaluation.update, Array.size_modify]
    exact h.size
  counts j := by rw [counts_update e' i hg, h.counts]

/-- A line that no tally takes notice of. -/
theorem record (e : Evaluation) {a : Event} {m : Mark} (hon : m.On a.message)
    (ha : ∀ j, Mark.told [m] j = .zero) : Records e [m] (e.record a) where
  log := ⟨[a], Array.toList_push, .cons hon .nil⟩
  size := rfl
  counts j := by
    rw [ha, Tally.add_zero]
    rfl

/-- A line, and the change of one tally that it tells of. -/
theorem line (hi : i < e.cells.size) {a : Event} {m : Mark} (hon : m.On a.message) {g : Cell → Cell}
    {t : Tally} (ha : ∀ j, Mark.told [m] j = if j = i then t else .zero)
    (hg : ∀ c, (g c).tally = c.tally.add t) : Records e [m] ((e.record a).update i g) where
  log := ⟨[a], Array.toList_push, .cons hon .nil⟩
  size := Array.size_modify
  counts j := by
    rw [counts_update_of_lt (e := e.record a) (φ := (·.add t)) hi hg, ha]
    by_cases hij : j = i
    · rw [if_pos hij, if_pos hij]
      rfl
    · rw [if_neg hij, if_neg hij, Tally.add_zero]
      rfl

end Records

theorem resetCell_records (h : e.resetCell k i = .ok e') : Records e [.reset i k] e' := by
  obtain ⟨c, hcell, h⟩ := bind_eq_ok_iff.1 h
  cases h
  have hi : i < e.cells.size := Fault.lt_size_of_lookup hcell
  exact Records.line hi (Mark.on_reset i k) (Mark.told_reset i k) fun c => c.tally.reset_eq_add

theorem exists_resetIfAffected_records (h : resetIfAffected job k e i = .ok e') :
    ∃ slots : List Nat, Records e (slots.map (.reset · k)) e' := by
  obtain ⟨b, -, h⟩ := bind_eq_ok_iff.1 h
  split at h
  · obtain ⟨affected, -, h⟩ := bind_eq_ok_iff.1 h
    split at h
    · exact ⟨[i], resetCell_records h⟩
    · cases h
      exact ⟨[], .refl e⟩
  · cases h
    exact ⟨[], .refl e⟩

theorem exists_foldlM_records (h : slots.foldlM (resetIfAffected job k) e = .ok e') :
    ∃ slots : List Nat, Records e (slots.map (.reset · k)) e' := by
  induction slots generalizing e with
  | nil =>
    cases h
    exact ⟨[], .refl _⟩
  | cons i slots ih =>
    rw [List.foldlM_cons] at h
    obtain ⟨e₁, hfirst, hrest⟩ := bind_eq_ok_iff.1 h
    obtain ⟨done, hdone⟩ := exists_resetIfAffected_records hfirst
    obtain ⟨later, hlater⟩ := ih hrest
    refine ⟨done ++ later, ?_⟩
    rw [List.map_append]
    exact hdone.trans hlater (Mark.selfContained_resets k done [] _)

theorem exists_resetOnEntry_records (h : resetOnEntry job k i around e = .ok e') :
    ∃ slots : List Nat, Records e (slots.map (.reset · k)) e' := by
  unfold resetOnEntry at h
  split at h
  · cases h
    exact ⟨[], .refl e⟩
  · exact ⟨[i], resetCell_records h⟩
  · split at h
    · obtain ⟨b, -, h⟩ := bind_eq_ok_iff.1 h
      exact exists_foldlM_records h
    · cases h
      exact ⟨[], .refl e⟩

/-- An entry is told of, and then its resets. -/
theorem enter_records (h : enter job k x i around e = .ok e') :
    i < e.cells.size ∧ ∃ slots, Records e (Mark.entryLines k x i around slots) e' := by
  obtain ⟨c, hcell, h⟩ := bind_eq_ok_iff.1 h
  have hi : i < e.cells.size := Fault.lt_size_of_lookup hcell
  obtain ⟨slots, hslots⟩ := exists_resetOnEntry_records h
  have hentered : Records e [.entered k x i around]
      ((e.record (.entered k x i around)).update i Cell.enter) :=
    Records.line hi (Mark.on_entered k x i around) (Mark.told_entered k x i around)
      fun c => c.tally.enter_eq_add
  refine ⟨hi, slots, hentered.trans hslots ?_⟩
  show Mark.closed [i] (slots.map (.reset · k)) = [] ++ Mark.closed [] (slots.map (.reset · k))
  rw [Mark.closed_resets_eq_nil, Mark.closed_resets_eq_nil]
  rfl

/-- Rounds are told of one after the other, each after what the body adds. -/
theorem Turns.exists_records {body : Evaluation → StateSet → Evaluation → Prop}
    (hbody : ∀ e s e', body e s e' →
      ∃ marks, Mark.Bracketed binders (some k) marks ∧ Records e marks e')
    (h : Turns body k x i e n e') :
    ∃ bodies : List (List Mark × Nat), bodies.length = n ∧
      (∀ b ∈ bodies, Mark.Bracketed binders (some k) b.1) ∧ Records e (Mark.roundLines k x bodies) e' := by
  induction h with
  | zero => exact ⟨[], rfl, nofun, .refl e⟩
  | @succ n e₁ e₂ current next _ hnext ih =>
    obtain ⟨bodies, rfl, hbodies, hrecords⟩ := ih
    obtain ⟨marks, hmarks, hinside⟩ := hbody _ _ _ hnext
    refine ⟨bodies ++ [(marks, next.size)], by simp, fun b hb => ?_, ?_⟩
    · rcases List.mem_append.1 hb with hb | hb
      · exact hbodies b hb
      · rw [List.mem_singleton.1 hb]
        exact hmarks
    · have hraise : Records e (Mark.roundLines k x bodies) (e₁.raise i current) :=
        hrecords.update i fun _ => rfl
      have hlower : Records (e₁.raise i current) marks (e₂.lower i) := hinside.update i fun _ => rfl
      have hround : Records (e₁.raise i current)
          (marks ++ [.round k x (bodies.length + 1) next.size])
          ((e₂.lower i).record (.round k x (bodies.length + 1) next.size)) :=
        hlower.trans (.record _ (Mark.on_round ..) fun _ => rfl) (hmarks.selfContained [] _)
      rw [Mark.roundLines_concat]
      refine hraise.trans hround (Mark.selfContained_roundLines (fun b hb => ?_) [] _)
      exact (hbodies b hb).selfContained

/-- The exit from a fixed point, after the entry to `e₁` and the rounds to `e₂`. -/
theorem leave_records {bodies : List (List Mark × Nat)} (hi : i < e.cells.size)
    (hentry : Records e (Mark.entryLines k x i around slots) e₁)
    (hrounds : Records e₁ (Mark.roundLines k x bodies) e₂)
    (hself : Mark.SelfContained (Mark.roundLines k x bodies)) :
    Records e (Mark.entryLines k x i around slots ++ Mark.roundLines k x bodies ++
      [.converged k x n]) (leave k x i n s e₂) where
  log := by
    obtain ⟨first, hfirst, honfirst⟩ := hentry.log
    obtain ⟨later, hlater, honlater⟩ := hrounds.log
    refine ⟨first ++ later ++ [.converged k x n s], ?_, ?_⟩
    · show (e₂.log.push _).toList = _
      rw [Array.toList_push, hlater, hfirst, List.append_assoc, List.append_assoc, List.append_assoc]
    · rw [List.map_append, List.map_append]
      exact List.rel_append (List.rel_append honfirst honlater) (.cons (Mark.on_converged k x n s) .nil)
  size := by
    show (e₂.cells.modify _ _).size = _
    rw [Array.size_modify, hrounds.size, hentry.size]
  counts j := by
    have hi₂ : i < e₂.cells.size := by
      rw [hrounds.size, hentry.size]
      exact hi
    rw [leave_counts hi₂, hrounds.counts, hentry.counts, Mark.told_entry hself]
    by_cases hij : j = i
    · rw [if_pos hij, if_pos hij, Tally.add_assoc, Tally.add_converge]
    · rw [if_neg hij, if_neg hij, Tally.add_assoc]
      rfl

/-- The left operand is told of before the right one. -/
theorem exists_operands_records (hl : ∃ marks, Mark.Bracketed binders around marks ∧ Records e marks e₁)
    (hr : ∃ marks, Mark.Bracketed binders around marks ∧ Records e₁ marks e₂) :
    ∃ marks, Mark.Bracketed binders around marks ∧ Records e marks e₂ := by
  obtain ⟨l, hl, hleft⟩ := hl
  obtain ⟨r, hr, hright⟩ := hr
  exact ⟨l ++ r, hl.append hr, hleft.trans hright (hl.selfContained [] r)⟩

/-- Evaluation of a formula whose fixed points are in the table adds well bracketed lines that account for
the tallies. -/
theorem compositional_records (job : Job) (limit : Nat) :
    Compositional job limit fun f around e _ e' => (∀ b ∈ f.table, b ∈ job.sentence.binders) →
      ∃ marks, Mark.Bracketed job.sentence.binders around marks ∧ Records e marks e' where
  top around e _ := ⟨[], .nil around, .refl e⟩
  bot around e _ := ⟨[], .nil around, .refl e⟩
  var _ _ := ⟨[], .nil _, .refl _⟩
  and _ _ ihl ihr _ htable :=
    exists_operands_records (ihl fun b hb => htable b (List.mem_append_left _ hb))
      (ihr fun b hb => htable b (List.mem_append_right _ hb))
  or _ _ ihl ihr _ htable :=
    exists_operands_records (ihl fun b hb => htable b (List.mem_append_left _ hb))
      (ihr fun b hb => htable b (List.mem_append_right _ hb))
  not ih := ih
  diamond ih _ := ih
  box ih _ := ih
  fix {k x i f around e e₁ e₂ n s} henter _ _ hturns htable := by
    obtain ⟨hi, slots, hentry⟩ := enter_records henter
    obtain ⟨bodies, rfl, hbodies, hrounds⟩ := hturns.exists_records fun _ _ _ h =>
      h.2 fun b hb => htable b (List.mem_cons_of_mem _ hb)
    have hself := Mark.selfContained_roundLines (k := k) (x := x) fun b hb =>
      (hbodies b hb).selfContained
    exact ⟨_, .entry around (htable _ List.mem_cons_self) slots hbodies (.nil around),
      leave_records hi hentry hrounds hself⟩

end Evaluation

section Check

variable {b : Blueprint} {tag : Nat} {m : TransitionSystem} {src : String} {p : Sentence}

/-- If the check of a sentence comes to an end, the messages of its log are a trace of it. They begin and
end with a line of the check itself. All lines between have a mark, which their texts tell, and the marks are
well bracketed: each entry of a fixed point has the kind, the name and the slot of a binder and the lines of
its resets directly after it, then those of its rounds, numbered from one on, and is closed with their
number. For every binder the tally has the number of its entries, the sum and the maximum of the numbers that
they are closed with, and the number of its resets. -/
theorem check_log_faithful (hm : b.build tag = .ok m) (hp : Sentence.parse src = .ok p)
    {policy : ResetPolicy} (hterminates : (Job.mk m p policy).Terminates) :
    ∃ verdict first lines last marks, (Job.mk m p policy).check = .ok verdict ∧
      verdict.log.map Event.message = first :: lines ++ [last] ∧
      (Mark.IsCheck first ∧ Mark.IsCheck last ∧ ∀ line ∈ lines, ¬Mark.IsCheck line) ∧
      (List.Forall₂ Mark.On marks lines ∧
        ∀ marks', List.Forall₂ Mark.On marks' lines → marks' = marks) ∧
      Mark.Bracketed p.binders none marks ∧ verdict.tallies.length = p.binders.size ∧
      ∀ b ∈ p.binders,
        (verdict.tally b.slot).entries = marks.countP (Mark.isEntryOf b.slot) ∧
        (verdict.tally b.slot).rounds = (Mark.roundsOf b.slot marks).sum ∧
        (verdict.tally b.slot).maxRounds = (Mark.roundsOf b.slot marks).foldr max 0 ∧
        (verdict.tally b.slot).resets = marks.countP (Mark.isResetOf b.slot) := by
  have hindexed : m.Indexed := (Blueprint.build_eq_ok hm).2.2
  have hwellFormed := Sentence.parse_wellFormed hp
  obtain ⟨verdict, hcheck⟩ := (exists_check_iff_terminates hindexed hwellFormed).2 hterminates
  have hlength := (Job.tallied_of_check hwellFormed hcheck).1
  obtain ⟨⟨s, e⟩, hrun, hverdict⟩ := bind_eq_ok_iff.1 hcheck
  cases hverdict
  have htable : ∀ b ∈ p.root.table, b ∈ p.binders := fun b hb => by
    rwa [← hwellFormed.binders, Array.mem_toList_iff] at hb
  obtain ⟨marks, hmarks, hrecords⟩ := (Evaluation.compositional_records _ _).evalFormula hrun htable
  obtain ⟨added, hadded, hon⟩ := hrecords.log
  refine ⟨_, (Event.started p.root p.binders.size p.alternationDepth policy).message,
    added.map Event.message, (Event.finished s.size m.numStates (Tally.totalRounds e.tallies)).message,
    marks, hcheck, ?_, ⟨Mark.isCheck_started .., Mark.isCheck_finished ..,
      Mark.not_isCheck_of_forall₂_on hon⟩,
    ⟨hon, fun marks' hon' => Mark.eq_of_forall₂_on hon' hon⟩, hmarks, hlength, fun b _ => ?_⟩
  · show (_ :: e.log.toList ++ [_]).map Event.message = _
    rw [hadded]
    simp [Evaluation.start]
  · have htally : (Job.verdict ⟨m, p, policy⟩ s e).tally b.slot = Mark.told marks b.slot := by
      have h := hrecords.counts b.slot
      rwa [Evaluation.start_counts, Tally.zero_add] at h
    rw [htally]
    exact ⟨rfl, rfl, rfl, rfl⟩

/-- The inner one of two fixed points is entered, and reset, three times. It is closed after two rounds
each time, between the rounds of the outer one. -/
theorem check_log_faithful_reset :
    ∃ m p verdict first lines last marks, (Blueprint.mk #[none, none, none] 0
        #[⟨0, ⟨"a"⟩, 1⟩, ⟨1, ⟨"b"⟩, 2⟩, ⟨1, ⟨"b"⟩, 1⟩]).build 0 = .ok m ∧
      Sentence.parse "nu X.mu Y.((<a>X) || <b>Y)" = .ok p ∧
      (Job.mk m p .alternation).Terminates ∧ (Job.mk m p .alternation).check = .ok verdict ∧
      verdict.log.map Event.message = first :: lines ++ [last] ∧ List.Forall₂ Mark.On marks lines ∧
      lines.head? = some "enter nu X (#0), surrounding = None" ∧
      lines.count "enter mu Y (#1), surrounding = Nu" = 3 ∧
      Mark.Bracketed p.binders none marks ∧
      marks.countP (Mark.isEntryOf 1) = 3 ∧ (Mark.roundsOf 1 marks).sum = 6 ∧
      (Mark.roundsOf 1 marks).foldr max 0 = 2 ∧ marks.countP (Mark.isResetOf 1) = 3 := by
  obtain ⟨m, p, verdict, hm, hp, hb, hcheck, htally, hhead, hcount⟩ :
      ∃ m p verdict, (Blueprint.mk #[none, none, none] 0
        #[⟨0, ⟨"a"⟩, 1⟩, ⟨1, ⟨"b"⟩, 2⟩, ⟨1, ⟨"b"⟩, 1⟩]).build 0 = .ok m ∧
      Sentence.parse "nu X.mu Y.((<a>X) || <b>Y)" = .ok p ∧
      ⟨'Y', .least, 1, [], [0, 1]⟩ ∈ p.binders ∧ (Job.mk m p .alternation).check = .ok verdict ∧
      verdict.tally 1 = ⟨3, 6, 2, 3⟩ ∧
      (verdict.log.map Event.message).tail.dropLast.head? = some "enter nu X (#0), surrounding = None" ∧
      (verdict.log.map Event.message).tail.dropLast.count "enter mu Y (#1), surrounding = Nu" = 3 :=
    ⟨_, _, _, rfl, rfl, by decide +kernel, rfl, rfl, by decide +kernel, by decide +kernel⟩
  have hterminates := Job.terminates_of_check hcheck
  obtain ⟨verdict', first, lines, last, marks, hcheck', hlog, -, ⟨hon, -⟩, hmarks, -, htold⟩ :=
    check_log_faithful hm hp hterminates
  obtain rfl : verdict' = verdict := Except.ok.inj (hcheck'.symm.trans hcheck)
  obtain ⟨hentries, hrounds, hmax, hresets⟩ := htold _ hb
  rw [htally] at hentries hrounds hmax hresets
  have hbetween : (verdict'.log.map Event.message).tail.dropLast = lines := by
    rw [hlog]
    simp
  rw [hbetween] at hhead hcount
  exact ⟨m, p, verdict', first, lines, last, marks, hm, hp, hterminates, hcheck, hlog, hon, hhead, hcount,
    hmarks, hentries.symm, hrounds.symm, hmax.symm, hresets.symm⟩

end Check

end ModalMu
