import Mathlib.Algebra.Order.BigOperators.Group.List
import Mathlib.Algebra.Order.Group.Nat
import ModalMu.Proofs.AutReading

/-!
# Models that are written and read back

`read_write_eq_ok_iff` says when the text of a system can be read, and what is read from it. A label
may hold every character of the format, since the line is cut at its first and its last comma and at
one quote on either side. With a line feed it cannot be read back, however it imitates the format: its
transition fills at least two lines that count, every other one fills at least one, so there are more
lines than the header declares.
-/

namespace ModalMu

namespace Aut

open Text

/-! ## Lines that are written -/

/-- The line of a header. -/
def headerLine (h : Header) : List Char :=
  ['d', 'e', 's', ' ', '('] ++ Nat.toDigits 10 h.initial ++ [',', ' '] ++
    Nat.toDigits 10 h.numTransitions ++ [',', ' '] ++ Nat.toDigits 10 h.numStates ++ [')']

/-- The header that a system is written with. -/
def headerOf (m : TransitionSystem) : Header := ⟨m.initial, m.numTransitions, m.numStates⟩

theorem writeHeader_eq (m : TransitionSystem) : writeHeader m = headerLine (headerOf m) ++ ['\n'] := by
  simp [writeHeader, headerLine, headerOf]

/-- The text between the first comma of a transition's line and the last one. -/
def quotedLabel (t : Transition) : List Char := [' ', '"'] ++ t.label.text.toList ++ ['"']

/-- The line of a transition. -/
def transitionLine (t : Transition) : List Char :=
  ['('] ++ Nat.toDigits 10 t.source ++ [','] ++ quotedLabel t ++ [',', ' '] ++
    Nat.toDigits 10 t.target ++ [')']

theorem writeTransition_eq (t : Transition) : writeTransition t = transitionLine t ++ ['\n'] := by
  simp [writeTransition, transitionLine, quotedLabel]

theorem isDigit_of_mem_toDigits {n : Nat} {c : Char} (h : c ∈ Nat.toDigits 10 n) :
    c.isDigit = true := Nat.isDigit_of_mem_toDigits (by decide) (by decide) h

theorem notMem_toDigits {c : Char} (hc : c.isDigit = false) (n : Nat) : c ∉ Nat.toDigits 10 n :=
  fun h => by simp [isDigit_of_mem_toDigits h] at hc

theorem isBlank_eq_false_of_mem_toDigits {n : Nat} {c : Char} (h : c ∈ Nat.toDigits 10 n) :
    isBlank c = false := by
  have hc : 48 ≤ c.toNat ∧ c.toNat ≤ 57 :=
    (Bool.and_eq_true_iff.trans (and_congr decide_eq_true_iff decide_eq_true_iff)).1
      (isDigit_of_mem_toDigits h)
  simp only [isBlank, Bool.or_eq_false_iff, Bool.and_eq_false_iff, decide_eq_false_iff_not,
    beq_eq_false_iff_ne]
  omega

/-- Blanks in front of a number do not matter. -/
theorem numeral?_trim (before : List Char) (hblank : ∀ c ∈ before, isBlank c = true) (n : Nat) :
    numeral? (trim (before ++ Nat.toDigits 10 n)) = if n < numeralBound then some n else none := by
  have hne : Nat.toDigits 10 n ≠ [] := Nat.toDigits_ne_nil
  rw [trim_blank_append hblank hne (isBlank_eq_false_of_mem_toDigits (List.head_mem hne))
    (isBlank_eq_false_of_mem_toDigits (List.getLast_mem hne)), numeral?_toDigits]

/-- Blanks in front of a parenthesis do not matter. -/
theorem tuple?_eq (before : List Char) (hblank : ∀ c ∈ before, isBlank c = true) (body : List Char) :
    tuple? (before ++ '(' :: (body ++ [')'])) = some body := by
  rw [tuple?, trim_blank_append hblank (by simp) rfl (by simp; rfl)]
  exact stripLast?_append ')' body

/-- The three numbers of a header. -/
theorem fields_header (h : Header) :
    fields ',' (Nat.toDigits 10 h.initial ++ ',' :: (' ' :: Nat.toDigits 10 h.numTransitions ++
        ',' :: ' ' :: Nat.toDigits 10 h.numStates)) =
      [Nat.toDigits 10 h.initial, ' ' :: Nat.toDigits 10 h.numTransitions,
        ' ' :: Nat.toDigits 10 h.numStates] := by
  have hcomma : ∀ n, ',' ∉ Nat.toDigits 10 n := notMem_toDigits rfl
  rw [fields_append (hcomma _), fields_append (by simp [hcomma]), fields_of_notMem (by simp [hcomma])]

theorem header?_headerLine {h h' : Header} :
    header? (headerLine h) = some h' ↔
      h' = h ∧ h.initial < numeralBound ∧ h.numTransitions < numeralBound ∧
        h.numStates < numeralBound := by
  have htext : headerLine h = ['d', 'e', 's'] ++ ([' '] ++ '(' :: ((Nat.toDigits 10 h.initial ++
      ',' :: (' ' :: Nat.toDigits 10 h.numTransitions ++
        ',' :: ' ' :: Nat.toDigits 10 h.numStates)) ++ [')'])) := by
    simp [headerLine]
  have htrim : trim ([] ++ headerLine h) = headerLine h :=
    trim_blank_append nofun (by simp [htext]) (by simp [htext]; rfl) (by simp [htext]; rfl)
  rw [List.nil_append] at htrim
  have hblank : ∀ c ∈ [' '], isBlank c = true := List.forall_mem_singleton.2 rfl
  have hinitial := numeral?_trim [] nofun h.initial
  have htransitions := numeral?_trim [' '] hblank h.numTransitions
  have hstates := numeral?_trim [' '] hblank h.numStates
  simp only [List.nil_append, List.singleton_append] at hinitial htransitions hstates
  rw [header?, htrim, htext, stripStart?_append]
  simp only [Option.bind_eq_bind, Option.bind_some, tuple?_eq [' '] hblank, fields_header,
    List.map_cons, List.map_nil, hinitial, htransitions, hstates, Option.bind_eq_some_iff,
    Option.ite_none_right_eq_some, Option.some.injEq]
  constructor
  · rintro ⟨_, ⟨hi, rfl⟩, _, ⟨ht, rfl⟩, _, ⟨hn, rfl⟩, rfl⟩
    exact ⟨rfl, hi, ht, hn⟩
  · rintro ⟨rfl, hi, ht, hn⟩
    exact ⟨_, ⟨hi, rfl⟩, _, ⟨ht, rfl⟩, _, ⟨hn, rfl⟩, rfl⟩

theorem labelText?_quoted (s : List Char) :
    labelText? ('"' :: (s ++ ['"'])) = if s = [] then none else some s := by
  rw [labelText?]
  simp only [stripLast?_append]
  cases s <;> rfl

theorem transition?_transitionLine {t t' : Transition} :
    transition? (transitionLine t) = some t' ↔
      t' = t ∧ t.source < numeralBound ∧ t.target < numeralBound ∧ t.label.text ≠ "" := by
  have htuple : tuple? (transitionLine t) = some (Nat.toDigits 10 t.source ++
      ',' :: (quotedLabel t ++ ',' :: ([' '] ++ Nat.toDigits 10 t.target))) := by
    rw [← tuple?_eq [] nofun]
    simp [transitionLine]
  have hcomma : ∀ n, ',' ∉ Nat.toDigits 10 n := notMem_toDigits rfl
  have hfirst : splitFirst? ',' (Nat.toDigits 10 t.source ++
      ',' :: (quotedLabel t ++ ',' :: ([' '] ++ Nat.toDigits 10 t.target))) =
      some (Nat.toDigits 10 t.source, quotedLabel t ++ ',' :: ([' '] ++ Nat.toDigits 10 t.target)) :=
    splitFirst?_eq_some_iff.2 ⟨rfl, hcomma _⟩
  have hlast : splitLast? ',' (quotedLabel t ++ ',' :: ([' '] ++ Nat.toDigits 10 t.target)) =
      some (quotedLabel t, [' '] ++ Nat.toDigits 10 t.target) :=
    splitLast?_eq_some_iff.2 ⟨rfl, by simp [hcomma]⟩
  have hblank : ∀ c ∈ [' '], isBlank c = true := List.forall_mem_singleton.2 rfl
  have hlabel : trim (quotedLabel t) = '"' :: (t.label.text.toList ++ ['"']) :=
    trim_blank_append hblank (by simp) rfl (by simp; rfl)
  have hsource := numeral?_trim [] nofun t.source
  rw [List.nil_append] at hsource
  simp only [transition?, htuple, hfirst, hlast, hlabel, hsource, numeral?_trim [' '] hblank,
    labelText?_quoted, Option.bind_eq_bind, Option.bind_some, Option.bind_eq_some_iff,
    Option.ite_none_left_eq_some, Option.ite_none_right_eq_some, Option.some.injEq,
    String.toList_eq_nil_iff]
  constructor
  · rintro ⟨_, ⟨hs, rfl⟩, _, ⟨ht, rfl⟩, _, ⟨hne, rfl⟩, rfl⟩
    exact ⟨by rw [String.ofList_toList], hs, ht, hne⟩
  · rintro ⟨rfl, hs, ht, hne⟩
    exact ⟨_, ⟨hs, rfl⟩, _, ⟨ht, rfl⟩, _, ⟨hne, rfl⟩, by rw [String.ofList_toList]⟩

/-! ## Counting lines -/

theorem content_append_newline (s t : List Char) :
    content (s ++ '\n' :: t) = content (s ++ ['\n']) ++ content t := by
  rw [content, lines_append_newline, List.filter_append, content, content]

/-- A text with a character that is no blank has a line that counts. -/
theorem length_content_pos {s : List Char} {c : Char} (hc : c ∈ s) (hblank : isBlank c = false) :
    0 < (content s).length := by
  have hnewline : c ≠ '\n' := by
    rintro rfl
    cases hblank
  have hreturn : c ≠ '\r' := by
    rintro rfl
    cases hblank
  obtain ⟨line, hline, hmem⟩ := exists_mem_lines hc hnewline hreturn
  have hne : trim line ≠ [] := fun h => by simp [trim_eq_nil_iff.1 h c hmem] at hblank
  exact List.length_pos_of_mem (List.mem_filter.2 ⟨hline, by simpa using hne⟩)

/-- A line that ends with a parenthesis counts. -/
theorem content_eq_singleton {s : List Char} (hs : '\n' ∉ s) (hlast : s.getLast? = some ')') :
    content (s ++ ['\n']) = [s] := by
  have hne : trim s ≠ [] := fun h =>
    absurd (trim_eq_nil_iff.1 h ')' (List.mem_of_getLast? hlast)) (by decide)
  rw [content, lines_eq_singleton hs (by simp [hlast])]
  simp [hne]

theorem content_writeHeader (m : TransitionSystem) :
    content (writeHeader m) = [headerLine (headerOf m)] := by
  have hdigits : ∀ n, '\n' ∉ Nat.toDigits 10 n := notMem_toDigits rfl
  rw [writeHeader_eq, content_eq_singleton]
  · simp [headerLine, hdigits]
  · exact List.getLast?_concat

/-- A transition whose label stays on its line fills one line. -/
theorem content_writeTransition {t : Transition} (h : '\n' ∉ t.label.text.toList) :
    content (writeTransition t) = [transitionLine t] := by
  have hdigits : ∀ n, '\n' ∉ Nat.toDigits 10 n := notMem_toDigits rfl
  rw [writeTransition_eq, content_eq_singleton]
  · simp [transitionLine, quotedLabel, hdigits, h]
  · exact List.getLast?_concat

theorem length_content_writeTransition_pos (t : Transition) :
    0 < (content (writeTransition t)).length :=
  length_content_pos (c := '(') (by simp [writeTransition]) rfl

/-- A label with a line feed makes its transition fill two lines at least: the first one begins with a
parenthesis, the last one ends with one. -/
theorem one_lt_length_content_writeTransition {t : Transition} (h : '\n' ∈ t.label.text.toList) :
    1 < (content (writeTransition t)).length := by
  obtain ⟨before, behind, hlabel⟩ := List.append_of_mem h
  have hsplit : writeTransition t = (['('] ++ Nat.toDigits 10 t.source ++ [',', ' ', '"'] ++ before) ++
      '\n' :: (behind ++ ['"', ',', ' '] ++ Nat.toDigits 10 t.target ++ [')', '\n']) := by
    simp [writeTransition, hlabel]
  rw [hsplit, content_append_newline, List.length_append]
  have hfirst := length_content_pos (c := '(') (s := (['('] ++ Nat.toDigits 10 t.source ++
    [',', ' ', '"'] ++ before) ++ ['\n']) (by simp) rfl
  have hlast := length_content_pos (c := ')') (s := behind ++ ['"', ',', ' '] ++
    Nat.toDigits 10 t.target ++ [')', '\n']) (by simp) rfl
  omega

theorem content_flatMap_writeTransition (ts : List Transition) :
    content (ts.flatMap writeTransition) = ts.flatMap fun t => content (writeTransition t) := by
  induction ts with
  | nil => rfl
  | cons t ts ih =>
    rw [List.flatMap_cons, List.flatMap_cons, ← ih, writeTransition_eq, List.append_assoc,
      List.singleton_append, content_append_newline]

theorem content_write (m : TransitionSystem) :
    content (write m) = headerLine (headerOf m) ::
      m.transitions.toList.flatMap fun t => content (writeTransition t) := by
  rw [write, ← content_flatMap_writeTransition, ← List.singleton_append, ← content_writeHeader,
    writeHeader_eq, List.append_assoc, List.singleton_append, content_append_newline]

/-- Where a label holds a line feed there are more lines than transitions. -/
theorem length_lt_length_flatMap_content {ts : List Transition} {t : Transition} (ht : t ∈ ts)
    (hlabel : '\n' ∈ t.label.text.toList) :
    ts.length < (ts.flatMap fun t => content (writeTransition t)).length := by
  have hlt : (ts.map fun _ => 1).sum < (ts.map fun t => (content (writeTransition t)).length).sum :=
    List.sum_lt_sum _ _ (fun u _ => length_content_writeTransition_pos u)
      ⟨t, ht, one_lt_length_content_writeTransition hlabel⟩
  rw [List.length_flatMap]
  simpa using hlt

theorem flatMap_content_eq {ts : List Transition} (h : ∀ t ∈ ts, '\n' ∉ t.label.text.toList) :
    (ts.flatMap fun t => content (writeTransition t)) = ts.map transitionLine := by
  rw [List.flatMap_congr fun t ht => content_writeTransition (h t ht)]
  exact List.map_eq_flatMap.symm

theorem map_transition?_eq_iff {us ts : List Transition} :
    (us.map transitionLine).map transition? = ts.map some ↔
      ts = us ∧ ∀ t ∈ us, t.source < numeralBound ∧ t.target < numeralBound ∧ t.label.text ≠ "" := by
  induction us generalizing ts with
  | nil => simp
  | cons u us ih =>
    cases ts with
    | nil => simp
    | cons t ts =>
      simp only [List.map_cons, List.cons.injEq, transition?_transitionLine, ih, List.forall_mem_cons]
      constructor
      · rintro ⟨⟨rfl, hu⟩, rfl, hus⟩
        exact ⟨⟨rfl, rfl⟩, hu, hus⟩
      · rintro ⟨⟨rfl, rfl⟩, hu, hus⟩
        exact ⟨⟨rfl, hu⟩, rfl, hus⟩

/-! ## Reading what was written -/

/-- What is written reads back exactly if it declares a state and numbers that fit, and its labels are
not empty and stay on their lines; it is then built again, without names. -/
theorem read_write_eq_ok_iff {tag : Nat} {m m' : TransitionSystem} :
    read tag (write m) = .ok m' ↔
      (m.numStates ≤ Blueprint.capacity ∧ m.numTransitions < numeralBound) ∧ 0 < m.numStates ∧
      (∀ t ∈ m.transitions, t.label.text ≠ "" ∧ '\n' ∉ t.label.text.toList) ∧
      ((headerOf m).blueprint m.transitions.toList).build tag = .ok m' := by
  rw [read_eq_ok_iff, content_write]
  constructor
  · rintro ⟨first, body, h, ts, hcontent, hheader, hbody, hlength, ⟨hpos, hroom⟩, hbuild⟩
    obtain ⟨rfl, rfl⟩ := List.cons.inj hcontent
    obtain ⟨rfl, -, htransitions, -⟩ := header?_headerLine.1 hheader
    have hcount : (m.transitions.toList.flatMap fun t => content (writeTransition t)).length =
        m.transitions.toList.length := by
      calc _ = ts.length := by simpa using congrArg List.length hbody
        _ = m.transitions.toList.length := hlength
    have hline : ∀ t ∈ m.transitions.toList, '\n' ∉ t.label.text.toList := fun t ht hmem => by
      have := length_lt_length_flatMap_content ht hmem
      omega
    rw [flatMap_content_eq hline, map_transition?_eq_iff] at hbody
    obtain ⟨rfl, hlabels⟩ := hbody
    refine ⟨⟨hroom, htransitions⟩, hpos, fun t ht => ?_, hbuild⟩
    have ht := Array.mem_toList_iff.2 ht
    exact ⟨(hlabels t ht).2.2, hline t ht⟩
  · rintro ⟨⟨hroom, htransitions⟩, hpos, hlabels, hbuild⟩
    have hstates : m.numStates < numeralBound := hroom.trans_lt capacity_lt_numeralBound
    obtain ⟨hinitial, hinside⟩ := Header.inside_of_build hbuild
    refine ⟨_, _, headerOf m, m.transitions.toList, rfl, header?_headerLine.2 ⟨rfl, ?_⟩, ?_, rfl,
      ⟨hpos, hroom⟩, hbuild⟩
    · exact ⟨(hinitial hpos).trans hstates, htransitions, hstates⟩
    · rw [flatMap_content_eq fun t ht => (hlabels t (Array.mem_toList_iff.1 ht)).2,
        map_transition?_eq_iff]
      refine ⟨rfl, fun t ht => ?_⟩
      obtain ⟨hsource, htarget⟩ := hinside t ht
      exact ⟨hsource.trans hstates, htarget.trans hstates, (hlabels t (Array.mem_toList_iff.1 ht)).1⟩

/-- A system that was read is built from what it declares. -/
theorem headerOf_of_build {tag : Nat} {h : Header} {ts : List Transition} {m : TransitionSystem}
    (hlength : ts.length = h.numTransitions) (hbuild : (h.blueprint ts).build tag = .ok m) :
    headerOf m = h ∧ m.transitions.toList = ts := by
  obtain ⟨hstates, htransitions, -⟩ := Blueprint.build_eq_ok hbuild
  have hinitial := (Blueprint.initial_of_build hbuild).1
  rw [Header.numStates_blueprint] at hstates
  have hts : m.transitions.toList = ts := by rw [htransitions]; rfl
  have hcount : m.numTransitions = h.numTransitions := by
    rw [← hlength, ← hts]
    rfl
  refine ⟨?_, hts⟩
  rw [headerOf, hstates, hcount, hinitial]
  rfl

/-- A system that was read reads back from its own text. -/
theorem read_write_of_read {tag : Nat} {s : List Char} {m : TransitionSystem}
    (h : read tag s = .ok m) : read tag (write m) = .ok m := by
  obtain ⟨first, body, h, ts, hcontent, hheader, hbody, hlength, ⟨hpos, hroom⟩, hbuild⟩ :=
    read_eq_ok_iff.1 h
  obtain ⟨rfl, rfl⟩ := headerOf_of_build hlength hbuild
  refine read_write_eq_ok_iff.2 ⟨⟨hroom, lt_of_header?_eq_some hheader⟩, hpos, fun t ht => ?_, hbuild⟩
  have hmem : some t ∈ body.map transition? := by
    rw [hbody]
    exact List.mem_map_of_mem (Array.mem_toList_iff.2 ht)
  obtain ⟨line, hline, htransition⟩ := List.mem_map.1 hmem
  have hcounts : line ∈ content s := by rw [hcontent]; exact List.mem_cons_of_mem _ hline
  exact label_of_transition?_eq_some htransition
    (newline_notMem_of_mem_lines (List.mem_filter.1 hcounts).1)

/-- A system that was built can be built again without its names. -/
theorem exists_build_headerOf {b : Blueprint} {tag : Nat} {m : TransitionSystem}
    (hm : b.build tag = .ok m) (tag' : Nat) :
    ∃ m', ((headerOf m).blueprint m.transitions.toList).build tag' = .ok m' := by
  obtain ⟨hstates, -, hindexed⟩ := Blueprint.build_eq_ok hm
  obtain ⟨hinitial, hlt⟩ := Blueprint.initial_of_build hm
  rw [← hstates, ← hinitial] at hlt
  refine Blueprint.exists_build_eq_ok ?_ (fun t ht => ?_) tag'
  · rw [Header.numStates_blueprint]
    exact hlt
  · rw [Header.numStates_blueprint]
    exact hindexed.inside t (by simpa [Header.blueprint] using ht)

/-- There is no room for the states of a system that is too large, whatever its transitions are. -/
theorem read_write_of_capacity_lt {b : Blueprint} {tag : Nat} {m : TransitionSystem}
    (hm : b.build tag = .ok m) (hstates : m.numStates < numeralBound)
    (htransitions : m.numTransitions < numeralBound) (hlarge : Blueprint.capacity < m.numStates)
    (tag' : Nat) : read tag' (write m) = .error (.fault .capacityOverflow) := by
  obtain ⟨hnum, -, -⟩ := Blueprint.build_eq_ok hm
  obtain ⟨hinitial, hlt⟩ := Blueprint.initial_of_build hm
  rw [← hnum, ← hinitial] at hlt
  have hlt : m.initial < m.numStates := hlt (by omega)
  obtain ⟨first, body, hlines, hfirst, -⟩ := List.map_eq_cons_iff.1
    ((map_fst_numberedLines (write m)).trans (content_write m))
  have hheader : header? first.1 = some (headerOf m) := by
    rw [hfirst]
    exact header?_headerLine.2 ⟨rfl, hlt.trans hstates, htransitions, hstates⟩
  refine read_eq_fault_iff.2 ⟨headerOf m, body, readHeader_eq_ok_iff.2 ⟨first, hlines, hheader⟩, ?_⟩
  exact ⟨hlt, hlarge, rfl⟩

/-- What is written reads back exactly if the system has a state and every label has a character and
no line feed, and then as the same system but for the names of its states. The counts in the header are
numbers of 64 bits, and there is room for the states; without it reading ends in the fault. A system that
was read reads back as it is. -/
theorem read_write :
    (∀ {b : Blueprint} {tag : Nat} {m : TransitionSystem}, b.build tag = .ok m →
      m.numStates < numeralBound → m.numTransitions < numeralBound → ∀ tag' : Nat,
      (m.numStates ≤ Blueprint.capacity → ((∃ m', read tag' (write m) = .ok m') ↔
        0 < m.numStates ∧ ∀ t ∈ m.transitions, t.label.text ≠ "" ∧ '\n' ∉ t.label.text.toList)) ∧
      (Blueprint.capacity < m.numStates → read tag' (write m) = .error (.fault .capacityOverflow)) ∧
      ∀ m', read tag' (write m) = .ok m' →
        m'.numStates = m.numStates ∧ m'.initial = m.initial ∧ m'.transitions = m.transitions) ∧
    ∀ {tag : Nat} {s : List Char} {m : TransitionSystem},
      read tag s = .ok m → read tag (write m) = .ok m := by
  refine ⟨fun {b tag m} hm hstates htransitions tag' => ⟨fun hroom => ⟨?_, ?_⟩, ?_, ?_⟩,
    read_write_of_read⟩
  · rintro ⟨m', hm'⟩
    obtain ⟨-, hpos, hlabels, -⟩ := read_write_eq_ok_iff.1 hm'
    exact ⟨hpos, hlabels⟩
  · rintro ⟨hpos, hlabels⟩
    obtain ⟨m', hbuild⟩ := exists_build_headerOf hm tag'
    exact ⟨m', read_write_eq_ok_iff.2 ⟨⟨hroom, htransitions⟩, hpos, hlabels, hbuild⟩⟩
  · exact fun hlarge => read_write_of_capacity_lt hm hstates htransitions hlarge tag'
  · intro m' hm'
    obtain ⟨-, -, -, hbuild⟩ := read_write_eq_ok_iff.1 hm'
    obtain ⟨hheader, hlist⟩ := headerOf_of_build rfl hbuild
    exact ⟨congrArg Header.numStates hheader, congrArg Header.initial hheader,
      Array.toList_inj.1 hlist⟩

/-- Labels made of quotes, commas, parentheses and blanks read back, also with a carriage return at the
end. A label that imitates the end of its line and a second line does not. A label that is read without
quotes is written with them. -/
theorem read_write_delimiters :
    (∃ m, (Blueprint.mk #[none, none] 1
        #[⟨0, ⟨"\""⟩, 1⟩, ⟨1, ⟨" , )\","⟩, 0⟩, ⟨1, ⟨"(0, \"\r"⟩, 1⟩]).build 0 = .ok m ∧
      m.numStates < numeralBound ∧ m.numTransitions < numeralBound ∧
      m.numStates ≤ Blueprint.capacity ∧ ∃ m', read 1 (write m) = .ok m' ∧ m'.transitions = m.transitions) ∧
    (∃ m, (Blueprint.mk #[none, none] 0 #[⟨0, ⟨"a\", 1)\n(0, \"b"⟩, 1⟩]).build 0 = .ok m ∧
      m.numStates < numeralBound ∧ m.numTransitions < numeralBound ∧
      m.numStates ≤ Blueprint.capacity ∧ ¬∃ m', read 1 (write m) = .ok m') ∧
    ∃ r, read 0 "des (0, 1, 1)\n(0, a\" , 0)".toList = .ok r ∧ read 0 (write r) = .ok r := by
  refine ⟨?_, ?_, ?_⟩
  · obtain ⟨m, hm, hstates, htransitions, hroom, hwritable⟩ : ∃ m, (Blueprint.mk #[none, none] 1
        #[⟨0, ⟨"\""⟩, 1⟩, ⟨1, ⟨" , )\","⟩, 0⟩, ⟨1, ⟨"(0, \"\r"⟩, 1⟩]).build 0 = .ok m ∧
        m.numStates < numeralBound ∧ m.numTransitions < numeralBound ∧
        m.numStates ≤ Blueprint.capacity ∧ 0 < m.numStates ∧
        ∀ t ∈ m.transitions, t.label.text ≠ "" ∧ '\n' ∉ t.label.text.toList :=
      ⟨_, rfl, by decide, by decide, by decide, by decide, by decide +kernel⟩
    obtain ⟨hiff, -, hsame⟩ := read_write.1 hm hstates htransitions 1
    obtain ⟨m', hm'⟩ := (hiff hroom).2 hwritable
    exact ⟨m, hm, hstates, htransitions, hroom, m', hm', (hsame m' hm').2.2⟩
  · obtain ⟨m, hm, hstates, htransitions, hroom, hlabels⟩ : ∃ m, (Blueprint.mk #[none, none] 0
        #[⟨0, ⟨"a\", 1)\n(0, \"b"⟩, 1⟩]).build 0 = .ok m ∧ m.numStates < numeralBound ∧
        m.numTransitions < numeralBound ∧ m.numStates ≤ Blueprint.capacity ∧
        ¬∀ t ∈ m.transitions, t.label.text ≠ "" ∧ '\n' ∉ t.label.text.toList :=
      ⟨_, rfl, by decide, by decide, by decide, by decide +kernel⟩
    refine ⟨m, hm, hstates, htransitions, hroom, fun hread => hlabels ?_⟩
    exact (((read_write.1 hm hstates htransitions 1).1 hroom).1 hread).2
  · obtain ⟨r, hr⟩ : ∃ r, read 0 "des (0, 1, 1)\n(0, a\" , 0)".toList = .ok r := ⟨_, rfl⟩
    exact ⟨r, hr, read_write.2 hr⟩

end Aut

end ModalMu
