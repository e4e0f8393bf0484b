import ModalMu.Proofs.AutRoundTrip
import ModalMu.Proofs.PlainSets
import ModalMu.Proofs.SelfDelimiting
import ModalMu.TransitionSystem.Dot

/-!
# Drawings tell what they draw

A drawing is the text of a `Picture`: nodes, perhaps a state to start in, and edges. Each piece of the text
can be told from what follows it (`SelfDelimiting`), a name because every quote inside it has a backslash in
front, a number because it ends before a blank. Hence the text tells the picture (`Picture.text_inj`), and
the picture of a system tells its states, names, transitions and highlighted states (`write_faithful`). No
rule is needed for the shape and the colour, which are the same in both texts.
-/

namespace ModalMu

namespace Dot

open Text (SelfDelimiting toDigits_append_inj)

/-! ## Texts in quotes -/

/-- What becomes of a character inside quotes. -/
def escapeChar (c : Char) : List Char :=
  if c = '\\' then ['\\', '\\'] else if c = '"' then ['\\', '"'] else [c]

/-- The two steps come to one, because the first one brings in no quotes. -/
theorem escape_eq_flatMap (s : List Char) : escape s = s.flatMap escapeChar := by
  rw [escape, replace, replace, List.flatMap_assoc]
  congr 1
  funext c
  unfold escapeChar
  by_cases hc : c = '\\'
  · rw [if_pos hc, if_pos hc]
    rfl
  · rw [if_neg hc, if_neg hc, List.flatMap_singleton]

theorem escapeChar_selfDelimiting : SelfDelimiting escapeChar := by
  intro c d u v h
  unfold escapeChar at h
  grind

theorem escapeChar_append_ne_quote (c : Char) (u v : List Char) : escapeChar c ++ u ≠ '"' :: v := by
  unfold escapeChar
  grind

/-- A text in quotes ends at the first quote that no escape belongs to. -/
theorem quoted_selfDelimiting : SelfDelimiting fun s : List Char => escape s ++ ['"'] := by
  intro s t u v h
  simp only [escape_eq_flatMap, List.append_assoc, List.singleton_append] at h
  obtain ⟨rfl, hrest⟩ := escapeChar_selfDelimiting.flatMap (fun c _ => escapeChar_append_ne_quote c _ _)
    (fun c _ => escapeChar_append_ne_quote c _ _) h
  exact ⟨rfl, (List.cons.inj hrest).2⟩

theorem labelAttribute_selfDelimiting : SelfDelimiting labelAttribute := by
  intro a b u v h
  unfold labelAttribute at h
  simp only [List.append_assoc] at h
  have h' := List.append_cancel_left h
  rw [← List.append_assoc, ← List.append_assoc] at h'
  obtain ⟨hab, huv⟩ := quoted_selfDelimiting h'
  exact ⟨String.toList_inj.1 hab, huv⟩

/-! ## Nodes and edges -/

/-- What a node shows of a state. -/
structure Node where
  id : Nat
  name : String
  filled : Bool
  marked : Bool
deriving DecidableEq

/-- The line for a node. -/
def Node.text (color : List Char) (n : Node) : List Char :=
  Nat.toDigits 10 n.id ++ " [".toList ++ labelAttribute n.name ++
    (if n.filled then ", style=filled, fillcolor=".toList ++ color else []) ++
    (if n.marked then ", peripheries=2".toList else []) ++ "];\n".toList

/-- The last attribute tells whether a node is marked. -/
theorem mark_append_inj {marked marked' : Bool} {u v : List Char}
    (h : (if marked then ", peripheries=2".toList else []) ++ ("];\n".toList ++ u) =
      (if marked' then ", peripheries=2".toList else []) ++ ("];\n".toList ++ v)) :
    marked = marked' ∧ u = v := by
  cases marked <;> cases marked' <;> simp_all

/-- No other attribute begins as the one for filled nodes does. -/
theorem fill_append_ne_mark_append (marked : Bool) (u v : List Char) :
    ", style=filled, fillcolor=".toList ++ u ≠
      (if marked then ", peripheries=2".toList else []) ++ ("];\n".toList ++ v) := by
  intro h
  -- All attributes begin with a comma and a blank, so the third character is the first to tell.
  have hthird : ", s".toList = ((if marked then ", peripheries=2".toList else []) ++
      ("];\n".toList ++ v)).take 3 := by
    rw [← h]
    rfl
  cases marked with
  | false => exact absurd (show ", s".toList = "];\n".toList from hthird) (by decide)
  | true => exact absurd (show ", s".toList = ", p".toList from hthird) (by decide)

/-- What follows the name of a node tells whether it is filled, whatever the colour. -/
theorem fill_append_inj {color : List Char} {filled filled' marked marked' : Bool} {u v : List Char}
    (h : (if filled then ", style=filled, fillcolor=".toList ++ color else []) ++
        ((if marked then ", peripheries=2".toList else []) ++ ("];\n".toList ++ u)) =
      (if filled' then ", style=filled, fillcolor=".toList ++ color else []) ++
        ((if marked' then ", peripheries=2".toList else []) ++ ("];\n".toList ++ v))) :
    filled = filled' ∧ marked = marked' ∧ u = v := by
  cases filled with
  | false =>
    cases filled' with
    | false => exact ⟨rfl, mark_append_inj h⟩
    | true => exact absurd (List.append_assoc .. ▸ h.symm) (fill_append_ne_mark_append marked _ u)
  | true =>
    cases filled' with
    | false => exact absurd (List.append_assoc .. ▸ h) (fill_append_ne_mark_append marked' _ v)
    | true => exact ⟨rfl, mark_append_inj (List.append_cancel_left h)⟩

theorem Node.text_selfDelimiting (color : List Char) : SelfDelimiting (Node.text color) := by
  rintro ⟨i, name, filled, marked⟩ ⟨j, name', filled', marked'⟩ u v h
  unfold Node.text at h
  simp only [List.append_assoc] at h
  obtain ⟨rfl, -, hlabel⟩ := toDigits_append_inj rfl rfl h
  obtain ⟨rfl, hfill⟩ := labelAttribute_selfDelimiting (List.cons.inj hlabel).2
  obtain ⟨rfl, rfl, huv⟩ := fill_append_inj hfill
  exact ⟨rfl, huv⟩

theorem edge_selfDelimiting : SelfDelimiting edge := by
  rintro ⟨i, a, j⟩ ⟨i', b, j'⟩ u v h
  unfold edge at h
  simp only [List.append_assoc] at h
  obtain ⟨rfl, -, harrow⟩ := toDigits_append_inj rfl rfl h
  have htarget := List.append_cancel_left (show "-> ".toList ++ _ = "-> ".toList ++ _ from harrow)
  obtain ⟨rfl, -, hlabel⟩ := toDigits_append_inj rfl rfl htarget
  obtain ⟨hab, hend⟩ := labelAttribute_selfDelimiting (List.cons.inj hlabel).2
  obtain rfl : a = b := congrArg Label.mk hab
  exact ⟨rfl, List.append_cancel_left hend⟩

theorem toDigits_append_ne_cons {d : Char} (hd : d.isDigit = false) (n : Nat) (u v : List Char) :
    Nat.toDigits 10 n ++ u ≠ d :: v := by
  cases hn : Nat.toDigits 10 n with
  | nil => exact absurd hn Nat.toDigits_ne_nil
  | cons c cs =>
    intro h
    have hc : d ∈ Nat.toDigits 10 n := by
      rw [hn, ← (List.cons.inj h).1]
      exact List.mem_cons_self
    exact Aut.notMem_toDigits hd n hc

theorem Node.text_append_ne_cons {d : Char} (hd : d.isDigit = false) (color : List Char) (n : Node)
    (u v : List Char) : n.text color ++ u ≠ d :: v := by
  unfold Node.text
  simp only [List.append_assoc]
  exact toDigits_append_ne_cons hd n.id _ v

theorem edge_append_ne_cons {d : Char} (hd : d.isDigit = false) (t : Transition) (u v : List Char) :
    edge t ++ u ≠ d :: v := by
  unfold edge
  simp only [List.append_assoc]
  exact toDigits_append_ne_cons hd t.source _ v

theorem Node.text_append_ne_edge_append (color : List Char) (n : Node) (t : Transition) (u v : List Char) :
    n.text color ++ u ≠ edge t ++ v := by
  intro h
  unfold Node.text edge at h
  simp only [List.append_assoc] at h
  obtain ⟨-, -, harrow⟩ := toDigits_append_inj rfl rfl h
  exact absurd (List.cons.inj harrow).1 (by decide)

/-- The line that points to the state to start in. -/
def arrow (i : Nat) : List Char := "init -> ".toList ++ Nat.toDigits 10 i ++ ";\n".toList

theorem arrow_selfDelimiting : SelfDelimiting arrow := by
  intro i j u v h
  unfold arrow at h
  simp only [List.append_assoc] at h
  obtain ⟨rfl, -, huv⟩ := toDigits_append_inj rfl rfl (List.append_cancel_left h)
  exact ⟨rfl, (List.cons.inj huv).2⟩

theorem Node.text_append_ne_arrow_append (color : List Char) (n : Node) (i : Nat) (u v : List Char) :
    n.text color ++ u ≠ arrow i ++ v := n.text_append_ne_cons rfl color u ("nit -> ".toList ++
      Nat.toDigits 10 i ++ ";\n".toList ++ v)

/-! ## Pictures -/

/-- What a drawing shows: the nodes, the state that `init` points to, and the edges. -/
@[ext]
structure Picture where
  nodes : List Node
  start : Option Nat
  edges : List Transition
deriving DecidableEq

/-- The end of a drawing: the edges and the last line. -/
def ending (ts : List Transition) : List Char := ts.flatMap edge ++ "\x7d\n".toList

theorem ending_inj {ts us : List Transition} (h : ending ts = ending us) : ts = us :=
  (edge_selfDelimiting.flatMap (fun t _ => edge_append_ne_cons rfl t _ _)
    (fun t _ => edge_append_ne_cons rfl t _ _) h).1

theorem Node.text_append_ne_ending (color : List Char) (n : Node) (u : List Char) (ts : List Transition) :
    n.text color ++ u ≠ ending ts := by
  unfold ending
  cases ts with
  | nil => exact n.text_append_ne_cons rfl color u _
  | cons t ts =>
    rw [List.flatMap_cons, List.append_assoc]
    exact n.text_append_ne_edge_append color t u _

theorem ending_ne_cons {d : Char} (hd : d.isDigit = false) (hbrace : d ≠ '\x7d') (ts : List Transition)
    (u : List Char) : ending ts ≠ d :: u := by
  unfold ending
  cases ts with
  | nil => exact fun h => hbrace (List.cons.inj h).1.symm
  | cons t ts =>
    rw [List.flatMap_cons, List.append_assoc]
    exact edge_append_ne_cons hd t _ u

namespace Picture

/-- The lines before the nodes, which hold nothing of the system. -/
def head (style : DotStyle) : List Char :=
  "digraph \x7b\n".toList ++ (if style.leftToRight then "rankdir=LR;\n".toList else []) ++
    "node [shape=".toList ++ style.nodeShape.toList ++ "];\n".toList

/-- The line for the invisible node that points to the state to start in. -/
def origin : List Char := "init [shape=point, style=invis];\n".toList

/-- What follows the head. -/
def body (color : List Char) : Picture → List Char
  | ⟨nodes, none, edges⟩ => nodes.flatMap (Node.text color) ++ ending edges
  | ⟨nodes, some i, edges⟩ => origin ++ (nodes.flatMap (Node.text color) ++ (arrow i ++ ending edges))

def text (style : DotStyle) (p : Picture) : List Char :=
  head style ++ p.body style.highlightColor.toList

/-- A picture without a state to start in does not begin as one with such a state does. -/
theorem body_none_ne_body_some (color : List Char) (ns ns' : List Node) (ts us : List Transition)
    (i : Nat) : body color ⟨ns, none, ts⟩ ≠ body color ⟨ns', some i, us⟩ := by
  cases ns with
  | nil => exact ending_ne_cons rfl (by decide) ts _
  | cons n ns =>
    have hbody : body color ⟨n :: ns, none, ts⟩ =
      n.text color ++ (ns.flatMap (Node.text color) ++ ending ts) := List.append_assoc ..
    rw [hbody]
    exact n.text_append_ne_cons rfl color _ _

theorem body_inj {color : List Char} {p q : Picture} (h : p.body color = q.body color) : p = q := by
  obtain ⟨ns, i, ts⟩ := p
  obtain ⟨ns', j, us⟩ := q
  have hnode := Node.text_selfDelimiting color
  cases i with
  | none =>
    cases j with
    | none =>
      obtain ⟨rfl, hend⟩ := hnode.flatMap (fun n u => n.text_append_ne_ending color u _)
        (fun n u => n.text_append_ne_ending color u _) h
      rw [ending_inj hend]
    | some j => exact absurd h (body_none_ne_body_some color ns ns' ts us j)
  | some i =>
    cases j with
    | none => exact absurd h.symm (body_none_ne_body_some color ns' ns us ts i)
    | some j =>
      obtain ⟨rfl, harrow⟩ := hnode.flatMap (fun n u => n.text_append_ne_arrow_append color i u _)
        (fun n u => n.text_append_ne_arrow_append color j u _) (List.append_cancel_left h)
      obtain ⟨rfl, hend⟩ := arrow_selfDelimiting harrow
      rw [ending_inj hend]

/-- The text of a picture tells all of it. -/
theorem text_inj {style : DotStyle} {p q : Picture} (h : p.text style = q.text style) : p = q :=
  body_inj (List.append_cancel_left h)

/-- All lines in turn. -/
theorem text_mk (style : DotStyle) (ns : List Node) (marked : Bool) (i : Nat) (ts : List Transition) :
    text style ⟨ns, if marked then some i else none, ts⟩ = head style ++
      (if marked then origin else []) ++ (ns.map (Node.text style.highlightColor.toList)).flatten ++
      (if marked then arrow i else []) ++ ts.flatMap edge ++ "\x7d\n".toList := by
  cases marked with
  | false =>
    simp only [if_neg Bool.false_ne_true, text, body, ending, List.append_assoc, List.nil_append,
      List.flatMap_def]
  | true => simp only [if_true, text, body, ending, List.append_assoc, List.flatMap_def]

end Picture

/-! ## The picture of a system -/

/-- The states to fill, which are none if no set is given. -/
def highlighted (highlight : Option StateSet) : List Nat := highlight.elim [] StateSet.members

def Node.ofState (style : DotStyle) (initial : Nat) (highlight : Option StateSet) (s : State) : Node where
  id := s.id
  name := s.name
  filled := decide (s.id ∈ highlighted highlight)
  marked := style.markInitial && s.id == initial

def picture (style : DotStyle) (m : TransitionSystem) (highlight : Option StateSet) : Picture where
  nodes := m.carrier.states.toList.map (Node.ofState style m.initial highlight)
  start := if style.markInitial && 0 < m.numStates then some m.initial else none
  edges := m.transitions.toList

section Built

variable {b : Blueprint} {tag : Nat} {m : TransitionSystem} {highlight : Option StateSet}

theorem isHighlighted_eq_ok (hh : ∀ set ∈ highlight, set.Over m.carrier) {s : State}
    (hs : s.id < m.numStates) :
    isHighlighted highlight s = .ok (decide (s.id ∈ highlighted highlight)) := by
  cases highlight with
  | none => rfl
  | some set =>
    have hover : set.Over m.carrier := hh set rfl
    have hshows : set.Shows set.plain := StateSet.Over.shows (hover.carrier.symm ▸ hover)
    have hlt : s.id < set.plain.carrier.size := by
      rw [StateSet.carrier_plain, hover.carrier]
      exact hs
    rw [isHighlighted, hshows.contains_of_lt hlt]
    exact congrArg Except.ok (decide_eq_decide.2 List.mem_toFinset)

/-- The states to fill, as numbers of states. -/
theorem highlighted_eq_filter (hh : ∀ set ∈ highlight, set.Over m.carrier) :
    highlighted highlight = (List.range m.numStates).filter (· ∈ highlighted highlight) := by
  cases highlight with
  | none => simp [highlighted]
  | some set =>
    have hover : set.Over m.carrier := hh set rfl
    have hwidth : set.bits.width = m.numStates := hover.width
    show set.bits.members = (List.range m.numStates).filter (· ∈ set.bits.members)
    conv_lhs => rw [Bitmap.members_eq hover.wellFormed, hwidth]
    apply List.filter_congr
    intro i hi
    rw [Bool.eq_iff_iff, decide_eq_true_iff, Bitmap.mem_members hover.wellFormed, hwidth]
    exact ⟨fun htest => ⟨List.mem_range.1 hi, htest⟩, fun htest => htest.2⟩

theorem id_eq_of_build (hm : b.build tag = .ok m) {i : Nat} {s : State}
    (hs : m.carrier.states[i]? = some s) : s.id = i := by
  rw [Blueprint.getElem?_states_of_build hm] at hs
  obtain ⟨name, -, rfl⟩ := Option.map_eq_some_iff.1 hs
  rfl

theorem id_lt_of_build (hm : b.build tag = .ok m) {s : State} (hs : s ∈ m.carrier.states.toList) :
    s.id < m.numStates := by
  obtain ⟨i, hi⟩ := List.getElem?_of_mem hs
  rw [Array.getElem?_toList] at hi
  rw [id_eq_of_build hm hi]
  exact (Array.getElem?_eq_some_iff.1 hi).1

/-- The nodes are written as the picture has them. -/
theorem nodes_eq_ok (style : DotStyle) (hm : b.build tag = .ok m)
    (hh : ∀ set ∈ highlight, set.Over m.carrier) :
    nodes style m highlight =
      .ok ((picture style m highlight).nodes.map (Node.text style.highlightColor.toList)) := by
  rw [nodes, mapM_eq_ok_iff, picture, List.map_map, List.forall₂_map_right_iff, List.forall₂_same]
  intro s hs
  rw [isHighlighted_eq_ok hh (id_lt_of_build hm hs)]
  rfl

theorem write_eq_ok (style : DotStyle) (hm : b.build tag = .ok m)
    (hh : ∀ set ∈ highlight, set.Over m.carrier) :
    write style m highlight = .ok ((picture style m highlight).text style) := by
  have hsame : highlight.all (·.carrier.same m.carrier) = true := by
    cases highlight with
    | none => rfl
    | some set => simp [(hh set rfl).carrier, Universe.same]
  unfold write
  rw [if_pos hsame, nodes_eq_ok style hm hh]
  exact congrArg Except.ok (Picture.text_mk style _ _ m.initial m.transitions.toList).symm

/-- The names of the states, in the order of their numbers. -/
def stateNames (m : TransitionSystem) : List String := m.carrier.states.toList.map State.name

theorem map_name_nodes (style : DotStyle) (m : TransitionSystem) (highlight : Option StateSet) :
    (picture style m highlight).nodes.map Node.name = stateNames m := List.map_map

theorem length_stateNames (m : TransitionSystem) : (stateNames m).length = m.numStates := by
  simp [stateNames, TransitionSystem.numStates, Universe.size]

/-- A system that was built shows its states with their numbers in order. -/
theorem nodes_picture (style : DotStyle) (hm : b.build tag = .ok m) (highlight : Option StateSet) :
    (picture style m highlight).nodes = (stateNames m).mapIdx fun i name =>
      ⟨i, name, decide (i ∈ highlighted highlight), style.markInitial && i == m.initial⟩ := by
  apply List.ext_getElem?
  intro i
  simp only [picture, stateNames, List.getElem?_mapIdx, List.getElem?_map, Array.getElem?_toList]
  cases hs : m.carrier.states[i]? with
  | none => rfl
  | some s => simp [Node.ofState, id_eq_of_build hm hs]

theorem filled_nodes (style : DotStyle) (hm : b.build tag = .ok m) (highlight : Option StateSet) {i : Nat}
    (hi : i < m.numStates) :
    (picture style m highlight).nodes[i]?.map Node.filled = some (decide (i ∈ highlighted highlight)) := by
  rw [← length_stateNames] at hi
  simp [nodes_picture style hm, hi]

end Built

section Compare

variable {b b' : Blueprint} {tag tag' : Nat} {m m' : TransitionSystem}
  {highlight highlight' : Option StateSet}

/-- Two pictures are the same exactly if the systems are, as far as a drawing goes. -/
theorem picture_eq_picture_iff (style : DotStyle) (hm : b.build tag = .ok m) (hm' : b'.build tag' = .ok m')
    (hh : ∀ set ∈ highlight, set.Over m.carrier) (hh' : ∀ set ∈ highlight', set.Over m'.carrier) :
    picture style m highlight = picture style m' highlight' ↔
      m.numStates = m'.numStates ∧ stateNames m = stateNames m' ∧
      highlighted highlight = highlighted highlight' ∧ m.transitions = m'.transitions ∧
      (style.markInitial = true → 0 < m.numStates → m.initial = m'.initial) := by
  constructor
  · intro h
    obtain ⟨hnodes, hstart, hedges⟩ := Picture.mk.inj h
    have hnames : stateNames m = stateNames m' := by
      rw [← map_name_nodes style m highlight, h, map_name_nodes]
    have hnum : m.numStates = m'.numStates := by
      rw [← length_stateNames, hnames, length_stateNames]
    refine ⟨hnum, hnames, ?_, Array.toList_inj.1 hedges, ?_⟩
    · rw [highlighted_eq_filter hh, highlighted_eq_filter hh', ← hnum]
      apply List.filter_congr
      intro i hi
      have hi : i < m.numStates := List.mem_range.1 hi
      have hfilled := filled_nodes style hm highlight hi
      rw [h, filled_nodes style hm' highlight' (hnum ▸ hi)] at hfilled
      exact (Option.some.inj hfilled).symm
    · intro hmark hpos
      simpa [hmark, hpos, ← hnum] using hstart
  · rintro ⟨hnum, hnames, hfilled, hedges, hinitial⟩
    have hnodes := nodes_picture style hm highlight
    have hnodes' := nodes_picture style hm' highlight'
    rw [← hnames, ← hfilled] at hnodes'
    have hstart : style.markInitial = false ∨ m.numStates = 0 ∨ m.initial = m'.initial := by
      cases hmark : style.markInitial with
      | false => exact .inl rfl
      | true => exact .inr ((Nat.eq_zero_or_pos _).imp_right (hinitial hmark))
    have hedges : (picture style m highlight).edges = (picture style m' highlight').edges :=
      congrArg Array.toList hedges
    rw [Picture.ext_iff, hnodes, hnodes']
    rcases hstart with hmark | hzero | hinitial
    · exact ⟨by simp [hmark], by simp [picture, hmark], hedges⟩
    · have hempty : stateNames m = [] := List.eq_nil_of_length_eq_zero (length_stateNames m ▸ hzero)
      exact ⟨by simp [hempty], by simp [picture, hzero, ← hnum], hedges⟩
    · exact ⟨by rw [hinitial], by simp [picture, hinitial, hnum], hedges⟩

/-- A drawing tells what it draws. Whatever shape and colour are asked for and whatever stands in names and
labels, two systems give the same text exactly if they have the same states, names, highlighted states and
transitions, and the same state to start in if that is drawn. -/
theorem write_faithful (style : DotStyle) (hm : b.build tag = .ok m) (hm' : b'.build tag' = .ok m')
    (hh : ∀ set ∈ highlight, set.Over m.carrier) (hh' : ∀ set ∈ highlight', set.Over m'.carrier) :
    ∃ text text', write style m highlight = .ok text ∧ write style m' highlight' = .ok text' ∧
      (text = text' ↔ m.numStates = m'.numStates ∧ stateNames m = stateNames m' ∧
        highlighted highlight = highlighted highlight' ∧ m.transitions = m'.transitions ∧
        (style.markInitial = true → 0 < m.numStates → m.initial = m'.initial)) := by
  refine ⟨_, _, write_eq_ok style hm hh, write_eq_ok style hm' hh', ?_⟩
  rw [← picture_eq_picture_iff style hm hm' hh hh']
  exact ⟨Picture.text_inj, congrArg (Picture.text style)⟩

/-- A filled state is told from one whose name reads like the attributes of a filled one. -/
theorem write_faithful_disguise : ∃ m m' text text',
    (⟨#[some "a"], 0, #[]⟩ : Blueprint).build 0 = .ok m ∧
    (⟨#[some "a\", style=filled, fillcolor=red"], 0, #[]⟩ : Blueprint).build 1 = .ok m' ∧
    write ⟨"box", "red\"", false, true⟩ m (some (StateSet.all m.carrier)) = .ok text ∧
    write ⟨"box", "red\"", false, true⟩ m' none = .ok text' ∧ text ≠ text' := by
  have hbuild : (⟨#[some "a"], 0, #[]⟩ : Blueprint).build 0 =
    .ok ⟨⟨0, #[⟨0, "a", #[], #[]⟩]⟩, #[], 0⟩ := rfl
  have hbuild' : (⟨#[some "a\", style=filled, fillcolor=red"], 0, #[]⟩ : Blueprint).build 1 =
    .ok ⟨⟨1, #[⟨0, "a\", style=filled, fillcolor=red", #[], #[]⟩]⟩, #[], 0⟩ := rfl
  have hall : ∀ u : Universe, ∀ set ∈ some (StateSet.all u), set.Over u :=
    fun u set hset => Option.some.inj hset ▸ (StateSet.shows_all u).isOver
  have hnone : ∀ u : Universe, ∀ set ∈ (none : Option StateSet), set.Over u :=
    fun _ set hset => absurd hset (Option.not_mem_none set)
  obtain ⟨text, text', htext, htext', hiff⟩ :=
    write_faithful ⟨"box", "red\"", false, true⟩ hbuild hbuild' (hall _) (hnone _)
  exact ⟨_, _, text, text', hbuild, hbuild', htext, htext', fun h => absurd (hiff.1 h).2.1 (by decide)⟩

end Compare

end Dot

end ModalMu
