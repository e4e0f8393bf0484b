import ModalMu.Fault
import ModalMu.Sentence.Parser

/-!
# Reading sentences in place

A reader of sentences that holds its text as a whole. All that it knows of its place is an offset, the
number of bytes before it. Whenever it looks at the text it cuts it at an offset, and a cut that goes through
a character ends the reading with `Stop.torn`. What it finds moves the offset on by the size of what was
found.

It fills in one table of binders as it goes along. Every fixed point gets the next free entry, and is open
while its body is read; the open ones are on a stack. A fixed point, and a variable, is noted down at every
entry that is open at the time.

Junctions are read in a loop behind an operand. Each formula is read under a ceiling, and the loop goes on
as long as junctions are admissible under it.
-/

namespace ModalMu

namespace Binder

/-- A fixed point was found in the body. -/
def addDescendant (slot : Nat) (b : Binder) : Binder := { b with descendants := b.descendants ++ [slot] }

/-- A variable was found in the body. -/
def addOccurrence (slot : Nat) (b : Binder) : Binder := { b with occurrences := b.occurrences ++ [slot] }

end Binder

namespace Offset

open Text SyntaxError
open ModalMu.Parser (isWordChar isLabelText junction?)

/-- Why a reading in place stops: an offset inside a character, an entry that the table does not have, or an
error in the text. -/
inductive Stop where
  | torn
  | fault (f : Fault)
  | refused (e : SyntaxError)
deriving DecidableEq, Repr

def ofFault {α : Type} (x : Except Fault α) : Except Stop α := x.mapError .fault

/-! ## The text -/

/-- The text before an offset and the text from it on. -/
def cut : List Char → Nat → Except Stop (List Char × List Char)
  | s, 0 => .ok ([], s)
  | [], _ + 1 => .error .torn
  | c :: s, n + 1 =>
    if c.utf8Size ≤ n + 1 then do
      let (before, rest) ← cut s (n + 1 - c.utf8Size)
      .ok (c :: before, rest)
    else
      .error .torn

section Text

variable (src : List Char)

/-- The text from an offset on. -/
def textFrom (n : Nat) : Except Stop (List Char) := do
  let (_, s) ← cut src n
  .ok s

/-- The place at an offset; its line begins behind the last line feed before it. -/
def position (n : Nat) : Except Stop Position := do
  let (before, _) ← cut src n
  let (_, current) ← cut before (byteLength (before.reverse.dropWhile (· != '\n')).reverse)
  .ok ⟨n, 1 + before.count '\n', 1 + current.length⟩

/-- An error that is reported at an offset. -/
def refuse {α : Type} (cause : Cause) (n : Nat) : Except Stop α := do
  let p ← position src n
  .error (.refused ⟨cause, p⟩)

/-- The offset behind white space and comments, of which there are no more than `bound`. -/
def skipWithin : (bound : Nat) → Nat → Except Stop Nat
  | 0, n => .ok n
  | bound + 1, n => do
    let s ← textFrom src n
    let trimmed := trimStart s
    let n := byteLength src - byteLength trimmed
    if trimmed.head? = some '%' then
      skipWithin bound (n + byteLength (trimmed.takeWhile (· != '\n')))
    else
      .ok n

def skipTrivia (n : Nat) : Except Stop Nat := skipWithin src src.length n

def unexpected {α : Type} (expected : Expectation) (n : Nat) : Except Stop α := do
  let s ← textFrom src n
  match s with
  | [] => refuse src (.unexpectedEnd expected) n
  | c :: _ => refuse src (.unexpectedToken (String.ofList [c]) expected) n

def expect (c : Char) (expected : Expectation) (n : Nat) : Except Stop Nat := do
  let n ← skipTrivia src n
  let s ← textFrom src n
  if s.head? = some c then .ok (n + c.utf8Size) else unexpected src expected n

/-- The label of a modality whose opening bracket is at the offset, and the offset behind it. -/
def label (opening closing : Char) (n : Nat) : Except Stop (Label × Nat) := do
  let s ← textFrom src (n + opening.utf8Size)
  match splitFirst? closing s with
  | none => refuse src (.unterminatedLabel opening (String.ofList (firstLine s))) n
  | some (before, _) => do
    let (inside, _) ← cut s (byteLength before)
    if isLabelText (trim inside) then
      .ok (⟨String.ofList (trim inside)⟩,
        n + opening.utf8Size + byteLength before + closing.utf8Size)
    else
      refuse src (.invalidLabel (String.ofList inside)) n

end Text

/-! ## Open binders -/

/-- Where a reading stands: its offset, the table of binders so far, and the slots of those that are open,
innermost first. -/
structure State where
  offset : Nat
  binders : Array Binder
  opened : List Nat
deriving DecidableEq, Repr

/-- The innermost one of some binders that has the name `x`. -/
def findOpen (binders : Array Binder) (x : Char) : List Nat → Except Fault (Option Nat)
  | [] => .ok none
  | i :: opened => do
    let b ← Fault.lookup binders i
    if b.name = x then .ok (some i) else findOpen binders x opened

/-- The table after something is noted down at some binders, one after the other. -/
def noteOpen (note : Binder → Binder) : List Nat → Array Binder → Except Fault (Array Binder)
  | [], binders => .ok binders
  | i :: opened, binders => do
    let b ← Fault.lookup binders i
    noteOpen note opened (binders.setIfInBounds i (note b))

/-! ## Formulas -/

/-- How tightly the parts of a formula hold together, the tightest first. -/
inductive Priority where
  | negation
  | junction
  | modality
  | fixedPoint
  | whole
deriving DecidableEq, Repr

namespace Priority

def level : Priority → Nat
  | negation => 0
  | junction => 1
  | modality => 2
  | fixedPoint => 3
  | whole => 4

/-- Something of this priority may be taken in under a ceiling. -/
def admissible (p ceiling : Priority) : Bool := p.level ≤ ceiling.level

end Priority

/-- How a formula is read inside another one: under which ceiling, and from where. -/
abbrev Reading := (ceiling : Priority) → State → Except Stop (Formula × State)

section Formula

variable (src : List Char)

/-- The variable `x`, which is at the offset. -/
def occurrence (x : Char) (st : State) : Except Stop (Formula × State) := do
  match ← ofFault (findOpen st.binders x st.opened) with
  | none => refuse src (.unboundVariable x) st.offset
  | some i =>
    let binders ← ofFault (noteOpen (Binder.addOccurrence i) st.opened st.binders)
    .ok (.var x i, ⟨st.offset + x.utf8Size, binders, st.opened⟩)

/-- The fixed point whose keyword was read. -/
def fixedPoint (formula : Reading) (kind : FixKind) (st : State) : Except Stop (Formula × State) := do
  let n ← skipTrivia src st.offset
  let s ← textFrom src n
  match s with
  | [] => unexpected src .binderName n
  | x :: _ =>
    if x.isUpper then do
      let inside ← expect src '.' .dot (n + x.utf8Size)
      match ← ofFault (findOpen st.binders x st.opened) with
      | some _ => refuse src (.duplicateBinder x) n
      | none =>
        let i := st.binders.size
        let binders ← ofFault (noteOpen (Binder.addDescendant i) st.opened st.binders)
        let (body, st) ← formula .fixedPoint ⟨inside, binders.push ⟨x, kind, i, [], []⟩, i :: st.opened⟩
        .ok (.fix kind x i body, { st with opened := st.opened.tail })
    else
      unexpected src .binderName n

/-- The constant or fixed point whose first word is at the offset. -/
def keyword (formula : Reading) (st : State) : Except Stop (Formula × State) := do
  let s ← textFrom src st.offset
  let (word, _) ← cut s (byteLength (s.takeWhile isWordChar))
  let behind := { st with offset := st.offset + byteLength word }
  if word = ['t', 'r', 'u', 'e'] then .ok (.top, behind)
  else if word = ['f', 'a', 'l', 's', 'e'] then .ok (.bot, behind)
  else if word = ['m', 'u'] then fixedPoint src formula .least behind
  else if word = ['n', 'u'] then fixedPoint src formula .greatest behind
  else refuse src (.unexpectedToken (String.ofList word) .formula) st.offset

/-- One operand; `formula` reads the formulas inside it. -/
def operand (formula : Reading) (st : State) : Except Stop (Formula × State) := do
  let n ← skipTrivia src st.offset
  let s ← textFrom src n
  match s with
  | [] => unexpected src .formula n
  | c :: _ =>
    if c = '(' then do
      let (inner, st) ← formula .whole { st with offset := n + c.utf8Size }
      let behind ← expect src ')' .closing st.offset
      .ok (inner, { st with offset := behind })
    else if c = '<' then do
      let (a, behind) ← label src '<' '>' n
      let (body, st) ← formula .modality { st with offset := behind }
      .ok (.diamond a body, st)
    else if c = '[' then do
      let (a, behind) ← label src '[' ']' n
      let (body, st) ← formula .modality { st with offset := behind }
      .ok (.box a body, st)
    else if c = '!' then do
      let (body, st) ← formula .negation { st with offset := n + c.utf8Size }
      .ok (.not body, st)
    else if c.isUpper then occurrence src c { st with offset := n }
    else if c.isLower then keyword src formula { st with offset := n }
    else unexpected src .formula n

/-- The junctions behind a formula, as long as they are admissible, but no more than `turns`. -/
def junctions (formula : Reading) (ceiling : Priority) :
    (turns : Nat) → Formula → State → Except Stop (Formula × State)
  | 0, left, st => .ok (left, st)
  | turns + 1, left, st => do
    let n ← skipTrivia src st.offset
    let s ← textFrom src n
    match junction? s with
    | none => .ok (left, { st with offset := n })
    | some (j, _) =>
      if Priority.junction.admissible ceiling then do
        -- both signs are two bytes
        let (right, st) ← formula .junction { st with offset := n + 2 }
        junctions formula ceiling turns (j.join left right) st
      else
        .ok (left, { st with offset := n })

/-- A formula under a ceiling. Texts longer than `bound` are not read to their end. -/
def formula : (bound : Nat) → Reading
  | 0, _, st => refuse src (.unexpectedEnd .formula) st.offset
  | bound + 1, ceiling, st => do
    let (left, st) ← operand src (formula bound) st
    junctions src (formula bound) ceiling (bound + 1) left st

/-- The sentence that is the whole of the text. -/
def sentence : Except Stop Sentence := do
  let (root, st) ← formula src src.length .whole ⟨0, #[], []⟩
  let n ← skipTrivia src st.offset
  let s ← textFrom src n
  match s with
  | [] => .ok ⟨root, st.binders⟩
  | c :: rest => refuse src (.trailingInput (String.ofList (trimEnd (c :: rest)))) n

end Formula

end Offset

end ModalMu
