import ModalMu.Sentence.Basic
import ModalMu.Sentence.SyntaxError
import ModalMu.Text.Blank
import ModalMu.Text.Field
import ModalMu.Text.Line

/-!
# Reading sentences

White space and comments, from a percent sign to the end of its line, may stand before every token.
A formula is an operand, or an operand, a junction `&&` or `||` and a formula: junctions nest to the
right and bind alike. The operand of a negation is a single operand; a modality and a fixed point
reach as far as a formula can.

The reader goes down the grammar on the list of characters that are left. Each call of `formula`
inside another one is made on a shorter text, so the length of the whole text bounds the nesting; with
the bound used up, nothing is left to read. A failure carries the text left where it is reported.
-/

namespace ModalMu

namespace Parser

open Text SyntaxError

/-- A cause of failure, and the text left at the place of the failure. -/
structure Failure where
  cause : Cause
  rest : List Char
deriving DecidableEq, Repr

/-- The fixed points around a place, innermost first: the variable of each and its slot. -/
abbrev Scope := List (Char × Nat)

/-- A formula that was read: its binders by slot, the slots of its variables from left to right, and
the text that is left. -/
structure Piece where
  formula : Formula
  binders : List Binder
  occurrences : List Nat
  rest : List Char
deriving DecidableEq, Repr

/-- How far a formula reaches: over one operand only, or over junctions too. -/
inductive Reach where
  | operand
  | junction
deriving DecidableEq, Repr

/-- The two junctions. -/
inductive Junction where
  | and
  | or
deriving DecidableEq, Repr

def Junction.join : Junction → Formula → Formula → Formula
  | and => Formula.and
  | or => Formula.or

/-! ## Tokens -/

mutual

/-- The text without the white space and the comments in front of it. -/
def skipTrivia : List Char → List Char
  | [] => []
  | c :: rest =>
    if isBlank c then skipTrivia rest
    else if c = '%' then skipComment rest
    else c :: rest

/-- The text behind a comment and the trivia that follow it. -/
def skipComment : List Char → List Char
  | [] => []
  | c :: rest => if c = '\n' then skipTrivia rest else skipComment rest

end

/-- The failure at a text that does not begin as expected. -/
def unexpected (expected : Expectation) : List Char → Failure
  | [] => ⟨.unexpectedEnd expected, []⟩
  | c :: rest => ⟨.unexpectedToken (String.ofList [c]) expected, c :: rest⟩

/-- The text behind the next token, which has to be the character `c`. -/
def expect (c : Char) (expected : Expectation) (s : List Char) : Except Failure (List Char) :=
  match skipTrivia s with
  | [] => .error (unexpected expected [])
  | d :: rest => if d = c then .ok rest else .error (unexpected expected (d :: rest))

/-- The junction that a text begins with, and the text behind it. -/
def junction? : List Char → Option (Junction × List Char)
  | '&' :: '&' :: rest => some (.and, rest)
  | '|' :: '|' :: rest => some (.or, rest)
  | _ => none

/-- The characters of words. -/
def isWordChar (c : Char) : Bool := c.isAlphanum || c == '_'

def isBracket (c : Char) : Bool := c == '<' || c == '>' || c == '[' || c == ']'

/-- The texts that can be labels: not empty, and without white space and brackets. -/
def isLabelText (s : List Char) : Bool :=
  !s.isEmpty && s.all fun c => !isBlank c && !isBracket c

/-- The label of a modality, given the text behind its opening bracket, and the text behind its closing
bracket. White space around the label does not count. -/
def label (opening closing : Char) (s : List Char) : Except Failure (Label × List Char) :=
  match splitFirst? closing s with
  | none => .error ⟨.unterminatedLabel opening (String.ofList (firstLine s)), opening :: s⟩
  | some (inside, rest) =>
    if isLabelText (trim inside) then .ok (⟨String.ofList (trim inside)⟩, rest)
    else .error ⟨.invalidLabel (String.ofList inside), opening :: s⟩

/-! ## Formulas -/

/-- The variable `x`, with the text behind it. -/
def occurrence (scope : Scope) (x : Char) (rest : List Char) : Except Failure Piece :=
  match scope.lookup x with
  | none => .error ⟨.unboundVariable x, x :: rest⟩
  | some slot => .ok ⟨.var x slot, [], [slot], rest⟩

/-- How a formula is read inside another one: how far it reaches, what surrounds it, the next free
slot and the text. -/
abbrev Reading := Reach → Scope → Nat → List Char → Except Failure Piece

/-- The fixed point whose keyword was read. -/
def fixedPoint (formula : Reading) (kind : FixKind) (scope : Scope) (next : Nat) (s : List Char) :
    Except Failure Piece :=
  match skipTrivia s with
  | [] => .error (unexpected .binderName [])
  | x :: rest =>
    if x.isUpper then do
      let inside ← expect '.' .dot rest
      if (scope.lookup x).isSome then
        .error ⟨.duplicateBinder x, x :: rest⟩
      else
        let body ← formula .junction ((x, next) :: scope) (next + 1) inside
        let binder : Binder := ⟨x, kind, next, body.binders.map (·.slot), body.occurrences⟩
        .ok ⟨.fix kind x next body.formula, binder :: body.binders, body.occurrences, body.rest⟩
    else
      .error (unexpected .binderName (x :: rest))

/-- The constant or fixed point that begins with a word. -/
def keyword (formula : Reading) (scope : Scope) (next : Nat) (s : List Char) : Except Failure Piece :=
  let word := s.takeWhile isWordChar
  let rest := s.dropWhile isWordChar
  if word = ['t', 'r', 'u', 'e'] then .ok ⟨.top, [], [], rest⟩
  else if word = ['f', 'a', 'l', 's', 'e'] then .ok ⟨.bot, [], [], rest⟩
  else if word = ['m', 'u'] then fixedPoint formula .least scope next rest
  else if word = ['n', 'u'] then fixedPoint formula .greatest scope next rest
  else .error ⟨.unexpectedToken (String.ofList word) .formula, s⟩

/-- One operand; `formula` reads the formulas inside it. -/
def operand (formula : Reading) (scope : Scope) (next : Nat) (s : List Char) : Except Failure Piece :=
  match skipTrivia s with
  | [] => .error (unexpected .formula [])
  | c :: rest =>
    if c = '(' then do
      let inside ← formula .junction scope next rest
      let behind ← expect ')' .closing inside.rest
      .ok { inside with rest := behind }
    else if c = '<' then do
      let (a, behind) ← label '<' '>' rest
      let body ← formula .junction scope next behind
      .ok { body with formula := .diamond a body.formula }
    else if c = '[' then do
      let (a, behind) ← label '[' ']' rest
      let body ← formula .junction scope next behind
      .ok { body with formula := .box a body.formula }
    else if c = '!' then do
      let body ← formula .operand scope next rest
      .ok { body with formula := .not body.formula }
    else if c.isUpper then occurrence scope c rest
    else if c.isLower then keyword formula scope next (c :: rest)
    else .error (unexpected .formula (c :: rest))

/-- A formula of the given reach. Texts longer than `bound` are not read to their end. -/
def formula : (bound : Nat) → Reading
  | 0, _, _, _, s => .error ⟨.unexpectedEnd .formula, s⟩
  | bound + 1, reach, scope, next, s => do
    let left ← operand (formula bound) scope next s
    match reach with
    | .operand => .ok left
    | .junction =>
      match junction? (skipTrivia left.rest) with
      | none => .ok left
      | some (j, rest) =>
        let right ← formula bound .junction scope (next + left.binders.length) rest
        .ok ⟨j.join left.formula right.formula, left.binders ++ right.binders,
          left.occurrences ++ right.occurrences, right.rest⟩

/-- The sentence that is the whole of a text. -/
def sentence (s : List Char) : Except Failure Sentence := do
  let whole ← formula s.length .junction [] 0 s
  match skipTrivia whole.rest with
  | [] => .ok ⟨whole.formula, whole.binders.toArray⟩
  | c :: rest => .error ⟨.trailingInput (String.ofList (trimEnd (c :: rest))), c :: rest⟩

end Parser

namespace Sentence

/-- The sentence that a list of characters spells. -/
def ofChars (s : List Char) : Except SyntaxError Sentence :=
  (Parser.sentence s).mapError fun failure => ⟨failure.cause, Text.Position.locate s failure.rest⟩

/-- The sentence that a text spells. -/
def parse (src : String) : Except SyntaxError Sentence := ofChars src.toList

end Sentence

end ModalMu
