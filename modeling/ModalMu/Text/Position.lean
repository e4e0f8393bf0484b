/-!
# Positions

Where in a text something is: the number of UTF-8 bytes before it, and its line and column, both
counted from one, a column per character.
-/

namespace ModalMu.Text

/-- The number of bytes of a text in UTF-8. -/
def byteLength : List Char → Nat
  | [] => 0
  | c :: rest => c.utf8Size + byteLength rest

/-- A place in a text. -/
structure Position where
  offset : Nat
  line : Nat
  column : Nat
deriving DecidableEq, Repr

namespace Position

/-- The place reached after reading a text. -/
def after (consumed : List Char) : Position where
  offset := byteLength consumed
  line := 1 + consumed.count '\n'
  column := 1 + (consumed.reverse.takeWhile (· != '\n')).length

/-- The place in `src` where its remainder `rest` begins. -/
def locate (src rest : List Char) : Position := after (src.take (src.length - rest.length))

/-- A place as messages show it. -/
def text (p : Position) : String := s!"{p.line}:{p.column}"

/-- Bytes of one text after the other add up. -/
theorem byteLength_append (s t : List Char) : byteLength (s ++ t) = byteLength s + byteLength t := by
  induction s with
  | nil => simp [byteLength]
  | cons c s ih =>
    simp only [List.cons_append, byteLength, ih]
    omega

theorem locate_append (consumed rest : List Char) : locate (consumed ++ rest) rest = after consumed := by
  simp [locate]

end Position

end ModalMu.Text
