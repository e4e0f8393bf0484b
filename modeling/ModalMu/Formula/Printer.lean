import ModalMu.Formula.Basic

/-!
# Printing formulas

Junctions are always in parentheses. A modality or a fixed point reaches as far to the right as it
can, so it is in parentheses unless nothing can follow it: `write last` is told whether it stands last.
-/

namespace ModalMu

namespace Formula

/-- Puts what `inner` writes in parentheses if asked, in front of `rest`. -/
def wrap (parens : Bool) (inner : List Char → List Char) (rest : List Char) : List Char :=
  if parens then '(' :: inner (')' :: rest) else inner rest

/-- Writes a formula in front of `rest`; `last` says that no junction can follow it. -/
def write (last : Bool) : Formula → List Char → List Char
  | top, rest => 't' :: 'r' :: 'u' :: 'e' :: rest
  | bot, rest => 'f' :: 'a' :: 'l' :: 's' :: 'e' :: rest
  | and l r, rest => wrap true (fun s => l.write false (' ' :: '&' :: '&' :: ' ' :: r.write true s)) rest
  | or l r, rest => wrap true (fun s => l.write false (' ' :: '|' :: '|' :: ' ' :: r.write true s)) rest
  | not f, rest => '!' :: f.write last rest
  | diamond a f, rest => wrap (!last) (fun s => '<' :: (a.text.toList ++ '>' :: f.write true s)) rest
  | box a f, rest => wrap (!last) (fun s => '[' :: (a.text.toList ++ ']' :: f.write true s)) rest
  | fix k x _ f, rest =>
    wrap (!last) (fun s => k.keyword.toList ++ ' ' :: x :: '.' :: f.write true s) rest
  | var x _, rest => x :: rest

/-- The text of a whole formula. -/
def render (f : Formula) : String := String.ofList (f.write true [])

end Formula

end ModalMu
