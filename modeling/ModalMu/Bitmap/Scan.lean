import ModalMu.Bitmap.Basic

/-!
# Walking through a bitmap

A scan gives the members one after the other, in ascending order: it takes the lowest bit of the
current word, and goes on to the next word when the current one is used up.
-/

namespace ModalMu

namespace Bitmap

/-- What is left to walk through: the rest of the current word, whose first bit stands for `base`, and
the words behind it. -/
structure Scan where
  base : Nat
  word : UInt64
  later : List UInt64
deriving DecidableEq, Repr

namespace Scan

/-- The next member, if there is one, and the scan behind it, with the words behind the current one. -/
def advance (base : Nat) (word : UInt64) : List UInt64 → Option Nat × Scan
  | [] => ((Word.lowest? word).map (base + ·), ⟨base, Word.dropLowest word, []⟩)
  | w :: later =>
    match Word.lowest? word with
    | some i => (some (base + i), ⟨base, Word.dropLowest word, w :: later⟩)
    | none => advance (base + 64) w later

/-- The next member, if there is one, and the scan behind it. -/
def next (s : Scan) : Option Nat × Scan := advance s.base s.word s.later

/-- The next members, at most `n` of them. -/
def take : Nat → Scan → List Nat
  | 0, _ => []
  | n + 1, s =>
    match s.next with
    | (none, _) => []
    | (some i, rest) => i :: take n rest

end Scan

/-- The scan at the beginning of a bitmap. -/
def scan (b : Bitmap) : Scan :=
  match b.words.toList with
  | [] => ⟨0, 0, []⟩
  | w :: later => ⟨0, w, later⟩

end Bitmap

end ModalMu
