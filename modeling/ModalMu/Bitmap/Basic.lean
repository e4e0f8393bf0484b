import ModalMu.Bitmap.Word
import ModalMu.Fault

/-!
# Bitmaps

A set of numbers below a width, packed into words of 64 bits. The view is `test`; a bitmap is well
formed if it has the words that its width needs and no bit beyond its width.
-/

namespace ModalMu

/-- A set of numbers below `width`; number `i` is bit `i % 64` of word `i / 64`. -/
structure Bitmap where
  words : Array UInt64
  width : Nat
deriving DecidableEq, Repr

namespace Bitmap

/-- The number of words that a width needs. -/
def wordCount (width : Nat) : Nat := (width + 63) / 64

/-- Whether the bit for `i` is set. -/
def test (b : Bitmap) (i : Nat) : Bool := Word.bit (b.words.getD (i / 64) 0) (i % 64)

/-- The words fit the width, and no bit beyond the width is set. -/
structure WellFormed (b : Bitmap) : Prop where
  size_words : b.words.size = wordCount b.width
  test_of_le : ∀ i, b.width ≤ i → b.test i = false

/-- The bitmap with every word changed. -/
def mapWords (f : UInt64 → UInt64) (b : Bitmap) : Bitmap :=
  { b with words := (b.words.toList.map f).toArray }

/-- The bitmap with the word changed that the number `i` belongs to. -/
def modifyWord (b : Bitmap) (i : Nat) (f : UInt64 → UInt64) : Bitmap :=
  { b with words := b.words.modify (i / 64) f }

/-- Without the bits beyond the width in the last word, if the width ends inside a word. -/
def clearPadding (b : Bitmap) : Bitmap := b.modifyWord b.width (· &&& Word.below (b.width % 64))

/-- The empty set. -/
def empty (width : Nat) : Bitmap := ⟨Array.replicate (wordCount width) 0, width⟩

/-- The same width without any bit. -/
def clear (b : Bitmap) : Bitmap := b.mapWords fun _ => 0

/-- The same width with all bits. -/
def fill (b : Bitmap) : Bitmap := (b.mapWords fun _ => Word.ones).clearPadding

/-- The set of all numbers below the width. -/
def full (width : Nat) : Bitmap := (empty width).fill

/-- The numbers below the width that are not in the set. -/
def complement (b : Bitmap) : Bitmap := (b.mapWords (~~~ ·)).clearPadding

/-- The number of members. -/
def size (b : Bitmap) : Nat := b.words.toList.foldr (fun w n => Word.count w + n) 0

def isEmpty (b : Bitmap) : Bool := b.words.toList.all (· == 0)

def isFull (b : Bitmap) : Bool := b.size == b.width

/-- A bitmap in full detail. -/
def text (b : Bitmap) : String :=
  let words := String.intercalate ", " (b.words.toList.map fun w => toString w.toNat)
  s!"BitSet \x7b words: [{words}], width: {b.width} \x7d"

/-! ## Members -/

/-- The members in the given words, the first of which stands for the numbers from `base` on. -/
def membersFrom (base : Nat) : List UInt64 → List Nat
  | [] => []
  | w :: later => Word.indices 64 base w (membersFrom (base + 64) later)

/-- The members in ascending order. -/
def members (b : Bitmap) : List Nat := membersFrom 0 b.words.toList

/-- Whether `i`, which has to be below the width, is a member. -/
def contains (b : Bitmap) (i : Nat) : Except Fault Bool :=
  if i < b.width then .ok (b.test i) else .error (.bitOutOfRange i b.width)

/-- The set with `i`, and whether that is new. -/
def insert (b : Bitmap) (i : Nat) : Except Fault (Bool × Bitmap) :=
  if i < b.width then
    .ok (!b.test i, b.modifyWord i (· ||| Word.single (i % 64)))
  else
    .error (.bitOutOfRange i b.width)

/-- The set without `i`, and whether `i` was there. -/
def erase (b : Bitmap) (i : Nat) : Except Fault (Bool × Bitmap) :=
  if i < b.width then
    .ok (b.test i, b.modifyWord i (· &&& ~~~Word.single (i % 64)))
  else
    .error (.bitOutOfRange i b.width)

/-! ## Two bitmaps of one width -/

/-- The words of two bitmaps combined one by one. -/
def zipWords (f : UInt64 → UInt64 → UInt64) (a b : Bitmap) : List UInt64 :=
  List.zipWith f a.words.toList b.words.toList

/-- The bitmap of the words of two bitmaps combined. -/
def zip (f : UInt64 → UInt64 → UInt64) (a b : Bitmap) : Except Fault Bitmap :=
  if a.width = b.width then .ok { a with words := (zipWords f a b).toArray }
  else .error (.widthMismatch a.width b.width)

def union (a b : Bitmap) : Except Fault Bitmap := zip (· ||| ·) a b

def inter (a b : Bitmap) : Except Fault Bitmap := zip (· &&& ·) a b

def diff (a b : Bitmap) : Except Fault Bitmap := zip (fun v w => v &&& ~~~w) a b

/-- Whether every member of `a` is one of `b`. -/
def isSubset (a b : Bitmap) : Except Fault Bool :=
  if a.width = b.width then .ok ((zipWords (fun v w => v &&& ~~~w) a b).all (· == 0))
  else .error (.widthMismatch a.width b.width)

end Bitmap

end ModalMu
