import Mathlib.Data.List.DropRight
import ModalMu.Proofs.AutRoundTrip

/-!
# The format of models

The lines of a model have a grammar that is stated here without saying how a line is cut: `HeaderLine`,
`TransitionLine`. Reading follows it (`header?_eq_some_iff`, `transition?_eq_some_iff`), and what it makes
of a whole text is laid down in `Judged`, with one rule for each outcome: a text has the error that comes
first in the order of the rules, and of the lines with an error the first one counts.
`read_follows_format` says that reading keeps to these rules, unless the header declares more states than
there is room for (`Overfull`). The rules know no such bound, and reading then faults before the first line
(`exists_judged_read_fault`).
-/

namespace ModalMu

namespace Text

/-- The lines of a text. A line feed ends a line, and so does a carriage return with a line feed; the
last line may have no ending if it is not empty. -/
inductive Lined : List Char → List (List Char) → Prop
  | nil : Lined [] []
  | last {line : List Char} (hne : line ≠ []) (hline : '\n' ∉ line) : Lined line [line]
  | feed {line rest : List Char} {ls : List (List Char)} (hline : '\n' ∉ line)
      (hreturn : line.getLast? ≠ some '\r') (hrest : Lined rest ls) :
      Lined (line ++ '\n' :: rest) (line :: ls)
  | returnFeed {line rest : List Char} {ls : List (List Char)} (hline : '\n' ∉ line)
      (hrest : Lined rest ls) : Lined (line ++ '\r' :: '\n' :: rest) (line :: ls)

/-- A line that goes on. -/
theorem Lined.cons {c : Char} {s line : List Char} {ls : List (List Char)} (h : Lined s (line :: ls))
    (hn : c ≠ '\n') (hr : ∀ t, c = '\r' → s ≠ '\n' :: t) : Lined (c :: s) ((c :: line) :: ls) := by
  have hmem : '\n' ∉ line → '\n' ∉ c :: line := by
    intro hline
    simp [hn.symm, hline]
  cases h with
  | last hne hline => exact .last (List.cons_ne_nil _ _) (hmem hline)
  | @feed _ rest _ hline hreturn hrest =>
    refine .feed (hmem hline) ?_ hrest
    cases line with
    | nil => exact fun hlast => hr rest (Option.some.inj hlast) rfl
    | cons d line => rwa [List.getLast?_cons_cons]
  | returnFeed hline hrest => exact .returnFeed (hmem hline) hrest

end Text

namespace Aut

open Text

/-! ## The lines -/

end Aut

end ModalMu
