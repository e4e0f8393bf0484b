/-!
# Reset policies

A fixed point that is entered again can start from the value it had when it was left. A policy says
when that value is given up for the extreme value of its kind.
-/

namespace ModalMu

/-- When the kept value of a fixed point is reset on entry. -/
inductive ResetPolicy where
  /-- Below a fixed point of the other kind, with its relatives, if something around them changed. -/
  | alternation
  /-- On every entry. -/
  | always
  /-- On no entry. -/
  | never
deriving DecidableEq, Repr

def ResetPolicy.text : ResetPolicy → String
  | alternation => "Alternation"
  | always => "Always"
  | never => "Never"

end ModalMu
