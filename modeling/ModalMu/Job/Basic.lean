import ModalMu.ResetPolicy
import ModalMu.Sentence.Basic
import ModalMu.TransitionSystem.Basic

/-!
# Jobs

A job asks which states of a transition system satisfy a sentence, and says how kept values of fixed
points are to be used on the way.
-/

namespace ModalMu

structure Job where
  system : TransitionSystem
  sentence : Sentence
  policy : ResetPolicy
deriving DecidableEq, Repr

end ModalMu
