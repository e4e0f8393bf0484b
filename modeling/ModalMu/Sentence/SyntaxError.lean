import ModalMu.Text.Position

/-!
# Errors in the text of a sentence

An error is a cause and the place it is reported at.
-/

namespace ModalMu

/-- What a reader was looking for when it met something else. -/
inductive Expectation where
  | formula
  | closing
  | binderName
  | dot
deriving DecidableEq, Repr

def Expectation.text : Expectation → String
  | formula => "a formula"
  | closing => "`)`, `&&` or `||`"
  | binderName => "a binder name (`A`..`Z`)"
  | dot => "`.` after the binder name"

namespace SyntaxError

/-- Why a text is not a sentence. -/
inductive Cause where
  | unexpectedToken (found : String) (expected : Expectation)
  | unexpectedEnd (expected : Expectation)
  | duplicateBinder (name : Char)
  | unboundVariable (name : Char)
  | unterminatedLabel (opening : Char) (text : String)
  | invalidLabel (text : String)
  | trailingInput (rest : String)
deriving DecidableEq, Repr

def Cause.text : Cause → String
  | unexpectedToken found expected => s!"unexpected `{found}`, expected {expected.text}"
  | unexpectedEnd expected => s!"unexpected end of input, expected {expected.text}"
  | duplicateBinder name => s!"binder `{name}` is already bound by an enclosing fixed point"
  | unboundVariable name => s!"variable `{name}` is not bound by any enclosing fixed point"
  | unterminatedLabel opening text => s!"unterminated label `{opening}{text}`"
  | invalidLabel text => s!"invalid action label `{text}`"
  | trailingInput rest => s!"unexpected trailing input `{rest}`"

end SyntaxError

/-- An error found while reading a sentence. -/
structure SyntaxError where
  cause : SyntaxError.Cause
  position : Text.Position
deriving DecidableEq, Repr

def SyntaxError.message (e : SyntaxError) : String := s!"{e.position.text}: {e.cause.text}"

end ModalMu
