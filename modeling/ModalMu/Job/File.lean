import ModalMu.Job.Basic
import ModalMu.Sentence.Parser
import ModalMu.TransitionSystem.Aut

/-!
# Jobs from files

A job is read from two files: the model, in the `.aut` format, and the sentence. The model is read
first. A file is given by its bytes, which have to be UTF-8.
-/

namespace ModalMu

/-- A file as it was found. -/
inductive File where
  | missing
  | content (bytes : ByteArray)

/-- Why a file has no text. -/
inductive FileError where
  | notFound
  | invalidText
deriving DecidableEq, Repr

def FileError.message : FileError → String
  | notFound => "No such file or directory (os error 2)"
  | invalidText => "stream did not contain valid UTF-8"

def File.text : File → Except FileError String
  | missing => .error .notFound
  | content bytes =>
    match String.fromUTF8? bytes with
    | some text => .ok text
    | none => .error .invalidText

/-- Why two files make no job. -/
inductive JobError where
  | modelFile (e : FileError)
  | model (e : AutError)
  | sentenceFile (e : FileError)
  | sentence (e : SyntaxError)
  | fault (f : Fault)
deriving DecidableEq, Repr

def JobError.ofStop : Aut.Stop → JobError
  | .refused e => .model e
  | .fault f => .fault f

def JobError.message : JobError → String
  | modelFile e => s!"aldebaran: I/O error: {e.message}"
  | model e => s!"aldebaran: {e.message}"
  | sentenceFile e => s!"I/O error: {e.message}"
  | sentence e => s!"formula: {e.message}"
  | fault f => f.message

/-- The job in two files. -/
def Job.load (model sentence : File) (policy : ResetPolicy) : Except JobError Job := do
  let modelText ← model.text.mapError .modelFile
  let system ← (Aut.read 0 modelText.toList).mapError .ofStop
  let sentenceText ← sentence.text.mapError .sentenceFile
  let sentence ← (Sentence.parse sentenceText).mapError .sentence
  .ok ⟨system, sentence, policy⟩

end ModalMu
