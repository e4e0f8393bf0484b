import ModalMu.CommandLine
import ModalMu.TransitionSystem.Dot

/-!
# The program

Reads the files, checks the sentence and prints the report.
-/

namespace ModalMu.Program

/-- Prints a message on standard error and ends with a failure. -/
def fail (message : String) : IO UInt32 := do
  IO.eprintln s!"Error: {message}"
  return 1

def readFile (path : String) : IO File := do
  try
    return .content (← IO.FS.readBinFile path)
  catch _ =>
    return .missing

/-- The text of the sentence, from the command line or from a file. -/
def sentenceText (o : Options) : IO (Except String String) := do
  match o.sentence, o.sentenceFile with
  | some text, none => return .ok text
  | none, some path =>
    match (← readFile path).text with
    | .ok text => return .ok text
    | .error e => return .error s!"loading {path}: {(JobError.sentenceFile e).message}"
  | _, _ => return .error UsageError.sentenceChoice.message

/-- Checks a job and prints what it comes to. -/
def report (o : Options) (job : Job) : IO UInt32 := do
  let started ← IO.monoMsNow
  match job.check with
  | .error f => fail f.message
  | .ok v =>
    let finished ← IO.monoMsNow
    if o.verbose then
      for event in v.log do
        if event.level == "DEBUG" then
          IO.eprintln event.line
    match v.holds job.system with
    | .error f => fail f.message
    | .ok holds =>
      for line in Report.verdict job v holds (finished - started) do
        IO.println line
      if o.list then
        IO.println (Report.states v)
      match o.dot with
      | none => return 0
      | some path =>
        match Dot.write .standard job.system (some v.satisfying) with
        | .error f => fail f.message
        | .ok dot =>
          IO.FS.writeFile path (String.ofList dot)
          IO.println s!"wrote {path}"
          return 0

def run (o : Options) : IO UInt32 := do
  match o.modelPath with
  | .error e => fail e.message
  | .ok path =>
    match (← readFile path).text with
    | .error e => fail s!"loading {path}: {e.message}"
    | .ok modelText =>
      match Aut.read 0 modelText.toList with
      | .error (.refused e) => fail s!"loading {path}: {e.message}"
      | .error (.fault f) => fail f.message
      | .ok system =>
        IO.println (Report.model system)
        match ← sentenceText o with
        | .error message => fail message
        | .ok src =>
          match Sentence.parse src with
          | .error e => fail e.message
          | .ok sentence =>
            IO.println (Report.sentence sentence)
            report o ⟨system, sentence, o.policy⟩

end ModalMu.Program

/-- Checks a sentence of the modal mu-calculus on a transition system. -/
def main (args : List String) : IO UInt32 := do
  match ModalMu.Options.read args {} with
  | .error e => ModalMu.Program.fail e.message
  | .ok o => ModalMu.Program.run o
