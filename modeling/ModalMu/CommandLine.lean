import ModalMu.Check
import ModalMu.Job.File

/-!
# The command line

The options of the program and the lines it prints. The model is a file in the `.aut` format; the
sentence is given on the command line or in a file.
-/

namespace ModalMu

/-- What the user asks for. -/
structure Options where
  model : Option String := none
  sentence : Option String := none
  sentenceFile : Option String := none
  policy : ResetPolicy := .alternation
  dot : Option String := none
  list : Bool := false
  verbose : Bool := false
deriving DecidableEq, Repr

/-- Why the arguments make no request. -/
inductive UsageError where
  | unknownOption (argument : String)
  | missingValue (option : String)
  | unknownPolicy (value : String)
  | missingModel
  | sentenceChoice
deriving DecidableEq, Repr

def UsageError.message : UsageError → String
  | unknownOption argument => s!"unexpected argument `{argument}`"
  | missingValue option => s!"a value is required for `{option}`"
  | unknownPolicy value => s!"unknown reset strategy `{value}`, expected alternation, always or never"
  | missingModel => "the option --lts is required"
  | sentenceChoice => "exactly one of --formula and --formula-file is required"

def ResetPolicy.ofName? : String → Option ResetPolicy
  | "alternation" => some .alternation
  | "always" => some .always
  | "never" => some .never
  | _ => none

namespace Options

/-- The arguments read one after the other; a later value replaces an earlier one. -/
def read : List String → Options → Except UsageError Options
  | [], o => .ok o
  | "--list" :: rest, o => read rest { o with list := true }
  | "--verbose" :: rest, o => read rest { o with verbose := true }
  | "-v" :: rest, o => read rest { o with verbose := true }
  | "--lts" :: path :: rest, o => read rest { o with model := some path }
  | "--formula" :: text :: rest, o => read rest { o with sentence := some text }
  | "--formula-file" :: path :: rest, o => read rest { o with sentenceFile := some path }
  | "--dot" :: path :: rest, o => read rest { o with dot := some path }
  | "--reset" :: value :: rest, o =>
    match ResetPolicy.ofName? value with
    | some policy => read rest { o with policy }
    | none => .error (.unknownPolicy value)
  | argument :: _, _ =>
    if ["--lts", "--formula", "--formula-file", "--dot", "--reset"].contains argument then
      .error (.missingValue argument)
    else
      .error (.unknownOption argument)

/-- The path of the model, which has to be given. -/
def modelPath (o : Options) : Except UsageError String :=
  match o.model with
  | some path => .ok path
  | none => .error .missingModel

end Options

namespace Report

def model (m : TransitionSystem) : String :=
  s!"model: {m.numStates} states, {m.numTransitions} transitions, initial state {m.initial}"

def sentence (s : Sentence) : String :=
  s!"formula: {s.render} (binders: {s.binders.size}, alternation depth: {s.alternationDepth})"

/-- A number of milliseconds in seconds. -/
def seconds (milliseconds : Nat) : String :=
  let digits := toString (1000 + milliseconds % 1000)
  s!"{milliseconds / 1000}." ++ String.ofList (digits.toList.drop 1)

def verdict (job : Job) (v : Verdict) (holds : Bool) (milliseconds : Nat) : List String :=
  [s!"result: {holds}",
    s!"{v.satisfying.size} of {job.system.numStates} states satisfy the formula ({v.totalRounds} iterations, {v.totalResets} resets, {seconds milliseconds} s)"]

def states (v : Verdict) : String := s!"states: {v.satisfying.text}"

end Report

end ModalMu
