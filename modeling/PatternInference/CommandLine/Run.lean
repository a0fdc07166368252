import PatternInference.CommandLine.Arguments
import PatternInference.Text.Lines

/-!
A run of a tool, from its arguments and inputs to its exit code and outputs. The files are a function:
what opening and reading each name gives.
-/

namespace PatternInference.CommandLine

inductive Tool where
  | pattern
  | dump
deriving DecidableEq

def Tool.name : Tool → String
  | pattern => "patgen"
  | dump => "patgen-dump"

inductive ReadFailure where
  | notFound
  | isDirectory
  | notText
  | other (reason : String)
deriving DecidableEq

def ReadFailure.message : ReadFailure → String
  | notFound => "No such file or directory (os error 2)"
  | isDirectory => "Is a directory (os error 21)"
  | notText => "stream did not contain valid UTF-8"
  | other reason => reason

inductive Failure where
  | unknownOption (arg : String)
  | unreadable (source : String) (why : ReadFailure)
  | inference (error : Error)
deriving DecidableEq

def Failure.message : Failure → String
  | unknownOption arg => "unknown option `" ++ arg ++ "` (see --help)"
  | unreadable source why => "failed to read " ++ source ++ ": " ++ why.message
  | inference error => error.message

/-- What a run leaves behind. The log that `-v` asks for is left out of `stderr`. -/
structure Result where
  code : Nat
  stdout : String
  stderr : String
deriving DecidableEq

-- lines are cut before they are decoded
def decode? (line : List UInt8) : Option (List Char) :=
  (ByteArray.mk line.toArray).utf8Decode?.map Array.toList

def samplesOfBytes? (bytes : ByteArray) : Option (List (List Char)) := do
  let lines ← (Text.splitLines 10 13 bytes.data.toList).mapM decode?
  return lines.filter fun line => !Text.isBlank line

abbrev Files := String → Except ReadFailure ByteArray

def samplesFrom (source : String) (bytes : ByteArray) : Except Failure (List (List Char)) :=
  match samplesOfBytes? bytes with
  | some samples => .ok samples
  | none => .error (.unreadable source .notText)

def samplesOf (files : Files) (stdin : ByteArray) : List String → Except Failure (List (List Char))
  | [] => .ok []
  | name :: rest =>
    if name = "-" then do
      let samples ← samplesFrom name stdin
      return samples ++ (← samplesOf files .empty rest)
    else
      match files name with
      | .error why => .error (.unreadable name why)
      | .ok bytes => do
        let samples ← samplesFrom name bytes
        return samples ++ (← samplesOf files stdin rest)

def samples (files : Files) (stdin : ByteArray) (names : List String) :
    Except Failure (List (List Char)) :=
  if names = [] then samplesFrom "stdin" stdin else samplesOf files stdin names

def output (tool : Tool) (options : Options) (samples : List (List Char)) : Except Error (List Char) :=
  let i := (Inference.create options).load samples
  match tool with
  | .pattern => return (← i.pattern false) ++ ['\n']
  | .dump => return (← (← i.automaton false).dump).print

def commonHelp : List String :=
  ["  -v, -vv           Log pipeline phases (debug, trace) to stderr",
    "  -h, --help        Print this help"]

def Tool.help : Tool → List String
  | pattern =>
    ["patgen: Infer a regular expression matching every sample string.",
      "",
      "Usage: patgen [OPTIONS] [FILE...]",
      "",
      "Reads samples from FILEs (or stdin), one per line; blank lines are skipped.",
      "",
      "Options:",
      "  --no-simplify     Print the solved expression without factoring",
      "  --no-interior     Do not factor substrings out of the middle of samples",
      "  --group           Group edges sharing a predecessor while solving",
      "  --anchored        Wrap the pattern as ^(?:...)$"] ++ commonHelp
  | dump =>
    ["patgen-dump: Print the minimized automaton of the sample strings.",
      "",
      "Usage: patgen-dump [OPTIONS] [FILE...]",
      "",
      "Reads samples from FILEs (or stdin), one per line; blank lines are skipped.",
      "Prints a header line `<states> <transitions> <initial> <accepting>`,",
      "then one `<from> <symbol> <to>` line per transition and one line per",
      "accepting block.",
      "",
      "Options:"] ++ commonHelp

def text (lines : List String) : String := String.join (lines.map (· ++ "\n"))

def answer (tool : Tool) (args : List String) (stdin : ByteArray) (files : Files) :
    Except Failure (List Char) := do
  let settings ← (Settings.read {} args).mapError .unknownOption
  let samples ← samples files stdin settings.files
  (output tool settings.options samples).mapError .inference

def run (tool : Tool) (args : List String) (stdin : ByteArray) (files : Files) : Result :=
  if wantsHelp args then ⟨0, text tool.help, ""⟩
  else
    match answer tool args stdin files with
    | .ok out => ⟨0, String.ofList out, ""⟩
    | .error failure => ⟨1, "", text ["error: " ++ failure.message]⟩

end PatternInference.CommandLine
