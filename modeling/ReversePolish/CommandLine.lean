/-
The command line: its arguments, and what a run prints.

A run evaluates one source of words: a line, a file, or the lines of its input. It ends with the stack, printed from the
bottom up, and with failure if a word failed. A line or a file stops at its first failing word; input goes on with the
next line.
-/
import ReversePolish.Session

namespace ReversePolish.CommandLine

def usage : String :=
  String.intercalate "\n"
    ["Usage: rpn [OPTIONS] [FILE]", "", "Arguments:", "  [FILE]  Word-source file to evaluate line by line", "",
      "Options:", "  -e <LINE>        Evaluate LINE", "  --config <PATH>  Load interpreter settings from a TOML file",
      "  -h, --help       Print this help message", "", "If no FILE or -e is given, reads lines from stdin.",
      "Set RUST_LOG to adjust diagnostics (default: warn,rpn::trace=info)."]

/-! ## Arguments -/

/-- where the words come from -/
inductive Source where
  | line (text : String)
  | file (path : String)
  | input
deriving DecidableEq

inductive Command where
  | help
  | run (source : Source) (settings : Option String)
deriving DecidableEq

inductive UsageError where
  | missingLine
  | missingPath
  | unknownOption (option : String)
  | manySources
deriving DecidableEq

def UsageError.message : UsageError → String
  | .missingLine => "-e needs a line"
  | .missingPath => "--config needs a path"
  | .unknownOption option => "unknown option " ++ option ++ "\n\n" ++ usage
  | .manySources => usage

/-- Reads the arguments from left to right, given the source and the path of the settings found so far. Of several paths
the last one counts, and a second source is an error. The first error or request for help ends the reading. -/
def parseFrom (source : Option Source) (settings : Option String) : List String → Except UsageError Command
  | [] => .ok (.run (source.getD .input) settings)
  | "-h" :: _ | "--help" :: _ => .ok .help
  | ["-e"] => .error .missingLine
  | ["--config"] => .error .missingPath
  | "--config" :: path :: rest => parseFrom source (some path) rest
  | "-e" :: text :: rest => if source.isSome then .error .manySources else parseFrom (some (.line text)) settings rest
  | arg :: rest =>
    if arg = "-" then if source.isSome then .error .manySources else parseFrom (some .input) settings rest
    else if arg.toList.head? = some '-' then .error (.unknownOption arg)
    else if source.isSome then .error .manySources
    else parseFrom (some (.file arg)) settings rest

def parse (args : List String) : Except UsageError Command := parseFrom none none args

/-! ## Runs -/

/-- what a run prints, line by line, and whether it succeeds -/
structure Outcome where
  output : List String := []
  errors : List String := []
  success : Bool

/-- what a run can read -/
structure Surroundings where
  file : String → Content
  input : List UInt8

/-- the stack, printed from the bottom up -/
def stackLines (m : Machine) : List String := m.stack.bottomUp.map Value.text

/-- a run that cannot start -/
def refuse (message : String) : Outcome := { errors := [message], success := false }

/-- the end of a run of a line or a file -/
def finish : Except SessionError Unit × Machine → Outcome
  | (.ok _, m) => { output := stackLines m, success := true }
  | (.error (.eval _ status), m) => { output := stackLines m ++ [status], success := false }
  | (.error (.file fault), m) =>
    let status := if fault.line = 0 then [] else [m.status]
    { output := stackLines m ++ status, errors := [fault.message], success := false }
  | (.error error, m) => { output := stackLines m, errors := [error.message], success := false }

/-- evaluates lines of input: the complaints about failing lines, and the machine in the end. A line that is not text
ends the input. -/
def runInput : List (List UInt8) → Machine → List String × Machine
  | [], m => ([], m)
  | bytes :: rest, m =>
    match Content.ofBytes ⟨bytes.toArray⟩ with
    | .error error => (["error reading stdin: " ++ error.message], m)
    | .ok line =>
      match Session.evalLine line m with
      | (.ok _, m') => runInput rest m'
      | (.error error, m') =>
        let (complaints, last) := runInput rest m'
        (error.message :: complaints, last)

def runSource (around : Surroundings) (m : Machine) : Source → Outcome
  | .line text => finish (Session.evalLine text m)
  | .file path => finish (Session.runFile path (around.file path) m)
  | .input =>
    let (complaints, last) := runInput (Text.byteLines around.input) m
    { output := stackLines last, errors := complaints, success := complaints.isEmpty }

/-- a new session with the settings of a file, if one is named -/
def startSession (around : Surroundings) : Option String → Except SessionError Machine
  | none => Session.start {}
  | some path =>
    match Settings.load path (around.file path) with
    | .ok settings => Session.start settings
    | .error error => .error (.settings error)

def execute (around : Surroundings) : Except UsageError Command → Outcome
  | .error error => refuse error.message
  | .ok .help => { output := [usage], success := true }
  | .ok (.run source settings) =>
    match startSession around settings with
    | .ok m => runSource around m source
    | .error error => refuse error.message

end ReversePolish.CommandLine
