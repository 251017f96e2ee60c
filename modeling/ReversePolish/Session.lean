/-
Sessions: a machine with the standard vocabulary, set up by settings and a prelude, that evaluates lines and files.
-/
import ReversePolish.Settings
import ReversePolish.Vocabulary

namespace ReversePolish

/-- a fault in a file and the line it is on, from 1; line 0 stands for a file that cannot be read -/
structure FileFault where
  line : Nat
  fault : Fault

def FileFault.message (f : FileFault) : String :=
  "line " ++ Decimal.integer f.line ++ ": " ++ f.fault.message

inductive SessionError where
  /-- a line stopped at a failing word, with this status -/
  | eval (kind : FaultClass) (status : String)
  | file (fault : FileFault)
  | settings (error : SettingsError)
  /-- a line of the prelude, counted from 0, failed with this status -/
  | prelude (index : Nat) (status : String)
  /-- a standard package could not be added -/
  | package (fault : Fault)

namespace SessionError

def message : SessionError → String
  | .eval _ status => status
  | .file fault => fault.message
  | .settings error => error.message
  | .prelude index status => "prelude line " ++ Decimal.integer index ++ ": " ++ status
  | .package fault => "registering packages: " ++ fault.message

end SessionError

namespace Session

/-- evaluates the lines of a prelude, the first of which has the given index -/
def runPrelude : Nat → List String → Machine → Except SessionError Machine
  | _, [], m => .ok m
  | index, line :: rest, m =>
    match Machine.eval line m with
    | .ok _ m' => runPrelude (index + 1) rest m'
    | .error _ m' => .error (.prelude index m'.status)

/-- a new session -/
def start (s : Settings) : Except SessionError Machine :=
  match Machine.addStandard (s.apply Machine.core) with
  | .error fault _ => .error (.package fault)
  | .ok _ m =>
    (runPrelude 0 s.prelude m).map fun m => m.record (.sessionReady m.dictionary.size s.prelude.length)

/-- evaluates a line -/
def evalLine (line : String) (m : Machine) : Except SessionError Unit × Machine :=
  match Machine.eval line m with
  | .ok _ m' => (.ok (), m')
  | .error fault m' => (.error (.eval fault.kind m'.status), m')

/-- evaluates lines, the first of which has the given number, up to the first that fails -/
def runLines : Nat → List String → Machine → Except FileFault Unit × Machine
  | _, [], m => (.ok (), m)
  | number, line :: rest, m =>
    match Machine.eval line m with
    | .ok _ m' => runLines (number + 1) rest m'
    | .error fault m' => (.error ⟨number, fault⟩, m'.record (.fileStopped number m'.status))

/-- evaluates the text of a file line by line -/
def runText (text : String) (m : Machine) : Except FileFault Unit × Machine :=
  runLines 1 ((Text.lines text.toList).map String.ofList) m

/-- evaluates a file with the given content -/
def runFile (path : String) (content : Content) (m : Machine) : Except SessionError Unit × Machine :=
  match content with
  | .error error => (.error (.file ⟨0, .unreadable path error.message⟩), m)
  | .ok text =>
    match runText text m with
    | (.ok _, m') => (.ok (), m')
    | (.error fault, m') => (.error (.file fault), m')

/-- evaluates a line on a fresh session and gives the stack from the bottom up -/
def evaluate (line : String) : Except Fault (List Value) :=
  match (do Machine.addStandard; Machine.eval line : MachineM Unit) Machine.core with
  | .ok _ m => .ok m.stack.bottomUp
  | .error fault _ => .error fault

end Session

end ReversePolish
