/-
Settings of a machine: limits, tracing, and lines to evaluate at the start.

A file of settings has up to four entries, each at most once. What it does not set keeps its default.
-/
import ReversePolish.Machine.Run
import ReversePolish.Settings.Toml
import ReversePolish.Text.Content

namespace ReversePolish

structure Settings where
  /-- no limit unless set -/
  maxStackDepth : Option Nat := none
  maxCallDepth : Nat := defaultCallDepth
  trace : Bool := false
  prelude : List String := []

inductive SettingsError where
  | unreadable (path : String) (error : ReadError)
  | malformed (path : String)
  | invalid (path reason : String)

namespace SettingsError

def message : SettingsError → String
  | .unreadable path error => "failed to read config at " ++ path ++ ": " ++ error.message
  | .malformed path => "failed to parse config at " ++ path ++ ": malformed settings"
  | .invalid path reason => "invalid config in " ++ path ++ ": " ++ reason

end SettingsError

namespace Settings

/-- takes over an entry; unknown keys and values of another type are refused -/
def set? (s : Settings) : String × Toml.Value → Option Settings
  | ("max_stack_depth", .integer n) => some { s with maxStackDepth := some n }
  | ("max_call_depth", .integer n) => some { s with maxCallDepth := n }
  | ("trace", .boolean b) => some { s with trace := b }
  | ("prelude", .strings texts) => some { s with prelude := texts }
  | _ => none

/-- what is wrong with settings that a file gives, if anything -/
def problem? (s : Settings) : Option String :=
  if s.maxStackDepth = some 0 then some "max_stack_depth must be at least 1"
  else if s.maxCallDepth = 0 then some "max_call_depth must be at least 1"
  else
    (s.prelude.findIdx? fun line => (Text.trim line.toList).isEmpty).map fun i =>
      "prelude line " ++ Decimal.integer i ++ " is empty"

/-- the settings that a text gives; the path is for the error -/
def parse (path text : String) : Except SettingsError Settings :=
  match (Toml.read? text).bind fun entries => entries.foldlM set? {} with
  | none => .error (.malformed path)
  | some s =>
    match s.problem? with
    | some reason => .error (.invalid path reason)
    | none => .ok s

/-- the settings of a file with the given content -/
def load (path : String) : Content → Except SettingsError Settings
  | .ok text => parse path text
  | .error error => .error (.unreadable path error)

/-- sets the limits and the tracing of a machine; the prelude is for its session -/
def apply (s : Settings) (m : Machine) : Machine :=
  { m with
    stack := { m.stack with limit := s.maxStackDepth }
    maxCallDepth := s.maxCallDepth
    tracing := s.trace }

end Settings

end ReversePolish
