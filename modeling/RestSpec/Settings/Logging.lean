/-
Settings of the log, from variables of the environment. What is not set, or not a truth value where
one is expected, has its default.
-/
import RestSpec.Text.Lowercase

namespace RestSpec

/-- The notations that events are logged in. -/
inductive LogFormat where
  | json
  | pretty
  deriving DecidableEq, Repr

/-- The name that a format is asked for by. -/
def LogFormat.name : LogFormat → String
  | json => "json"
  | pretty => "pretty"

/-- JSON if the text says so in any case, and else lines for people. -/
def LogFormat.ofText (s : String) : LogFormat :=
  if Text.lowercase s = "json" then json else pretty

/-- What is logged and how: the least `level`, the modules that count if not all do, and whether
places in the code show. -/
structure LogSettings where
  level : String := "info"
  format : LogFormat := .pretty
  targets : Option String := none
  location : Bool := false

/-- The truth value that a text spells, if it spells one. -/
def truthValue? : String → Option Bool
  | "true" => some true
  | "false" => some false
  | _ => none

/-- The settings that variables ask for, where `lookUp` finds one. -/
def LogSettings.ofVariables (lookUp : String → Option String) : LogSettings :=
  let usual : LogSettings := {}
  { level := (lookUp "Y2R_LOG_LEVEL").getD usual.level
    format := ((lookUp "Y2R_LOG_FORMAT").map LogFormat.ofText).getD usual.format
    targets := lookUp "Y2R_LOG_TARGETS"
    location := ((lookUp "Y2R_LOG_LOCATION").bind truthValue?).getD usual.location }

end RestSpec
