/-
Paths: routes as text. A dialect says how the parameters of a segment are written and whether a
path ends in a slash. The path of a collection leaves out the parameters of the last segment and
always ends in a slash.
-/
import RestSpec.Resource.Dialect
import RestSpec.Resource.Route

namespace RestSpec

namespace Dialect

/-- A parameter in braces. -/
def placeholder (name : String) : String := "\x7b" ++ name ++ "\x7d"

/-- The parameters of a segment as they follow its name, each a `placeholder`: in `rfc8040` after an
equals sign with commas between, or else as segments of their own. -/
def writeParameters (d : Dialect) (names : List String) : String :=
  match d, names with
  | _, [] => ""
  | rfc8040, names => "=" ++ ",".intercalate (names.map placeholder)
  | _, names => String.join (names.map fun n => "/" ++ placeholder n)

end Dialect

namespace Segment

/-- The name of a segment in a path, with that of its module and a colon before it if
`useModuleName` is set. -/
def label (useModuleName : Bool) (s : Segment) : String :=
  if useModuleName then s.moduleName ++ ":" ++ s.name else s.name

/-- The segment with its parameters. -/
def write (d : Dialect) (useModuleName : Bool) (s : Segment) : String :=
  s.label useModuleName ++ d.writeParameters (s.parameters.map (·.name))

end Segment

/-- The path with a slash at its end, be there one or not. -/
def withFinalSlash (path : String) : String :=
  if path.toList.getLast? == some '/' then path else path ++ "/"

namespace Route

/-- The path of what a route leads to: each segment by `write`, and in `odl` a final slash. -/
def path (d : Dialect) (useModuleName : Bool) (route : Route) : String :=
  let text := "/".intercalate (route.map (Segment.write d useModuleName))
  match d with
  | .odl => withFinalSlash text
  | _ => text

/-- The path of the list that a route leads to an entry of: as `path`, but of the last segment only
the `label` is written, and a final slash in every dialect. -/
def listPath (d : Dialect) (useModuleName : Bool) (route : Route) : String :=
  let whole := route.dropLast.map (Segment.write d useModuleName)
  let last := route.getLast?.toList.map (Segment.label useModuleName)
  withFinalSlash ("/".intercalate (whole ++ last))

end Route

end RestSpec
