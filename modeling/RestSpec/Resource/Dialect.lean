/-
The dialects that resource paths are written in.
-/
import RestSpec.Error

namespace RestSpec

/-- `rfc8040` writes keys after an equals sign; `odl` and `segment` write each key as a segment of
its own, `odl` with a slash at the end. -/
inductive Dialect where
  | rfc8040
  | odl
  | segment
  deriving DecidableEq, Repr

namespace Dialect

/-- Every `Dialect`, in the order in which names are looked for. -/
def all : List Dialect := [rfc8040, odl, segment]

/-- The name that a dialect is asked for by. -/
def name : Dialect → String
  | rfc8040 => "rfc8040"
  | odl => "odl"
  | segment => "segment"

/-- The first segment of the paths of data. -/
def dataRoot : Dialect → String
  | odl => "config"
  | _ => "data"

/-- The dialect of a name, in any case. -/
def ofName (s : String) : Except ConfigError Dialect :=
  match s.map Char.toLower with
  | "rfc8040" | "restconf" => .ok rfc8040
  | "odl" => .ok odl
  | "segment" => .ok segment
  | _ => .error (.unknownDialect s)

end Dialect

end RestSpec
