/-
Taking values out of JSON, and the order in which the members of its objects are compared.
-/
import RestSpec.Form
import RestSpec.Json.Basic
import RestSpec.Table

namespace RestSpec.Json

/-- The text that the value is, if it is one. -/
def asString? : Json → Option String
  | str s => some s
  | _ => none

/-- The truth value that the value is, if it is one. -/
def asBool? : Json → Option Bool
  | bool b => some b
  | _ => none

/-- The whole number that the value is, if it is one; decimals are not, be they whole or not. -/
def asInt? : Json → Option Int
  | int n => some n
  | _ => none

/-- The whole number that the value is, if it is one and not negative. -/
def asNat? (v : Json) : Option Nat :=
  v.asInt?.bind fun n => if 0 ≤ n then some n.toNat else none

/-- The items of an array. -/
def asItems? : Json → Option (List Json)
  | arr items => some items
  | _ => none

/-- The members of an object, in their order. -/
def asMembers? : Json → Option (Fields Json)
  | obj members => some members
  | _ => none

/-- The value is `null`, which stands for a missing one. -/
def isNull : Json → Bool
  | null => true
  | _ => false

/-- What JSON says of its values; null adds nothing to a name. -/
def form : Form Json where
  isNull := isNull
  isUnit := isNull
  text? := asString?
  truth? := asBool?
  whole? := asInt?
  items? := asItems?
  members? := asMembers?

mutual

/-- The value with the members of each object in ascending order, the last of a name alone. -/
def sorted : Json → Json
  | arr items => arr (sortedItems items)
  | obj members => obj (Entries.ofList (sortedMembers members))
  | v => v

/-- What `sorted` makes of the items of an array. -/
def sortedItems : List Json → List Json
  | [] => []
  | v :: rest => sorted v :: sortedItems rest

/-- What `sorted` makes of the values in an object, under the same names. -/
def sortedMembers : List (String × Json) → List (String × Json)
  | [] => []
  | (name, v) :: rest => (name, sorted v) :: sortedMembers rest

end

end RestSpec.Json
