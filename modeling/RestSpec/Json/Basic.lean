/-
JSON values. Whole numbers and fractions are kept apart, and an object is the list of its members
in the order in which they are written.
-/
import RestSpec.Number.Decimal

namespace RestSpec

/-- JSON values. Numbers are whole or decimal, and the members of an object keep their order. -/
inductive Json where
  | null
  | bool (value : Bool)
  | int (value : Int)
  | decimal (value : Decimal)
  | str (value : String)
  | arr (items : List Json)
  | obj (members : List (String × Json))
  deriving Inhabited

namespace Json

/-- An array of texts. -/
def strings (values : List String) : Json := arr (values.map str)

/-- A value that may be missing, which `null` stands for. -/
def ofOption {α : Type} (encode : α → Json) : Option α → Json
  | some a => encode a
  | none => null

/-- A member that is left out when there is no value. -/
def optional {α : Type} (name : String) (encode : α → Json) : Option α → List (String × Json)
  | some a => [(name, encode a)]
  | none => []

/-- A member that is left out when the list is empty. -/
def nonEmpty {α : Type} (name : String) (encode : List α → Json) : List α → List (String × Json)
  | [] => []
  | as => [(name, encode as)]

mutual

/-- How many arrays and objects lie around the innermost value. -/
def depth : Json → Nat
  | arr items => depthOfItems items + 1
  | obj members => depthOfMembers members + 1
  | _ => 0

/-- The greatest `depth` among the items of an array. -/
def depthOfItems : List Json → Nat
  | [] => 0
  | v :: rest => max (depth v) (depthOfItems rest)

/-- The greatest `depth` among the values in an object. -/
def depthOfMembers : List (String × Json) → Nat
  | [] => 0
  | (_, v) :: rest => max (depth v) (depthOfMembers rest)

end

end Json

end RestSpec
