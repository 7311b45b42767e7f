/-
Taking typed data out of a notation. What a decoder can ask of a value is gathered in a form, so
that one decoder reads every notation that has a form; it gives a value or refuses the input.
-/
namespace RestSpec

/-- The members of an object, in the order in which they stand. -/
abbrev Fields (β : Type) := List (String × β)

namespace Fields

variable {α β : Type}

/-- A name stands in the list more than once. -/
def hasRepetition : List String → Bool
  | [] => false
  | n :: rest => rest.contains n || hasRepetition rest

/-- No member twice, and none but those named. -/
def closed (allowed : List String) (fields : Fields β) : Bool :=
  !hasRepetition (fields.map (·.1)) && fields.all fun m => allowed.contains m.1

/-- A member that has to be there. -/
def required? (fields : Fields β) (name : String) (decode : β → Option α) : Option α :=
  (List.lookup name fields).bind decode

/-- A member that may be missing, with what stands for it then. -/
def defaulted? (fields : Fields β) (name : String) (decode : β → Option α) (missing : α) :
    Option α :=
  match List.lookup name fields with
  | none => some missing
  | some v => decode v

end Fields

/-- What can be asked of the values of a notation. -/
structure Form (α : Type) where
  /-- The value says that there is none. -/
  isNull : α → Bool
  /-- The value may follow a name that has nothing to add. -/
  isUnit : α → Bool
  text? : α → Option String
  truth? : α → Option Bool
  whole? : α → Option Int
  items? : α → Option (List α)
  members? : α → Option (Fields α)

namespace Form

variable {α β : Type} (form : Form β)

/-- A member that may be missing or null. -/
def optional? (fields : Fields β) (name : String) (decode : β → Option α) : Option (Option α) :=
  match List.lookup name fields with
  | none => some none
  | some v => if form.isNull v then some none else (decode v).map some

/-- The values of a list, if all of them can be read. -/
def list? (decode : β → Option α) (v : β) : Option (List α) :=
  (form.items? v).bind fun items => items.mapM decode

/-- A list of texts. -/
def texts? : β → Option (List String) := form.list? form.text?

/-- An object with the named members only. -/
def record? (names : List String) (v : β) : Option (Fields β) :=
  (form.members? v).bind fun fields => if fields.closed names then some fields else none

/-- An object with the named members only, or a list of values that take the names in order. -/
def recordOrList? (names : List String) (v : β) : Option (Fields β) :=
  match form.items? v with
  | some items => if items.length ≤ names.length then some (names.zip items) else none
  | none => form.record? names v

/-- A name: a text, or the only member of an object if its value adds nothing. -/
def name? (v : β) : Option String :=
  match form.members? v with
  | some [(name, value)] => if form.isUnit value then some name else none
  | some _ => none
  | none => form.text? v

end Form

end RestSpec
