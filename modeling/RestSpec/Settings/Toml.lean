/-
Settings from any notation, TOML among them, and to JSON. A missing member means its default;
unknown members and names that are not spelled exactly are refused.
-/
import RestSpec.Json.Decode
import RestSpec.Settings.Basic
import RestSpec.Toml.Parse

namespace RestSpec

open Json

variable {β : Type} (form : Form β)

/-- One of the values, by its name. -/
def ofExactName? {α : Type} (all : List α) (name : α → String) (v : β) : Option α :=
  (form.name? v).bind fun s => all.find? fun a => name a == s

namespace Security

/-- A scheme with its header: named, where other members are passed over, or one after the other. -/
def decode? (v : β) : Option Security := do
  match form.items? v with
  | some items =>
    match ← items.mapM form.text? with
    | ["basic"] => some basic
    | ["api-key"] => some (apiKey defaultHeader)
    | ["api-key", header] => some (apiKey header)
    | _ => none
  | none =>
    let fields ← form.members? v
    match ← fields.required? "scheme" form.text? with
    | "basic" => some basic
    | "api-key" => (fields.defaulted? "header" form.text? defaultHeader).map apiKey
    | _ => none

/-- A scheme as JSON, by its name, with its header if it has one. -/
def encode : Security → Json
  | basic => .obj [("scheme", str "basic")]
  | apiKey header => .obj [("scheme", str "api-key"), ("header", str header)]

end Security

namespace Settings

/-- The names of the settings, in the order in which a list of values gives them. -/
def memberNames : List String :=
  ["title", "version", "host", "base-path", "consumes", "produces", "elements", "strategy",
   "dialect", "use-module-name", "full-crud", "patch", "max-depth", "modules", "postprocess",
   "security"]

/-- The greatest number of levels that can be asked for. -/
def greatestDepth : Nat := Nat.pow 2 64 - 1

/-- A number of levels that is not negative and at most the `greatestDepth`. -/
def depth? (v : β) : Option Nat :=
  (form.whole? v).bind fun n => if 0 ≤ n ∧ n ≤ greatestDepth then some n.toNat else none

/-- The settings that a value states, by name or in order. -/
def decode? (v : β) : Option Settings := do
  let fields ← form.recordOrList? memberNames v
  let usual : Settings := {}
  return {
    title := ← form.optional? fields "title" form.text?
    version := ← fields.defaulted? "version" form.text? usual.version
    host := ← form.optional? fields "host" form.text?
    basePath := ← form.optional? fields "base-path" form.text?
    consumes := ← fields.defaulted? "consumes" form.texts? usual.consumes
    produces := ← fields.defaulted? "produces" form.texts? usual.produces
    elements := ← fields.defaulted? "elements"
      (form.list? (ofExactName? form Element.all Element.name)) usual.elements
    strategy := ← fields.defaulted? "strategy"
      (ofExactName? form Strategy.all Strategy.name) usual.strategy
    dialect := ← fields.defaulted? "dialect"
      (ofExactName? form Dialect.all Dialect.name) usual.dialect
    useModuleName := ← fields.defaulted? "use-module-name" form.truth? usual.useModuleName
    fullCrud := ← fields.defaulted? "full-crud" form.truth? usual.fullCrud
    patch := ← fields.defaulted? "patch" form.truth? usual.patch
    maxDepth := ← form.optional? fields "max-depth" (depth? form)
    modules := ← fields.defaulted? "modules" form.texts? usual.modules
    postprocess := ← fields.defaulted? "postprocess"
      (form.list? (ofExactName? form Pass.all Pass.name)) usual.postprocess
    security := ← form.optional? fields "security" (Security.decode? form) }

/-- Settings as JSON, with all members; `decode?` reads them back. -/
def encode (s : Settings) : Json :=
  .obj
    [("title", ofOption str s.title),
     ("version", str s.version),
     ("host", ofOption str s.host),
     ("base-path", ofOption str s.basePath),
     ("consumes", strings s.consumes),
     ("produces", strings s.produces),
     ("elements", strings (s.elements.map Element.name)),
     ("strategy", str s.strategy.name),
     ("dialect", str s.dialect.name),
     ("use-module-name", .bool s.useModuleName),
     ("full-crud", .bool s.fullCrud),
     ("patch", .bool s.patch),
     ("max-depth", ofOption (fun n : Nat => .int n) s.maxDepth),
     ("modules", strings s.modules),
     ("postprocess", strings (s.postprocess.map Pass.name)),
     ("security", ofOption Security.encode s.security)]

/-- The settings that a TOML text states. -/
def ofToml? (text : String) : Option Settings :=
  (Toml.parse? text).bind fun table => decode? Toml.form (.table .header table)

end Settings

end RestSpec
