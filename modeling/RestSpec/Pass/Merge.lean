/-
Two passes that let one definition stand for another: `collapseDuplicates` merges compositions of
the same parents, `replaceEmpty` puts its parent in the place of a composition that adds nothing.
Each works in rounds. A round picks definitions, takes them out and points all references at what
stands for them; the pass ends with the first round that picks none.
-/
import RestSpec.Document.Basic

namespace RestSpec.Document

/-! ## Rounds -/

/-- Takes out the renamed definitions, by `without`, and lets their new names stand for them, by
`rename`. -/
def substitute (newNames : Renaming) (doc : Document) : Document :=
  (doc.without newNames.names).rename newNames

/-- At most `rounds` substitutions, until there is none to make. -/
def substituteRepeatedly (choose : Document → Renaming) : Nat → Document → Document
  | 0, doc => doc
  | rounds + 1, doc =>
    let newNames := choose doc
    if newNames.isEmpty then doc
    else substituteRepeatedly choose rounds (doc.substitute newNames)

/-- Calls `substitute` until there is nothing to choose. Every round takes out a definition, so
there are no more rounds than definitions. -/
def substituteAll (choose : Document → Renaming) (doc : Document) : Document :=
  substituteRepeatedly choose doc.definitions.entries.length doc

/-! ## Compositions of the same parents -/

/-- The set of parents as one text: in ascending order, each once, each closed by `Char.ofNat 0`. -/
def parentSignature (parents : List String) : String :=
  String.join ((Table.ofList (parents.map (·, ()))).names.map (·.push (Char.ofNat 0)))

/-- The definitions that are compositions without a `child`, with their signatures. -/
def bareCompositions (doc : Document) : List (String × String) :=
  doc.definitions.entries.filterMap fun (name, d) =>
    match d with
    | .composed ⟨parent :: parents, none, _⟩ => some (name, parentSignature (parent :: parents))
    | _ => none

/-- A name of fewer bytes goes before one of more, by `utf8ByteSize`; names of one size go in
ascending order. -/
def shorter (a b : String) : Bool :=
  a.utf8ByteSize < b.utf8ByteSize || (a.utf8ByteSize == b.utf8ByteSize && a < b)

/-- The name that goes before all others by `shorter`; of equal ones the first. -/
def shortest (first : String) (others : List String) : String :=
  others.foldl (fun best n => if shorter n best then n else best) first

/-- Of the `bareCompositions` of one signature, all get the name of the `shortest`. -/
def duplicates (doc : Document) : Renaming :=
  let bare := doc.bareCompositions
  Table.ofList <| bare.filterMap fun (name, signature) =>
    let same := (bare.filter (·.2 == signature)).map (·.1)
    let survivor := shortest name same
    if survivor = name then none else some (name, survivor)

/-- Merges compositions of the same parents into the one with the `shortest` name, in rounds. -/
def collapseDuplicates (doc : Document) : Document := doc.substituteAll duplicates

/-! ## Compositions that add nothing -/

/-- The parent of a composition of one parent that has no properties of its own, whatever else its
`child` says. -/
def Definition.onlyParent? : Definition → Option String
  | .composed ⟨[parent], child, _⟩ =>
    if (child.map (·.properties)).getD [] |>.isEmpty then some parent else none
  | _ => none

/-- The parents of the compositions that have an `onlyParent?`, by name. -/
def onlyParents (doc : Document) : Renaming :=
  Table.ofList <| doc.definitions.entries.filterMap fun e => e.2.onlyParent?.map (e.1, ·)

/-- From parent to parent, up to the last one that is not replaced itself or that leads back to
`start`. -/
def lastParent (parents : Renaming) (start : String) : Nat → String → String
  | 0, name => name
  | steps + 1, name =>
    match parents.find? name with
    | none => name
    | some next => if next = start then name else lastParent parents start steps next

/-- The `lastParent` of a composition that adds nothing, unless that is the composition itself. -/
def replacement? (parents : Renaming) (name parent : String) : Option String :=
  let target := lastParent parents name (parents.entries.length + 1) parent
  if target = name then none else some target

/-- Compositions that add nothing, those of `onlyParents`, each with its `replacement?`. -/
def emptyCompositions (doc : Document) : Renaming :=
  let parents := doc.onlyParents
  Table.ofList <| parents.entries.filterMap fun e => (replacement? parents e.1 e.2).map (e.1, ·)

/-- Puts the last of the `onlyParents` in the place of compositions that add nothing, in rounds. -/
def replaceEmpty (doc : Document) : Document := doc.substituteAll emptyCompositions

end RestSpec.Document
