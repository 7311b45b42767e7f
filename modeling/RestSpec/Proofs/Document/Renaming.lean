/-
What renaming does to a document, and all that it does. What a definition or an operation refers to
is replaced name by name, in the order in which it stands, each name once and by one look-up;
parents that become the same are kept once. The rest, which is the document with nothing written in
its references, does not change. Without new names the document stays as it is, repeated parents
too.
-/
import RestSpec.Proofs.Document.References

namespace RestSpec.Document

/-! ## The rest of a document -/

namespace Schema

mutual

/-- The schema with nothing written in its `reference`, at every depth. -/
def blank : Schema → Schema
  | ⟨reference, type, format, description, enumeration, default, pattern, readOnly, items,
      properties, required, extensions⟩ =>
    ⟨reference.map fun _ => "", type, format, description, enumeration, default, pattern, readOnly,
      blankItems items, blankProperties properties, required, extensions⟩

/-- The schema of an array's items, `blank`. -/
def blankItems : Option Schema → Option Schema
  | none => none
  | some s => some (blank s)

/-- The schemas of properties, each `blank`, under their names. -/
def blankProperties : List (String × Schema) → List (String × Schema)
  | [] => []
  | (name, s) :: rest => (name, blank s) :: blankProperties rest

end

mutual

theorem blank_rename (r : Renaming) : ∀ s : Schema, (s.rename r).blank = s.blank
  | ⟨reference, _, _, _, _, _, _, _, items, properties, _, _⟩ => by
    simp only [rename, blank]
    rw [blankItems_rename r items, blankProperties_rename r properties, Option.map_map]
    rfl

theorem blankItems_rename (r : Renaming) :
    ∀ s : Option Schema, blankItems (renameItems r s) = blankItems s
  | none => rfl
  | some s => congrArg some (blank_rename r s)

theorem blankProperties_rename (r : Renaming) : ∀ properties : List (String × Schema),
    blankProperties (renameProperties r properties) = blankProperties properties
  | [] => rfl
  | (name, s) :: rest => by
    simp only [renameProperties, blankProperties]
    rw [blank_rename r s, blankProperties_rename r rest]

end

end Schema

/-- The definition without `parents` and with nothing written in its other references. -/
def Definition.blank : Definition → Definition
  | simple s => simple s.blank
  | composed c => composed { c with parents := [], child := c.child.map Schema.blank }

theorem Definition.blank_rename (r : Renaming) (d : Definition) : (d.rename r).blank = d.blank := by
  cases d with
  | simple s => exact congrArg simple (Schema.blank_rename r s)
  | composed c =>
    simp only [rename, blank, Option.map_map]
    congr 2
    exact congrArg (c.child.map ·) (funext (Schema.blank_rename r))

/-- The operation with `Schema.blank` in the place of its payloads. -/
def Operation.blank (op : Operation) : Operation := op.mapPayloads Schema.blank

theorem Operation.blank_rename (r : Renaming) (op : Operation) : (op.rename r).blank = op.blank := by
  unfold blank rename
  rw [mapPayloads_mapPayloads]
  exact congrArg (op.mapPayloads ·) (funext (Schema.blank_rename r))

/-- The document with `blank` in the place of its definitions and operations: all that a renaming
must leave alone. -/
def blank (doc : Document) : Document :=
  mapOperations Operation.blank
    { doc with definitions := doc.definitions.mapValues Definition.blank }

theorem blank_rename (r : Renaming) (doc : Document) : (doc.rename r).blank = doc.blank := by
  have hdefinitions : (doc.definitions.mapValues (Definition.rename r)).mapValues
      Definition.blank = doc.definitions.mapValues Definition.blank := by
    simp only [Table.mapValues_mapValues, Function.comp_def, Definition.blank_rename]
  have hpaths : (doc.paths.mapValues (PathItem.map (Operation.rename r))).mapValues
      (PathItem.map Operation.blank) = doc.paths.mapValues (PathItem.map Operation.blank) := by
    simp only [Table.mapValues_mapValues, Function.comp_def, PathItem.map_map,
      Operation.blank_rename]
  unfold rename
  split
  · rfl
  · simp only [blank, mapOperations, hdefinitions, hpaths]

/-! ## What is referred to -/

/-- What a definition refers to under new names, by kind of edge; each parent is kept where its name
comes first. -/
def Definition.redirected (r : Renaming) : Definition → List (EdgeKind × String)
  | simple s => (s.references.map r.apply).map (EdgeKind.uses, ·)
  | composed c =>
    (c.parents.map r.apply).eraseDups.map (EdgeKind.inherits, ·) ++
      ((Schema.itemReferences c.child).map r.apply).map (EdgeKind.uses, ·)

theorem Definition.references_rename (r : Renaming) (d : Definition) :
    (d.rename r).references = d.redirected r := by
  cases d with
  | simple s => exact congrArg (List.map _) (Schema.references_rename r s)
  | composed c =>
    have hchild : Schema.itemReferences (c.child.map (Schema.rename r)) =
        (Schema.itemReferences c.child).map r.apply := by
      cases c.child with
      | none => rfl
      | some s => exact Schema.references_rename r s
    simp only [rename, references, redirected, distinct_eq_eraseDups, hchild]

theorem rename_of_isEmpty {r : Renaming} (h : r.isEmpty = true) (doc : Document) :
    doc.rename r = doc := if_pos h

theorem definitions_rename {r : Renaming} (h : r.isEmpty = false) (doc : Document) :
    (doc.rename r).definitions = doc.definitions.mapValues (Definition.rename r) := by
  unfold rename
  rw [h]
  rfl

theorem operation?_rename (r : Renaming) (doc : Document) (path : String) (m : Method) :
    (doc.rename r).operation? path m = (doc.operation? path m).map (Operation.rename r) := by
  cases h : r.isEmpty with
  | true =>
    have hsame : Operation.rename r = id := by
      rw [Table.eq_empty h]
      exact funext Operation.rename_empty
    rw [rename_of_isEmpty h, hsame, Option.map_id]
    rfl
  | false =>
    unfold rename
    rw [h]
    exact operation?_mapOperations _ _ path m

/-- `Renaming.apply` looks a name up once, so it gives way to a name that stays, if no new name is
an old one. -/
theorem Renaming.contains_apply {r : Renaming}
    (hr : ∀ n m, r.find? n = some m → r.contains m = false) (n : String) :
    r.contains (r.apply n) = false := by
  cases h : r.find? n with
  | none => rw [apply_of_none h, Table.contains, h]; rfl
  | some m => rw [apply_of_find? h]; exact hr n m h

theorem Definition.exists_of_mem_redirected {r : Renaming} {d : Definition} {e : EdgeKind × String}
    (h : e ∈ d.redirected r) : ∃ n, r.apply n = e.2 := by
  cases d with
  | simple s =>
    obtain ⟨_, hm, rfl⟩ := List.mem_map.1 h
    obtain ⟨n, -, rfl⟩ := List.mem_map.1 hm
    exact ⟨n, rfl⟩
  | composed c =>
    rcases List.mem_append.1 h with h | h
    · obtain ⟨_, hm, rfl⟩ := List.mem_map.1 h
      obtain ⟨n, -, rfl⟩ := List.mem_map.1 (List.mem_eraseDups.1 hm)
      exact ⟨n, rfl⟩
    · obtain ⟨_, hm, rfl⟩ := List.mem_map.1 h
      obtain ⟨n, -, rfl⟩ := List.mem_map.1 hm
      exact ⟨n, rfl⟩

/-- All that a renamed document refers to is `apply` of a name that it referred to before. -/
theorem exists_of_mem_locatedReferences {r : Renaming} {doc : Document} {ref : Dangling}
    (h : ref ∈ (doc.rename r).locatedReferences) : ∃ n, r.apply n = ref.reference := by
  rcases List.mem_append.1 h with h | h
  · obtain ⟨⟨n, d⟩, hd, href⟩ := List.mem_flatMap.1 h
    obtain ⟨e, he, rfl⟩ := List.mem_map.1 href
    cases hempty : r.isEmpty with
    | true => exact ⟨e.2, by rw [Table.eq_empty hempty]; rfl⟩
    | false =>
      rw [definitions_rename hempty, Table.mem_entries_iff, Table.find?_mapValues] at hd
      obtain ⟨d, -, rfl⟩ := Option.map_eq_some_iff.1 hd
      rw [Definition.references_rename] at he
      exact Definition.exists_of_mem_redirected he
  · obtain ⟨⟨path, m, op⟩, hop, href⟩ := List.mem_flatMap.1 h
    obtain ⟨_, hn, rfl⟩ := List.mem_map.1 href
    rw [mem_operations_iff, operation?_rename] at hop
    obtain ⟨op, -, rfl⟩ := Option.map_eq_some_iff.1 hop
    rw [Operation.references_rename] at hn
    obtain ⟨n, -, rfl⟩ := List.mem_map.1 hn
    exact ⟨n, rfl⟩

/-! ## Renaming a document -/

/-- `Document.rename` redirects each operation and each definition to the new names, with repeated
parents dropped unless the renaming is empty. The document stays the same up to `blank`, and where
no new name is an old one, no old name is referred to. -/
theorem rename_redirects (r : Renaming) (doc : Document) :
    (r.isEmpty = true → doc.rename r = doc) ∧
    (∀ path m, ((doc.rename r).operation? path m).map (·.references) =
      (doc.operation? path m).map fun op => op.references.map r.apply) ∧
    (∀ n s, doc.definitions.find? n = some (.simple s) →
      ((doc.rename r).definitions.find? n).map (·.references) =
        some ((s.references.map r.apply).map (EdgeKind.uses, ·))) ∧
    (r.isEmpty = false → ∀ n c, doc.definitions.find? n = some (.composed c) →
      ((doc.rename r).definitions.find? n).map (·.references) =
        some ((c.parents.map r.apply).eraseDups.map (EdgeKind.inherits, ·) ++
          ((Schema.itemReferences c.child).map r.apply).map (EdgeKind.uses, ·))) ∧
    (doc.rename r).blank = doc.blank ∧
    ((∀ n m, r.find? n = some m → r.contains m = false) →
      ∀ ref ∈ (doc.rename r).locatedReferences, r.contains ref.reference = false) := by
  have hdefinition : r.isEmpty = false → ∀ n d, doc.definitions.find? n = some d →
      ((doc.rename r).definitions.find? n).map (·.references) = some (d.redirected r) := by
    intro hne n d hd
    rw [definitions_rename hne, Table.find?_mapValues, hd]
    exact congrArg some (Definition.references_rename r d)
  refine ⟨fun h => rename_of_isEmpty h doc, fun path m => ?_, fun n s hs => ?_,
    fun hne n c hc => hdefinition hne n _ hc, blank_rename r doc, fun hr ref href => ?_⟩
  · rw [operation?_rename, Option.map_map]
    exact congrArg ((doc.operation? path m).map ·) (funext (Operation.references_rename r))
  · -- only a list of parents is thinned, so a simple definition makes no exception of an empty map
    cases hempty : r.isEmpty with
    | false => exact hdefinition hempty n _ hs
    | true =>
      have hsame : r.apply = id := by
        rw [Table.eq_empty hempty]
        exact funext Renaming.apply_empty
      rw [rename_of_isEmpty hempty, hs, hsame, List.map_id]
      rfl
  · obtain ⟨n, hn⟩ := exists_of_mem_locatedReferences href
    rw [← hn]
    exact Renaming.contains_apply hr n

/-- `Base` is the first parent of `Pair`, and what a property and an operation refer to. -/
def pairing : Document where
  paths := Table.ofList [("/pair", { get := some (Operation.withResponse {} "200"
    { description := "", schema := some (.referenceTo "Base") }) })]
  definitions := Table.ofList
    [("Base", .simple (.object [])), ("Extra", .simple (.object [])),
      ("Pair", .composed
        { parents := ["Base", "Extra"], child := some (.object [("base", .referenceTo "Base")]) })]

/-- The renaming that lets `Extra` stand for `Base`. -/
def baseToExtra : Renaming := Table.ofList [("Base", "Extra")]

/-- With `Extra` for `Base`, `Pair` has one parent, and nothing refers to `Base`. -/
theorem rename_redirects_pairing :
    baseToExtra.isEmpty = false ∧
    ((pairing.rename baseToExtra).definitions.find? "Pair").map (·.references) =
      some [(EdgeKind.inherits, "Extra"), (EdgeKind.uses, "Extra")] ∧
    ∀ ref ∈ (pairing.rename baseToExtra).locatedReferences,
      baseToExtra.contains ref.reference = false := by
  obtain ⟨-, -, -, hcomposed, -, hgone⟩ := rename_redirects baseToExtra pairing
  have htargets : ∀ n m, baseToExtra.find? n = some m → baseToExtra.contains m = false := by
    have hall : ∀ e ∈ baseToExtra.entries, baseToExtra.contains e.2 = false := by decide
    exact fun n m h => hall (n, m) (Table.mem_entries_iff.2 h)
  refine ⟨by decide, (hcomposed (by decide) "Pair" _ rfl).trans ?_, hgone htargets⟩
  decide +kernel

/-- In `pairing`, exchanged names are each looked up once, so that neither comes back to itself. -/
example : ((pairing.rename (Table.ofList [("Base", "Extra"), ("Extra", "Base")])).definitions.find?
    "Pair").map (·.parents) = some ["Extra", "Base"] := by decide +kernel

/-! ## No new names -/

/-- `Pair` has one parent twice. -/
def doubled : Document where
  definitions := Table.ofList
    [("Base", .simple (.object [])), ("Pair", .composed { parents := ["Base", "Base"] })]

/-- In `doubled` the empty renaming keeps the repeated parent, which `redirected` would drop. -/
theorem doubled_keeps_parents :
    ∃ c, doubled.definitions.find? "Pair" = some (.composed c) ∧
      ((doubled.rename ∅).definitions.find? "Pair").map (·.references) ≠
        some ((c.parents.map (Renaming.apply ∅)).eraseDups.map (EdgeKind.inherits, ·) ++
          ((Schema.itemReferences c.child).map (Renaming.apply ∅)).map (EdgeKind.uses, ·)) :=
  ⟨_, rfl, by decide +kernel⟩

end RestSpec.Document
