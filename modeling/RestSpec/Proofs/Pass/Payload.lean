/-
Passes on operations touch neither definitions nor references, nor the parameters in a path: a
wrapped payload refers to what the payload refers to, and a requirement refers to nothing.
-/
import Mathlib.Tactic
import RestSpec.Pass.Payload
import RestSpec.Proofs.Document.Effective

namespace RestSpec.Document

@[simp]
theorem Schema.references_wrap (key : String) (s : Schema) :
    (s.wrap key).references = s.references := by
  unfold wrap
  split
  · simp [references_object, propertyReferences]
  · rfl

@[simp]
theorem Operation.references_wrap (request response : String) (op : Operation) :
    (op.wrap request response).references = op.references := by
  have h : ∀ {α : Type} (key : String) (l : List α) (schema : α → Option Schema),
      (l.filterMap fun a => (schema a).map (Schema.wrap key)).flatMap (·.references) =
        (l.filterMap schema).flatMap (·.references) := by
    intro α key l schema
    rw [← List.map_filterMap, List.flatMap_map]
    simp only [Schema.references_wrap]
  simp only [references, payloads, wrap, List.flatMap_append, List.filterMap_map,
    Function.comp_def, Table.values, Table.mapValues, Table.map, List.map_map, h]

@[simp]
theorem Operation.references_secure (name : String) (op : Operation) :
    (op.secure name).references = op.references := by
  unfold secure
  split <;> rfl

/-! ## Parameters in the path -/

/-- Parameters with other schemas stand in the same place under the same names. -/
theorem pathNames_withSchemas (f : Schema → Schema) (ps : List Parameter) :
    ((ps.map fun p => { p with schema := p.schema.map f }).filter (·.location == .path)).map
      (·.name) = (ps.filter (·.location == .path)).map (·.name) := by
  rw [List.filter_map, List.map_map]
  rfl

@[simp]
theorem Operation.pathParameterNames_rename (newNames : Renaming) (op : Operation) :
    (op.rename newNames).pathParameterNames = op.pathParameterNames :=
  pathNames_withSchemas _ op.parameters

@[simp]
theorem Operation.pathParameterNames_wrap (request response : String) (op : Operation) :
    (op.wrap request response).pathParameterNames = op.pathParameterNames :=
  pathNames_withSchemas _ op.parameters

@[simp]
theorem Operation.pathParameterNames_secure (name : String) (op : Operation) :
    (op.secure name).pathParameterNames = op.pathParameterNames := by
  unfold secure
  split <;> rfl

/-! ## Documents -/

/-- Rewriting operations keeps the `pathReferences` of a document if it keeps the `references` of
each operation. -/
theorem pathReferences_map {doc doc' : Document} {f : String → Operation → Operation}
    (hf : ∀ path op, (f path op).references = op.references)
    (h : doc'.paths = doc.paths.map fun path item => item.map (f path)) :
    doc'.pathReferences = doc.pathReferences := by
  simp only [pathReferences, operations, h, Table.map, List.flatMap_map, PathItem.operations_map,
    List.map_map, List.flatMap_assoc, Function.comp_def, hf]

/-- What is asked by `WellFormed` depends on the `definitions` and `pathReferences` alone. -/
theorem WellFormed.of_eq {doc doc' : Document} (h : doc.WellFormed)
    (hd : doc'.definitions = doc.definitions) (hr : doc'.pathReferences = doc.pathReferences) :
    doc'.WellFormed := by
  refine ⟨⟨?_, ?_⟩, h.acyclic.mono fun a b hab => ?_, ?_⟩
  · rw [hd]; exact h.closed.definitions
  · rw [hd, hr]; exact h.closed.operations
  · unfold Inherits parentsOf at hab ⊢
    rw [hd] at hab
    exact hab
  · rw [hd]; exact h.nulFree

theorem Schema.wrap_eq (key : String) (s : Schema) :
    s.wrap key = if s.isReference ∨ s.type = some .array then Schema.object [(key, s)] else s := by
  unfold wrap
  refine if_congr ?_ rfl rfl
  rw [Bool.or_eq_true, beq_iff_eq]

theorem operation?_wrapPayloads (doc : Document) (path : String) (m : Method) :
    doc.wrapPayloads.operation? path m =
      (doc.operation? path m).map (Operation.wrap (payloadKeys path).1 (payloadKeys path).2) := by
  unfold operation? wrapPayloads
  rw [Table.find?_map]
  cases doc.paths.find? path with
  | none => rfl
  | some item => exact PathItem.find?_map _ item m

/-- `wrapPayloads` wraps all payloads of a path with the key that `payloadKeys` has for requests and
responses. -/
theorem operation?_wrapPayloads_of_keys {path key : String} (hkeys : payloadKeys path = (key, key))
    (doc : Document) (m : Method) :
    doc.wrapPayloads.operation? path m =
      (doc.operation? path m).map (Operation.mapPayloads (Schema.wrap key)) := by
  rw [operation?_wrapPayloads, hkeys]
  rfl

theorem wrapPayloads_wellFormed {doc : Document} (h : doc.WellFormed) :
    doc.wrapPayloads.WellFormed :=
  h.of_eq rfl (pathReferences_map
    (f := fun path => Operation.wrap (payloadKeys path).1 (payloadKeys path).2)
    (fun _ _ => Operation.references_wrap _ _ _) rfl)

theorem requireSecurity_wellFormed {doc : Document} (h : doc.WellFormed) (security : Security) :
    (doc.requireSecurity security).WellFormed :=
  h.of_eq rfl (pathReferences_map
    (f := fun _ => Operation.secure security.definitionName)
    (fun _ _ => Operation.references_secure _ _) rfl)

end RestSpec.Document
