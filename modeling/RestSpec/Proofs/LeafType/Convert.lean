/-
Schemas of leaf values. They say what a value is, a text, a number or a truth value, and never
refer to a definition. Only a reference from leaf to leaf looks at the leaf that it starts from:
where following a type meets none, leaves that agree in kind, description and origin have the same
schema.
-/
import RestSpec.LeafType.Convert
import RestSpec.Proofs.Document.References

namespace RestSpec.DataModel

open Document
open Source (TypeRef)

/-! ## Schemas without references -/

/-- A schema without parts, which does not tell of `readOnly`. -/
structure Plain (s : Schema) : Prop where
  reference : s.reference = none
  items : s.items = none
  properties : s.properties = []
  readOnly : s.readOnly = none

theorem Plain.references {s : Schema} (h : Plain s) : s.references = [] := by
  obtain ⟨reference, type, format, description, enumeration, default, pattern, readOnly, items,
    properties, required, extensions⟩ := s
  obtain ⟨rfl, rfl, rfl, rfl⟩ := h
  rfl

theorem Plain.described {s : Schema} (h : Plain s) (description : Option String)
    (default : Option Json) : Plain { s with description := description, default := default } :=
  ⟨h.reference, h.items, h.properties, h.readOnly⟩

/-- A schema of a text, a number or a truth value, by its `type`. -/
structure Scalar (s : Schema) : Prop extends Plain s where
  required : s.required = []
  valued : s.type = some .string ∨ s.type = some .integer ∨ s.type = some .number ∨
    s.type = some .boolean

theorem scalar_text : Scalar textSchema := ⟨⟨rfl, rfl, rfl, rfl⟩, rfl, .inl rfl⟩

theorem builtInTypes_valued : ∀ e ∈ builtInTypes, e.2.1 = .string ∨ e.2.1 = .integer ∨
    e.2.1 = .number ∨ e.2.1 = .boolean := by decide

theorem scalar_builtIn {name : String} {s : Schema} (h : builtIn? name = some s) : Scalar s := by
  obtain ⟨⟨type, format⟩, hlookup, rfl⟩ := Option.map_eq_some_iff.1 h
  obtain ⟨before, after, htable, -⟩ := List.lookup_eq_some_iff.1 hlookup
  have hvalued := builtInTypes_valued (name, type, format) (htable ▸ by simp)
  exact ⟨⟨rfl, rfl, rfl, rfl⟩, rfl, by simpa using hvalued⟩

theorem Scalar.withExtension {s : Schema} (h : Scalar s) (name : String) (value : Json) :
    Scalar (s.withExtension name value) :=
  ⟨⟨h.reference, h.items, h.properties, h.readOnly⟩, h.required, h.valued⟩

theorem Scalar.described {s : Schema} (h : Scalar s) (description : Option String)
    (default : Option Json) : Scalar { s with description := description, default := default } :=
  ⟨h.toPlain.described description default, h.required, h.valued⟩

theorem Scalar.restrict {s : Schema} (h : Scalar s) (type : TypeRef) : Scalar (restrict type s) := by
  cases type with
  | named name => exact h
  | restricted => exact ⟨⟨h.reference, h.items, h.properties, h.readOnly⟩, h.required, h.valued⟩

theorem scalar_schemaOfType (model : DataModel) : ∀ (limit : Nat) (type : TypeRef) (home : String)
    (scope : NodeId), Scalar (model.schemaOfType limit type home scope)
  | 0, _, _, _ => scalar_text
  | limit + 1, type, home, scope => by
    unfold schemaOfType
    refine Scalar.restrict ?_ type
    split
    · split
      · exact scalar_text
      · refine Scalar.withExtension ?_ _ _
        split
        · split
          · exact (scalar_schemaOfType model limit _ _ _).described none none
          · exact scalar_text
        · exact scalar_text
    · split
      · exact scalar_builtIn ‹_›
      · split
        · exact (scalar_schemaOfType model limit _ _ _).described _ _
        · exact scalar_text

theorem scalar_convertLeaf (model : DataModel) (id : NodeId) : Scalar (model.convertLeaf id) := by
  unfold convertLeaf
  split
  · exact scalar_schemaOfType _ _ _ _ _
  · exact scalar_text

theorem references_leafProperty (model : DataModel) (id : NodeId) :
    (model.leafProperty id).references = [] := by
  have h := (scalar_convertLeaf model id).toPlain
  unfold leafProperty
  dsimp only
  split
  · exact (Schema.references_arrayOf _).trans (h.described none _).references
  · exact (h.described _ _).references

/-- The property that `leafProperty` makes is no reference, and does not tell of `readOnly`. -/
theorem leafProperty_writable (model : DataModel) (id : NodeId) :
    (model.leafProperty id).isReference = false ∧ (model.leafProperty id).readOnly = none := by
  have h := (scalar_convertLeaf model id).toPlain
  unfold leafProperty
  dsimp only
  split
  · exact ⟨rfl, rfl⟩
  · exact ⟨by unfold Schema.isReference; rw [h.reference]; rfl, h.readOnly⟩

/-! ## Types without references to leaves -/

/-- To follow a type, whose names are those of the module `home`, meets a type named `leafref`. -/
inductive MeetsLeafref (model : DataModel) : TypeRef → String → Prop
  | here {type : TypeRef} {home : String} : type.name = "leafref" → MeetsLeafref model type home
  | named {type : TypeRef} {home typeHome : String} {t : Source.Typedef} :
      builtIn? type.name = none → model.typedef? type.name home = some (t, typeHome) →
      MeetsLeafref model t.type typeHome → MeetsLeafref model type home

/-- To follow the type of the leaf never meets a `leafref`. -/
def LeafrefFree (model : DataModel) (id : NodeId) : Prop :=
  ∀ info, (model.node id).kind.leafInfo? = some info →
    ¬ MeetsLeafref model info.type (model.node (model.origin id)).moduleName

theorem schemaOfType_scope {model : DataModel} (scope scope' : NodeId) :
    ∀ (limit : Nat) (type : TypeRef) (home : String), ¬ MeetsLeafref model type home →
      model.schemaOfType limit type home scope = model.schemaOfType limit type home scope'
  | 0, _, _, _ => rfl
  | limit + 1, type, home, h => by
    have hname : type.name ≠ "leafref" := fun hname => h (.here hname)
    rw [schemaOfType, schemaOfType]
    dsimp only
    rw [if_neg hname, if_neg hname]
    congr 1
    cases hb : builtIn? type.name with
    | some s => rfl
    | none =>
      cases ht : model.typedef? type.name home with
      | none => rfl
      | some found =>
        obtain ⟨t, typeHome⟩ := found
        dsimp only
        rw [schemaOfType_scope scope scope' limit t.type typeHome fun hmeets =>
          h (.named hb ht hmeets)]

/-- Leaves that agree in `kind`, `description` and `origin` have the same `leafProperty`. -/
theorem leafProperty_congr {model : DataModel} {id id' : NodeId}
    (hkind : (model.node id).kind = (model.node id').kind)
    (hdescription : (model.node id).description = (model.node id').description)
    (horigin : model.origin id = model.origin id') (hfree : model.LeafrefFree id) :
    model.leafProperty id = model.leafProperty id' := by
  have hconvert : model.convertLeaf id = model.convertLeaf id' := by
    unfold LeafrefFree at hfree
    unfold convertLeaf
    rw [← hkind, ← horigin]
    cases hinfo : (model.node id).kind.leafInfo? with
    | none => rfl
    | some info => exact schemaOfType_scope id id' typeLimit info.type _ (hfree info hinfo)
  unfold leafProperty
  dsimp only
  rw [hkind, hdescription, hconvert]

end RestSpec.DataModel
