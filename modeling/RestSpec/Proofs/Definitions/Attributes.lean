/-
Collecting attributes. Each member leaves one property, under its own name and with the schema that
its place adds to; so a property refers to what the schemas of containers and lists refer to, and
where the names of the members differ, every one of them is there.
-/
import RestSpec.Definitions.Basic
import RestSpec.Proofs.Definitions.Members
import RestSpec.Proofs.LeafType.Convert
import RestSpec.Proofs.Naming.Registry

namespace RestSpec

open Document DataModel
open Relation (TransGen ReflTransGen)

/-! ## What the members leave -/

/-- The schema `s` of a member, where `stands` says what schemas stand for a container or for the
entry of a list; that of any other node is not told. -/
def MemberSchema (model : DataModel) (stands : NodeId → Schema → Prop) (id : NodeId)
    (s : Schema) : Prop :=
  match (model.node id).kind with
  | .container _ => stands id s
  | .list _ => ∃ entry, stands id entry ∧ s = Schema.arrayOf entry
  | _ => s = model.leafProperty id

/-- `Attributes` have been collected from members, one after the other, each under its property name
and with its requirement. -/
inductive Collected (model : DataModel) (stands : NodeId → Schema → Prop) (keys : List String) :
    List Member → Attributes → Attributes → Prop
  | nil {a : Attributes} : Collected model stands keys [] a a
  | cons {m : Member} {rest : List Member} {s : Schema} {a a' : Attributes} :
      MemberSchema model stands m.id s →
      Collected model stands keys rest (a.add keys (model.node m.id) m.choice s) a' →
      Collected model stands keys (m :: rest) a a'

section Collected

variable {model : DataModel} {stands stands' : NodeId → Schema → Prop} {keys : List String}
  {ms : List Member} {a a' : Attributes}

theorem MemberSchema.mono {id : NodeId} {s : Schema} (h : MemberSchema model stands id s)
    (hle : ∀ id s, stands id s → stands' id s) : MemberSchema model stands' id s := by
  unfold MemberSchema at h ⊢
  split at h
  · exact hle _ _ h
  · obtain ⟨entry, hentry, hs⟩ := h
    exact ⟨entry, hle _ _ hentry, hs⟩
  · exact h

theorem Collected.mono (h : Collected model stands keys ms a a')
    (hle : ∀ id s, stands id s → stands' id s) : Collected model stands' keys ms a a' := by
  induction h with
  | nil => exact .nil
  | cons hs _ ih => exact .cons (hs.mono hle) ih

/-- The name of the property that a member becomes: the `propertyName` of its node. -/
def DataModel.memberName (model : DataModel) (m : Member) : String :=
  (model.node m.id).propertyName

/-- The schema of the property that a member becomes: `placedSchema` with its node and its
choice. -/
def DataModel.memberProperty (model : DataModel) (m : Member) (s : Schema) : Schema :=
  Attributes.placedSchema (model.node m.id) m.choice s

theorem properties_add (a : Attributes) (keys : List String) (m : Member) (s : Schema) :
    (a.add keys (model.node m.id) m.choice s).properties =
      Entries.insert (model.memberName m) (model.memberProperty m s) a.properties :=
  rfl

/-- Every property of what is `Collected` was there before or is the `memberProperty` of a
member. -/
theorem Collected.mem_properties (h : Collected model stands keys ms a a') {k : String}
    {p : Schema} (hp : (k, p) ∈ a'.properties) :
    (k, p) ∈ a.properties ∨ ∃ m ∈ ms, ∃ s, MemberSchema model stands m.id s ∧
      k = model.memberName m ∧ p = model.memberProperty m s := by
  induction h with
  | nil => exact .inl hp
  | @cons m rest s a a' hs _ ih =>
    rcases ih hp with hp | ⟨m', hm', hp⟩
    · rw [properties_add] at hp
      rcases Entries.mem_insert hp with hp | hp
      · cases hp
        exact .inr ⟨m, List.mem_cons_self, s, hs, rfl, rfl⟩
      · exact .inl hp
    · exact .inr ⟨m', List.mem_cons_of_mem _ hm', hp⟩

theorem Collected.names_iff (h : Collected model stands keys ms a a') {k : String} :
    k ∈ Entries.names a'.properties ↔
      k ∈ Entries.names a.properties ∨ k ∈ ms.map model.memberName := by
  induction h with
  | nil => simp
  | @cons m rest s a a' _ _ ih =>
    rw [ih, properties_add, Entries.mem_names_insert, List.map_cons, List.mem_cons]
    tauto

theorem Collected.ascending (h : Collected model stands keys ms a a')
    (ha : Entries.Ascending a.properties) : Entries.Ascending a'.properties := by
  induction h with
  | nil => exact ha
  | cons _ _ ih => exact ih ha.insert

/-- Where the names of the members differ, the properties of what is `Collected` are just theirs,
each once. -/
theorem Collected.names_perm (h : Collected model stands keys ms {} a')
    (hnd : (ms.map model.memberName).Nodup) :
    (Entries.names a'.properties).Perm (ms.map model.memberName) := by
  have ha := h.ascending List.Pairwise.nil
  refine (List.perm_ext_iff_of_nodup ha.nodup_names hnd).2 fun k => ?_
  rw [h.names_iff]
  exact or_iff_right (by simp [Entries.names])

end Collected

/-! ## References -/

/-- The `references` of a schema depend on its `reference`, its `items` and its `properties`
alone. -/
theorem references_congr {s s' : Schema} (hreference : s.reference = s'.reference)
    (hitems : s.items = s'.items) (hproperties : s.properties = s'.properties) :
    s.references = s'.references := by
  cases s
  cases s'
  cases hreference
  cases hitems
  cases hproperties
  simp only [Schema.references]

theorem references_placedSchema (n : Node) (choice : Option String) (s : Schema) :
    (Attributes.placedSchema n choice s).references = s.references := by
  unfold Attributes.placedSchema
  dsimp only
  cases choice <;> cases n.augmentedBy <;> dsimp only <;> split <;>
    exact references_congr rfl rfl rfl

theorem MemberSchema.references {model : DataModel} {stands : NodeId → Schema → Prop}
    {P : String → Prop} (hP : ∀ id s, stands id s → ∀ r ∈ s.references, P r) {id : NodeId}
    {s : Schema} (h : MemberSchema model stands id s) : ∀ r ∈ s.references, P r := by
  unfold MemberSchema at h
  split at h
  · exact hP _ _ h
  · obtain ⟨entry, hentry, rfl⟩ := h
    rw [Schema.references_arrayOf]
    exact hP _ _ hentry
  · rw [h, references_leafProperty]
    simp

/-- The properties of what is `Collected` refer to nothing but what the schemas that `stands` tells
of refer to. -/
theorem Collected.references {model : DataModel} {stands : NodeId → Schema → Prop}
    {keys : List String} {ms : List Member} {a : Attributes} {P : String → Prop}
    (h : Collected model stands keys ms {} a)
    (hP : ∀ id s, stands id s → ∀ r ∈ s.references, P r) (description : Option String) :
    ∀ r ∈ (a.object description).references, P r := by
  intro r hr
  have hr : r ∈ Schema.propertyReferences a.properties := by
    simpa [Attributes.object, Schema.references, Schema.object, Schema.itemReferences] using hr
  obtain ⟨⟨k, p⟩, hp, hrp⟩ := Schema.mem_propertyReferences.1 hr
  rcases h.mem_properties hp with hp | ⟨m, -, s, hs, -, rfl⟩
  · cases hp
  · rw [DataModel.memberProperty, references_placedSchema] at hrp
    exact hs.references hP r hrp

end RestSpec
