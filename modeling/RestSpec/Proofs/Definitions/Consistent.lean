/-
Definitions that require no more than they have. Every member leaves a property and at most one
requirement, under the same name; so where the property names of each node differ, the attributes
that are collected for one are consistent, and so are those that are stated in place inside them. A
definition states nothing else, whichever strategy builds it.
-/
import RestSpec.Proofs.DataModel.Divergence
import RestSpec.Proofs.Definitions.Order
import RestSpec.Proofs.Definitions.Strategies
import RestSpec.Proofs.Pass.Requirements

namespace RestSpec

open Document DataModel

variable {model : DataModel}

/-! ## Attributes -/

theorem DataModel.Scalar.consistent {s : Schema} (h : Scalar s) : s.Consistent := by
  refine .intro ?_ ?_ ?_ ?_
  · rw [h.required]
    exact List.nodup_nil
  · rw [h.required]
    exact nofun
  · rw [h.items]
    exact nofun
  · rw [h.properties]
    exact nofun

theorem consistent_leafProperty (model : DataModel) (id : NodeId) :
    (model.leafProperty id).Consistent := by
  have h := scalar_convertLeaf model id
  unfold leafProperty
  dsimp only
  split
  · exact (h.described none _).consistent.arrayOf.congr rfl rfl rfl
  · exact (h.described _ _).consistent

theorem consistent_placedSchema (n : Node) (choice : Option String) {s : Schema}
    (h : s.Consistent) : (Attributes.placedSchema n choice s).Consistent := by
  unfold Attributes.placedSchema
  dsimp only
  cases choice <;> cases n.augmentedBy <;> dsimp only <;> split <;> exact h.congr rfl rfl rfl

theorem MemberSchema.consistent {stands : NodeId → Schema → Prop}
    (hstands : ∀ id s, stands id s → s.Consistent) {id : NodeId} {s : Schema}
    (h : MemberSchema model stands id s) : s.Consistent := by
  unfold MemberSchema at h
  split at h
  · exact hstands _ _ h
  · obtain ⟨entry, hentry, rfl⟩ := h
    exact (hstands _ _ hentry).arrayOf
  · exact h ▸ consistent_leafProperty model id

section Collected

variable {stands : NodeId → Schema → Prop} {keys : List String} {ms : List Member}
  {a a' : Attributes}

/-- Each member that is `Collected` brings at most one requirement, under its own name. -/
theorem Collected.required_sublist (h : Collected model stands keys ms a a') :
    ∃ added, added.Sublist (ms.map model.memberName) ∧ a'.required = a.required ++ added := by
  induction h with
  | nil => exact ⟨[], .slnil, (List.append_nil _).symm⟩
  | @cons m rest s a a' _ _ ih =>
    obtain ⟨added, hsub, hrequired⟩ := ih
    unfold Attributes.add at hrequired
    dsimp only at hrequired
    split at hrequired
    · exact ⟨model.memberName m :: added, hsub.cons_cons _,
        hrequired.trans (List.append_assoc _ _ _)⟩
    · exact ⟨added, hsub.cons _, hrequired⟩

theorem Collected.consistent (h : Collected model stands keys ms {} a)
    (hstands : ∀ id s, stands id s → s.Consistent) (hnd : (ms.map model.memberName).Nodup)
    (description : Option String) : (a.object description).Consistent := by
  obtain ⟨added, hsub, hrequired⟩ := h.required_sublist
  have hrequired : (a.object description).required = added := hrequired
  refine .intro (hrequired ▸ hnd.sublist hsub) (fun k hk => ?_) nofun fun e he => ?_
  · exact h.names_iff.2 (.inr (hsub.subset (hrequired ▸ hk)))
  · rcases h.mem_properties he with hnil | ⟨m, -, s, hs, -, hp⟩
    · cases hnil
    · rw [hp]
      exact consistent_placedSchema _ _ (hs.consistent hstands)

end Collected

/-! ## Nodes with distinct names -/

namespace DataModel

theorem members_sublist (model : DataModel) (id : NodeId) (included : NodeId → Bool) :
    (model.members id included).Sublist (model.members id fun _ => true) := by
  unfold members
  rw [membersOfAll_eq_flatMap, membersOfAll_eq_flatMap, List.filter_true]
  exact List.filter_sublist.flatMap _

/-- Whichever children are `included`, the `members` of a node of a linked model have names that
differ if its `propertyNames` do. -/
theorem Linked.nodup_members (hm : model.Linked) {id : NodeId}
    (hkind : (model.node id).kind.isStructural = true) (hnd : (model.propertyNames id).Nodup)
    (included : NodeId → Bool) : ((model.members id included).map model.memberName).Nodup := by
  rw [← hm.names_shows hkind, shows, List.map_map] at hnd
  exact hnd.sublist ((model.members_sublist id included).map _)

theorem Kind.isStructural_of_isResource {k : Kind} (h : k.isResource = true) :
    k.isStructural = true := by
  cases k <;> first | rfl | cases h

end DataModel

namespace Definitions

/-! ## Building -/

/-- The names are `Valid`, and what each definition states of its own is `Consistent`. -/
structure Tidy (model : DataModel) (defs : Definitions) : Prop where
  names : defs.names.Valid model
  own : ∀ n d, defs.table.find? n = some d → ∀ s, d.own = some s → s.Consistent

theorem tidy_empty (model : DataModel) : Tidy model {} :=
  ⟨Naming.Registry.valid_empty model, nofun⟩

theorem Tidy.insert {defs : Definitions} (h : Tidy model defs) {n : String} {d : Definition}
    (hd : ∀ s, d.own = some s → s.Consistent) : Tidy model (defs.insert n d) := by
  refine ⟨h.names, fun k d' hd' => ?_⟩
  have hfind : (defs.table.insert n d).find? k = some d' := hd'
  rw [Table.find?_insert] at hfind
  split at hfind
  · exact Option.some.inj hfind ▸ hd
  · exact h.own k d' hfind

/-- While attributes are collected, definitions stay `Tidy` and all schemas that are made are
`Consistent`. -/
theorem later_tidy (model : DataModel) :
    Later (fun defs defs' => Tidy model defs → Tidy model defs') fun _ _ => Schema.Consistent :=
  ⟨fun _ => id, fun h h' hdefs => h' (h hdefs), fun _ hs => hs⟩

/-- A builder leaves definitions `Tidy` for every node that has properties. -/
def Tidies (model : DataModel) (build : Builder) : Prop :=
  ∀ id, (model.node id).kind.isStructural = true → ∀ defs defs' n,
    build defs id = .ok (defs', n) → Tidy model defs → Tidy model defs'

section Build

variable (hm : model.Linked)

include hm

theorem Tidy.resolve {defs : Definitions} (h : Tidy model defs) (id : NodeId) :
    Tidy model (defs.resolve model id).1 :=
  ⟨(Naming.Registry.resolve_names hm h.names id).grows.valid, h.own⟩

theorem Tidy.canonical {defs : Definitions} (h : Tidy model defs) (id : NodeId) :
    Tidy model (defs.canonical model id).1 ∧
      (defs.canonical model id).2 = model.canonical id := by
  have hfound := Naming.Registry.canonical_finds hm h.names id
  exact ⟨⟨hfound.valid, h.own⟩, hfound.found⟩

omit hm in
theorem Tidies.buildParents {build : Builder} (hbuild : Tidies model build) :
    ∀ (gs : List NodeId) (defs defs' : Definitions) (listed parents : List String),
    (∀ g ∈ gs, (model.node g).kind.isStructural = true) →
    buildParents build gs defs listed = .ok (defs', parents) → Tidy model defs → Tidy model defs'
  | [], _, _, _, _, _, h, hdefs => by
    cases h
    exact hdefs
  | g :: rest, defs, defs', listed, parents, hkinds, h, hdefs => by
    obtain ⟨hkind, hkinds⟩ := List.forall_mem_cons.1 hkinds
    obtain ⟨⟨defs₁, n⟩, hn, h⟩ := bind_eq_ok.1 h
    exact hbuild.buildParents rest defs₁ defs' _ parents hkinds h (hbuild g hkind _ _ _ hn hdefs)

variable (hnd : ∀ id, (model.node id).kind.isStructural = true → (model.propertyNames id).Nodup)

include hnd

/-- `sharedDefinition` leaves definitions `Tidy` if the builder for its members does, and what it
makes is `Consistent`. -/
theorem Tidies.sharedDefinition {build : Builder} (hbuild : Tidies model build) {owner : NodeId}
    (hkind : (model.node owner).kind.isStructural = true) {defs defs' : Definitions} {d : Definition}
    (h : sharedDefinition model build owner defs = .ok (defs', d)) (hdefs : Tidy model defs) :
    Tidy model defs' ∧ ∀ s, d.own = some s → s.Consistent := by
  obtain ⟨⟨defs₁, parents⟩, hparents, h⟩ := bind_eq_ok.1 h
  obtain ⟨⟨defs₂, own⟩, hown, h⟩ := bind_eq_ok.1 h
  cases h
  have hgroupings : ∀ g ∈ model.inheritedGroupings owner,
      (model.node g).kind.isStructural = true := by
    intro g hg
    rw [(hm.uses owner g (List.mem_of_mem_filter hg)).2]
    rfl
  -- a member is built as a definition of its own, so its attributes do not show here
  have hrefers : ∀ c, (model.node c).kind.isResource = true → ∀ defs defs' s,
      referTo build defs c = .ok (defs', s) →
      (Tidy model defs → Tidy model defs') ∧ s.Consistent := by
    intro c hc defs defs' s hs
    obtain ⟨⟨defs', n⟩, hn, hs⟩ := bind_eq_ok.1 hs
    cases hs
    exact ⟨hbuild c (Kind.isStructural_of_isResource hc) _ _ _ hn,
      Schema.consistent_referenceTo n⟩
  obtain ⟨htidy, hcollected⟩ := collectMembers_later (later_tidy model) hrefers _ _ _ _ _ hown
  refine ⟨htidy (hbuild.buildParents _ _ _ _ _ hgroupings hparents hdefs), fun s hs => ?_⟩
  obtain ⟨description, rfl⟩ := own_assemble hs
  exact hcollected.consistent (fun _ _ hs => hs) (hm.nodup_members hkind (hnd owner hkind) _) _

theorem tidies_buildSharedWithin : ∀ (depth : Nat) (underWay : List String),
    Tidies model (buildSharedWithin model depth underWay)
  | 0, _ => fun _ _ _ _ _ h => nomatch h
  | depth + 1, underWay => by
    intro id hkind defs defs' n h hdefs
    obtain ⟨hdefs, howner⟩ := hdefs.canonical hm id
    have hdefs := hdefs.resolve hm id
    unfold buildSharedWithin at h
    dsimp only at h
    split at h
    · cases h
      exact hdefs
    · split at h
      · cases h
      · obtain ⟨⟨defs₃, d⟩, hd, h⟩ := bind_eq_ok.1 h
        cases h
        have hstructural : (model.node (defs.canonical model id).2).kind.isStructural = true := by
          rw [howner, hm.isStructural_canonical]
          exact hkind
        obtain ⟨hdefs₃, hown⟩ := (tidies_buildSharedWithin depth _).sharedDefinition hm hnd
          hstructural hd hdefs
        exact hdefs₃.insert hown

/-- `flatSchemaWithin` makes a `Consistent` schema, and leaves definitions `Tidy`. -/
theorem flatSchemaWithin_tidy : ∀ (depth : Nat) (underWay : List String) (id : NodeId),
    (model.node id).kind.isStructural = true → ∀ (defs defs' : Definitions) (s : Schema),
    flatSchemaWithin model depth underWay defs id = .ok (defs', s) →
    (Tidy model defs → Tidy model defs') ∧ s.Consistent
  | 0, _, _, _, _, _, _, h => nomatch h
  | depth + 1, underWay, id, hkind, defs, defs', s, h => by
    unfold flatSchemaWithin at h
    dsimp only at h
    -- what has a definition by now is referred to, and all else is stated in place
    split at h
    · cases h
      exact ⟨fun hdefs => hdefs.resolve hm id, Schema.consistent_referenceTo _⟩
    · split at h
      · cases h
      · obtain ⟨⟨defs₂, a⟩, ha, h⟩ := bind_eq_ok.1 h
        cases h
        obtain ⟨htidy, hcollected⟩ := collectMembers_later (later_tidy model)
          (fun c hc => flatSchemaWithin_tidy depth _ c (Kind.isStructural_of_isResource hc))
          _ _ _ _ _ ha
        exact ⟨fun hdefs => htidy (hdefs.resolve hm id), hcollected.consistent (fun _ _ hs => hs)
          (hm.nodup_members hkind (hnd id hkind) _) _⟩

theorem tidies_buildFlat : Tidies model (buildFlat model) := by
  intro id hkind defs defs' n h hdefs
  unfold buildFlat at h
  dsimp only at h
  split at h
  · cases h
    exact hdefs.resolve hm id
  · obtain ⟨⟨defs₂, s⟩, hs, h⟩ := bind_eq_ok.1 h
    cases h
    obtain ⟨htidy, hconsistent⟩ := flatSchemaWithin_tidy hm hnd _ _ id hkind _ _ _ hs
    exact (htidy (hdefs.resolve hm id)).insert fun s' hs' => Option.some.inj hs' ▸ hconsistent

theorem tidies_build (strategy : Strategy) :
    Tidies model (Definitions.build strategy model) := by
  cases strategy with
  | optimizing => exact tidies_buildSharedWithin hm hnd _ []
  | unpacking => exact tidies_buildFlat hm hnd

/-- `schemaFor` makes a reference, which is `Consistent`, and leaves definitions `Tidy`. -/
theorem schemaFor_tidy {strategy : Strategy} {id : NodeId}
    (hkind : (model.node id).kind.isStructural = true) {defs defs' : Definitions} {s : Schema}
    (h : defs.schemaFor strategy model id = .ok (defs', s)) (hdefs : Tidy model defs) :
    Tidy model defs' ∧ s.Consistent := by
  obtain ⟨⟨defs₁, n⟩, hn, h⟩ := bind_eq_ok.1 h
  cases h
  exact ⟨tidies_build hm hnd strategy id hkind _ _ _ hn hdefs, Schema.consistent_referenceTo n⟩

end Build

end Definitions

end RestSpec
