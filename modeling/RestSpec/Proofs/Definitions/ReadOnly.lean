/-
Which properties are read-only. A property is made for one node and marked as that node is; but a
definition serves all nodes that share its name, and these need not be configuration together. A
shared definition is made for a canonical node, so a property may be written unless every node that
it serves is read-only; a flat definition is made for the node that comes first.
-/
import RestSpec.Proofs.DataModel.Divergence
import RestSpec.Proofs.Definitions.Lending
import RestSpec.Proofs.Definitions.Runs

namespace RestSpec

open Document DataModel
open Relation (ReflTransGen)
open Definitions (buildLast buildLast_ok buildLast_first firstSharing)

variable {model : DataModel}

/-! ## Marks -/

/-- There is one property of the name `name`, marked `readOnly` just if the node `c` is no
configuration. -/
def MarkedFor (model : DataModel) (entries : List (String × Schema)) (name : String) (c : NodeId) :
    Prop :=
  ∃ p, (∀ s, (name, s) ∈ entries ↔ s = p) ∧
    (p.readOnly = some true ↔ (model.node c).config = false)

theorem MarkedFor.readOnly {entries : List (String × Schema)} {name : String} {c : NodeId}
    (h : MarkedFor model entries name c) {s : Schema} (hs : (name, s) ∈ entries) :
    s.readOnly = some true ↔ (model.node c).config = false := by
  obtain ⟨p, hp, hmarked⟩ := h
  rw [(hp s).1 hs]
  exact hmarked

theorem readOnly_placedSchema (n : Node) (choice : Option String) (s : Schema) :
    (Attributes.placedSchema n choice s).readOnly =
      if !n.config && !s.isReference then some true else s.readOnly := by
  unfold Attributes.placedSchema
  dsimp only
  cases choice <;> cases n.augmentedBy <;> dsimp only [Schema.withExtension] <;> split <;> rfl

/-- The property that `leafProperty` makes is marked `readOnly` just if the leaf is no
configuration. -/
theorem readOnly_leaf (m : Member) :
    (model.memberProperty m (model.leafProperty m.id)).readOnly = some true ↔
      (model.node m.id).config = false := by
  obtain ⟨hreference, hreadOnly⟩ := leafProperty_writable model m.id
  unfold memberProperty
  rw [readOnly_placedSchema, hreference, hreadOnly]
  cases (model.node m.id).config <;> simp

theorem markedFor_leaf {entries : List (String × Schema)} (hnd : (Entries.names entries).Nodup)
    {m : Member}
    (h : (model.memberName m, model.memberProperty m (model.leafProperty m.id)) ∈ entries) :
    MarkedFor model entries (model.memberName m) m.id := by
  refine ⟨_, fun s => ⟨fun hs => ?_, fun hs => hs ▸ h⟩, readOnly_leaf m⟩
  exact congrArg Prod.snd (List.inj_on_of_nodup_map hnd hs h rfl)

/-- After some nodes have been built and at last `id`, its definition, with all that it inherits,
has one property for a child `c`, which is marked for `c'`. -/
def MarkedAfter (strategy : Strategy) (model : DataModel) (before : List NodeId)
    (id c c' : NodeId) : Prop :=
  ∃ defs n entries, buildLast strategy model before id = .ok (defs, n) ∧
    Gathers defs.table n entries ∧ MarkedFor model entries (model.node c).propertyName c'

/-! ## Copies -/

/-- In a model that `link` makes, what copies a read-only node is read-only. -/
theorem link_readOnly {sources : List Source.Module} (h : link sources = .ok model) {x s : NodeId}
    (hcopies : ReflTransGen model.Copies x s) (hs : (model.node s).config = false) :
    (model.node x).config = false := by
  obtain ⟨d, d', forest, hpasses, rfl, -, -⟩ := Draft.passes_of_link h
  induction hcopies using ReflTransGen.head_induction_on with
  | refl => exact hs
  | head hcopy _ ih =>
    exact (hpasses.linked.faithful.lawful _ (lt_size_of_copies hcopy)).readOnly _ hcopy ih

/-! ## Both strategies -/

section Linked

variable (hm : model.Linked) {id c : NodeId} (hkind : (model.node id).kind.isStructural = true)
  (hnd : (model.propertyNames id).Nodup) (hc : c ∈ model.dataChildren id)
  (hleaf : (model.node c).kind.leafInfo?.isSome = true)

include hm hkind hnd hc hleaf

/-- In a shared definition a leaf is marked for the `ownDataChildren` of a node that `Lends` to it,
of which the leaf is a copy, whatever has been built before. -/
theorem markedAfter_shared : ∃ lender c', Lends model (model.canonical id) lender ∧
    c' ∈ model.ownDataChildren lender ∧ ReflTransGen model.Copies c c' ∧
    ∀ before, MarkedAfter .optimizing model before id c c' := by
  rw [← hm.members_ids hkind] at hc
  obtain ⟨m, hmem, rfl⟩ := List.mem_map.1 hc
  have hnot := hm.not_augment_canonical (not_augment_of_structural hkind)
  have hnames : ((model.shows (model.canonical id)).map (·.name)).Nodup := by
    rw [hm.shows_canonical, hm.names_shows hkind]
    exact hnd
  obtain ⟨m₁, hm₁, htwin₁⟩ := forall₂_mem_left (hm.members_canonical id) m hmem
  obtain ⟨m', ⟨lender, hlends, hm'⟩, htwin'⟩ := hm.stated (model.canonical id) hnot m₁ hm₁
  have htwin := htwin₁.trans htwin'
  have hfacets := hm.facets_twin htwin
  refine ⟨lender, m'.id, hlends, List.mem_map.2 ⟨m', hm', rfl⟩, htwin.twin.copies, fun before => ?_⟩
  obtain ⟨defs, n, hbuild, hs, hnamed⟩ := buildLast_ok .optimizing hm before id
  obtain ⟨entries, hentries, hcovers⟩ :=
    hs.gathers hm (model.canonical id) hnot hnames n hnamed.owned hnamed.there
  have hleaf' : (model.node m'.id).kind.leafInfo?.isSome = true :=
    (congrArg (fun f => f.kind.leafInfo?.isSome) hfacets).symm.trans hleaf
  have hname : model.memberName m' = (model.node m.id).propertyName :=
    (congrArg Facets.name hfacets).symm
  refine ⟨defs, n, entries, hbuild, hentries, hname ▸ markedFor_leaf ?_ ?_⟩
  · exact hcovers.names.nodup_iff.2 hnames
  · exact hs.gathers_lent hm hlends hnot hnames hnamed.owned hentries m' hm' hleaf'

/-- In a flat definition a leaf is marked for the leaf of its name in the node that `firstSharing`
finds, the first that was built of those that share the definition. -/
theorem markedAfter_flat (before : List NodeId) : ∃ first c',
    firstSharing model (before ++ [id]) id = some first ∧ c' ∈ model.dataChildren first ∧
      (model.node c').propertyName = (model.node c).propertyName ∧
      MarkedAfter .unpacking model before id c c' := by
  obtain ⟨defs, n, first, a, hbuild, hfirst, hcanonical, hmade⟩ := buildLast_first hm before id
  have hkind' : (model.node first).kind.isStructural = true := by
    rw [← hm.isStructural_canonical, hcanonical, hm.isStructural_canonical, hkind]
  have hshows : model.shows first = model.shows id := by
    rw [← hm.shows_canonical first, hcanonical, hm.shows_canonical]
  have hnames : ((model.members first fun _ => true).map model.memberName).Nodup := by
    rw [← hm.names_shows hkind, ← hshows, shows, List.map_map] at hnd
    exact hnd
  rw [← hm.members_ids hkind] at hc
  obtain ⟨m, hmem, rfl⟩ := List.mem_map.1 hc
  have hfacets : model.facets m ∈ model.shows first := hshows ▸ List.mem_map.2 ⟨m, hmem, rfl⟩
  obtain ⟨m', hm', hsame⟩ := List.mem_map.1 hfacets
  have hleaf' : (model.node m'.id).kind.leafInfo?.isSome = true :=
    (congrArg (fun f => f.kind.leafInfo?.isSome) hsame).trans hleaf
  have hname : model.memberName m' = (model.node m.id).propertyName := congrArg Facets.name hsame
  refine ⟨first, m'.id, hfirst, ?_, hname, defs, n, a.properties, hbuild, hmade.gathers,
    hname ▸ markedFor_leaf ?_ (hmade.collected.mem_leaf hnames hm' hleaf')⟩
  · rw [← hm.members_ids hkind']
    exact List.mem_map.2 ⟨m', hm', rfl⟩
  · exact (hmade.collected.names_perm hnames).nodup_iff.2 hnames

end Linked

/-- A leaf is marked `readOnly` as the node is that its property has been made for. In a shared
definition this is the one that it copies among the `ownDataChildren` of a node that `Lends` to it;
in a flat definition, the leaf of its name in the node that `firstSharing` finds, which depends on
what was built before. -/
theorem build_readOnly {sources : List Source.Module} (h : link sources = .ok model)
    {id c : NodeId} (hkind : (model.node id).kind.isStructural = true)
    (hnd : (model.propertyNames id).Nodup) (hc : c ∈ model.dataChildren id)
    (hleaf : (model.node c).kind.leafInfo?.isSome = true) :
    (∃ lender c', Lends model (model.canonical id) lender ∧ c' ∈ model.ownDataChildren lender ∧
      ReflTransGen model.Copies c c' ∧
      ((model.node c').config = false → (model.node c).config = false) ∧
      ∀ before, MarkedAfter .optimizing model before id c c') ∧
    ∀ before, ∃ first c', firstSharing model (before ++ [id]) id = some first ∧
      c' ∈ model.dataChildren first ∧
      (model.node c').propertyName = (model.node c).propertyName ∧
      MarkedAfter .unpacking model before id c c' := by
  have hm := (linked_of_link h).1
  obtain ⟨lender, c', hlends, hc', hcopies, hmarked⟩ := markedAfter_shared hm hkind hnd hc hleaf
  exact ⟨⟨lender, c', hlends, hc', hcopies, link_readOnly h hcopies, hmarked⟩,
    markedAfter_flat hm hkind hnd hc hleaf⟩

/-! ## A grouping in a read-only place -/

/-- The grouping `endpoint`, which one container is made of, and another one that is read-only. -/
def observed : List Source.Module :=
  [{ name := "net", modulePrefix := none, namespaceUri := none, revision := none,
     description := none, typedefs := [], rpcs := [], augments := []
     groupings := [⟨"endpoint", none, none, ⟨[leafOf "address" "string"], []⟩⟩]
     data := [containerOf "settings" [] ["endpoint"],
       ⟨.container false, "state", some false, none, none, [], ["endpoint"]⟩] }]

theorem link_observed : ∃ model, link observed = .ok model :=
  exists_ok_of_isSome (by decide +kernel)

theorem build_readOnly_observed : ∃ model, link observed = .ok model ∧
    (∃ lender c', Lends model (model.canonical 4) lender ∧ c' ∈ model.ownDataChildren lender ∧
      ReflTransGen model.Copies 5 c' ∧
      ((model.node c').config = false → (model.node 5).config = false) ∧
      ∀ before, MarkedAfter .optimizing model before 4 5 c') ∧
    ∀ before, ∃ first c', firstSharing model (before ++ [4]) 4 = some first ∧
      c' ∈ model.dataChildren first ∧
      (model.node c').propertyName = (model.node 5).propertyName ∧
      MarkedAfter .unpacking model before 4 5 c' := by
  obtain ⟨model, h⟩ := link_observed
  have hnode := map_of_ok h (f := fun model => ((model.node 4).kind.isStructural,
      model.propertyNames 4, model.dataChildren 4, (model.node 5).kind.leafInfo?.isSome))
    (b := (true, ["address"], [5], true)) (by decide +kernel)
  simp only [Prod.mk.injEq] at hnode
  obtain ⟨hkind, hnames, hchildren, hleaf⟩ := hnode
  exact ⟨model, h, build_readOnly h hkind (by rw [hnames]; decide)
    (by rw [hchildren]; exact List.mem_singleton_self 5) hleaf⟩

/-- The `readOnly` marks of the properties that the definition of a node states itself, after some
nodes have been built. -/
def marksAfter (strategy : Strategy) (model : DataModel) (before : List NodeId) (id : NodeId) :
    Option (List (String × Option Bool)) :=
  (buildLast strategy model before id).toOption.bind fun (defs, n) =>
    (defs.table.find? n).map fun d => d.properties.map fun e => (e.1, e.2.readOnly)

theorem MarkedAfter.own {strategy : Strategy} {before : List NodeId} {id c c' : NodeId}
    (h : MarkedAfter strategy model before id c c') {marks : List (String × Option Bool)}
    (hmarks : marksAfter strategy model before id = some marks) {mark : Option Bool}
    (hmem : ((model.node c).propertyName, mark) ∈ marks) :
    mark = some true ↔ (model.node c').config = false := by
  obtain ⟨defs, n, entries, hbuild, hentries, hmarked⟩ := h
  unfold marksAfter at hmarks
  rw [hbuild] at hmarks
  cases hentries with
  | @intro _ d inherited hd _ =>
    simp only [Except.toOption, Option.bind_some, hd, Option.map_some, Option.some.injEq] at hmarks
    rw [← hmarks] at hmem
    obtain ⟨⟨name, s⟩, hs, hsame⟩ := List.mem_map.1 hmem
    obtain ⟨rfl, rfl⟩ := Prod.mk.inj hsame
    exact hmarked.readOnly (List.mem_append_left _ hs)

/-- In `observed` the leaf of the read-only container is not marked in the shared definition; and
once this container has a flat definition, the leaf of the other one is marked. -/
theorem observed_mismarked : ∃ model, link observed = .ok model ∧
    (∀ id, (model.node id).kind.isStructural = true → (model.propertyNames id).Nodup) ∧
    ((model.node 4).kind.isStructural = true ∧ model.dataChildren 4 = [5] ∧
      (model.node 5).kind.leafInfo?.isSome = true ∧ ¬ MarkedAfter .optimizing model [] 4 5 5) ∧
    ((model.node 2).kind.isStructural = true ∧ model.dataChildren 2 = [3] ∧
      (model.node 3).kind.leafInfo?.isSome = true ∧ ¬ MarkedAfter .unpacking model [4] 2 3 3) := by
  obtain ⟨model, h⟩ := link_observed
  have hnames := map_of_ok h (f := fun model => (model.size,
      (List.range 6).all fun id => decide (model.propertyNames id).Nodup))
    (b := (6, true)) (by decide +kernel)
  have hkinds := map_of_ok h (f := fun model => ((model.node 4).kind.isStructural,
      (model.node 5).kind.leafInfo?.isSome, (model.node 2).kind.isStructural,
      (model.node 3).kind.leafInfo?.isSome))
    (b := (true, true, true, true)) (by decide +kernel)
  have hstate := map_of_ok h (f := fun model => (model.dataChildren 4,
      (model.node 5).propertyName, (model.node 5).config))
    (b := ([5], "address", false)) (by decide +kernel)
  have hsettings := map_of_ok h (f := fun model => (model.dataChildren 2,
      (model.node 3).propertyName, (model.node 3).config))
    (b := ([3], "address", true)) (by decide +kernel)
  have hmarks := map_of_ok h (f := fun model => marksAfter .optimizing model [] 4)
    (b := some [("address", none)]) (by decide +kernel)
  have hmarks' := map_of_ok h (f := fun model => marksAfter .unpacking model [4] 2)
    (b := some [("address", some true)]) (by decide +kernel)
  simp only [Prod.mk.injEq] at hnames hkinds hstate hsettings
  obtain ⟨hsize, hall⟩ := hnames
  obtain ⟨hkind, hleaf, hkind', hleaf'⟩ := hkinds
  obtain ⟨hchildren, hname, hconfig⟩ := hstate
  obtain ⟨hchildren', hname', hconfig'⟩ := hsettings
  refine ⟨model, h, nodup_propertyNames hsize hall, ⟨hkind, hchildren, hleaf, fun hmarked => ?_⟩,
    hkind', hchildren', hleaf', fun hmarked => ?_⟩
  · have hmark := hmarked.own hmarks (by rw [hname]; exact List.mem_singleton_self _)
    exact absurd (hmark.2 hconfig) nofun
  · have hmark := hmarked.own hmarks' (by rw [hname']; exact List.mem_singleton_self _)
    rw [hmark.1 rfl] at hconfig'
    cases hconfig'

end RestSpec
