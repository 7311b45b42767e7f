/-
Which node a flat definition is made for. Nodes with one canonical node share a name, and the
definition under it is made for the one of them that is built first; whatever is built afterwards
leaves it as it is.
-/
import RestSpec.Proofs.Definitions.Strategies

namespace RestSpec.Definitions

open Document DataModel

variable {model : DataModel} {defs defs' : Definitions} {built : List NodeId}

/-- The first of some nodes that has the same `canonical` node as a given one, and so shares its
name. -/
def firstSharing (model : DataModel) (ids : List NodeId) (id : NodeId) : Option NodeId :=
  ids.find? fun x => model.canonical x == model.canonical id

/-- The definition named `n` is made of attributes `Collected` from the members of the node `id`. -/
structure MadeFor (model : DataModel) (defs : Definitions) (id : NodeId) (n : String)
    (a : Attributes) : Prop where
  owned : (n, model.canonical id) ∈ defs.names.owners
  collected : Collected model (fun _ => RefersInto defs) (model.node id).kind.keys
    (model.members id fun _ => true) {} a
  found : defs.table.find? n = some (.simple (a.object (model.node id).description))

/-- Flat definitions after the nodes `built`: each is `MadeFor` the first of these that shares its
name. -/
structure Run (model : DataModel) (built : List NodeId) (defs : Definitions) : Prop where
  sound : Sound .unpacking model defs
  named : ∀ id ∈ built, ∃ n, Named model defs id n
  made : ∀ n, defs.table.contains n = true →
    ∃ id a, firstSharing model built id = some id ∧ MadeFor model defs id n a

theorem run_empty (model : DataModel) : Run model [] {} :=
  ⟨sound_empty .unpacking model, nofun, nofun⟩

theorem firstSharing_congr {ids : List NodeId} {x y : NodeId}
    (h : model.canonical x = model.canonical y) :
    firstSharing model ids x = firstSharing model ids y := by
  unfold firstSharing
  rw [h]

theorem firstSharing_append {ids : List NodeId} {x first : NodeId}
    (h : firstSharing model ids x = some first) (more : List NodeId) :
    firstSharing model (ids ++ more) x = some first := by
  unfold firstSharing at h ⊢
  rw [List.find?_append, h]
  rfl

theorem MadeFor.mono {below : NodeId → Prop} {id : NodeId} {n : String} {a : Attributes}
    (h : MadeFor model defs id n a) (hg : Grows below defs defs') : MadeFor model defs' id n a :=
  ⟨hg.owners _ h.owned, h.collected.mono fun _ _ hs => hg.refersInto hs, hg.kept n _ h.found⟩

/-- A flat definition inherits from none, so it `Gathers` its own properties. -/
theorem MadeFor.gathers {id : NodeId} {n : String} {a : Attributes}
    (h : MadeFor model defs id n a) : Gathers defs.table n a.properties := by
  have hgathers : Gathers defs.table n (a.properties ++ [].flatMap fun _ : String => []) :=
    .intro h.found nofun
  rwa [List.flatMap_nil, List.append_nil] at hgathers

/-- A node that is built under a new name is the `firstSharing` of that name, and the `Run` goes
on. -/
theorem Run.step (h : Run model built defs) {id : NodeId} {n : String}
    (hb : BuildsFlat model defs id defs' n) : Run model (built ++ [id]) defs' := by
  have hold : ∀ k, defs.table.contains k = true → ∃ x a,
      firstSharing model (built ++ [id]) x = some x ∧ MadeFor model defs' x k a := by
    intro k hk
    obtain ⟨x, a, hfirst, hmade⟩ := h.made k hk
    exact ⟨x, a, firstSharing_append hfirst [id], hmade.mono hb.grows⟩
  refine ⟨hb.sound, fun x hx => ?_, fun k hk => ?_⟩
  · rcases List.mem_append.1 hx with hx | hx
    · obtain ⟨k, hk⟩ := h.named x hx
      exact ⟨k, hb.grows.named hk⟩
    · exact ⟨n, List.mem_singleton.1 hx ▸ hb.named⟩
  · by_cases hthere : defs.table.contains k = true
    · exact hold k hthere
    · obtain rfl : k = n := by
        by_contra hne
        unfold Table.contains at hthere hk
        rw [hb.others k hne] at hk
        exact hthere hk
      obtain ⟨a, ha, hfound⟩ := hb.made.resolve_left hthere
      refine ⟨id, a, ?_, hb.named.owned, ha, hfound⟩
      -- an earlier node of that name would have left a definition under it
      have hnone : firstSharing model built id = none := by
        refine List.find?_eq_none.2 fun x hx hsame => ?_
        obtain ⟨k', hk'⟩ := h.named x hx
        have howned := hb.grows.owners _ hk'.owned
        rw [beq_iff_eq.1 hsame] at howned
        obtain rfl := hb.sound.valid.name_unique howned hb.named.owned
        exact hthere hk'.there
      unfold firstSharing at hnone ⊢
      rw [List.find?_append, hnone]
      simp

theorem Run.buildAll (hm : model.Linked) : ∀ (ids : List NodeId) {built : List NodeId}
    {defs : Definitions}, Run model built defs →
    ∃ defs', buildAll .unpacking model ids defs = .ok defs' ∧ Run model (built ++ ids) defs'
  | [], built, defs, h => ⟨defs, rfl, (List.append_nil built).symm ▸ h⟩
  | id :: ids, built, defs, h => by
    obtain ⟨defs₁, n, hbuild, hb⟩ := buildFlat_ok hm h.sound id
    obtain ⟨defs', hrest, h'⟩ := Run.buildAll hm ids (h.step hb)
    refine ⟨defs', ?_, ?_⟩
    · have hbuild : build .unpacking model defs id = .ok (defs₁, n) := hbuild
      rw [Definitions.buildAll, hbuild]
      exact hrest
    · rw [List.append_assoc] at h'
      exact h'

/-- After any run, the flat definition of a node is the one `MadeFor` the node that `firstSharing`
finds. -/
theorem buildLast_first (hm : model.Linked) (before : List NodeId) (id : NodeId) :
    ∃ defs n first a, buildLast .unpacking model before id = .ok (defs, n) ∧
      firstSharing model (before ++ [id]) id = some first ∧
      model.canonical first = model.canonical id ∧ MadeFor model defs first n a := by
  obtain ⟨defs₁, hall, h⟩ := (run_empty model).buildAll hm before
  obtain ⟨defs, n, hbuild, hb⟩ := buildFlat_ok hm h.sound id
  obtain ⟨first, a, hfirst, hmade⟩ := (h.step hb).made n hb.named.there
  have hcanonical := hb.sound.valid.owner_unique hmade.owned hb.named.owned
  refine ⟨defs, n, first, a, ?_, (firstSharing_congr hcanonical).symm.trans hfirst, hcanonical,
    hmade⟩
  unfold buildLast
  rw [hall]
  exact hbuild

end RestSpec.Definitions
