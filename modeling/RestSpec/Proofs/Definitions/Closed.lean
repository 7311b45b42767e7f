/-
The table that building leaves. It has every definition that one of its definitions refers to, and
a definition inherits from none but those of nodes that lie further on; so a document with such a
table is well formed if its operations refer to nothing else.
-/
import RestSpec.Proofs.Definitions.Build
import RestSpec.Proofs.Document.Effective
import RestSpec.Proofs.Naming.Identifier

namespace RestSpec.Definitions

open Document DataModel
open Relation (TransGen ReflTransGen)

/-! ## What a definition is put together from -/

@[simp]
theorem parents_assemble (parents : List String) (own : Attributes) (description : Option String) :
    (assemble parents own description).parents = parents := by
  cases parents <;> rfl

theorem own_assemble {parents : List String} {own : Attributes} {description : Option String}
    {s : Schema} (h : (assemble parents own description).own = some s) :
    ∃ description', s = own.object description' := by
  cases parents with
  | nil => exact ⟨description, (Option.some.inj h).symm⟩
  | cons p parents =>
    have h : (if own.isEmpty then none else some (own.object none)) = some s := h
    split at h
    · cases h
    · exact ⟨none, (Option.some.inj h).symm⟩

section Entry

variable {strategy : Strategy} {model : DataModel} {defs : Definitions} {owner : NodeId}
  {d : Definition} {parents : List String} {own : Attributes}

/-- A parent among `SharedParts` is `Named` for a grouping that is inherited from. -/
theorem SharedParts.parent (h : SharedParts model defs owner parents own) {p : String}
    (hp : p ∈ parents) : ∃ g ∈ model.inheritedGroupings owner, Named model defs g p := by
  obtain ⟨names, hnames, rfl⟩ := h.parents
  have hflip : List.Forall₂ (flip (Named model defs)) names (model.inheritedGroupings owner) :=
    hnames.flip
  exact forall₂_mem_left hflip p (mem_distinct.1 hp)

theorem Entry.parent (h : Entry model defs owner d strategy) {p : String} (hp : p ∈ d.parents) :
    ∃ g ∈ model.inheritedGroupings owner, Named model defs g p := by
  cases strategy with
  | optimizing =>
    obtain ⟨parents, own, hparts, rfl⟩ := h
    rw [parents_assemble] at hp
    exact hparts.parent hp
  | unpacking =>
    obtain ⟨id, a, -, -, rfl⟩ := h
    cases hp

theorem Entry.ownRefersInto (h : Entry model defs owner d strategy) {s : Schema}
    (hs : d.own = some s) : RefersInto defs s := by
  cases strategy with
  | optimizing =>
    obtain ⟨parents, own, hparts, rfl⟩ := h
    obtain ⟨description, rfl⟩ := own_assemble hs
    exact hparts.own.references (fun _ _ hr => hr.refersInto) description
  | unpacking =>
    obtain ⟨id, a, -, ha, rfl⟩ := h
    obtain rfl := Option.some.inj hs
    exact ha.references (fun _ _ hr => hr) _

theorem Entry.references (h : Entry model defs owner d strategy) :
    ∀ r ∈ d.references.map (·.2), defs.table.contains r = true := by
  intro r hr
  rcases Definition.mem_references.1 hr with hp | ⟨s, hs, hr⟩
  · obtain ⟨g, -, hnamed⟩ := h.parent hp
    exact hnamed.there
  · exact h.ownRefersInto hs r hr

end Entry

/-! ## Well-formed documents -/

section Document

variable {strategy : Strategy} {model : DataModel} {defs : Definitions} {doc : Document}

theorem Sound.inherits (h : Sound strategy model defs) (hdoc : doc.definitions = defs.table)
    {a b : String} (hab : doc.Inherits a b) {owner : NodeId}
    (ho : (a, owner) ∈ defs.names.owners) :
    ∃ owner', (b, owner') ∈ defs.names.owners ∧ TransGen model.Edge owner owner' := by
  obtain ⟨d, hd, hb⟩ := inherits_iff.1 hab
  rw [hdoc] at hd
  obtain ⟨o, ho', he⟩ := h.entries a d hd
  obtain rfl := h.valid.owner_unique ho' ho
  obtain ⟨g, hg, hnamed⟩ := he.parent hb
  exact ⟨model.canonical g, hnamed.owned, canonical_use (List.mem_of_mem_filter hg)⟩

theorem Sound.acyclic (h : Sound strategy model defs) (hm : model.Linked)
    (hdoc : doc.definitions = defs.table) : doc.Acyclic := by
  -- names of ancestors belong to nodes further and further on
  have hbelow : ∀ a b, TransGen doc.Inherits a b → ∀ owner, (a, owner) ∈ defs.names.owners →
      ∃ owner', (b, owner') ∈ defs.names.owners ∧ TransGen model.Edge owner owner' := by
    intro a b hab
    induction hab with
    | single hstep => exact fun owner ho => h.inherits hdoc hstep ho
    | tail _ hstep ih =>
      intro owner ho
      obtain ⟨middle, hmid, hto⟩ := ih owner ho
      obtain ⟨owner', ho', hon⟩ := h.inherits hdoc hstep hmid
      exact ⟨owner', ho', hto.trans hon⟩
  intro n hn
  obtain ⟨p, hp, -⟩ := TransGen.head'_iff.1 hn
  obtain ⟨d, hd⟩ := Table.contains_iff.1 (Table.mem_names_iff.1 (mem_names_of_inherits hp))
  obtain ⟨owner, ho, -⟩ := h.entries n d (hdoc ▸ hd)
  obtain ⟨owner', ho', hcycle⟩ := hbelow n n hn owner ho
  obtain rfl := h.valid.owner_unique ho ho'
  exact not_transGen_of_wellFounded hm.founded _ hcycle

theorem Sound.wellFormed (h : Sound strategy model defs) (hm : model.Linked)
    (hmodules : ∀ m ∈ model.moduleNames, NulFree m.toList) (hdoc : doc.definitions = defs.table)
    (hoperations : ∀ r ∈ doc.pathReferences, defs.table.contains r = true) : doc.WellFormed := by
  refine ⟨⟨fun n d hd => ?_, ?_⟩, h.acyclic hm hdoc, fun n hn => ?_⟩
  · rw [hdoc] at hd ⊢
    obtain ⟨owner, -, he⟩ := h.entries n d hd
    exact he.references
  · rw [hdoc]
    exact hoperations
  · rw [hdoc, Table.mem_names_iff] at hn
    obtain ⟨d, hd⟩ := Table.contains_iff.1 hn
    obtain ⟨owner, ho, -⟩ := h.entries n d hd
    exact h.valid.nulFree hm hmodules ho

end Document

end RestSpec.Definitions
