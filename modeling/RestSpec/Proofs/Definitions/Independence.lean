/-
Definitions do not depend on the order in which they are asked for, but for their names. Shared
definitions are there for the nodes that have been asked for and for what these need, and each is
determined by the node that it belongs to; so with the owners of names in the place of names, calls
for the same nodes leave the same definitions.
-/
import RestSpec.Proofs.Definitions.Calls

namespace RestSpec

open Document DataModel
open Relation (TransGen ReflTransGen)

/-! ## Other names -/

namespace Document

/-- The definition with another name for each name that it refers to, by `labels`. -/
def Definition.relabel (labels : Renaming) : Definition → Definition
  | simple s => simple (s.rename labels)
  | composed c =>
    composed { c with
      parents := c.parents.map labels.apply
      child := c.child.map (Schema.rename labels) }

/-- To list names once by `distinct`, or their labels, is the same where labels tell the names
apart. -/
theorem map_distinct {f : String → String} {names : List String}
    (hf : ∀ n ∈ names, ∀ n' ∈ names, f n = f n' → n = n') :
    (distinct names).map f = distinct (names.map f) := by
  unfold distinct
  suffices ∀ (names seen : List String), (∀ n ∈ seen ++ names, ∀ n' ∈ seen ++ names,
      f n = f n' → n = n') →
      (names.foldl (fun seen n => if seen.contains n then seen else seen ++ [n]) seen).map f =
        (names.map f).foldl (fun seen n => if seen.contains n then seen else seen ++ [n])
          (seen.map f) from this names [] hf
  intro names
  induction names with
  | nil => exact fun _ _ => rfl
  | cons n names ih =>
    intro seen hf
    have hseen : (seen.map f).contains (f n) = seen.contains n := by
      rw [Bool.eq_iff_iff, List.contains_iff_mem, List.contains_iff_mem]
      refine ⟨fun h => ?_, fun h => List.mem_map.2 ⟨n, h, rfl⟩⟩
      obtain ⟨n', hn', heq⟩ := List.mem_map.1 h
      exact hf n' (by simp [hn']) n (by simp) heq ▸ hn'
    rw [List.foldl_cons, List.map_cons, List.foldl_cons, hseen]
    split
    · exact ih seen fun a ha b hb => hf a (by grind) b (by grind)
    · rw [ih (seen ++ [n]) fun a ha b hb => hf a (by grind) b (by grind), List.map_append]
      rfl

end Document

namespace Attributes

/-- The attributes with another name for each name that their `properties` refer to. -/
def relabel (labels : Renaming) (a : Attributes) : Attributes :=
  { a with properties := Schema.renameProperties labels a.properties }

variable (labels : Renaming)

theorem rename_placedSchema (n : Node) (choice : Option String) (s : Schema) :
    (placedSchema n choice s).rename labels = placedSchema n choice (s.rename labels) := by
  have hreference : (s.rename labels).isReference = s.isReference := by
    cases s
    simp [Schema.rename, Schema.isReference]
  unfold placedSchema
  dsimp only
  rw [hreference]
  cases s
  cases choice <;> cases n.augmentedBy <;> dsimp only <;> split <;> rfl

theorem renameProperties_insert (name : String) (s : Schema) (properties : List (String × Schema)) :
    Schema.renameProperties labels (Entries.insert name s properties) =
      Entries.insert name (s.rename labels) (Schema.renameProperties labels properties) := by
  induction properties with
  | nil => rfl
  | cons e rest ih =>
    obtain ⟨k, p⟩ := e
    simp only [Entries.insert, Schema.renameProperties]
    split
    · rfl
    · split
      · rfl
      · rw [← ih, Schema.renameProperties]

theorem relabel_add (a : Attributes) (keys : List String) (n : Node) (choice : Option String)
    (s : Schema) :
    (a.add keys n choice s).relabel labels = (a.relabel labels).add keys n choice (s.rename labels) := by
  unfold relabel add
  rw [renameProperties_insert, rename_placedSchema]

theorem isEmpty_relabel (a : Attributes) : (a.relabel labels).isEmpty = a.isEmpty := by
  unfold relabel isEmpty
  rw [Schema.renameProperties_eq_map, List.isEmpty_map]

end Attributes

/-! ## What is collected -/

section Collected

variable {model : DataModel} {stands stands' : NodeId → Schema → Prop} {keys : List String}
  {ms : List Member} {a a' a'' : Attributes}

theorem rename_leafProperty (labels : Renaming) (model : DataModel) (id : NodeId) :
    (model.leafProperty id).rename labels = model.leafProperty id :=
  Schema.rename_of_none labels _ (by rw [references_leafProperty]; simp)

theorem MemberSchema.relabel {labels : Renaming} {id : NodeId} {s : Schema}
    (h : MemberSchema model stands id s)
    (hle : ∀ id s, stands id s → stands' id (s.rename labels)) :
    MemberSchema model stands' id (s.rename labels) := by
  unfold MemberSchema at h ⊢
  split at h
  · exact hle _ _ h
  · obtain ⟨entry, hentry, rfl⟩ := h
    exact ⟨_, hle _ _ hentry, rfl⟩
  · rw [h, rename_leafProperty]

theorem Collected.relabel {labels : Renaming} (h : Collected model stands keys ms a a')
    (hle : ∀ id s, stands id s → stands' id (s.rename labels)) :
    Collected model stands' keys ms (a.relabel labels) (a'.relabel labels) := by
  induction h with
  | nil => exact .nil
  | cons hs _ ih => exact .cons (hs.relabel hle) (Attributes.relabel_add labels _ _ _ _ _ ▸ ih)

theorem MemberSchema.unique {id : NodeId} {s s' : Schema}
    (hunique : ∀ id s s', stands id s → stands id s' → s = s') (h : MemberSchema model stands id s)
    (h' : MemberSchema model stands id s') : s = s' := by
  unfold MemberSchema at h h'
  cases hk : (model.node id).kind with
  | container presence =>
    rw [hk] at h h'
    exact hunique _ _ _ h h'
  | list keys =>
    rw [hk] at h h'
    obtain ⟨entry, hentry, rfl⟩ := h
    obtain ⟨entry', hentry', rfl⟩ := h'
    rw [hunique _ _ _ hentry hentry']
  | _ =>
    rw [hk] at h h'
    exact h.trans h'.symm

theorem Collected.unique (hunique : ∀ id s s', stands id s → stands id s' → s = s')
    (h : Collected model stands keys ms a a') : Collected model stands keys ms a a'' → a' = a'' := by
  induction h with
  | nil =>
    intro h'
    cases h'
    rfl
  | cons hs _ ih =>
    intro h'
    cases h' with
    | cons hs' hrest =>
      obtain rfl := hs.unique hunique hs'
      exact ih hrest

/-- What has been `Collected` has a `MemberSchema` for every member. -/
theorem Collected.memberSchema (h : Collected model stands keys ms a a') {m : Member}
    (hm : m ∈ ms) : ∃ s, MemberSchema model stands m.id s := by
  induction h with
  | nil => cases hm
  | @cons m' rest s a a' hs _ ih =>
    rcases List.mem_cons.1 hm with rfl | hm
    · exact ⟨s, hs⟩
    · exact ih hm

/-- A member that is a container or a list has something that `stands` for it or for its entry. -/
theorem MemberSchema.exists_stands {id : NodeId} {s : Schema} (h : MemberSchema model stands id s)
    (hkind : (model.node id).kind.isResource = true) : ∃ s, stands id s := by
  unfold MemberSchema at h
  split at h
  · exact ⟨s, h⟩
  · exact h.imp fun _ h => h.1
  · rename_i hcontainer hlist
    cases hk : (model.node id).kind with
    | container presence => exact absurd hk (hcontainer presence)
    | list keys => exact absurd hk (hlist keys)
    | _ => rw [hk] at hkind; cases hkind

end Collected

/-! ## Owners in the place of names -/

/-- The owner of a name, written as a name. -/
def ownerLabel (owner : NodeId) : String := toString owner

theorem ownerLabel_injective : Function.Injective ownerLabel := fun _ _ h =>
  Naming.numbered_injective "" "" (congrArg ("" ++ "" ++ ·) h)

namespace Naming.Registry

/-- The renaming of each name to the `ownerLabel` of its owner. -/
def labels (r : Registry) : Renaming :=
  Table.ofList (r.owners.map fun (n, owner) => (n, ownerLabel owner))

variable {model : DataModel} {r : Registry}

theorem Valid.find?_labels (h : r.Valid model) {n : String} {owner : NodeId}
    (ho : (n, owner) ∈ r.owners) : r.labels.find? n = some (ownerLabel owner) := by
  refine Table.find?_ofList_of_unique (List.mem_map.2 ⟨(n, owner), ho, rfl⟩) fun w hw => ?_
  obtain ⟨⟨n', owner'⟩, ho', heq⟩ := List.mem_map.1 hw
  obtain ⟨rfl, rfl⟩ := Prod.mk.inj heq
  rw [h.owner_unique ho ho']

theorem Valid.apply_labels (h : r.Valid model) {n : String} {owner : NodeId}
    (ho : (n, owner) ∈ r.owners) : r.labels.apply n = ownerLabel owner :=
  Renaming.apply_of_find? (h.find?_labels ho)

end Naming.Registry

namespace Definitions

variable {model : DataModel} {defs : Definitions} {owner : NodeId} {n : String} {d : Definition}

/-- The table with the owners of names in the place of names, as key and as reference, by
`labels`. -/
def byOwner (defs : Definitions) : Table Definition :=
  Table.ofList (defs.table.entries.map fun (n, d) =>
    (defs.names.labels.apply n, d.relabel defs.names.labels))

/-- What the shared definition of a node says, with `ownerLabel` in the place of names: its parents
and properties are told by the model alone. -/
def Labelled (model : DataModel) (owner : NodeId) (d : Definition) : Prop :=
  ∃ own, Collected model (fun id s => s = Schema.referenceTo (ownerLabel (model.canonical id)))
      (model.node owner).kind.keys (model.members owner (model.isOwnChild owner)) {} own ∧
    d = assemble
      (distinct ((model.inheritedGroupings owner).map fun g => ownerLabel (model.canonical g)))
      own (model.node owner).description

theorem Labelled.unique {d d' : Definition} (h : Labelled model owner d)
    (h' : Labelled model owner d') : d = d' := by
  obtain ⟨own, hown, rfl⟩ := h
  obtain ⟨own', hown', rfl⟩ := h'
  rw [hown.unique (fun _ _ _ hs hs' => hs.trans hs'.symm) hown']

theorem relabel_assemble (labels : Renaming) (parents : List String) (own : Attributes)
    (description : Option String) : (assemble parents own description).relabel labels =
      assemble (parents.map labels.apply) (own.relabel labels) description := by
  cases parents with
  | nil => rfl
  | cons p parents =>
    simp only [assemble, Definition.relabel, List.map_cons, Attributes.isEmpty_relabel]
    split <;> rfl

theorem map_labels (hv : defs.names.Valid model) {gs : List NodeId} {names : List String}
    (h : List.Forall₂ (Named model defs) gs names) :
    names.map defs.names.labels.apply = gs.map fun g => ownerLabel (model.canonical g) := by
  induction h with
  | nil => rfl
  | cons hn _ ih => rw [List.map_cons, List.map_cons, hv.apply_labels hn.owned, ih]

/-- The `Entry` of a shared definition is determined by its owner, but for names: it is `Labelled`
once names are replaced by owners. -/
theorem Entry.labelled (h : Entry model defs owner d .optimizing) (hv : defs.names.Valid model) :
    Labelled model owner (d.relabel defs.names.labels) := by
  obtain ⟨parents, own, ⟨⟨names, hnames, rfl⟩, hown⟩, rfl⟩ := h
  refine ⟨own.relabel defs.names.labels, hown.relabel fun id s hs => ?_, ?_⟩
  · obtain ⟨n, rfl, hn⟩ := hs
    have htarget : defs.names.labels.find? (referenceTarget (definitionReference n)) =
        some (ownerLabel (model.canonical id)) := by
      rw [referenceTarget_definitionReference, hv.find?_labels hn.owned]
    simp only [Schema.referenceTo, Schema.rename, Option.map_some, Schema.renameReference, htarget]
    rfl
  · have hinjective : ∀ p ∈ names, ∀ p' ∈ names,
        defs.names.labels.apply p = defs.names.labels.apply p' → p = p' := by
      intro p hp p' hp' heq
      obtain ⟨g, -, hg⟩ := forall₂_mem_left hnames.flip p hp
      obtain ⟨g', -, hg'⟩ := forall₂_mem_left hnames.flip p' hp'
      rw [hv.apply_labels hg.owned, hv.apply_labels hg'.owned] at heq
      exact hv.name_unique hg.owned (ownerLabel_injective heq ▸ hg'.owned)
    rw [relabel_assemble, map_distinct hinjective, map_labels hv hnames]

theorem Sound.find?_byOwner (hs : Sound .optimizing model defs) {k : String} :
    defs.byOwner.find? k = some d ↔ ∃ n owner d', (n, owner) ∈ defs.names.owners ∧
      defs.table.find? n = some d' ∧ k = ownerLabel owner ∧ d = d'.relabel defs.names.labels := by
  have hlisted : ∀ d, (k, d) ∈ defs.table.entries.map (fun (n, d) =>
      (defs.names.labels.apply n, d.relabel defs.names.labels)) ↔
      ∃ n owner d', (n, owner) ∈ defs.names.owners ∧ defs.table.find? n = some d' ∧
        k = ownerLabel owner ∧ d = d'.relabel defs.names.labels := by
    intro d
    constructor
    · intro h
      obtain ⟨⟨n, d'⟩, hd', heq⟩ := List.mem_map.1 h
      obtain ⟨rfl, rfl⟩ := Prod.mk.inj heq
      have hfind := Table.mem_entries_iff.1 hd'
      obtain ⟨owner, ho, -⟩ := hs.entries n d' hfind
      exact ⟨n, owner, d', ho, hfind, hs.valid.apply_labels ho, rfl⟩
    · rintro ⟨n, owner, d', ho, hfind, rfl, rfl⟩
      refine List.mem_map.2 ⟨(n, d'), Table.mem_entries_iff.2 hfind, ?_⟩
      dsimp only
      rw [hs.valid.apply_labels ho]
  refine ⟨fun h => (hlisted d).1 (Table.mem_of_find?_ofList h), fun h =>
    Table.find?_ofList_of_unique ((hlisted d).2 h) fun w hw => ?_⟩
  -- an owner has one name, and the name one definition
  obtain ⟨n, owner, d', ho, hfind, rfl, rfl⟩ := h
  obtain ⟨n', owner', w', ho', hfind', hlabel, rfl⟩ := (hlisted w).1 hw
  obtain rfl := ownerLabel_injective hlabel
  obtain rfl := hs.valid.name_unique ho ho'
  rw [hfind] at hfind'
  rw [Option.some.inj hfind']

/-! ## What is there -/

/-- What a shared definition `Needs` is there as well. -/
theorem Sound.needs (hs : Sound .optimizing model defs) {owner' : NodeId}
    (hneeds : Needs model owner owner') (ho : (n, owner) ∈ defs.names.owners)
    (hthere : defs.table.contains n = true) :
    ∃ n', (n', owner') ∈ defs.names.owners ∧ defs.table.contains n' = true := by
  obtain ⟨d, hd⟩ := Table.contains_iff.1 hthere
  obtain ⟨o, ho', parents, own, ⟨⟨names, hnames, -⟩, hown⟩, -⟩ := hs.entries n d hd
  obtain rfl := hs.valid.owner_unique ho' ho
  cases hneeds with
  | grouping hg =>
    obtain ⟨p, -, hnamed⟩ := forall₂_mem_left hnames _ hg
    exact ⟨p, hnamed.owned, hnamed.there⟩
  | member hm hk =>
    obtain ⟨s, hs⟩ := hown.memberSchema hm
    obtain ⟨-, p, -, hnamed⟩ := hs.exists_stands hk
    exact ⟨p, hnamed.owned, hnamed.there⟩

/-- The definitions of nodes that have been `asked` for and of what these need, and no others. -/
structure Asked (model : DataModel) (asked : List NodeId) (defs : Definitions) : Prop where
  sound : Sound .optimizing model defs
  there : ∀ id ∈ asked, ∃ n, Named model defs id n
  needed : ∀ n d, defs.table.find? n = some d → ∃ owner, (n, owner) ∈ defs.names.owners ∧
    ∃ id ∈ asked, ReflTransGen (Needs model) (model.canonical id) owner

theorem asked_empty (model : DataModel) : Asked model [] {} :=
  ⟨sound_empty .optimizing model, by simp, nofun⟩

section Asked

variable {asked asked' : List NodeId} {defs' : Definitions}

theorem Asked.build (h : Asked model asked defs) (hm : model.Linked) (id : NodeId) :
    ∃ defs' n, defs.build .optimizing model id = .ok (defs', n) ∧
      Asked model (asked ++ [id]) defs' := by
  obtain ⟨defs', n, hbuild, hb⟩ := buildSharedWithin_ok hm (depthLimit model) [] [] defs id
    ⟨h.sound, by simp⟩ .nil (by simp [depthLimit])
  refine ⟨defs', n, hbuild, hb.sound, fun id' hid => ?_, fun k d hd => ?_⟩
  · rcases List.mem_append.1 hid with hid | hid
    · exact (h.there id' hid).imp fun _ hn => hb.grows.named hn
    · obtain rfl := List.mem_singleton.1 hid
      exact ⟨n, hb.named⟩
  · rcases hb.grows.fresh k d hd with hd | ⟨owner, ho, hneeds⟩
    · obtain ⟨owner, ho, id', hid, hneeds⟩ := h.needed k d hd
      exact ⟨owner, hb.grows.owners _ ho, id', List.mem_append_left _ hid, hneeds⟩
    · exact ⟨owner, ho, id, List.mem_append_right _ (List.mem_singleton_self id), hneeds⟩

theorem Asked.callAll (hm : model.Linked) : ∀ (cs : List Call) {asked : List NodeId}
    {defs : Definitions}, Asked model asked defs →
    ∃ defs', callAll .optimizing model cs defs = .ok defs' ∧
      Asked model (asked ++ cs.map Call.node) defs'
  | [], asked, defs, h => ⟨defs, rfl, by simpa using h⟩
  | c :: cs, asked, defs, h => by
    obtain ⟨defs₁, n, hbuild, h₁⟩ := h.build hm c.node
    obtain ⟨defs', hrest, h'⟩ := Asked.callAll hm cs h₁
    refine ⟨defs', ?_, by simpa using h'⟩
    rw [Definitions.callAll, call_of_build hbuild]
    exact hrest

/-- A node has a definition just if a node that has been `Asked` for needs it, by `Needs` from
canonical node to canonical node. -/
theorem Asked.there_iff (h : Asked model asked defs) :
    (∃ n, (n, owner) ∈ defs.names.owners ∧ defs.table.contains n = true) ↔
      ∃ id ∈ asked, ReflTransGen (Needs model) (model.canonical id) owner := by
  constructor
  · rintro ⟨n, ho, hthere⟩
    obtain ⟨d, hd⟩ := Table.contains_iff.1 hthere
    obtain ⟨o, ho', hneeded⟩ := h.needed n d hd
    exact h.sound.valid.owner_unique ho' ho ▸ hneeded
  · rintro ⟨id, hid, hneeds⟩
    induction hneeds with
    | refl =>
      obtain ⟨n, hn⟩ := h.there id hid
      exact ⟨n, hn.owned, hn.there⟩
    | tail _ hstep ih =>
      obtain ⟨n, ho, hthere⟩ := ih
      exact h.sound.needs hstep ho hthere

/-- The table `byOwner` holds the definitions that are needed, each as `Labelled` determines it. -/
theorem Asked.find?_byOwner (h : Asked model asked defs) {k : String} :
    defs.byOwner.find? k = some d ↔ ∃ owner, k = ownerLabel owner ∧
      (∃ id ∈ asked, ReflTransGen (Needs model) (model.canonical id) owner) ∧
      Labelled model owner d := by
  rw [h.sound.find?_byOwner]
  constructor
  · rintro ⟨n, owner, d', ho, hfind, rfl, rfl⟩
    obtain ⟨o, ho', hentry⟩ := h.sound.entries n d' hfind
    obtain rfl := h.sound.valid.owner_unique ho' ho
    exact ⟨o, rfl, h.there_iff.1 ⟨n, ho, Table.contains_of_find? hfind⟩,
      hentry.labelled h.sound.valid⟩
  · rintro ⟨owner, rfl, hneeded, hlabelled⟩
    obtain ⟨n, ho, hthere⟩ := h.there_iff.2 hneeded
    obtain ⟨d', hfind⟩ := Table.contains_iff.1 hthere
    obtain ⟨o, ho', hentry⟩ := h.sound.entries n d' hfind
    obtain rfl := h.sound.valid.owner_unique ho' ho
    exact ⟨n, o, d', ho, hfind, rfl, hlabelled.unique (hentry.labelled h.sound.valid)⟩

/-- Definitions that have been `Asked` for the same nodes have the same table `byOwner`. -/
theorem Asked.byOwner_eq (h : Asked model asked defs) (h' : Asked model asked' defs')
    (hsame : ∀ id, id ∈ asked ↔ id ∈ asked') : defs.byOwner = defs'.byOwner := by
  refine Table.ext_find? fun k => Option.ext fun d => ?_
  rw [h.find?_byOwner, h'.find?_byOwner]
  simp only [hsame]

end Asked

/-! ## Calls for the same nodes -/

/-- In `byOwner` the owner of a name takes its place one for one: every name of a definition, and
every name that a definition refers to, has an owner; no two have the same; and each definition is
found by its owner. -/
structure OwnedOneForOne (model : DataModel) (defs : Definitions) : Prop where
  named : ∀ n r, RefersTo defs.table n r → defs.table.contains r = true
  owned : ∀ n, defs.table.contains n = true → ∃ owner, (n, owner) ∈ defs.names.owners ∧
    model.canonical owner = owner ∧ defs.names.labels.apply n = toString owner
  apart : ∀ n n', defs.table.contains n = true → defs.table.contains n' = true →
    defs.names.labels.apply n = defs.names.labels.apply n' → n = n'
  found : ∀ n d, defs.table.find? n = some d →
    defs.byOwner.find? (defs.names.labels.apply n) = some (d.relabel defs.names.labels)

theorem Sound.ownedOneForOne (hs : Sound .optimizing model defs) : OwnedOneForOne model defs := by
  have howned : ∀ n, defs.table.contains n = true → ∃ owner, (n, owner) ∈ defs.names.owners ∧
      model.canonical owner = owner ∧ defs.names.labels.apply n = toString owner := by
    intro n hn
    obtain ⟨d, hd⟩ := Table.contains_iff.1 hn
    obtain ⟨owner, ho, -⟩ := hs.entries n d hd
    exact ⟨owner, ho, (hs.valid.owners n owner ho).canonical, hs.valid.apply_labels ho⟩
  refine ⟨fun n r hr => ?_, howned, fun n n' hn hn' heq => ?_, fun n d hd => ?_⟩
  · obtain ⟨d, hd, hr⟩ := hr
    obtain ⟨owner, -, hentry⟩ := hs.entries n d hd
    exact hentry.references r hr
  · obtain ⟨owner, ho, -, hlabel⟩ := howned n hn
    obtain ⟨owner', ho', -, hlabel'⟩ := howned n' hn'
    obtain rfl := ownerLabel_injective (hlabel.symm.trans (heq.trans hlabel'))
    exact hs.valid.name_unique ho ho'
  · obtain ⟨owner, ho, -⟩ := hs.entries n d hd
    exact hs.find?_byOwner.2 ⟨n, owner, d, ho, hd, hs.valid.apply_labels ho, rfl⟩

/-- Calls for the same nodes, in any order and any number of times, leave tables that are equal
`byOwner`, with names that are `OwnedOneForOne`: the same definitions, but for the names that these
have. -/
theorem callAll_byOwner {sources : List Source.Module} (h : link sources = .ok model)
    {cs cs' : List Call} (hsame : ∀ id, id ∈ cs.map Call.node ↔ id ∈ cs'.map Call.node) :
    ∃ defs defs', callAll .optimizing model cs {} = .ok defs ∧
      callAll .optimizing model cs' {} = .ok defs' ∧ OwnedOneForOne model defs ∧
      OwnedOneForOne model defs' ∧ defs.byOwner = defs'.byOwner := by
  obtain ⟨hm, -⟩ := linked_of_link h
  obtain ⟨defs, hall, hasked⟩ := (asked_empty model).callAll hm cs
  obtain ⟨defs', hall', hasked'⟩ := (asked_empty model).callAll hm cs'
  exact ⟨defs, defs', hall, hall', hasked.sound.ownedOneForOne, hasked'.sound.ownedOneForOne,
    hasked.byOwner_eq hasked' hsame⟩

theorem callAll_byOwner_sharing : ∃ model, link sharing = .ok model ∧
    (∀ id, id ∈ ([.build 13, .build 4, .build 8] : List Call).map Call.node ↔
      id ∈ ([.build 8, .build 13, .build 8, .build 4] : List Call).map Call.node) ∧
    ∃ defs defs', callAll .optimizing model [.build 13, .build 4, .build 8] {} = .ok defs ∧
      callAll .optimizing model [.build 8, .build 13, .build 8, .build 4] {} = .ok defs' ∧
      OwnedOneForOne model defs ∧ OwnedOneForOne model defs' ∧ defs.byOwner = defs'.byOwner := by
  obtain ⟨model, h⟩ := link_sharing
  have hsame : ∀ id, id ∈ ([.build 13, .build 4, .build 8] : List Call).map Call.node ↔
      id ∈ ([.build 8, .build 13, .build 8, .build 4] : List Call).map Call.node := by
    intro id
    simp only [List.map_cons, List.map_nil, Call.node, List.mem_cons, List.not_mem_nil, or_false]
    tauto
  exact ⟨model, h, hsame, callAll_byOwner h hsame⟩

end Definitions

end RestSpec
