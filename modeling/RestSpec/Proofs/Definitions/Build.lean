/-
Building definitions always succeeds, and leaves a table that refers to nothing but itself. What
is built inside a definition is named for nodes strictly below the node that the definition is
named for; so no name comes up again while its definition is being built, and definitions lie
inside each other no deeper than there are nodes.
-/
import RestSpec.Definitions.Build
import RestSpec.Proofs.Definitions.Attributes

namespace RestSpec.Definitions

open Document DataModel
open Relation (TransGen ReflTransGen)

/-! ## What stays -/

/-- The name `n` is that of the canonical node of `id`, and a definition is there under it. -/
structure Named (model : DataModel) (defs : Definitions) (id : NodeId) (n : String) : Prop where
  owned : (n, model.canonical id) ∈ defs.names.owners
  there : defs.table.contains n = true

/-- Names keep their owners and definitions stay; those that are new belong to nodes that are
`below`. -/
structure Grows (below : NodeId → Prop) (defs defs' : Definitions) : Prop where
  owners : ∀ e ∈ defs.names.owners, e ∈ defs'.names.owners
  kept : ∀ n d, defs.table.find? n = some d → defs'.table.find? n = some d
  fresh : ∀ n d, defs'.table.find? n = some d → defs.table.find? n = some d ∨
    ∃ owner, (n, owner) ∈ defs'.names.owners ∧ below owner

section Grows

variable {model : DataModel} {below below' : NodeId → Prop} {defs defs' defs'' : Definitions}

theorem Grows.refl (below : NodeId → Prop) (defs : Definitions) : Grows below defs defs :=
  ⟨fun _ he => he, fun _ _ hd => hd, fun _ _ hd => .inl hd⟩

theorem Grows.trans (h : Grows below defs defs') (h' : Grows below' defs' defs'')
    (hle : ∀ owner, below' owner → below owner) : Grows below defs defs'' := by
  refine ⟨fun e he => h'.owners e (h.owners e he), fun n d hd => h'.kept n d (h.kept n d hd),
    fun n d hd => ?_⟩
  rcases h'.fresh n d hd with hd | ⟨owner, ho, hb⟩
  · rcases h.fresh n d hd with hd | ⟨owner, ho, hb⟩
    · exact .inl hd
    · exact .inr ⟨owner, h'.owners _ ho, hb⟩
  · exact .inr ⟨owner, ho, hle owner hb⟩

theorem Grows.weaken (h : Grows below defs defs') (hle : ∀ owner, below owner → below' owner) :
    Grows below' defs defs' :=
  (Grows.refl below' defs).trans h hle

theorem Grows.contains (h : Grows below defs defs') {n : String}
    (hn : defs.table.contains n = true) : defs'.table.contains n = true := by
  obtain ⟨d, hd⟩ := Table.contains_iff.1 hn
  exact Table.contains_iff.2 ⟨d, h.kept n d hd⟩

theorem Grows.named (h : Grows below defs defs') {id : NodeId} {n : String}
    (hn : Named model defs id n) : Named model defs' id n :=
  ⟨h.owners _ hn.owned, h.contains hn.there⟩

end Grows

/-! ## What a definition says -/

/-- The schema is a `$ref` to the definition that is `Named` for the node. -/
def Refers (model : DataModel) (defs : Definitions) (id : NodeId) (s : Schema) : Prop :=
  ∃ n, s = Schema.referenceTo n ∧ Named model defs id n

/-- The `references` of a schema all lead to definitions that are there. -/
def RefersInto (defs : Definitions) (s : Schema) : Prop :=
  ∀ r ∈ s.references, defs.table.contains r = true

/-- The parents of a shared definition are those `Named` for the `inheritedGroupings` of its owner,
and its own attributes are `Collected` from the members that are not inherited. -/
structure SharedParts (model : DataModel) (defs : Definitions) (owner : NodeId)
    (parents : List String) (own : Attributes) : Prop where
  parents : ∃ names, List.Forall₂ (Named model defs) (model.inheritedGroupings owner) names ∧
    parents = distinct names
  own : Collected model (Refers model defs) (model.node owner).kind.keys
    (model.members owner (model.isOwnChild owner)) {} own

/-- What a strategy puts into the table under the name of a canonical node: an assembled definition
with its `SharedParts`, or a simple one that is flat. -/
def Entry (model : DataModel) (defs : Definitions) (owner : NodeId) (d : Definition) :
    Strategy → Prop
  | .optimizing => ∃ parents own, SharedParts model defs owner parents own ∧
      d = assemble parents own (model.node owner).description
  | .unpacking => ∃ id a, model.canonical id = owner ∧
      Collected model (fun _ => RefersInto defs) (model.node id).kind.keys
        (model.members id fun _ => true) {} a ∧
      d = .simple (a.object (model.node id).description)

/-- The names are `Valid`, and each definition is an `Entry` for the node that owns its name. -/
structure Sound (strategy : Strategy) (model : DataModel) (defs : Definitions) : Prop where
  valid : defs.names.Valid model
  entries : ∀ n d, defs.table.find? n = some d →
    ∃ owner, (n, owner) ∈ defs.names.owners ∧ Entry model defs owner d strategy

theorem sound_empty (strategy : Strategy) (model : DataModel) : Sound strategy model {} :=
  ⟨Naming.Registry.valid_empty model, nofun⟩

section Sound

variable {strategy : Strategy} {model : DataModel} {below : NodeId → Prop}
  {defs defs' : Definitions} {underWay : List String} {passed : List NodeId}

theorem Grows.refersInto (h : Grows below defs defs') {s : Schema} (hs : RefersInto defs s) :
    RefersInto defs' s :=
  fun r hr => h.contains (hs r hr)

theorem Grows.refers (h : Grows below defs defs') {id : NodeId} {s : Schema}
    (hs : Refers model defs id s) : Refers model defs' id s :=
  hs.imp fun _ hn => ⟨hn.1, h.named hn.2⟩

theorem Refers.refersInto {id : NodeId} {s : Schema} (h : Refers model defs id s) :
    RefersInto defs s := by
  obtain ⟨n, rfl, hn⟩ := h
  intro r hr
  rw [Schema.references_referenceTo, List.mem_singleton] at hr
  exact hr ▸ hn.there

theorem Entry.mono (hg : Grows below defs defs') {owner : NodeId} {d : Definition}
    (h : Entry model defs owner d strategy) : Entry model defs' owner d strategy := by
  cases strategy with
  | optimizing =>
    obtain ⟨parents, own, ⟨⟨names, hnames, hparents⟩, hown⟩, hd⟩ := h
    exact ⟨parents, own, ⟨⟨names, hnames.imp fun _ _ hn => hg.named hn, hparents⟩,
      hown.mono fun _ _ hs => hg.refers hs⟩, hd⟩
  | unpacking =>
    obtain ⟨id, a, hid, ha, hd⟩ := h
    exact ⟨id, a, hid, ha.mono fun _ _ hs => hg.refersInto hs, hd⟩

/-- A `Sound` state between two steps: the names that are `underWay` have owners that have been
`passed`. -/
structure Ready (strategy : Strategy) (model : DataModel) (underWay : List String)
    (passed : List NodeId) (defs : Definitions) : Prop where
  sound : Sound strategy model defs
  passed : ∀ n ∈ underWay, ∃ owner ∈ passed, (n, owner) ∈ defs.names.owners

theorem Ready.of_grows (h : Ready strategy model underWay passed defs)
    (hg : Grows below defs defs') (hs : Sound strategy model defs') :
    Ready strategy model underWay passed defs' := by
  refine ⟨hs, fun n hn => ?_⟩
  obtain ⟨owner, hmem, ho⟩ := h.passed n hn
  exact ⟨owner, hmem, hg.owners _ ho⟩

/-- More is known of `names`, and the table is the one that was there: the state stays `Ready`. -/
theorem Ready.withNames (h : Ready strategy model underWay passed defs) {names : Naming.Registry}
    (hv : names.Valid model) (hkept : ∀ e ∈ defs.names.owners, e ∈ names.owners) :
    Ready strategy model underWay passed { defs with names := names } ∧
      Grows (fun _ => False) defs { defs with names := names } := by
  have hg : Grows (fun _ => False) defs { defs with names := names } :=
    ⟨hkept, fun _ _ hd => hd, fun _ _ hd => .inl hd⟩
  refine ⟨h.of_grows hg ⟨hv, fun n d hd => ?_⟩, hg⟩
  obtain ⟨owner, ho, he⟩ := h.sound.entries n d hd
  exact ⟨owner, hkept _ ho, he.mono hg⟩

theorem resolve_ready (hm : model.Linked) (h : Ready strategy model underWay passed defs)
    (id : NodeId) : ∃ defs' n, defs.resolve model id = (defs', n) ∧
      Ready strategy model underWay passed defs' ∧ Grows (fun _ => False) defs defs' ∧
      (n, model.canonical id) ∈ defs'.names.owners := by
  have hnames := Naming.Registry.resolve_names hm h.sound.valid id
  obtain ⟨hr, hg⟩ := h.withNames hnames.grows.valid hnames.grows.kept
  exact ⟨_, _, rfl, hr, hg, hnames.owned⟩

theorem canonical_ready (hm : model.Linked) (h : Ready strategy model underWay passed defs)
    (id : NodeId) : ∃ defs', defs.canonical model id = (defs', model.canonical id) ∧
      Ready strategy model underWay passed defs' ∧ Grows (fun _ => False) defs defs' := by
  have hfound := Naming.Registry.canonical_finds hm h.sound.valid id
  obtain ⟨hr, hg⟩ := h.withNames hfound.valid fun e he => hfound.owners.symm ▸ he
  exact ⟨_, Prod.ext rfl hfound.found, hr, hg⟩

theorem Ready.cons (h : Ready strategy model underWay passed defs) {n : String} {owner : NodeId}
    (ho : (n, owner) ∈ defs.names.owners) :
    Ready strategy model (n :: underWay) (owner :: passed) defs := by
  refine ⟨h.sound, fun x hx => ?_⟩
  rcases List.mem_cons.1 hx with rfl | hx
  · exact ⟨owner, List.mem_cons_self, ho⟩
  · obtain ⟨o, hmem, ho⟩ := h.passed x hx
    exact ⟨o, List.mem_cons_of_mem _ hmem, ho⟩

/-- The name of a node that has not been `passed` is not `underWay`, so building it meets no
cycle. -/
theorem Ready.not_underWay (h : Ready strategy model underWay passed defs) {n : String}
    {owner : NodeId} (ho : (n, owner) ∈ defs.names.owners) (hnot : owner ∉ passed) :
    underWay.contains n = false := by
  rw [Bool.eq_false_iff, Ne, List.contains_iff_mem]
  intro hn
  obtain ⟨o, hmem, ho'⟩ := h.passed n hn
  exact hnot (h.sound.valid.owner_unique ho' ho ▸ hmem)

/-- Definitions stay `Sound` when an `Entry` is added under a name that has none. -/
theorem Sound.insert (h : Sound strategy model defs) {n : String} {d : Definition}
    {owner : NodeId} (hnew : defs.table.contains n = false) (ho : (n, owner) ∈ defs.names.owners)
    (he : Entry model defs owner d strategy) :
    Sound strategy model (defs.insert n d) ∧ Grows (· = owner) defs (defs.insert n d) ∧
      (defs.insert n d).table.contains n = true := by
  have hfind : ∀ k, (defs.insert n d).table.find? k = if n = k then some d else defs.table.find? k :=
    fun k => Table.find?_insert defs.table n k d
  have hg : Grows (· = owner) defs (defs.insert n d) := by
    refine ⟨fun _ he => he, fun k d' => Table.find?_insert_of_new hnew, fun k d' hd => ?_⟩
    rw [hfind] at hd
    split at hd
    · rename_i hk
      exact .inr ⟨owner, hk ▸ ho, rfl⟩
    · exact .inl hd
  refine ⟨⟨h.valid, fun k d' hd => ?_⟩, hg, Table.contains_iff.2 ⟨d, ?_⟩⟩
  · rw [hfind] at hd
    split at hd
    · rename_i hk
      cases hd
      exact ⟨owner, hk ▸ ho, he.mono hg⟩
    · obtain ⟨o, ho', he'⟩ := h.entries k d' hd
      exact ⟨o, ho', he'.mono hg⟩
  · rw [hfind, if_pos rfl]

end Sound

/-! ## Collecting and inheriting -/

section Steps

variable {model : DataModel} {below : NodeId → Prop} {Good : Definitions → Prop}

theorem memberSchema_ok {stands : Definitions → NodeId → Schema → Prop}
    {nested : Nested Definitions} {id : NodeId} {defs : Definitions}
    (hnested : (model.node id).kind.isResource = true → ∃ defs' s, nested defs id = .ok (defs', s) ∧
      Good defs' ∧ Grows below defs defs' ∧ stands defs' id s) (hgood : Good defs) :
    ∃ defs' s, memberSchema model nested defs id = .ok (defs', s) ∧ Good defs' ∧
      Grows below defs defs' ∧ MemberSchema model (stands defs') id s := by
  unfold memberSchema MemberSchema
  cases hk : (model.node id).kind with
  | container presence => exact hnested (by rw [hk]; rfl)
  | list keys =>
    obtain ⟨defs', s, hs, hgood', hg, hstands⟩ := hnested (by rw [hk]; rfl)
    refine ⟨defs', Schema.arrayOf s, ?_, hgood', hg, s, hstands, rfl⟩
    dsimp only
    rw [hs]
    rfl
  | _ => exact ⟨defs, _, rfl, hgood, .refl _ _, rfl⟩

/-- `collectMembers` succeeds if the schemas of all containers and lists among the members are made,
and what it makes is `Collected`. -/
theorem collectMembers_ok {stands : Definitions → NodeId → Schema → Prop} (keys : List String)
    (hstands : ∀ defs defs' id s, Grows below defs defs' → stands defs id s → stands defs' id s)
    {nested : Nested Definitions} : ∀ (ms : List Member) (defs : Definitions) (a : Attributes),
    (∀ m ∈ ms, (model.node m.id).kind.isResource = true → ∀ defs, Good defs →
      ∃ defs' s, nested defs m.id = .ok (defs', s) ∧ Good defs' ∧ Grows below defs defs' ∧
        stands defs' m.id s) → Good defs →
    ∃ defs' a', collectMembers model nested keys ms defs a = .ok (defs', a') ∧ Good defs' ∧
      Grows below defs defs' ∧ Collected model (stands defs') keys ms a a'
  | [], defs, a, _, hgood => ⟨defs, a, rfl, hgood, .refl _ _, .nil⟩
  | m :: rest, defs, a, hnested, hgood => by
    obtain ⟨defs₁, s, hs, hgood₁, hg₁, hschema⟩ :=
      memberSchema_ok (fun hk => hnested m List.mem_cons_self hk defs hgood) hgood
    obtain ⟨defs₂, a', hrest, hgood₂, hg₂, hcollected⟩ := collectMembers_ok keys hstands rest defs₁
      (a.add keys (model.node m.id) m.choice s)
      (fun m' hm' => hnested m' (List.mem_cons_of_mem _ hm')) hgood₁
    refine ⟨defs₂, a', ?_, hgood₂, hg₁.trans hg₂ fun _ h => h,
      .cons (hschema.mono fun id s => hstands defs₁ defs₂ id s hg₂) hcollected⟩
    rw [collectMembers, hs]
    exact hrest

/-- `buildParents` succeeds if the definition of each grouping is built, and lists their names
without repetition. -/
theorem buildParents_ok {build : Builder} : ∀ (gs : List NodeId) (defs : Definitions)
    (listed : List String),
    (∀ g ∈ gs, ∀ defs, Good defs → ∃ defs' n, build defs g = .ok (defs', n) ∧ Good defs' ∧
      Grows below defs defs' ∧ Named model defs' g n) → Good defs →
    ∃ defs' names, buildParents build gs defs listed = .ok (defs',
        names.foldl (fun seen n => if seen.contains n then seen else seen ++ [n]) listed) ∧
      Good defs' ∧ Grows below defs defs' ∧ List.Forall₂ (Named model defs') gs names
  | [], defs, listed, _, hgood => ⟨defs, [], rfl, hgood, .refl _ _, .nil⟩
  | g :: rest, defs, listed, hbuild, hgood => by
    obtain ⟨defs₁, n, hn, hgood₁, hg₁, hnamed⟩ := hbuild g List.mem_cons_self defs hgood
    obtain ⟨defs₂, names, hrest, hgood₂, hg₂, hnames⟩ := buildParents_ok rest defs₁
      (if listed.contains n then listed else listed ++ [n])
      (fun g' hg' => hbuild g' (List.mem_cons_of_mem _ hg')) hgood₁
    refine ⟨defs₂, n :: names, ?_, hgood₂, hg₁.trans hg₂ fun _ h => h,
      .cons (hg₂.named hnamed) hnames⟩
    rw [buildParents, hn]
    exact hrest

end Steps

/-! ## Shared definitions -/

/-- The shared definition of one canonical node refers to that of another: of a grouping that it
inherits from, or of a container or list among its own members. -/
inductive Needs (model : DataModel) (owner : NodeId) : NodeId → Prop
  | grouping {g : NodeId} : g ∈ model.inheritedGroupings owner →
      Needs model owner (model.canonical g)
  | member {m : Member} : m ∈ model.members owner (model.isOwnChild owner) →
      (model.node m.id).kind.isResource = true → Needs model owner (model.canonical m.id)

section Needs

variable {model : DataModel} (hm : model.Linked) {owner owner' : NodeId}

include hm

theorem Needs.canonical (h : Needs model owner owner') : model.canonical owner' = owner' := by
  cases h with
  | grouping => exact hm.canonical_canonical _
  | member => exact hm.canonical_canonical _

theorem Needs.below (ho : model.canonical owner = owner) (h : Needs model owner owner') :
    TransGen model.Edge owner owner' := by
  cases h with
  | grouping hg => exact canonical_use (List.mem_of_mem_filter hg)
  | member hmem => exact ho ▸ hm.canonical_member hmem

/-- What a definition `Needs` belongs to nodes strictly below its own by `Edge`, which makes
building end. -/
theorem needs_below (ho : model.canonical owner = owner)
    (h : TransGen (Needs model) owner owner') :
    TransGen model.Edge owner owner' ∧ model.canonical owner' = owner' := by
  induction h with
  | single hstep => exact ⟨hstep.below hm ho, hstep.canonical hm⟩
  | tail _ hstep ih => exact ⟨ih.1.trans (hstep.below hm ih.2), hstep.canonical hm⟩

end Needs

/-- What `build` gives for a node: its name, with a definition under it, in definitions that are
`Sound` and have grown. -/
structure Builds (strategy : Strategy) (model : DataModel) (below : NodeId → Prop)
    (defs : Definitions) (id : NodeId) (defs' : Definitions) (n : String) : Prop where
  sound : Sound strategy model defs'
  grows : Grows below defs defs'
  named : Named model defs' id n

theorem sharedDefinition_ok {model : DataModel} {build : Builder} {owner : NodeId}
    {Good : Definitions → Prop}
    (hbuild : ∀ id, Needs model owner (model.canonical id) → ∀ defs, Good defs →
      ∃ defs' n, build defs id = .ok (defs', n) ∧ Good defs' ∧
        Grows (TransGen (Needs model) owner) defs defs' ∧ Named model defs' id n)
    {defs : Definitions} (hgood : Good defs) :
    ∃ defs' d, sharedDefinition model build owner defs = .ok (defs', d) ∧ Good defs' ∧
      Grows (TransGen (Needs model) owner) defs defs' ∧ Entry model defs' owner d .optimizing := by
  obtain ⟨defs₁, names, hparents, hgood₁, hg₁, hnames⟩ :=
    buildParents_ok (model.inheritedGroupings owner) defs []
      (fun g hg => hbuild g (.grouping hg)) hgood
  have hrefers : ∀ defs defs' id s, Grows (TransGen (Needs model) owner) defs defs' →
      Refers model defs id s → Refers model defs' id s := fun _ _ _ _ hg hs => hg.refers hs
  have hnested : ∀ m ∈ model.members owner (model.isOwnChild owner),
      (model.node m.id).kind.isResource = true → ∀ defs, Good defs →
      ∃ defs' s, referTo build defs m.id = .ok (defs', s) ∧ Good defs' ∧
        Grows (TransGen (Needs model) owner) defs defs' ∧ Refers model defs' m.id s := by
    intro m hmem hk defs hgood
    obtain ⟨defs', n, hn, hgood', hg, hnamed⟩ := hbuild m.id (.member hmem hk) defs hgood
    refine ⟨defs', Schema.referenceTo n, ?_, hgood', hg, n, rfl, hnamed⟩
    unfold referTo
    rw [hn]
    rfl
  obtain ⟨defs₂, own, hown, hgood₂, hg₂, hcollected⟩ :=
    collectMembers_ok (model.node owner).kind.keys hrefers _ defs₁ {} hnested hgood₁
  refine ⟨defs₂, _, ?_, hgood₂, hg₁.trans hg₂ fun _ h => h, distinct names, own,
    ⟨⟨names, hnames.imp fun _ _ hn => hg₂.named hn, rfl⟩, hcollected⟩, rfl⟩
  unfold sharedDefinition collectAttributes
  rw [hparents]
  dsimp only [bind, Except.bind]
  rw [hown]
  rfl

theorem buildSharedWithin_ok {model : DataModel} (hm : model.Linked) : ∀ (depth : Nat)
    (underWay : List String) (passed : List NodeId) (defs : Definitions) (id : NodeId),
    Ready .optimizing model underWay passed defs →
    Passed model.Edge model.size passed (model.canonical id) →
    model.size < passed.length + depth →
    ∃ defs' n, buildSharedWithin model depth underWay defs id = .ok (defs', n) ∧
      Builds .optimizing model (ReflTransGen (Needs model) (model.canonical id)) defs id defs' n
  | 0, _, _, _, _, _, hp, hlt => absurd hp.length_le (Nat.not_le.2 hlt)
  | depth + 1, underWay, passed, defs, id, hr, hp, hlt => by
    have hfalse : ∀ {below : NodeId → Prop} (o : NodeId), False → below o := fun _ h => h.elim
    obtain ⟨defs₁, hcanonical, hr₁, hg₁⟩ := canonical_ready hm hr id
    obtain ⟨defs₂, n, hresolve, hr₂, hg₂, howned⟩ := resolve_ready hm hr₁ id
    have hg₁₂ := hg₁.trans hg₂ fun _ h => h
    unfold buildSharedWithin
    rw [hcanonical]
    dsimp only
    rw [hresolve]
    dsimp only
    by_cases hthere : defs₂.table.contains n = true
    · rw [if_pos hthere]
      exact ⟨defs₂, n, rfl, hr₂.sound, hg₁₂.weaken hfalse, howned, hthere⟩
    -- the owner has not been passed, so its name cannot be under way
    · have hnot := hr₂.not_underWay howned (hp.not_mem hm.founded)
      rw [if_neg hthere, if_neg (by rw [hnot]; exact Bool.false_ne_true)]
      generalize howner : model.canonical id = owner at *
      have hcanon : model.canonical owner = owner := howner ▸ hm.canonical_canonical id
      have hbuild : ∀ id', Needs model owner (model.canonical id') → ∀ defs,
          Ready .optimizing model (n :: underWay) (owner :: passed) defs →
          ∃ defs' n', buildSharedWithin model depth (n :: underWay) defs id' = .ok (defs', n') ∧
            Ready .optimizing model (n :: underWay) (owner :: passed) defs' ∧
            Grows (TransGen (Needs model) owner) defs defs' ∧ Named model defs' id' n' := by
        intro id' hneeds defs hgood
        have hbelow := hneeds.below hm hcanon
        obtain ⟨next, hedge, -⟩ := TransGen.head'_iff.1 hbelow
        obtain ⟨defs', n', hn', hb⟩ := buildSharedWithin_ok hm depth (n :: underWay)
          (owner :: passed) defs id' hgood (hp.cons hm.founded (lt_size_of_edge hedge) hbelow)
          (by simp only [List.length_cons]; omega)
        exact ⟨defs', n', hn', hgood.of_grows hb.grows hb.sound,
          hb.grows.weaken fun o ho => .head' hneeds ho, hb.named⟩
      obtain ⟨defs₃, d, hd, hr₃, hg₃, he⟩ := sharedDefinition_ok hbuild (hr₂.cons howned)
      -- what was built inside is named for nodes further on, so the name is still free
      have hnew : defs₃.table.contains n = false := by
        rw [Bool.eq_false_iff]
        intro hthere'
        obtain ⟨d', hd'⟩ := Table.contains_iff.1 hthere'
        rcases hg₃.fresh n d' hd' with hold | ⟨o, ho, hneeds⟩
        · exact hthere (Table.contains_of_find? hold)
        · obtain rfl := hr₃.sound.valid.owner_unique ho (hg₃.owners _ howned)
          exact not_transGen_of_wellFounded hm.founded _ (needs_below hm hcanon hneeds).1
      obtain ⟨hsound, hg₄, hthere'⟩ := hr₃.sound.insert hnew (hg₃.owners _ howned) he
      refine ⟨defs₃.insert n d, n, ?_, hsound, ?_, ⟨?_, hthere'⟩⟩
      · rw [hd]
        rfl
      · exact ((hg₁₂.weaken hfalse).trans hg₃ fun o ho => ho.to_reflTransGen).trans hg₄
          fun o ho => ho ▸ .refl
      · rw [howner]
        exact hg₄.owners _ (hg₃.owners _ howned)

/-! ## Flat definitions -/

/-- The schema of a node without parents: it `Refers` to the definition of the node, or has its
attributes in place. -/
def FlatSchema (model : DataModel) (defs : Definitions) (id : NodeId) (s : Schema) : Prop :=
  Refers model defs id s ∨ ∃ a, Collected model (fun _ => RefersInto defs) (model.node id).kind.keys
    (model.members id fun _ => true) {} a ∧ s = a.object (model.node id).description

theorem FlatSchema.refersInto {model : DataModel} {defs : Definitions} {id : NodeId} {s : Schema}
    (h : FlatSchema model defs id s) : RefersInto defs s := by
  rcases h with h | ⟨a, ha, rfl⟩
  · exact h.refersInto
  · exact ha.references (fun _ _ hs => hs) _

theorem flatSchemaWithin_ok {model : DataModel} (hm : model.Linked) : ∀ (depth : Nat)
    (underWay : List String) (passed : List NodeId) (defs : Definitions) (id : NodeId),
    Ready .unpacking model underWay passed defs →
    Passed model.Edge model.size passed (model.canonical id) →
    model.size < passed.length + depth →
    ∃ defs' s, flatSchemaWithin model depth underWay defs id = .ok (defs', s) ∧
      Ready .unpacking model underWay passed defs' ∧ Grows (fun _ => False) defs defs' ∧
      FlatSchema model defs' id s
  | 0, _, _, _, _, _, hp, hlt => absurd hp.length_le (Nat.not_le.2 hlt)
  | depth + 1, underWay, passed, defs, id, hr, hp, hlt => by
    obtain ⟨defs₁, n, hresolve, hr₁, hg₁, howned⟩ := resolve_ready hm hr id
    unfold flatSchemaWithin
    rw [hresolve]
    dsimp only
    by_cases hthere : defs₁.table.contains n = true
    · rw [if_pos hthere]
      exact ⟨defs₁, _, rfl, hr₁, hg₁, .inl ⟨n, rfl, howned, hthere⟩⟩
    -- the names under way are those of nodes passed on the way down to this one
    · have hnot := hr₁.not_underWay howned (hp.not_mem hm.founded)
      rw [if_neg hthere, if_neg (by rw [hnot]; exact Bool.false_ne_true)]
      have hrefers : ∀ defs defs' (id : NodeId) s, Grows (fun _ => False) defs defs' →
          RefersInto defs s → RefersInto defs' s := fun _ _ _ _ hg hs => hg.refersInto hs
      have hnested : ∀ m ∈ model.members id fun _ => true,
          (model.node m.id).kind.isResource = true → ∀ defs,
          Ready .unpacking model (n :: underWay) (model.canonical id :: passed) defs →
          ∃ defs' s, flatSchemaWithin model depth (n :: underWay) defs m.id = .ok (defs', s) ∧
            Ready .unpacking model (n :: underWay) (model.canonical id :: passed) defs' ∧
            Grows (fun _ => False) defs defs' ∧ RefersInto defs' s := by
        intro m hm' _ defs hgood
        have hbelow := hm.canonical_member hm'
        obtain ⟨next, hedge, -⟩ := TransGen.head'_iff.1 hbelow
        obtain ⟨defs', s, hs, hr', hg, hflat⟩ := flatSchemaWithin_ok hm depth (n :: underWay)
          (model.canonical id :: passed) defs m.id hgood
          (hp.cons hm.founded (lt_size_of_edge hedge) hbelow)
          (by simp only [List.length_cons]; omega)
        exact ⟨defs', s, hs, hr', hg, hflat.refersInto⟩
      obtain ⟨defs₂, a, ha, hr₂, hg₂, hcollected⟩ :=
        collectMembers_ok (model.node id).kind.keys hrefers _ defs₁ {} hnested (hr₁.cons howned)
      refine ⟨defs₂, _, ?_, hr₁.of_grows hg₂ hr₂.sound, hg₁.trans hg₂ fun _ h => h,
        .inr ⟨a, hcollected, rfl⟩⟩
      unfold collectAttributes
      rw [ha]
      rfl

/-- What `buildFlat` gives: the name has a definition already, or gets one that is made for the
node, and all other definitions stay. -/
structure BuildsFlat (model : DataModel) (defs : Definitions) (id : NodeId) (defs' : Definitions)
    (n : String) : Prop extends Builds .unpacking model (fun _ => True) defs id defs' n where
  others : ∀ k, k ≠ n → defs'.table.find? k = defs.table.find? k
  made : defs.table.contains n = true ∨
    ∃ a, Collected model (fun _ => RefersInto defs') (model.node id).kind.keys
        (model.members id fun _ => true) {} a ∧
      defs'.table.find? n = some (.simple (a.object (model.node id).description))

theorem Grows.same {defs defs' : Definitions} (h : Grows (fun _ => False) defs defs') (k : String) :
    defs'.table.find? k = defs.table.find? k := by
  cases hold : defs.table.find? k with
  | some d => exact h.kept k d hold
  | none =>
    cases hnew : defs'.table.find? k with
    | none => rfl
    | some d =>
      rcases h.fresh k d hnew with hd | ⟨_, _, hfalse⟩
      · rw [hold] at hd
        cases hd
      · exact hfalse.elim

theorem buildFlat_ok {model : DataModel} (hm : model.Linked) {defs : Definitions}
    (h : Sound .unpacking model defs) (id : NodeId) :
    ∃ defs' n, buildFlat model defs id = .ok (defs', n) ∧ BuildsFlat model defs id defs' n := by
  have htrue : ∀ {below : NodeId → Prop} (o : NodeId), below o → True := fun _ _ => trivial
  have hr : Ready .unpacking model [] [] defs := ⟨h, by simp⟩
  obtain ⟨defs₁, n, hresolve, hr₁, hg₁, howned⟩ := resolve_ready hm hr id
  unfold buildFlat
  rw [hresolve]
  dsimp only
  by_cases hthere : defs₁.table.contains n = true
  · rw [if_pos hthere]
    have hbefore : defs.table.contains n = true := by
      unfold Table.contains at hthere ⊢
      rw [← hg₁.same]
      exact hthere
    exact ⟨defs₁, n, rfl, ⟨hr₁.sound, hg₁.weaken htrue, howned, hthere⟩, fun k _ => hg₁.same k,
      .inl hbefore⟩
  · rw [if_neg hthere]
    obtain ⟨defs₂, s, hs, hr₂, hg₂, hflat⟩ := flatSchemaWithin_ok hm (depthLimit model) [] []
      defs₁ id hr₁ .nil (by simp [depthLimit])
    have hnew : defs₂.table.contains n = false := by
      unfold Table.contains at hthere ⊢
      rw [hg₂.same]
      exact Bool.eq_false_iff.2 hthere
    have ho := hg₂.owners _ howned
    -- the name has no definition yet, so the schema is no reference to it
    obtain ⟨a, ha, rfl⟩ := hflat.resolve_left (by
      rintro ⟨n', -, hnamed⟩
      obtain rfl := hr₂.sound.valid.name_unique hnamed.owned ho
      exact absurd (hnew.symm.trans hnamed.there) nofun)
    obtain ⟨hsound, hg₃, hthere'⟩ := hr₂.sound.insert hnew ho ⟨id, a, rfl, ha, rfl⟩
    have hfind : ∀ k, (defs₂.insert n (.simple (a.object (model.node id).description))).table.find? k
        = if n = k then some (.simple (a.object (model.node id).description))
          else defs₂.table.find? k := fun k => Table.find?_insert defs₂.table n k _
    refine ⟨_, n, ?_, ⟨hsound, ((hg₁.trans hg₂ fun _ h => h).weaken htrue).trans hg₃ htrue,
      hg₃.owners _ ho, hthere'⟩, fun k hk => ?_, .inr ⟨a, ha.mono fun _ _ hs => hg₃.refersInto hs, ?_⟩⟩
    · rw [hs]
      rfl
    · rw [hfind, if_neg hk.symm, hg₂.same, hg₁.same]
    · rw [hfind, if_pos rfl]

/-! ## Both strategies -/

/-- `build` succeeds for every node of a linked model with either strategy, whatever has been built
before. -/
theorem build_ok {strategy : Strategy} {model : DataModel} (hm : model.Linked)
    {defs : Definitions} (h : Sound strategy model defs) (id : NodeId) :
    ∃ defs' n, build strategy model defs id = .ok (defs', n) ∧
      Builds strategy model (fun _ => True) defs id defs' n := by
  cases strategy with
  | optimizing =>
    obtain ⟨defs', n, hn, hb⟩ := buildSharedWithin_ok hm (depthLimit model) [] [] defs id
      ⟨h, by simp⟩ .nil (by simp [depthLimit])
    exact ⟨defs', n, hn, hb.sound, hb.grows.weaken fun _ _ => trivial, hb.named⟩
  | unpacking =>
    obtain ⟨defs', n, hn, hb⟩ := buildFlat_ok hm h id
    exact ⟨defs', n, hn, hb.toBuilds⟩

end RestSpec.Definitions
