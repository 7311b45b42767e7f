/-
Both strategies say the same of a node. A shared definition, with the parents that it inherits from,
and a flat definition each state one property for every data child, provided that the names of the
data children differ; and a leaf whose type leads to no other leaf has the same schema in both, but
for whether it is read-only.
-/
import RestSpec.Proofs.Definitions.Closed
import RestSpec.Proofs.Definitions.Facets

namespace RestSpec

namespace Document

/-! ## What is inherited -/

/-- The properties that a definition states in its `own` schema. -/
def Definition.properties (d : Definition) : List (String × Schema) :=
  (d.own.map (·.properties)).getD []

/-- The properties of a definition, of its `parents`, of their parents and so on, each as often as
it is stated. -/
inductive Gathers (table : Table Definition) : String → List (String × Schema) → Prop
  | intro {n : String} {d : Definition} {inherited : String → List (String × Schema)} :
      table.find? n = some d → (∀ p ∈ d.parents, Gathers table p (inherited p)) →
      Gathers table n (d.properties ++ d.parents.flatMap inherited)

theorem Gathers.unique {table : Table Definition} {n : String}
    {entries entries' : List (String × Schema)} (h : Gathers table n entries)
    (h' : Gathers table n entries') : entries = entries' := by
  induction h generalizing entries' with
  | intro hd _ ih =>
    cases h' with
    | intro hd' hparents' =>
      obtain rfl := Option.some.inj (hd.symm.trans hd')
      congr 1
      exact List.flatMap_congr fun p hp => ih p hp (hparents' p hp)

/-- To leave out repetitions by `distinct` does not matter where nothing is said twice. -/
theorem flatMap_distinct {α : Type} {f : String → List α} {names : List String}
    (h : (names.flatMap f).Nodup) : (distinct names).flatMap f = names.flatMap f := by
  have hfold : ∀ (names seen : List String), ((seen ++ names).flatMap f).Nodup →
      (names.foldl (fun seen n => if seen.contains n then seen else seen ++ [n]) seen).flatMap f =
        (seen ++ names).flatMap f := by
    intro names
    induction names with
    | nil => intro seen _; rw [List.append_nil]; rfl
    | cons a names ih =>
      intro seen hnd
      rw [List.foldl_cons]
      by_cases ha : seen.contains a = true
      -- `a` has given all it has before, so with nothing given twice it has nothing
      · have hempty : f a = [] := by
          refine List.eq_nil_iff_forall_not_mem.2 fun x hx => ?_
          rw [List.flatMap_append, List.flatMap_cons] at hnd
          exact (List.nodup_append.1 hnd).2.2 x
            (List.mem_flatMap.2 ⟨a, List.contains_iff_mem.1 ha, hx⟩) x
            (List.mem_append_left _ hx) rfl
        have hskip : (seen ++ a :: names).flatMap f = (seen ++ names).flatMap f := by
          rw [List.flatMap_append, List.flatMap_cons, hempty, List.nil_append,
            List.flatMap_append]
        rw [if_pos ha, hskip]
        exact ih seen (hskip ▸ hnd)
      · have happend : seen ++ a :: names = (seen ++ [a]) ++ names := by simp
        rw [if_neg ha, happend]
        exact ih (seen ++ [a]) (happend ▸ hnd)
  exact hfold names [] h

end Document

open Document DataModel
open Relation (TransGen ReflTransGen)

/-! ## Properties for facets -/

/-- The property `e` has the name of the facets `f` and, if they are those of a leaf, the schema of
`leafProperty`. -/
def States (model : DataModel) (f : Facets) (e : String × Schema) : Prop :=
  ∃ m s, model.facets m = f ∧ e = (model.memberName m, model.memberProperty m s) ∧
    (f.kind.leafInfo?.isSome = true → s = model.leafProperty m.id)

/-- One property that `States` each of the facets `shown`, and no other. -/
structure Covers (model : DataModel) (shown : List Facets) (entries : List (String × Schema)) :
    Prop where
  names : (Entries.names entries).Perm (shown.map (·.name))
  stated : ∀ e ∈ entries, ∃ f ∈ shown, States model f e

section Covers

variable {model : DataModel} {shown shown' : List Facets} {entries entries' : List (String × Schema)}

theorem Covers.perm (h : Covers model shown entries) (hp : shown.Perm shown') :
    Covers model shown' entries :=
  ⟨h.names.trans (hp.map _), fun e he =>
    (h.stated e he).imp fun _ hf => ⟨hp.mem_iff.1 hf.1, hf.2⟩⟩

theorem Covers.append (h : Covers model shown entries) (h' : Covers model shown' entries') :
    Covers model (shown ++ shown') (entries ++ entries') := by
  refine ⟨?_, fun e he => ?_⟩
  · unfold Entries.names
    rw [List.map_append, List.map_append]
    exact h.names.append h'.names
  · rcases List.mem_append.1 he with he | he
    · exact (h.stated e he).imp fun _ hf => ⟨List.mem_append_left _ hf.1, hf.2⟩
    · exact (h'.stated e he).imp fun _ hf => ⟨List.mem_append_right _ hf.1, hf.2⟩

theorem Covers.flatMap {α β : Type} {shows : α → List Facets}
    {states : β → List (String × Schema)} {as : List α} {bs : List β}
    (h : List.Forall₂ (fun a b => Covers model (shows a) (states b)) as bs) :
    Covers model (as.flatMap shows) (bs.flatMap states) := by
  induction h with
  | nil => exact ⟨.refl _, nofun⟩
  | cons hfirst _ ih =>
    rw [List.flatMap_cons, List.flatMap_cons]
    exact hfirst.append ih

theorem MemberSchema.leaf {stands : NodeId → Schema → Prop} {id : NodeId} {s : Schema}
    (h : MemberSchema model stands id s) (hleaf : (model.node id).kind.leafInfo?.isSome = true) :
    s = model.leafProperty id := by
  unfold MemberSchema at h
  split at h
  · rename_i hk; rw [hk] at hleaf; cases hleaf
  · rename_i hk; rw [hk] at hleaf; cases hleaf
  · exact h

/-- What is `Collected` has properties that `Covers` the facets of its members. -/
theorem Collected.covers {stands : NodeId → Schema → Prop} {keys : List String} {ms : List Member}
    {a : Attributes} (h : Collected model stands keys ms {} a)
    (hnd : (ms.map model.memberName).Nodup) :
    Covers model (ms.map model.facets) a.properties := by
  refine ⟨?_, fun ⟨k, p⟩ hp => ?_⟩
  · rw [List.map_map]
    exact h.names_perm hnd
  · rcases h.mem_properties hp with hp | ⟨m, hm, s, hs, rfl, rfl⟩
    · cases hp
    · exact ⟨_, List.mem_map.2 ⟨m, hm, rfl⟩, m, s, rfl, rfl, hs.leaf⟩

theorem Schema.withoutReadOnly_placed {m m' : Member} (h : model.facets m = model.facets m')
    (s : Schema) : { model.memberProperty m s with readOnly := none } =
      { model.memberProperty m' s with readOnly := none } := by
  have hchoice : m.choice = m'.choice := congrArg Facets.choice h
  have haugmented : (model.node m.id).augmentedBy = (model.node m'.id).augmentedBy :=
    congrArg Facets.augmentedBy h
  unfold memberProperty Attributes.placedSchema
  dsimp only
  rw [hchoice, haugmented]
  cases m'.choice <;> cases (model.node m'.id).augmentedBy <;> dsimp only <;> split <;> split <;> rfl

/-- A leaf that is `LeafrefFree` has the schema of its type among properties that `Covers` tells of,
whatever node they have been made for. -/
theorem Covers.leaf {ms : List Member} (h : Covers model (ms.map model.facets) entries)
    (hnd : (ms.map model.memberName).Nodup) {m : Member} (hm : m ∈ ms)
    (hleaf : (model.node m.id).kind.leafInfo?.isSome = true) (hfree : model.LeafrefFree m.id) :
    ∃ s, (model.memberName m, s) ∈ entries ∧
      ({ s with readOnly := none } : Schema) =
        { model.memberProperty m (model.leafProperty m.id) with readOnly := none } := by
  have hname : model.memberName m ∈ Entries.names entries := by
    refine h.names.mem_iff.2 ?_
    rw [List.map_map]
    exact List.mem_map.2 ⟨m, hm, rfl⟩
  obtain ⟨⟨k, s⟩, he, rfl : k = model.memberName m⟩ := List.mem_map.1 hname
  obtain ⟨f, hf, m', s', hfacets, hentry, hschema⟩ := h.stated _ he
  obtain ⟨m₁, hm₁, rfl⟩ := List.mem_map.1 hf
  obtain ⟨hk, rfl⟩ := Prod.mk.inj hentry
  have hsame : m₁ = m := by
    refine List.inj_on_of_nodup_map hnd hm₁ hm ?_
    exact (congrArg Facets.name hfacets).symm.trans hk.symm
  subst hsame
  refine ⟨_, he, ?_⟩
  rw [hschema hleaf, Schema.withoutReadOnly_placed hfacets]
  have hproperty : model.leafProperty m'.id = model.leafProperty m₁.id :=
    (leafProperty_congr (congrArg Facets.kind hfacets.symm)
      (congrArg Facets.description hfacets.symm) (congrArg Facets.origin hfacets.symm) hfree).symm
  rw [hproperty]

end Covers

/-! ## Shared definitions -/

theorem DataModel.Linked.not_augment_canonical {model : DataModel} (hm : model.Linked)
    {id : NodeId} (h : (model.node id).kind.isAugment = false) :
    (model.node (model.canonical id)).kind.isAugment = false := by
  have hpath : ReflTransGen (fun a b => model.standsFor? a = some b) id (model.canonical id) :=
    canonical_path id
  generalize model.canonical id = owner at hpath
  cases hpath using ReflTransGen.casesOn with
  | refl => exact h
  | tail _ hstep =>
    rcases standsFor?_eq_some hstep with hcopies | ⟨-, halias⟩
    · exact (hm.copied _ _ hcopies).2
    · have huse := (aliases_of_aliasTarget? halias).uses
      rw [(hm.uses _ owner (huse ▸ List.mem_singleton_self owner)).2]
      rfl

namespace Definitions

variable {model : DataModel} {defs : Definitions}

theorem properties_assemble (parents : List String) (own : Attributes)
    (description : Option String) :
    (assemble parents own description).properties = own.properties := by
  cases parents with
  | nil => rfl
  | cons p parents =>
    show ((if own.isEmpty then none else some (own.object none)).map (·.properties)).getD [] = _
    split
    · rename_i hempty
      exact (List.isEmpty_iff.1 hempty).symm
    · rfl

/-- What groupings show is covered by their definitions, if `Gathers` takes each of these once. -/
theorem gathers_groupings {gs : List NodeId} {names : List String}
    (hnames : List.Forall₂ (Named model defs) gs names)
    (hgrouping : ∀ g ∈ gs, ∀ p, Named model defs g p →
      ∃ entries, Gathers defs.table p entries ∧ Covers model (model.shows g) entries)
    (hnd : ((gs.flatMap model.shows).map (·.name)).Nodup) :
    ∃ inherited, (∀ p ∈ names, Gathers defs.table p (inherited p)) ∧
      Covers model (gs.flatMap model.shows) ((distinct names).flatMap inherited) := by
  have hchosen : ∀ p, ∃ entries, p ∈ names → Gathers defs.table p entries := by
    intro p
    by_cases hp : p ∈ names
    · obtain ⟨g, hg, hnamed⟩ := forall₂_mem_left hnames.flip p hp
      obtain ⟨entries, hentries, -⟩ := hgrouping g hg p hnamed
      exact ⟨entries, fun _ => hentries⟩
    · exact ⟨[], fun hp' => absurd hp' hp⟩
  choose inherited hinherited using hchosen
  have hcovers : Covers model (gs.flatMap model.shows) (names.flatMap inherited) := by
    refine .flatMap (forall₂_imp_mem hnames fun g hg p hp hnamed => ?_)
    obtain ⟨entries, hentries, hcovers⟩ := hgrouping g hg p hnamed
    exact (hinherited p hp).unique hentries ▸ hcovers
  refine ⟨inherited, hinherited, ?_⟩
  -- a definition that comes up again has no properties, for names differ
  rw [flatMap_distinct (List.Nodup.of_map _ (hcovers.names.nodup_iff.2 hnd))]
  exact hcovers

/-- The own properties of `SharedParts` and those of the groupings together cover what the node
`shows`. -/
theorem SharedParts.gathers {owner : NodeId} {parents : List String} {own : Attributes} {n : String}
    (h : SharedParts model defs owner parents own) (hm : model.Linked)
    (hkind : (model.node owner).kind.isAugment = false)
    (hnd : ((model.shows owner).map (·.name)).Nodup)
    (hgrouping : ∀ g ∈ model.inheritedGroupings owner, ((model.shows g).map (·.name)).Nodup →
      ∀ p, Named model defs g p →
        ∃ entries, Gathers defs.table p entries ∧ Covers model (model.shows g) entries)
    (hd : defs.table.find? n = some (assemble parents own (model.node owner).description)) :
    ∃ entries, Gathers defs.table n entries ∧ Covers model (model.shows owner) entries := by
  obtain ⟨names, hnames, rfl⟩ := h.parents
  obtain ⟨inherited, hinherited, hcovers⟩ := gathers_groupings hnames
    (fun g hg => hgrouping g hg (hm.nodup_grouping hkind hnd hg)) (hm.nodup_inherited hkind hnd)
  have hup : ∀ p ∈ (assemble (distinct names) own (model.node owner).description).parents,
      Gathers defs.table p (inherited p) := by
    intro p hp
    rw [parents_assemble] at hp
    exact hinherited p (mem_distinct.1 hp)
  refine ⟨_, .intro hd hup, ?_⟩
  rw [parents_assemble, properties_assemble]
  exact ((h.own.covers (hm.nodup_own hkind hnd)).append hcovers).perm (hm.shows_perm hkind).symm

/-- Where what a node `shows` has names that differ, its shared definition `Gathers` properties that
cover it, from itself and the definitions that it inherits from. -/
theorem Sound.gathers (hs : Sound .optimizing model defs) (hm : model.Linked) (owner : NodeId) :
    (model.node owner).kind.isAugment = false → ((model.shows owner).map (·.name)).Nodup →
    ∀ n, (n, owner) ∈ defs.names.owners → defs.table.contains n = true →
      ∃ entries, Gathers defs.table n entries ∧ Covers model (model.shows owner) entries := by
  -- groupings that are inherited from are named for nodes further on
  induction owner using hm.founded.transGen.induction with
  | _ owner ih =>
  intro hkind hnd n ho hthere
  obtain ⟨d, hd⟩ := Table.contains_iff.1 hthere
  obtain ⟨o, ho', he⟩ := hs.entries n d hd
  obtain rfl := hs.valid.owner_unique ho ho'
  obtain ⟨parents, own, hparts, rfl⟩ := he
  refine hparts.gathers hm hkind hnd (fun g hg hndGrouping p hnamed => ?_) hd
  have huse := List.mem_of_mem_filter hg
  have hbelow : TransGen (fun b a => model.Edge a b) (model.canonical g) owner :=
    Relation.transGen_swap.2 (canonical_use huse)
  have hnot : (model.node g).kind.isAugment = false := by rw [(hm.uses _ g huse).2]; rfl
  have hcanonical := ih (model.canonical g) hbelow (hm.not_augment_canonical hnot)
  rw [hm.shows_canonical] at hcanonical
  exact hcanonical hndGrouping p hnamed.owned hnamed.there

/-! ## Flat definitions -/

/-- A flat definition covers what the node `shows` that it is `Named` for. -/
theorem Sound.flat (hs : Sound .unpacking model defs) (hm : model.Linked) {id : NodeId} {n : String}
    (hnamed : Named model defs id n) (hnd : ((model.shows id).map (·.name)).Nodup) :
    ∃ s, defs.table.find? n = some (.simple s) ∧ Covers model (model.shows id) s.properties := by
  obtain ⟨d, hd⟩ := Table.contains_iff.1 hnamed.there
  obtain ⟨owner, ho, id', a, hcanonical, ha, rfl⟩ := hs.entries n d hd
  obtain rfl := hs.valid.owner_unique ho hnamed.owned
  have hshows : model.shows id' = model.shows id := by
    rw [← hm.shows_canonical id', hcanonical, hm.shows_canonical]
  refine ⟨_, hd, ?_⟩
  rw [← hshows] at hnd ⊢
  unfold shows at hnd
  rw [List.map_map] at hnd
  exact ha.covers hnd

/-! ## Runs -/

/-- Calls `build` for nodes one after the other, and returns the definitions that are left. -/
def buildAll (strategy : Strategy) (model : DataModel) :
    List NodeId → Definitions → Except CompileError Definitions
  | [], defs => .ok defs
  | id :: ids, defs => do
    let (defs, _) ← defs.build strategy model id
    buildAll strategy model ids defs

theorem buildAll_ok {strategy : Strategy} (hm : model.Linked) : ∀ (ids : List NodeId)
    (defs : Definitions), Sound strategy model defs →
    ∃ defs', buildAll strategy model ids defs = .ok defs' ∧ Sound strategy model defs'
  | [], defs, h => ⟨defs, rfl, h⟩
  | id :: ids, defs, h => by
    obtain ⟨defs₁, n, hbuild, hb⟩ := build_ok hm h id
    rw [buildAll, hbuild]
    exact buildAll_ok hm ids defs₁ hb.sound

/-- Calls `buildAll`, and `build` for one more node, whose name is asked for. -/
def buildLast (strategy : Strategy) (model : DataModel) (ids : List NodeId) (id : NodeId) :
    Except CompileError (Definitions × String) := do
  let defs ← buildAll strategy model ids {}
  defs.build strategy model id

theorem buildLast_ok (strategy : Strategy) (hm : model.Linked) (ids : List NodeId) (id : NodeId) :
    ∃ defs n, buildLast strategy model ids id = .ok (defs, n) ∧ Sound strategy model defs ∧
      Named model defs id n := by
  obtain ⟨defs₁, hall, hs⟩ := buildAll_ok hm ids {} (sound_empty strategy model)
  obtain ⟨defs, n, hbuild, hb⟩ := build_ok hm hs id
  refine ⟨defs, n, ?_, hb.sound, hb.named⟩
  unfold buildLast
  rw [hall]
  exact hbuild

end Definitions

open Definitions (buildLast buildLast_ok)

/-! ## Both strategies -/

/-- The names of the properties that the `dataChildren` of a node become. -/
def DataModel.propertyNames (model : DataModel) (id : NodeId) : List String :=
  (model.dataChildren id).map fun c => (model.node c).propertyName

/-- Whether `propertyNames` differ at every node can be decided at the nodes below the size of the
model, the only ones with children. -/
theorem DataModel.nodup_propertyNames {model : DataModel} {size : Nat} (hsize : model.size = size)
    (hall : ((List.range size).all fun id => decide (model.propertyNames id).Nodup) = true)
    (id : NodeId) (hkind : (model.node id).kind.isStructural = true) :
    (model.propertyNames id).Nodup := by
  by_cases hid : id < size
  · exact of_decide_eq_true (List.all_eq_true.1 hall id (List.mem_range.2 hid))
  · rw [node_of_size_le (hsize ▸ Nat.le_of_not_lt hid)] at hkind
    cases hkind

theorem DataModel.Linked.names_shows {model : DataModel} (hm : model.Linked) {id : NodeId}
    (hkind : (model.node id).kind.isStructural = true) :
    (model.shows id).map (·.name) = model.propertyNames id := by
  unfold shows propertyNames
  rw [← hm.members_ids hkind, List.map_map, List.map_map]
  rfl

/-- Two lists of properties that have one for each of the `propertyNames` of a node, and for leaves
that are `LeafrefFree` the same up to `readOnly`. -/
structure Agree (model : DataModel) (id : NodeId) (entries entries' : List (String × Schema)) :
    Prop where
  names : (Entries.names entries).Perm (model.propertyNames id)
  names' : (Entries.names entries').Perm (model.propertyNames id)
  leaves : ∀ c ∈ model.dataChildren id, (model.node c).kind.leafInfo?.isSome = true →
    model.LeafrefFree c → ∃ s s', ((model.node c).propertyName, s) ∈ entries ∧
      ((model.node c).propertyName, s') ∈ entries' ∧
      ({ s with readOnly := none } : Schema) = { s' with readOnly := none }

theorem agree_of_covers {model : DataModel} (hm : model.Linked) {id : NodeId}
    {entries entries' : List (String × Schema)}
    (hkind : (model.node id).kind.isStructural = true) (hnd : (model.propertyNames id).Nodup)
    (h : Covers model (model.shows id) entries) (h' : Covers model (model.shows id) entries') :
    Agree model id entries entries' := by
  have hnames := hm.names_shows hkind
  refine ⟨hnames ▸ h.names, hnames ▸ h'.names, fun c hc hleaf hfree => ?_⟩
  rw [← hm.members_ids hkind] at hc
  obtain ⟨m, hmem, rfl⟩ := List.mem_map.1 hc
  have hdistinct : ((model.members id fun _ => true).map model.memberName).Nodup := by
    rw [← hnames, shows, List.map_map] at hnd
    exact hnd
  obtain ⟨s, hs, heq⟩ := h.leaf hdistinct hmem hleaf hfree
  obtain ⟨s', hs', heq'⟩ := h'.leaf hdistinct hmem hleaf hfree
  exact ⟨s, s', hs, hs', heq.trans heq'.symm⟩

/-- Whatever has been built before, `build` with either strategy states the same properties of a
node: those that the shared definition `Gathers` from itself and its parents `Agree` with those of
the flat one, one for each data child. -/
theorem build_agree {sources : List Source.Module} {model : DataModel}
    (h : link sources = .ok model) {id : NodeId}
    (hkind : (model.node id).kind.isStructural = true) (hnd : (model.propertyNames id).Nodup)
    (before before' : List NodeId) :
    ∃ shared n entries flat n' s,
      buildLast .optimizing model before id = .ok (shared, n) ∧
      (∀ es, Gathers shared.table n es ↔ es = entries) ∧
      buildLast .unpacking model before' id = .ok (flat, n') ∧
      flat.table.find? n' = some (.simple s) ∧ Agree model id entries s.properties := by
  obtain ⟨hm, -⟩ := linked_of_link h
  have hnames := hm.names_shows hkind
  obtain ⟨shared, n, hshared, hs, hnamed⟩ := buildLast_ok .optimizing hm before id
  obtain ⟨flat, n', hflat, hs', hnamed'⟩ := buildLast_ok .unpacking hm before' id
  have hgathers := hs.gathers hm (model.canonical id)
    (hm.not_augment_canonical (not_augment_of_structural hkind))
  rw [hm.shows_canonical, hnames] at hgathers
  obtain ⟨entries, hentries, hcovers⟩ := hgathers hnd n hnamed.owned hnamed.there
  obtain ⟨s, hd, hcovers'⟩ := hs'.flat hm hnamed' (hnames ▸ hnd)
  refine ⟨shared, n, entries, flat, n', s, hshared, fun es => ⟨fun hes => hes.unique hentries, ?_⟩,
    hflat, hd, agree_of_covers hm hkind hnd hcovers hcovers'⟩
  rintro rfl
  exact hentries

theorem build_agree_sharing : ∃ model, link sharing = .ok model ∧
    ∃ shared n entries flat n' s,
      buildLast .optimizing model [13, 4] 8 = .ok (shared, n) ∧
      (∀ es, Gathers shared.table n es ↔ es = entries) ∧
      buildLast .unpacking model [0] 8 = .ok (flat, n') ∧
      flat.table.find? n' = some (.simple s) ∧ Agree model 8 entries s.properties := by
  obtain ⟨model, h⟩ := link_sharing
  have hnode : ((link sharing).toOption.map fun model =>
      ((model.node 8).kind.isStructural, model.propertyNames 8)) =
        some (true, ["name", "address", "limits"]) := by decide +kernel
  rw [h] at hnode
  obtain ⟨hkind, hnames⟩ := Prod.mk.inj (Option.some.inj hnode)
  exact ⟨model, h, build_agree h hkind (by rw [hnames]; decide) [13, 4] [0]⟩

end RestSpec
