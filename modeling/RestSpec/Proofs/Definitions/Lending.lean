/-
Where the properties of a shared definition are stated. A node has its own members, and the others
are lent to it: they copy members of a grouping that it inherits from, which has a definition of
its own. So each member of a node copies, over any number of copies, one that some definition
states itself, and which one does not depend on what has been built before.
-/
import RestSpec.Proofs.Definitions.Strategies

namespace RestSpec

open Document DataModel
open Relation (TransGen ReflTransGen)

namespace DataModel

/-! ## Lenders -/

/-- The nodes whose own members make up the definition of `owner`: itself, the canonical nodes of
its `inheritedGroupings`, theirs, and so on. -/
inductive Lends (model : DataModel) : NodeId → NodeId → Prop
  | own {owner : NodeId} : Lends model owner owner
  | inherited {owner g lender : NodeId} : g ∈ model.inheritedGroupings owner →
      Lends model (model.canonical g) lender → Lends model owner lender

/-- The data children of a node that its definition states itself, by `isOwnChild`. -/
def ownDataChildren (model : DataModel) (id : NodeId) : List NodeId :=
  (model.members id (model.isOwnChild id)).map Member.id

/-- A member `m` of `owner` with its twin `m'`, which a node that `Lends` to it states in its
place. -/
structure Stated (model : DataModel) (owner : NodeId) (m m' : Member) : Prop where
  lent : ∃ lender, Lends model owner lender ∧ m' ∈ model.members lender (model.isOwnChild lender)
  twin : model.TwinMember m m'

variable {model : DataModel}

theorem TwinMember.refl (m : Member) : model.TwinMember m m := ⟨rfl, .refl m.id⟩

theorem TwinMember.trans {a b c : Member} (h : model.TwinMember a b) (h' : model.TwinMember b c) :
    model.TwinMember a c :=
  ⟨h.choice.trans h'.choice, h.twin.trans h'.twin⟩

section Linked

variable (hm : model.Linked)

include hm

/-- The `canonical` node of a grouping in use is no augment. -/
theorem Linked.not_augment_canonical_use {owner g : NodeId} (h : g ∈ (model.node owner).uses) :
    (model.node (model.canonical g)).kind.isAugment = false := by
  refine hm.not_augment_canonical ?_
  rw [(hm.uses owner g h).2]
  rfl

/-- A child that is not own is a twin of a child of one of the `inheritedGroupings`, in whose place
it stands. -/
theorem Linked.inherited_child {owner c : NodeId}
    (hkind : (model.node owner).kind.isAugment = false) (hc : c ∈ (model.node owner).children)
    (hown : model.isOwnChild owner c = false) :
    ∃ g ∈ model.inheritedGroupings owner, ∃ t ∈ (model.node g).children, model.Twin c t := by
  obtain ⟨declared, blocks, added, hp⟩ := hm.parts owner hkind
  have hintroduced : (model.node c).introducedBy = some owner := by
    by_contra hne
    rw [isOwnChild_of_ne hne] at hown
    cases hown
  have hblocks : c ∈ blocks.flatten := by
    rw [hp.children, List.mem_append, List.mem_append] at hc
    rcases hc with (hdeclared | hblocks) | hadded
    · rw [hp.made.declares c hdeclared] at hintroduced
      cases hintroduced
    · exact hblocks
    · exact absurd hintroduced (hp.made.adds c hadded)
  obtain ⟨block, hblock, hcb⟩ := List.mem_flatten.1 hblocks
  obtain ⟨g, hg, hstands⟩ := forall₂_mem_left hp.made.stands.flip block hblock
  obtain ⟨t, ht, hct⟩ := forall₂_mem_left hstands c hcb
  have hinherited : (model.divergedGroupings owner).contains g = false := by
    rw [← hct.isOwnChild hc, hown]
  refine ⟨g, List.mem_filter.2 ⟨hg, by rw [hinherited]; rfl⟩, t, ht, hct.twin fun hnone => ?_⟩
  have hdiverged : g ∈ model.divergedGroupings owner :=
    mem_divergedGroupings.2 ⟨c, hc, hct.introduced, hnone, hct.via⟩
  rw [List.contains_iff_mem.2 hdiverged] at hinherited
  cases hinherited

/-- A member is own or has a twin among the members of one of the `inheritedGroupings`. -/
theorem Linked.own_or_inherited {owner : NodeId}
    (hkind : (model.node owner).kind.isAugment = false) {m : Member}
    (h : m ∈ model.members owner fun _ => true) :
    m ∈ model.members owner (model.isOwnChild owner) ∨
      ∃ g ∈ model.inheritedGroupings owner, ∃ m' ∈ model.members g fun _ => true,
        model.TwinMember m m' := by
  obtain ⟨t, ht, -, hmt⟩ := mem_members h
  obtain ⟨hids, htrees⟩ := hm.tree_children owner
  cases hown : model.isOwnChild owner t.id with
  | true =>
    left
    unfold members
    rw [membersOfAll_eq_flatMap]
    exact List.mem_flatMap.2 ⟨t, List.mem_filter.2 ⟨ht, hown⟩, hmt⟩
  | false =>
    right
    obtain ⟨g, hg, u, hu, htwin⟩ :=
      hm.inherited_child hkind (hids ▸ List.mem_map.2 ⟨t, ht, rfl⟩) hown
    have htrees : model.TwinTree t (model.tree u) :=
      ⟨htrees t ht, hm.treeOf u, (tree_id model u).symm ▸ htwin⟩
    obtain ⟨m', hm', hmm'⟩ := forall₂_mem_left (membersOf_twins hm t _ none htrees) m hmt
    refine ⟨g, hg, m', ?_, hmm'⟩
    unfold members
    rw [membersOfAll_eq_flatMap, List.filter_true, hm.tree_children_eq]
    exact List.mem_flatMap.2 ⟨model.tree u, List.mem_map.2 ⟨u, hu, rfl⟩, hm'⟩

/-- Every member of a node has one that is `Stated` in its place. -/
theorem Linked.stated (owner : NodeId) : (model.node owner).kind.isAugment = false →
    ∀ m ∈ model.members owner fun _ => true, ∃ m', Stated model owner m m' := by
  -- what a grouping is named for lies further on, so lending comes to an end
  induction owner using hm.founded.transGen.induction with
  | _ owner ih =>
  intro hkind m hmem
  rcases hm.own_or_inherited hkind hmem with hown | ⟨g, hg, m₁, hm₁, htwin⟩
  · exact ⟨m, ⟨owner, .own, hown⟩, .refl m⟩
  · have huse := List.mem_of_mem_filter hg
    obtain ⟨m₂, hm₂, htwin'⟩ := forall₂_mem_left (hm.members_canonical g) m₁ hm₁
    obtain ⟨m', ⟨lender, hlends, hm'⟩, htwin''⟩ := ih (model.canonical g)
      (Relation.transGen_swap.2 (canonical_use huse)) (hm.not_augment_canonical_use huse) m₂ hm₂
    exact ⟨m', ⟨lender, .inherited hg hlends, hm'⟩, (htwin.trans htwin').trans htwin''⟩

end Linked

end DataModel

/-! ## Where a leaf is stated -/

/-- Where the names of the members differ, the property of a leaf among what is `Collected` is its
`leafProperty`. -/
theorem Collected.mem_leaf {model : DataModel} {stands : NodeId → Schema → Prop}
    {keys : List String} {ms : List Member} {a : Attributes}
    (h : Collected model stands keys ms {} a) (hnd : (ms.map model.memberName).Nodup) {m : Member}
    (hm : m ∈ ms) (hleaf : (model.node m.id).kind.leafInfo?.isSome = true) :
    (model.memberName m, model.memberProperty m (model.leafProperty m.id)) ∈ a.properties := by
  have hname : model.memberName m ∈ Entries.names a.properties :=
    h.names_iff.2 (.inr (List.mem_map.2 ⟨m, hm, rfl⟩))
  obtain ⟨⟨k, p⟩, hp, rfl : k = model.memberName m⟩ := List.mem_map.1 hname
  rcases h.mem_properties hp with hold | ⟨m', hm', s, hs, hk, rfl⟩
  · cases hold
  · obtain rfl := List.inj_on_of_nodup_map hnd hm' hm hk.symm
    rw [← hs.leaf hleaf]
    exact hp

namespace Definitions

variable {model : DataModel} {defs : Definitions}

/-- What a definition `Gathers` has the own leaves of every node that `Lends` to it. -/
theorem Sound.gathers_lent (hs : Sound .optimizing model defs) (hm : model.Linked)
    {owner lender : NodeId} (h : Lends model owner lender) :
    ∀ {n : String} {entries : List (String × Schema)},
      (model.node owner).kind.isAugment = false → ((model.shows owner).map (·.name)).Nodup →
      (n, owner) ∈ defs.names.owners → Gathers defs.table n entries →
      ∀ m ∈ model.members lender (model.isOwnChild lender),
        (model.node m.id).kind.leafInfo?.isSome = true →
        (model.memberName m, model.memberProperty m (model.leafProperty m.id)) ∈ entries := by
  induction h with
  | @own owner =>
    intro n entries hkind hnd ho hentries m hmem hleaf
    cases hentries with
    | @intro _ d inherited hd hparents =>
      obtain ⟨o, ho', parents, own, hparts, rfl⟩ := hs.entries n d hd
      obtain rfl := hs.valid.owner_unique ho ho'
      rw [properties_assemble]
      exact List.mem_append_left _ (hparts.own.mem_leaf (hm.nodup_own hkind hnd) hmem hleaf)
  | @inherited owner g lender hg _ ih =>
    intro n entries hkind hnd ho hentries m hmem hleaf
    cases hentries with
    | @intro _ d inherited hd hparents =>
      obtain ⟨o, ho', parents, own, hparts, rfl⟩ := hs.entries n d hd
      obtain rfl := hs.valid.owner_unique ho ho'
      obtain ⟨names, hnames, rfl⟩ := hparts.parents
      obtain ⟨p, hp, hnamed⟩ := forall₂_mem_left hnames g hg
      have hp' : p ∈ distinct names := mem_distinct.2 hp
      rw [parents_assemble] at hparents ⊢
      have hnd' : ((model.shows (model.canonical g)).map (·.name)).Nodup := by
        rw [hm.shows_canonical]
        exact hm.nodup_grouping hkind hnd hg
      refine List.mem_append_right _ (List.mem_flatMap.2 ⟨p, hp', ?_⟩)
      exact ih (hm.not_augment_canonical_use (List.mem_of_mem_filter hg)) hnd' hnamed.owned
        (hparents p hp') m hmem hleaf

end Definitions

end RestSpec
