/-
What the members of a node show. The facets of a member decide on its property, up to whether it can
be written. A node shows what its canonical node shows; and what it shows is divided between its
own children and the groupings that it inherits from, each thing as often as it is there.
-/
import RestSpec.Definitions.Shared
import RestSpec.Proofs.Definitions.Attributes

namespace RestSpec.DataModel

/-- What a property says of its member, its `readOnly` mark apart. -/
structure Facets where
  name : String
  choice : Option String
  kind : Kind
  description : Option String
  augmentedBy : Option String
  origin : NodeId

/-- The `Facets` of a member, which copies have in common. -/
def facets (model : DataModel) (m : Member) : Facets :=
  let n := model.node m.id
  ⟨model.memberName m, m.choice, n.kind, n.description, n.augmentedBy, model.origin m.id⟩

/-- The `Facets` of all members of a node. -/
def shows (model : DataModel) (id : NodeId) : List Facets :=
  (model.members id fun _ => true).map model.facets

variable {model : DataModel}

theorem Linked.facets_twin (hm : model.Linked) {m m' : Member} (h : model.TwinMember m m') :
    model.facets m = model.facets m' := by
  have halike := hm.alike h.twin.copies
  unfold facets memberName Node.propertyName
  dsimp only
  rw [halike.name, halike.kind, halike.description, halike.origin, h.twin.augmented, h.choice]

theorem Linked.facets_twins (hm : model.Linked) {ms ms' : List Member}
    (h : List.Forall₂ model.TwinMember ms ms') : ms.map model.facets = ms'.map model.facets := by
  induction h with
  | nil => rfl
  | cons hfirst _ ih => rw [List.map_cons, List.map_cons, hm.facets_twin hfirst, ih]

theorem Linked.shows_canonical (hm : model.Linked) (id : NodeId) :
    model.shows (model.canonical id) = model.shows id :=
  (hm.facets_twins (hm.members_canonical id)).symm

/-! ## Members child by child -/

/-- The `Facets` of the members that one child gives: itself, or those of its cases if it is a
`choice`. -/
def showsAt (model : DataModel) (c : NodeId) : List Facets :=
  (membersOf model none (model.tree c)).map model.facets

theorem Linked.facets_members (hm : model.Linked) (id : NodeId) (included : NodeId → Bool) :
    (model.members id included).map model.facets =
      ((model.node id).children.filter included).flatMap model.showsAt := by
  unfold members
  rw [hm.tree_children_eq, membersOfAll_eq_flatMap, List.filter_map, List.flatMap_map,
    List.map_flatMap]
  have hincluded : (fun t : Tree => included t.id) ∘ model.tree = included :=
    funext fun c => congrArg included (tree_id model c)
  rw [hincluded]
  rfl

theorem Linked.shows_eq (hm : model.Linked) (id : NodeId) :
    model.shows id = (model.node id).children.flatMap model.showsAt := by
  unfold shows
  rw [hm.facets_members, List.filter_true]

theorem Linked.showsAt_twins (hm : model.Linked) {cs ts : List NodeId}
    (h : List.Forall₂ model.Twin cs ts) : cs.flatMap model.showsAt = ts.flatMap model.showsAt := by
  induction h with
  | nil => rfl
  | @cons c t cs ts htwin _ ih =>
    have htree : model.TwinTree (model.tree c) (model.tree t) := by
      refine ⟨hm.treeOf c, hm.treeOf t, ?_⟩
      rw [tree_id, tree_id]
      exact htwin
    have hfirst : model.showsAt c = model.showsAt t :=
      hm.facets_twins (membersOf_twins hm _ _ none htree)
    rw [List.flatMap_cons, List.flatMap_cons, hfirst, ih]

/-! ## Own children and groupings -/

theorem mem_divergedGroupings {id g : NodeId} : g ∈ model.divergedGroupings id ↔
    ∃ c ∈ (model.node id).children, (model.node c).introducedBy = some id ∧
      (model.node c).copiedFrom = none ∧ (model.node c).viaGrouping = some g := by
  unfold divergedGroupings
  rw [List.mem_filterMap]
  constructor
  · rintro ⟨c, hc, hvia⟩
    obtain ⟨hc, hchanged⟩ := List.mem_filter.1 hc
    rw [Bool.and_eq_true, beq_iff_eq, Option.isNone_iff_eq_none] at hchanged
    exact ⟨c, hc, hchanged.1, hchanged.2, hvia⟩
  · rintro ⟨c, hc, hintroduced, hcopied, hvia⟩
    refine ⟨c, List.mem_filter.2 ⟨hc, ?_⟩, hvia⟩
    rw [Bool.and_eq_true, beq_iff_eq, Option.isNone_iff_eq_none]
    exact ⟨hintroduced, hcopied⟩

theorem isOwnChild_of_ne {id c : NodeId} (h : (model.node c).introducedBy ≠ some id) :
    model.isOwnChild id c = true := by
  unfold isOwnChild
  simp [h]

/-- A child that `StandsFor` one of a grouping is own just if the grouping is one of the
`divergedGroupings`. -/
theorem StandsFor.isOwnChild {id g c t : NodeId} (h : model.StandsFor id g c t)
    (hc : c ∈ (model.node id).children) :
    model.isOwnChild id c = (model.divergedGroupings id).contains g := by
  unfold DataModel.isOwnChild
  simp only [h.introduced, h.via, Option.map_some, Option.getD_some, beq_self_eq_true,
    Bool.true_and]
  cases hcopied : (model.node c).copiedFrom with
  | some s => simp
  -- the child itself is why the grouping is not inherited from
  | none =>
    have hdiverged : g ∈ model.divergedGroupings id :=
      mem_divergedGroupings.2 ⟨c, hc, h.introduced, hcopied, h.via⟩
    simpa using hdiverged

/-- The children that `StandsFor` those of a grouping: all are own, or none is and they show what
the grouping `shows`. -/
theorem Linked.shows_block (hm : model.Linked) {id g : NodeId} {block : List NodeId}
    (h : List.Forall₂ (model.StandsFor id g) block (model.node g).children)
    (hsub : ∀ c ∈ block, c ∈ (model.node id).children) :
    if (model.divergedGroupings id).contains g then block.filter (model.isOwnChild id) = block
    else block.filter (model.isOwnChild id) = [] ∧
      block.flatMap model.showsAt = model.shows g := by
  have hown : ∀ c ∈ block,
      model.isOwnChild id c = (model.divergedGroupings id).contains g := by
    intro c hc
    obtain ⟨t, -, hct⟩ := forall₂_mem_left h c hc
    exact hct.isOwnChild (hsub c hc)
  split
  · rename_i hdiverged
    exact List.filter_eq_self.2 fun c hc => (hown c hc).trans hdiverged
  · rename_i hnot
    refine ⟨List.filter_eq_nil_iff.2 fun c hc => (hown c hc).symm ▸ hnot, ?_⟩
    rw [hm.shows_eq]
    refine hm.showsAt_twins (forall₂_imp_mem h fun c hc t _ hct => hct.twin fun hnone => hnot ?_)
    exact List.contains_iff_mem.2
      (mem_divergedGroupings.2 ⟨c, hsub c hc, hct.introduced, hnone, hct.via⟩)

theorem Linked.shows_blocks (hm : model.Linked) {id : NodeId} {uses : List NodeId}
    {blocks : List (List NodeId)}
    (h : List.Forall₂ (fun g block =>
      List.Forall₂ (model.StandsFor id g) block (model.node g).children) uses blocks)
    (hsub : ∀ c ∈ blocks.flatten, c ∈ (model.node id).children) :
    (blocks.flatten.flatMap model.showsAt).Perm
      ((blocks.flatten.filter (model.isOwnChild id)).flatMap model.showsAt ++
        (uses.filter fun g => !(model.divergedGroupings id).contains g).flatMap model.shows) := by
  induction h with
  | nil => exact .refl _
  | @cons g block uses blocks hblock _ ih =>
    rw [List.flatten_cons] at hsub
    have hrest := ih fun c hc => hsub c (List.mem_append_right _ hc)
    have hfirst := hm.shows_block hblock fun c hc => hsub c (List.mem_append_left _ hc)
    rw [List.flatten_cons, List.flatMap_append, List.filter_append, List.flatMap_append,
      List.filter_cons]
    by_cases hg : (model.divergedGroupings id).contains g = true
    · rw [if_pos hg] at hfirst
      rw [hfirst, hg, List.append_assoc]
      exact hrest.append_left _
    · rw [if_neg hg] at hfirst
      rw [hfirst.1, hfirst.2, if_pos (by simpa using hg), List.flatMap_nil, List.nil_append,
        List.flatMap_cons]
      exact (hrest.append_left _).trans
        (List.perm_append_comm_assoc _ _ _)

/-- What a node `shows`, its own members show or a grouping that it inherits from, and just once. -/
theorem Linked.shows_perm (hm : model.Linked) {id : NodeId}
    (hkind : (model.node id).kind.isAugment = false) :
    (model.shows id).Perm ((model.members id (model.isOwnChild id)).map model.facets ++
      (model.inheritedGroupings id).flatMap model.shows) := by
  obtain ⟨declared, blocks, added, hp⟩ := hm.parts id hkind
  -- what the node declares and what was added is own; only the blocks are divided
  have hdeclared : declared.filter (model.isOwnChild id) = declared :=
    List.filter_eq_self.2 fun c hc => isOwnChild_of_ne (by rw [hp.made.declares c hc]; nofun)
  have hadded : added.filter (model.isOwnChild id) = added :=
    List.filter_eq_self.2 fun c hc => isOwnChild_of_ne (hp.made.adds c hc)
  have hblocks := hm.shows_blocks hp.made.stands fun c hc => by
    rw [hp.children]
    exact List.mem_append_left _ (List.mem_append_right _ hc)
  rw [hm.shows_eq, hm.facets_members, hp.children, List.filter_append, List.filter_append,
    hdeclared, hadded]
  simp only [List.flatMap_append, List.append_assoc]
  refine .append_left _ ?_
  refine (hblocks.append_right _).trans ?_
  rw [List.append_assoc]
  exact .append_left _ List.perm_append_comm

section Distinct

variable (hm : model.Linked) {id : NodeId} (hkind : (model.node id).kind.isAugment = false)
  (hnd : ((model.shows id).map (·.name)).Nodup)

include hm hkind hnd

/-- If all that a node `shows` has names that differ, so do its own members. -/
theorem Linked.nodup_own :
    ((model.members id (model.isOwnChild id)).map model.memberName).Nodup := by
  have hsplit := ((hm.shows_perm hkind).map (·.name)).nodup_iff.1 hnd
  rw [List.map_append, List.nodup_append, List.map_map] at hsplit
  exact hsplit.1

/-- If all that a node `shows` has names that differ, so does all that is inherited, taken
together. -/
theorem Linked.nodup_inherited :
    (((model.inheritedGroupings id).flatMap model.shows).map (·.name)).Nodup := by
  have hsplit := ((hm.shows_perm hkind).map (·.name)).nodup_iff.1 hnd
  rw [List.map_append, List.nodup_append] at hsplit
  exact hsplit.2.1

theorem Linked.nodup_grouping {g : NodeId} (hg : g ∈ model.inheritedGroupings id) :
    ((model.shows g).map (·.name)).Nodup :=
  (hm.nodup_inherited hkind hnd).sublist
    ((List.sublist_flatten_of_mem (List.mem_map_of_mem hg)).map _)

end Distinct

end RestSpec.DataModel
