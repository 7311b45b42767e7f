/-
Children that stand for each other. A copy, over any number of copies, has the kind, the name and
the description of what it copies, and child by child the same children. A node that adds nothing
to a grouping has the children of the grouping. So every node has, child by child, the children of
its canonical node.
-/
import RestSpec.Proofs.Naming.Canonical

namespace RestSpec.DataModel

open Relation (TransGen ReflTransGen)

/-- A child that is a copy of another, over any number of `Copies`, and was added by the same
module. -/
structure Twin (model : DataModel) (c t : NodeId) : Prop where
  copies : ReflTransGen model.Copies c t
  augmented : (model.node c).augmentedBy = (model.node t).augmentedBy

/-- What a copy has in common with what it copies: kind, name and the other things that both say. -/
structure Alike (model : DataModel) (id source : NodeId) : Prop where
  kind : (model.node id).kind = (model.node source).kind
  name : (model.node id).name = (model.node source).name
  description : (model.node id).description = (model.node source).description
  origin : model.origin id = model.origin source
  canonical : model.canonical id = model.canonical source
  children : List.Forall₂ model.Twin (model.node id).children (model.node source).children

variable {model : DataModel}

theorem Twin.refl (c : NodeId) : model.Twin c c := ⟨.refl, rfl⟩

theorem Twin.trans {a b c : NodeId} (h : model.Twin a b) (h' : model.Twin b c) : model.Twin a c :=
  ⟨h.copies.trans h'.copies, h.augmented.trans h'.augmented⟩

theorem twins_refl (cs : List NodeId) : List.Forall₂ model.Twin cs cs :=
  List.forall₂_same.2 fun c _ => .refl c

theorem twins_trans {as bs cs : List NodeId} (h : List.Forall₂ model.Twin as bs)
    (h' : List.Forall₂ model.Twin bs cs) : List.Forall₂ model.Twin as cs :=
  forall₂_trans (fun _ _ _ _ _ _ hab hbc => hab.trans hbc) h h'

/-- A child that stands for a child of a grouping and has not changed is its twin. -/
theorem StandsFor.twin {id g c t : NodeId} (h : model.StandsFor id g c t)
    (hc : (model.node c).copiedFrom ≠ none) : model.Twin c t := by
  rcases h.copied with hnone | ⟨hcopies, haug⟩
  · exact absurd hnone hc
  · exact ⟨hcopies.to_reflTransGen, haug⟩

theorem not_augment_of_structural {k : Kind} (h : k.isStructural = true) :
    k.isAugment = false := by
  cases k <;> first | rfl | cases h

section Linked

variable (hm : model.Linked)

include hm

theorem Linked.alike_of_copies {id s : NodeId} (h : model.Copies id s) : model.Alike id s := by
  have hmirrors := hm.mirrors id s h
  exact ⟨hmirrors.kind, hmirrors.name, hmirrors.description, hm.origin_of_copies h,
    hm.canonical_of_standsFor (standsFor?_of_copies h),
    hmirrors.children.imp fun _ _ hct => ⟨.single hct.copied, hct.augmented⟩⟩

theorem Linked.alike {id s : NodeId} (h : ReflTransGen model.Copies id s) : model.Alike id s := by
  induction h using ReflTransGen.head_induction_on with
  | refl => exact ⟨rfl, rfl, rfl, rfl, rfl, twins_refl _⟩
  | head hstep _ ih =>
    have hfirst := hm.alike_of_copies hstep
    exact ⟨hfirst.kind.trans ih.kind, hfirst.name.trans ih.name,
      hfirst.description.trans ih.description, hfirst.origin.trans ih.origin,
      hfirst.canonical.trans ih.canonical, twins_trans hfirst.children ih.children⟩

/-- A node that `Aliases` a grouping has just the children of the grouping, twin by twin. -/
theorem Linked.alias_children {id g : NodeId} (h : model.Aliases id g) :
    List.Forall₂ model.Twin (model.node id).children (model.node g).children := by
  obtain ⟨declared, blocks, added, hp⟩ := hm.parts id (not_augment_of_structural h.structural)
  have hchildren := hp.children
  have hmem : ∀ c, c ∈ declared ++ blocks.flatten ++ added →
      (model.node c).introducedBy = some id ∧ (model.node c).copiedFrom ≠ none := fun c hc =>
    h.inherited c (hchildren ▸ hc)
  -- an alias declares nothing and nothing was added, so its one block is all there is
  have hdeclared : declared = [] := by
    refine List.eq_nil_iff_forall_not_mem.2 fun c hc => ?_
    have hintro := (hmem c (by simp [hc])).1
    rw [hp.made.declares c hc] at hintro
    cases hintro
  have hadded : added = [] := by
    refine List.eq_nil_iff_forall_not_mem.2 fun c hc => ?_
    exact hp.made.adds c hc (hmem c (by simp [hc])).1
  subst hdeclared hadded
  have hstands := hp.made.stands
  rw [h.uses] at hstands
  obtain ⟨block, rest, hblock, hrest, rfl⟩ := List.forall₂_cons_left_iff.1 hstands
  obtain rfl := List.forall₂_nil_left_iff.1 hrest
  have hall : (model.node id).children = block := by simpa using hchildren
  rw [hall]
  exact forall₂_imp_mem hblock fun c hc t _ hct => hct.twin (hmem c (by simp [hc])).2

theorem Linked.children_standsFor {id s : NodeId} (h : model.standsFor? id = some s) :
    List.Forall₂ model.Twin (model.node id).children (model.node s).children := by
  rcases standsFor?_eq_some h with hc | ⟨-, ha⟩
  · exact (hm.alike_of_copies hc).children
  · exact hm.alias_children (aliases_of_aliasTarget? ha)

/-- Child by child a node has twins of the children of its `canonical` node. -/
theorem Linked.children_canonical (id : NodeId) :
    List.Forall₂ model.Twin (model.node id).children
      (model.node (model.canonical id)).children := by
  have hpath : ReflTransGen (fun a b => model.standsFor? a = some b) id (model.canonical id) :=
    canonical_path id
  generalize model.canonical id = owner at hpath
  induction hpath using ReflTransGen.head_induction_on with
  | refl => exact twins_refl _
  | head hstep _ ih => exact twins_trans (hm.children_standsFor hstep) ih

/-! ## Trees -/

theorem Linked.treeOf (id : NodeId) : TreeOf model (model.tree id) :=
  treeOf_treeWithin (fun _ => True) (fun id _ c hc => ⟨(hm.children id c hc).1, trivial⟩) _ id
    trivial (Nat.le_add_left _ _)

end Linked

theorem tree_id (model : DataModel) (id : NodeId) : (model.tree id).id = id := by
  unfold tree
  cases model.size <;> rfl

theorem TreeOf.children {t : Tree} (h : TreeOf model t) :
    t.children.map Tree.id = (model.node t.id).children ∧ ∀ u ∈ t.children, TreeOf model u := by
  cases h with
  | node hids htrees => exact ⟨hids, htrees⟩

theorem Linked.tree_children (hm : model.Linked) (id : NodeId) :
    (model.tree id).children.map Tree.id = (model.node id).children ∧
      ∀ u ∈ (model.tree id).children, TreeOf model u := by
  have h := (hm.treeOf id).children
  rw [tree_id] at h
  exact h

mutual

theorem TreeOf.unique : ∀ {t u : Tree}, TreeOf model t → TreeOf model u → t.id = u.id → t = u
  | .node id children, .node id' children', ht, hu, hid => by
    obtain rfl : id = id' := hid
    obtain ⟨hids, htrees⟩ := ht.children
    obtain ⟨hids', htrees'⟩ := hu.children
    rw [Tree.node.injEq]
    exact ⟨rfl, treesOf_unique htrees htrees' (hids.trans hids'.symm)⟩

theorem treesOf_unique : ∀ {ts us : List Tree}, (∀ t ∈ ts, TreeOf model t) →
    (∀ u ∈ us, TreeOf model u) → ts.map Tree.id = us.map Tree.id → ts = us
  | [], [], _, _, _ => rfl
  | t :: ts, u :: us, hts, hus, hids => by
    rw [List.map_cons, List.map_cons, List.cons.injEq] at hids
    rw [TreeOf.unique (hts t List.mem_cons_self) (hus u List.mem_cons_self) hids.1,
      treesOf_unique (fun t ht => hts t (List.mem_cons_of_mem _ ht))
        (fun u hu => hus u (List.mem_cons_of_mem _ hu)) hids.2]

end

theorem Linked.tree_children_eq (hm : model.Linked) (id : NodeId) :
    (model.tree id).children = (model.node id).children.map model.tree := by
  obtain ⟨hids, htrees⟩ := hm.tree_children id
  refine treesOf_unique htrees (fun u hu => ?_) ?_
  · obtain ⟨c, -, rfl⟩ := List.mem_map.1 hu
    exact hm.treeOf c
  · rw [hids, List.map_map]
    exact (List.map_id'' (fun c => tree_id model c) _).symm

/-- The `tree` of a node holds the trees of its children. -/
theorem Linked.tree_eq (hm : model.Linked) (id : NodeId) :
    model.tree id = .node id ((model.node id).children.map model.tree) := by
  have hid := tree_id model id
  have hchildren := hm.tree_children_eq id
  cases ht : model.tree id with
  | node x trees =>
    rw [ht] at hid hchildren
    exact congrArg₂ Tree.node hid hchildren

end RestSpec.DataModel
