/-
The members of a node. They are its data children; they lie below it on ways that never come back,
and so do the nodes that give them their names; and a node has, member by member, the members of
its canonical node.
-/
import RestSpec.Definitions.Attributes
import RestSpec.Proofs.DataModel.Twins

namespace RestSpec.DataModel

open Relation (TransGen ReflTransGen)

variable {model : DataModel}

/-! ## Members and data children -/

theorem membersOfAll_eq_flatMap (choice : Option String) : ∀ ts : List Tree,
    membersOfAll model choice ts = ts.flatMap (membersOf model choice)
  | [] => rfl
  | t :: ts => by rw [membersOfAll, membersOfAll_eq_flatMap choice ts, List.flatMap_cons]

/-- The kinds of nodes that become properties: containers, lists, leaves and leaf lists. -/
def Kind.isMember : Kind → Bool
  | container _ | list _ | leaf _ | leafList _ => true
  | _ => false

/-- A kind that a grouping `takes` is a member, or is a choice or case and looked through. -/
theorem Kind.isMember_or_isTransparent {k : Kind} (h : Kind.grouping.takes k = true) :
    k.isMember = true ∧ k.isTransparent = false ∨ k = .choice ∨ k = .case := by
  cases k <;> first | exact .inl ⟨rfl, rfl⟩ | exact .inr (.inl rfl) | exact .inr (.inr rfl) |
    cases h

theorem Kind.grouping_takes {k c : Kind} (hk : k ≠ .rpc) (h : k.takes c = true) :
    Kind.grouping.takes c = true := by
  cases k <;> cases c <;> simp_all [takes]

/-- Below a node that is no rpc stand kinds that a grouping `takes`. -/
theorem Linked.takes_child (hm : model.Linked) {id c : NodeId}
    (hkind : (model.node id).kind.isAugment = false) (hcall : (model.node id).kind ≠ .rpc)
    (hc : c ∈ (model.node id).children) :
    Kind.grouping.takes (model.node c).kind = true :=
  Kind.grouping_takes hcall (hm.below id hkind c hc).2

mutual

theorem membersOf_ids (hm : model.Linked) : ∀ (t : Tree) (choice : Option String),
    TreeOf model t → Kind.grouping.takes (model.node t.id).kind = true →
    (membersOf model choice t).map Member.id = model.shown t
  | .node id children, choice, ht, htakes => by
    obtain ⟨hids, htrees⟩ := ht.children
    have hchildren : (model.node id).kind.isTransparent = true → ∀ u ∈ children,
        TreeOf model u ∧ Kind.grouping.takes (model.node u.id).kind = true := by
      intro hk u hu
      have hmem : u.id ∈ (model.node id).children := hids ▸ List.mem_map.2 ⟨u, hu, rfl⟩
      refine ⟨htrees u hu, hm.takes_child ?_ ?_ hmem⟩
      · cases h : (model.node id).kind <;> simp_all [Kind.isTransparent, Kind.isAugment]
      · rintro h; rw [h] at hk; cases hk
    unfold membersOf shown
    rcases Kind.isMember_or_isTransparent htakes with ⟨hmember, hopaque⟩ | hk | hk
    · have hopaque' : (model.node id).kind.isTransparent = false := hopaque
      have hmember' : (model.node id).kind.isMember = true := hmember
      rw [hopaque']
      cases h : (model.node id).kind <;> simp_all [Kind.isMember]
    · have hk' : (model.node id).kind = .choice := hk
      rw [hk']
      exact membersOfCases_ids hm children _ (hchildren (by rw [hk']; rfl))
    · have hk' : (model.node id).kind = .case := hk
      rw [hk']
      exact membersOfAll_ids hm children _ (hchildren (by rw [hk']; rfl))

theorem membersOfAll_ids (hm : model.Linked) : ∀ (ts : List Tree) (choice : Option String),
    (∀ t ∈ ts, TreeOf model t ∧ Kind.grouping.takes (model.node t.id).kind = true) →
    (membersOfAll model choice ts).map Member.id = model.shownAmong ts
  | [], _, _ => rfl
  | t :: ts, choice, hts => by
    obtain ⟨ht, htakes⟩ := hts t List.mem_cons_self
    rw [membersOfAll, shownAmong, List.map_append, membersOf_ids hm t choice ht htakes,
      membersOfAll_ids hm ts choice fun u hu => hts u (List.mem_cons_of_mem _ hu)]

theorem membersOfCases_ids (hm : model.Linked) : ∀ (ts : List Tree) (choice : String),
    (∀ t ∈ ts, TreeOf model t ∧ Kind.grouping.takes (model.node t.id).kind = true) →
    (membersOfCases model choice ts).map Member.id = model.shownAmong ts
  | [], _, _ => rfl
  | .node id children :: ts, choice, hts => by
    obtain ⟨ht, htakes⟩ := hts _ List.mem_cons_self
    -- a case is looked through, and anything else is a case of its own
    have hrest := membersOfCases_ids hm ts choice fun u hu => hts u (List.mem_cons_of_mem _ hu)
    have hfirst := membersOf_ids hm (.node id children)
      (some (choice ++ "/" ++ (model.node id).name)) ht htakes
    rw [membersOfCases, shownAmong, List.map_append, hrest, ← hfirst]
    congr 1
    split
    · rename_i hk
      unfold membersOf
      rw [hk]
    · rfl

end

/-- The `members` of a node are its `dataChildren`, with the choices that they stand in. -/
theorem Linked.members_ids (hm : model.Linked) {id : NodeId}
    (hkind : (model.node id).kind.isStructural = true) :
    (model.members id fun _ => true).map Member.id = model.dataChildren id := by
  obtain ⟨hids, htrees⟩ := hm.tree_children id
  unfold members dataChildren
  rw [List.filter_true]
  refine membersOfAll_ids hm _ _ fun t ht => ⟨htrees t ht, ?_⟩
  refine hm.takes_child (not_augment_of_structural hkind) ?_ (hids ▸ List.mem_map.2 ⟨t, ht, rfl⟩)
  rintro h
  rw [h] at hkind
  cases hkind

theorem mem_members {id : NodeId} {included : NodeId → Bool} {m : Member}
    (h : m ∈ model.members id included) :
    ∃ t ∈ (model.tree id).children, included t.id = true ∧ m ∈ membersOf model none t := by
  unfold members at h
  rw [membersOfAll_eq_flatMap] at h
  obtain ⟨t, ht, hmt⟩ := List.mem_flatMap.1 h
  obtain ⟨ht, hincluded⟩ := List.mem_filter.1 ht
  exact ⟨t, ht, hincluded, hmt⟩

theorem mem_members_all {id : NodeId} {included : NodeId → Bool} {m : Member}
    (h : m ∈ model.members id included) : m ∈ model.members id fun _ => true := by
  obtain ⟨t, ht, -, hmt⟩ := mem_members h
  unfold members
  rw [membersOfAll_eq_flatMap, List.filter_true]
  exact List.mem_flatMap.2 ⟨t, ht, hmt⟩

/-! ## The way to a member -/

/-- A member lies below a node by `Edge`, and has a kind that becomes a property. -/
structure Reaches (model : DataModel) (id : NodeId) (m : Member) : Prop where
  path : ReflTransGen model.Edge id m.id
  kind : (model.node m.id).kind.isMember = true

theorem Reaches.of_child {id c : NodeId} {m : Member} (h : model.Reaches c m)
    (hc : c ∈ (model.node id).children) : model.Reaches id m :=
  ⟨.head (.inl hc) h.path, h.kind⟩

mutual

theorem membersOf_reaches : ∀ (t : Tree) (choice : Option String), TreeOf model t →
    ∀ m ∈ membersOf model choice t, model.Reaches t.id m
  | .node id children, choice, ht, m, h => by
    obtain ⟨hids, htrees⟩ := ht.children
    have hchildren : (∃ t ∈ children, model.Reaches t.id m) → model.Reaches id m := by
      rintro ⟨t, ht, hr⟩
      exact hr.of_child (hids ▸ List.mem_map.2 ⟨t, ht, rfl⟩)
    unfold membersOf at h
    split at h
    · exact hchildren (membersOfCases_reaches children _ htrees m h)
    · exact hchildren (membersOfAll_reaches children _ htrees m h)
    all_goals first
      | exact absurd h List.not_mem_nil
      | rename_i hk
        obtain rfl := List.mem_singleton.1 h
        exact ⟨.refl, congrArg Kind.isMember hk⟩

theorem membersOfAll_reaches : ∀ (ts : List Tree) (choice : Option String),
    (∀ t ∈ ts, TreeOf model t) → ∀ m ∈ membersOfAll model choice ts,
      ∃ t ∈ ts, model.Reaches t.id m
  | [], _, _, _, h => by cases h
  | t :: ts, choice, hts, m, h => by
    rw [membersOfAll] at h
    rcases List.mem_append.1 h with h | h
    · exact ⟨t, List.mem_cons_self, membersOf_reaches t choice (hts t List.mem_cons_self) m h⟩
    · obtain ⟨u, hu, hr⟩ := membersOfAll_reaches ts choice
        (fun u hu => hts u (List.mem_cons_of_mem _ hu)) m h
      exact ⟨u, List.mem_cons_of_mem _ hu, hr⟩

theorem membersOfCases_reaches : ∀ (ts : List Tree) (choice : String),
    (∀ t ∈ ts, TreeOf model t) → ∀ m ∈ membersOfCases model choice ts,
      ∃ t ∈ ts, model.Reaches t.id m
  | [], _, _, _, h => by cases h
  | .node id children :: ts, choice, hts, m, h => by
    have ht := hts _ List.mem_cons_self
    rw [membersOfCases] at h
    rcases List.mem_append.1 h with h | h
    · refine ⟨_, List.mem_cons_self, ?_⟩
      split at h
      · obtain ⟨hids, htrees⟩ := ht.children
        obtain ⟨u, hu, hr⟩ := membersOfAll_reaches children _ htrees m h
        exact hr.of_child (hids ▸ List.mem_map.2 ⟨u, hu, rfl⟩)
      · exact membersOf_reaches (.node id children) _ ht m h
    · obtain ⟨u, hu, hr⟩ := membersOfCases_reaches ts choice
        (fun u hu => hts u (List.mem_cons_of_mem _ hu)) m h
      exact ⟨u, List.mem_cons_of_mem _ hu, hr⟩

end

theorem Linked.members_below (hm : model.Linked) {id : NodeId} {included : NodeId → Bool}
    {m : Member} (h : m ∈ model.members id included) :
    TransGen model.Edge id m.id ∧ (model.node m.id).kind.isMember = true := by
  obtain ⟨t, ht, -, hmt⟩ := mem_members h
  obtain ⟨hids, htrees⟩ := hm.tree_children id
  have hr := membersOf_reaches t none (htrees t ht) m hmt
  exact ⟨.head' (.inl (hids ▸ List.mem_map.2 ⟨t, ht, rfl⟩)) hr.path, hr.kind⟩

/-! ## Members of nodes that stand for each other -/

/-- Members in the same place of the same choice, whose nodes are each a `Twin` of the other. -/
structure TwinMember (model : DataModel) (m m' : Member) : Prop where
  choice : m.choice = m'.choice
  twin : model.Twin m.id m'.id

/-- A `TreeOf` one node and a `TreeOf` its `Twin`. -/
structure TwinTree (model : DataModel) (t u : Tree) : Prop where
  left : TreeOf model t
  right : TreeOf model u
  twin : model.Twin t.id u.id

theorem twinTrees {ts us : List Tree} (hts : ∀ t ∈ ts, TreeOf model t)
    (hus : ∀ u ∈ us, TreeOf model u)
    (h : List.Forall₂ model.Twin (ts.map Tree.id) (us.map Tree.id)) :
    List.Forall₂ model.TwinTree ts us := by
  rw [List.forall₂_map_left_iff, List.forall₂_map_right_iff] at h
  exact forall₂_imp_mem h fun t ht u hu htwin => ⟨hts t ht, hus u hu, htwin⟩

theorem Linked.twinTree_children (hm : model.Linked) {t u : Tree} (h : model.TwinTree t u) :
    List.Forall₂ model.TwinTree t.children u.children := by
  obtain ⟨hids, htrees⟩ := h.left.children
  obtain ⟨hids', htrees'⟩ := h.right.children
  refine twinTrees htrees htrees' ?_
  rw [hids, hids']
  exact (hm.alike h.twin.copies).children

mutual

theorem membersOf_twins (hm : model.Linked) : ∀ (t u : Tree) (choice : Option String),
    model.TwinTree t u →
    List.Forall₂ model.TwinMember (membersOf model choice t) (membersOf model choice u)
  | .node id children, .node id' children', choice, h => by
    have halike : model.Alike id id' := hm.alike h.twin.copies
    have hchildren : List.Forall₂ model.TwinTree children children' := hm.twinTree_children h
    unfold membersOf
    rw [halike.kind]
    split
    · rw [halike.name]
      exact membersOfCases_twins hm children children' _ hchildren
    · exact membersOfAll_twins hm children children' _ hchildren
    all_goals first
      | exact .nil
      | exact .cons ⟨rfl, h.twin⟩ .nil

theorem membersOfAll_twins (hm : model.Linked) : ∀ (ts us : List Tree) (choice : Option String),
    List.Forall₂ model.TwinTree ts us →
    List.Forall₂ model.TwinMember (membersOfAll model choice ts) (membersOfAll model choice us)
  | [], [], _, _ => .nil
  | t :: ts, u :: us, choice, .cons h hrest => by
    rw [membersOfAll, membersOfAll]
    exact List.rel_append (membersOf_twins hm t u choice h)
      (membersOfAll_twins hm ts us choice hrest)

theorem membersOfCases_twins (hm : model.Linked) : ∀ (ts us : List Tree) (choice : String),
    List.Forall₂ model.TwinTree ts us →
    List.Forall₂ model.TwinMember (membersOfCases model choice ts)
      (membersOfCases model choice us)
  | [], [], _, _ => .nil
  | .node id children :: ts, .node id' children' :: us, choice, .cons h hrest => by
    have halike : model.Alike id id' := hm.alike h.twin.copies
    have hchildren : List.Forall₂ model.TwinTree children children' := hm.twinTree_children h
    rw [membersOfCases, membersOfCases, halike.kind, halike.name]
    refine List.rel_append ?_ (membersOfCases_twins hm ts us choice hrest)
    split
    · exact membersOfAll_twins hm children children' _ hchildren
    · exact membersOf_twins hm (.node id children) (.node id' children') _ h

end

/-- Children that are a `Twin` of each other give members that are a `TwinMember` of each other. -/
theorem Linked.membersOfAll_of_twins (hm : model.Linked) {ts us : List Tree}
    (hts : ∀ t ∈ ts, TreeOf model t) (hus : ∀ u ∈ us, TreeOf model u)
    (h : List.Forall₂ model.Twin (ts.map Tree.id) (us.map Tree.id)) (choice : Option String) :
    List.Forall₂ model.TwinMember (membersOfAll model choice ts) (membersOfAll model choice us) :=
  membersOfAll_twins hm ts us choice (twinTrees hts hus h)

/-- Member by member, the `members` of a node are twins of those of its `canonical` node. -/
theorem Linked.members_canonical (hm : model.Linked) (id : NodeId) :
    List.Forall₂ model.TwinMember (model.members id fun _ => true)
      (model.members (model.canonical id) fun _ => true) := by
  obtain ⟨hids, htrees⟩ := hm.tree_children id
  obtain ⟨hids', htrees'⟩ := hm.tree_children (model.canonical id)
  unfold members
  rw [List.filter_true, List.filter_true]
  refine hm.membersOfAll_of_twins htrees htrees' ?_ none
  rw [hids, hids']
  exact hm.children_canonical id

/-! ## Canonical nodes below canonical nodes -/

theorem edges_canonical (id : NodeId) :
    ReflTransGen model.Edge id (model.canonical id) :=
  ReflTransGen.mono (fun _ _ h => edge_of_standsFor? h) _ _ (canonical_path id)

/-- The `canonical` node of a member lies strictly below that of the node. -/
theorem Linked.canonical_member (hm : model.Linked) {id : NodeId} {included : NodeId → Bool}
    {m : Member} (h : m ∈ model.members id included) :
    TransGen model.Edge (model.canonical id) (model.canonical m.id) := by
  obtain ⟨m', hm', htwin⟩ := forall₂_mem_left (hm.members_canonical id) m (mem_members_all h)
  rw [(hm.alike htwin.twin.copies).canonical]
  exact (hm.members_below hm').1.trans_left (edges_canonical m'.id)

/-- The `canonical` node of a grouping in use lies strictly below the node that uses it. -/
theorem canonical_use {id g : NodeId} (h : g ∈ (model.node id).uses) :
    TransGen model.Edge id (model.canonical g) :=
  .head' (.inr (.inl h)) (edges_canonical g)

end RestSpec.DataModel
