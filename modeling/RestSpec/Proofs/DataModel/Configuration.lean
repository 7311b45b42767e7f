/-
What is configuration. A flag is set once, when a node is made, from the flag of its parent as it is
then. As no flag changes later and copies are made from what their originals say, not from the flags
of these, a node of a linked model is configuration unless it or a node that it lies in says that it
is not; and the flags are those that can be read off the modules as they are written.
-/
import RestSpec.Proofs.DataModel.Substitution
import RestSpec.Proofs.DataModel.Walks

namespace RestSpec.DataModel

variable {sources : List Source.Module} {model : DataModel}

/-! ## Flags and statements -/

/-- A node says of itself that it is no configuration: its `configStatement` is false. -/
def Declines (model : DataModel) (id : NodeId) : Prop :=
  (model.node id).configStatement = some false

/-- The `config` flag of the parent; at the top everything is configuration. -/
def inheritedConfig (model : DataModel) (id : NodeId) : Bool :=
  ((model.node id).parent.map fun p => (model.node p).config).getD true

/-- Every node is configuration if `inheritedConfig` says so and it does not decline. -/
def Flagged (model : DataModel) : Prop :=
  ∀ id, (model.node id).config =
    (model.inheritedConfig id && (model.node id).configStatement.getD true)

theorem flagged_of_link (h : link sources = .ok model) : model.Flagged := by
  obtain ⟨_, d, _, hpasses, rfl, -, -⟩ := Draft.passes_of_link h
  intro id
  by_cases hid : id < d.model.size
  · exact (hpasses.linked.faithful.lawful id hid).configured
  · unfold inheritedConfig
    rw [node_of_size_le (Nat.le_of_not_lt hid)]
    rfl

theorem getD_configStatement_iff {id : NodeId} :
    (model.node id).configStatement.getD true = true ↔ ¬ model.Declines id := by
  unfold Declines
  cases (model.node id).configStatement with
  | none => simp
  | some b => cases b <;> simp

section Above

variable (hm : model.Linked) (hflag : model.Flagged)

include hm hflag

/-- A node is configuration if and only if none `Declines` from it on up to its root. -/
theorem config_iff (id : NodeId) : (model.node id).config = true ↔
    ∀ a ∈ id :: model.ancestors id, ¬ model.Declines a := by
  induction id using Nat.strong_induction_on with
  | _ id ih =>
    rw [hflag id, Bool.and_eq_true, getD_configStatement_iff, List.forall_mem_cons, hm.ancestors_eq]
    unfold inheritedConfig
    cases hp : (model.node id).parent with
    | none => simp
    | some p =>
      dsimp only [Option.map_some, Option.getD_some]
      rw [ih p (hm.up id p hp)]
      exact and_comm

end Above

/-! ## Flags as they are written -/

mutual

/-- The numbers of a tree in preorder: each before those below it. -/
def Tree.ids : Tree → List NodeId
  | .node id children => id :: idsAmong children

/-- The nodes of some trees, each tree from its top down as `Tree.ids` lists it. -/
def Tree.idsAmong : List Tree → List NodeId
  | [] => []
  | t :: ts => t.ids ++ idsAmong ts

end

/-- The `config` flags of a node and of all below it, in preorder. -/
def flags (model : DataModel) (id : NodeId) : List Bool :=
  (model.tree id).ids.map fun x => (model.node x).config

mutual

/-- The flags that a shape has below a flag: a `configStatement` that declines takes all below it
along. -/
def Shape.flags (above : Bool) : Shape → List Bool
  | .node label children =>
    (above && label.configStatement.getD true) ::
      flagsAmong (above && label.configStatement.getD true) children

/-- The `Shape.flags` of some shapes, one after the other. -/
def Shape.flagsAmong (above : Bool) : List Shape → List Bool
  | [] => []
  | s :: ss => s.flags above ++ flagsAmong above ss

end

mutual

/-- A tree has the `Shape.flags` that its shape has below the flag of its parent. -/
theorem flags_of_shows (hm : model.Linked) (hflag : model.Flagged) :
    ∀ (t : Tree) (s : Shape), TreeOf model t → model.Shows t.id s →
      (model.node t.id).kind.isAugment = false →
      t.ids.map (fun x => (model.node x).config) = s.flags (model.inheritedConfig t.id)
  | .node id children, .node label shapes, .node hids htrees, .node hlabel hshows, hkind => by
    have hconfig : (model.node id).config =
        (model.inheritedConfig id && label.configStatement.getD true) := by
      rw [hflag id, ← hlabel]
      rfl
    unfold Tree.ids Shape.flags Tree.id
    rw [List.map_cons, ← hconfig]
    refine congrArg _ (flagsAmong_of_showsAll hm hflag children shapes _ htrees (hids ▸ hshows) ?_)
    intro t ht
    have hchild : t.id ∈ (model.node id).children := hids ▸ List.mem_map_of_mem ht
    obtain ⟨hparent, htakes⟩ := hm.below id hkind t.id hchild
    refine ⟨?_, (Kind.of_takes htakes).1⟩
    unfold inheritedConfig
    rw [hparent]
    rfl

theorem flagsAmong_of_showsAll (hm : model.Linked) (hflag : model.Flagged) :
    ∀ (ts : List Tree) (ss : List Shape) (above : Bool), (∀ t ∈ ts, TreeOf model t) →
      model.ShowsAll (ts.map Tree.id) ss →
      (∀ t ∈ ts, model.inheritedConfig t.id = above ∧
        (model.node t.id).kind.isAugment = false) →
      (Tree.idsAmong ts).map (fun x => (model.node x).config) = Shape.flagsAmong above ss
  | [], _, _, _, .nil, _ => rfl
  | t :: ts, s :: ss, above, htrees, .cons hs hshows, habove => by
    obtain ⟨⟨hinherited, hkind⟩, hrest⟩ := List.forall_mem_cons.1 habove
    rw [Tree.idsAmong, Shape.flagsAmong, List.map_append,
      flags_of_shows hm hflag t s (htrees t List.mem_cons_self) hs hkind, hinherited,
      flagsAmong_of_showsAll hm hflag ts ss above (fun t ht => htrees t (List.mem_cons_of_mem _ ht))
        hshows hrest]

end

/-- The `flags` in the trees of a module, root after root. -/
def Module.flags (model : DataModel) (m : Module) : List (List Bool) :=
  (m.data ++ m.rpcs).map model.flags

/-- The flags below each root of a module, where a root without a statement is configuration. -/
def ModuleTrees.flags (trees : ModuleTrees) : List (List Bool) :=
  (trees.data ++ trees.rpcs).map (Shape.flags true)

/-- The flags of a linked model are the `ModuleTrees.flags` of the forest that the modules stand
for. -/
theorem flags_of_link (h : link sources = .ok model) : ∃ forest, Substituted sources forest ∧
    model.modules.map (Module.flags model) = forest.map ModuleTrees.flags := by
  obtain ⟨hm, -⟩ := linked_of_link h
  have hflag := flagged_of_link h
  obtain ⟨_, d, forest, hpasses, rfl, hsubstituted, hshows⟩ := Draft.passes_of_link h
  have hroot : ∀ r ∈ d.model.roots, d.model.flags r = (d.model.shape r).flags true := by
    intro r hr
    have htop := hpasses.linked.parentless r hr
    have htree := flags_of_shows hm hflag (d.model.tree r) (d.model.shape r) (hm.treeOf r)
    rw [tree_id] at htree
    have hinherited : d.model.inheritedConfig r = true := by
      unfold inheritedConfig
      rw [show (d.model.node r).parent = none from htop]
      rfl
    rw [← hinherited]
    exact htree (hm.shows_shape r) (hpasses.linked.sound.rooted r hr).kind
  refine ⟨forest, hsubstituted, ?_⟩
  rw [← hm.forest_eq hshows, DataModel.forest, List.map_map]
  refine List.map_congr_left fun m hmem => ?_
  unfold Module.flags ModuleTrees.flags
  dsimp only [Function.comp_apply]
  rw [← List.map_append, List.map_map]
  exact List.map_congr_left fun r hr => hroot r (List.mem_flatMap.2 ⟨m, hmem, hr⟩)

end RestSpec.DataModel
