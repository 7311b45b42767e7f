/-
What a model looks like, apart from the numbers of its nodes. The shape of a node is what it says
of itself and the shapes of its children, in order; the forest of a model holds the shapes of the
roots of every module. A node goes on to show the same shape as long as nothing below it changes.
-/
import RestSpec.Proofs.DataModel.Twins

namespace RestSpec.DataModel

open Relation (ReflTransGen)

/-! ## Shapes -/

/-- What a node says of itself, wherever it stands: all but numbers and what linking adds. -/
structure Label where
  kind : Kind
  name : String
  moduleName : String
  configStatement : Option Bool
  description : Option String
  reference : Option String

/-- What a node says by itself, wherever it stands: its `Label`. -/
def Node.label (n : Node) : Label where
  kind := n.kind
  name := n.name
  moduleName := n.moduleName
  configStatement := n.configStatement
  description := n.description
  reference := n.reference

/-- A tree of labels: a part of a data model with the numbers of its nodes left out. -/
inductive Shape where
  | node (label : Label) (children : List Shape)

namespace Shape

/-- The label at the top of a shape. -/
def label : Shape → Label
  | node label _ => label

/-- The name at the top of a shape. -/
def name (s : Shape) : String := s.label.name

mutual

/-- The same shape as part of another module: each `Label` names the module. -/
def within (moduleName : String) : Shape → Shape
  | node label children => .node { label with moduleName := moduleName }
      (allWithin moduleName children)

/-- The shapes with all their nodes put `within` a module. -/
def allWithin (moduleName : String) : List Shape → List Shape
  | [] => []
  | s :: rest => within moduleName s :: allWithin moduleName rest

end

theorem allWithin_append (moduleName : String) :
    ∀ ss ss' : List Shape, allWithin moduleName (ss ++ ss') =
      allWithin moduleName ss ++ allWithin moduleName ss'
  | [], _ => rfl
  | s :: ss, ss' => congrArg (within moduleName s :: ·) (allWithin_append moduleName ss ss')

end Shape

/-- What a module shows: a `Shape` for each data root and each remote call, in the order of
declaration. -/
structure ModuleTrees where
  name : String
  data : List Shape
  rpcs : List Shape

variable (model : DataModel)

mutual

/-- The shape of a tree: the label of each node in its place. -/
def shapeOf : Tree → Shape
  | .node id children => .node (model.node id).label (shapesOf children)

/-- The `shapeOf` each of some trees. -/
def shapesOf : List Tree → List Shape
  | [] => []
  | t :: rest => shapeOf t :: shapesOf rest

end

/-- The `Shape` of a node with all below it. -/
def shape (id : NodeId) : Shape := model.shapeOf (model.tree id)

/-- The shapes of all roots, module by module. -/
def forest : List ModuleTrees :=
  model.modules.map fun m =>
    { name := m.name, data := m.data.map model.shape, rpcs := m.rpcs.map model.shape }

/-! ## Showing a shape -/

mutual

/-- The way down from a node is that of a `Shape`: labels and children agree at each node. -/
inductive Shows : NodeId → Shape → Prop
  | node {id : NodeId} {label : Label} {children : List Shape} :
      (model.node id).label = label → ShowsAll (model.node id).children children →
      Shows id (.node label children)

/-- Nodes show shapes, one for one, as `Shows` says. -/
inductive ShowsAll : List NodeId → List Shape → Prop
  | nil : ShowsAll [] []
  | cons {id : NodeId} {s : Shape} {ids : List NodeId} {ss : List Shape} :
      Shows id s → ShowsAll ids ss → ShowsAll (id :: ids) (s :: ss)

end

variable {model}

theorem Shows.label {id : NodeId} {s : Shape} (h : model.Shows id s) :
    (model.node id).label = s.label := by
  cases h with
  | node hlabel _ => exact hlabel

theorem Shows.name {id : NodeId} {s : Shape} (h : model.Shows id s) :
    (model.node id).name = s.name :=
  congrArg Label.name h.label

theorem ShowsAll.append {ids ids' : List NodeId} {ss ss' : List Shape} :
    model.ShowsAll ids ss → model.ShowsAll ids' ss' → model.ShowsAll (ids ++ ids') (ss ++ ss')
  | .nil, h' => h'
  | .cons h hs, h' => .cons h (hs.append h')

theorem ShowsAll.exists_shows {ids : List NodeId} {ss : List Shape} (h : model.ShowsAll ids ss) :
    ∀ id ∈ ids, ∃ s ∈ ss, model.Shows id s := by
  induction ids generalizing ss with
  | nil => exact nofun
  | cons id ids ih =>
    cases h with
    | cons hs h =>
      intro id' hid
      rcases List.mem_cons.1 hid with rfl | hid
      · exact ⟨_, List.mem_cons_self, hs⟩
      · obtain ⟨s, hmem, hs⟩ := ih h id' hid
        exact ⟨s, List.mem_cons_of_mem _ hmem, hs⟩

theorem ShowsAll.imp {model' : DataModel} :
    ∀ {ids : List NodeId} {ss : List Shape}, model.ShowsAll ids ss →
      (∀ id ∈ ids, ∀ s, model.Shows id s → model'.Shows id s) → model'.ShowsAll ids ss
  | [], [], .nil, _ => .nil
  | id :: _, s :: _, .cons h hs, himp => .cons (himp id List.mem_cons_self s h)
      (hs.imp fun x hx => himp x (List.mem_cons_of_mem _ hx))

mutual

/-- A node `Shows` one shape only. -/
theorem Shows.unique {id : NodeId} :
    ∀ {s s' : Shape}, model.Shows id s → model.Shows id s' → s = s'
  | .node _ _, .node _ _, .node hlabel hbelow, .node hlabel' hbelow' => by
    rw [← hlabel, ← hlabel', hbelow.unique hbelow']

theorem ShowsAll.unique :
    ∀ {ids : List NodeId} {ss ss' : List Shape}, model.ShowsAll ids ss → model.ShowsAll ids ss' →
      ss = ss'
  | [], [], [], .nil, .nil => rfl
  | _ :: _, _ :: _, _ :: _, .cons h hs, .cons h' hs' => by rw [h.unique h', hs.unique hs']

end

/-- Nodes that are closed under children have the same `label` and children in both models. -/
structure SameBelow (model model' : DataModel) (among : NodeId → Prop) : Prop where
  down : ∀ x, among x → ∀ c ∈ (model.node x).children, among c
  label : ∀ x, among x → (model'.node x).label = (model.node x).label
  children : ∀ x, among x → (model'.node x).children = (model.node x).children

mutual

/-- What a node `Shows` stays where `SameBelow` says that no label and no children change. -/
theorem Shows.frame {model' : DataModel} {among : NodeId → Prop}
    (hsame : SameBelow model model' among) {id : NodeId} :
    ∀ {s : Shape}, model.Shows id s → among id → model'.Shows id s
  | .node _ _, .node hlabel hbelow, hid => by
    refine .node ((hsame.label id hid).trans hlabel) ?_
    rw [hsame.children id hid]
    exact hbelow.frame hsame (hsame.down id hid)

theorem ShowsAll.frame {model' : DataModel} {among : NodeId → Prop}
    (hsame : SameBelow model model' among) {ids : List NodeId} :
    ∀ {ss : List Shape}, model.ShowsAll ids ss → (∀ id ∈ ids, among id) → model'.ShowsAll ids ss
  | [], .nil, _ => .nil
  | _ :: _, .cons h hs, hids =>
    .cons (h.frame hsame (hids _ List.mem_cons_self))
      (hs.frame hsame fun id hid => hids id (List.mem_cons_of_mem _ hid))

end

/-! ## Shapes of trees -/

mutual

theorem shows_shapeOf : ∀ t : Tree, TreeOf model t → model.Shows t.id (model.shapeOf t)
  | .node id children, h => by
    obtain ⟨hids, htrees⟩ := h.children
    have hids : children.map Tree.id = (model.node id).children := hids
    have hbelow := showsAll_shapesOf children htrees
    rw [hids] at hbelow
    exact .node rfl hbelow

theorem showsAll_shapesOf : ∀ ts : List Tree, (∀ t ∈ ts, TreeOf model t) →
    model.ShowsAll (ts.map Tree.id) (model.shapesOf ts)
  | [], _ => .nil
  | t :: ts, h => .cons (shows_shapeOf t (h t List.mem_cons_self))
      (showsAll_shapesOf ts fun u hu => h u (List.mem_cons_of_mem _ hu))

end

section Linked

variable (hm : model.Linked)

include hm

theorem Linked.shows_shape (id : NodeId) : model.Shows id (model.shape id) := by
  have h := shows_shapeOf (model.tree id) (hm.treeOf id)
  rwa [tree_id] at h

theorem Linked.shapes_eq {ids : List NodeId} {ss : List Shape} (h : model.ShowsAll ids ss) :
    ids.map model.shape = ss := by
  have hshapes : ∀ ids : List NodeId, model.ShowsAll ids (ids.map model.shape) := by
    intro ids
    induction ids with
    | nil => exact .nil
    | cons id ids ih => exact .cons (hm.shows_shape id) ih
  exact (hshapes ids).unique h

end Linked

end RestSpec.DataModel
