/-
Down by name and up again. Going down from a node passes through choices and cases by the lists of
children, going up passes through them by parents; both come to the same. What data shows below a
node that it shows itself are, depth first, the nodes with that node as nearest ancestor shown, and
the first of them of a name is what is found under the name.
-/
import RestSpec.Proofs.DataModel.Chains
import RestSpec.Proofs.Naming.Ancestry

namespace RestSpec.DataModel

open Relation (TransGen)

/-! ## What lies below a node -/

mutual

/-- All nodes of a tree, each before what lies below it. -/
def Tree.preorder : Tree → List NodeId
  | .node id children => id :: preorderAll children

/-- The nodes of some trees, one tree after the other, each as `Tree.preorder` lists it. -/
def preorderAll : List Tree → List NodeId
  | [] => []
  | t :: ts => Tree.preorder t ++ preorderAll ts

end

/-- All that lies below a node, depth first: the `tree` of the node in preorder. -/
def descendants (model : DataModel) (id : NodeId) : List NodeId :=
  preorderAll (model.tree id).children

/-- A node that data shows under a name, with `p` as its `dataParent?`. -/
structure IsDataChild (model : DataModel) (p : NodeId) (name : String) (c : NodeId) : Prop where
  shown : (model.node c).kind.isTransparent = false
  name : (model.node c).name = name
  parent : model.dataParent? c = some p

instance (model : DataModel) (p : NodeId) (name : String) (c : NodeId) :
    Decidable (model.IsDataChild p name c) :=
  decidable_of_iff ((model.node c).kind.isTransparent = false ∧ (model.node c).name = name ∧
    model.dataParent? c = some p) ⟨fun h => ⟨h.1, h.2.1, h.2.2⟩, fun h => ⟨h.1, h.2, h.3⟩⟩

variable {sources : List Source.Module} {model : DataModel}

theorem preorderAll_eq_flatMap : ∀ ts : List Tree, preorderAll ts = ts.flatMap Tree.preorder
  | [] => rfl
  | t :: ts => by rw [preorderAll, List.flatMap_cons, preorderAll_eq_flatMap ts]

theorem Linked.descendants_eq (hm : model.Linked) (id : NodeId) :
    model.descendants id =
      (model.node id).children.flatMap fun c => c :: model.descendants c := by
  rw [descendants, hm.tree_children_eq, preorderAll_eq_flatMap, List.flatMap_map]
  refine List.flatMap_congr fun c _ => ?_
  rw [hm.tree_eq c, Tree.preorder, descendants, hm.tree_children_eq]

theorem Linked.mem_descendants_of_down (hm : model.Linked) {p z : NodeId} (h : model.Down p z) :
    z ∈ model.descendants p := by
  induction h using TransGen.head_induction_on with
  | single hc =>
    rw [hm.descendants_eq]
    exact List.mem_flatMap.2 ⟨z, hc, List.mem_cons_self⟩
  | head hc _ ih =>
    rw [hm.descendants_eq]
    exact List.mem_flatMap.2 ⟨_, hc, List.mem_cons_of_mem _ ih⟩

/-! ## The way up -/

/-- The first of a node and its `ancestors` that data shows. -/
def nearest? (model : DataModel) (id : NodeId) : Option NodeId :=
  (id :: model.ancestors id).find? fun a => !(model.node a).kind.isTransparent

section Up

variable (hm : model.Linked)

include hm

theorem Linked.dataParent?_of_parent {c p : NodeId} (hp : (model.node c).parent = some p) :
    model.dataParent? c = model.nearest? p := by
  unfold dataParent? nearest?
  rw [hm.ancestors_eq c, hp]

/-- What `descendants` lists has the node above it, and only greater ones before that. -/
theorem Linked.ancestors_descendant {p : NodeId} (hkind : (model.node p).kind.isAugment = false) :
    ∀ z ∈ model.descendants p, ∃ between, model.ancestors z = between ++ p :: model.ancestors p ∧
      ∀ a ∈ between, p < a := by
  induction hn : model.size - p using Nat.strong_induction_on generalizing p with
  | _ n ih =>
    intro z hz
    rw [hm.descendants_eq, List.mem_flatMap] at hz
    obtain ⟨c, hc, hz⟩ := hz
    obtain ⟨hparent, htakes⟩ := hm.below p hkind c hc
    obtain ⟨hlt, hsize⟩ := hm.children p c hc
    have habove : model.ancestors c = p :: model.ancestors p := by rw [hm.ancestors_eq c, hparent]
    rcases List.mem_cons.1 hz with rfl | hz
    · exact ⟨[], habove, nofun⟩
    · obtain ⟨between, hz, hbetween⟩ := ih (model.size - c)
        (hn ▸ Nat.sub_lt_sub_left (hlt.trans hsize) hlt) (Kind.of_takes htakes).1 rfl z hz
      refine ⟨between ++ [c], by rw [hz, habove, List.append_assoc]; rfl, fun a ha => ?_⟩
      rcases List.mem_append.1 ha with ha | ha
      · exact hlt.trans (hbetween a ha)
      · obtain rfl := List.mem_singleton.1 ha
        exact hlt

/-- Below a node that data shows, `dataParent?` gives that node or a greater one. -/
theorem Linked.dataParent?_descendant {p : NodeId} (hkind : (model.node p).kind.isAugment = false)
    (hshown : (model.node p).kind.isTransparent = false) {z : NodeId}
    (hz : z ∈ model.descendants p) : ∃ q, model.dataParent? z = some q ∧ p ≤ q := by
  obtain ⟨between, hancestors, hbetween⟩ := hm.ancestors_descendant hkind z hz
  unfold dataParent?
  rw [hancestors, List.find?_append, List.find?_cons_of_pos (by rw [hshown]; rfl)]
  cases hfind : between.find? fun a => !(model.node a).kind.isTransparent with
  | none => exact ⟨p, rfl, Nat.le_refl p⟩
  | some q => exact ⟨q, rfl, Nat.le_of_lt (hbetween q (List.mem_of_find?_eq_some hfind))⟩

theorem Linked.nearest?_le {p q : NodeId} (h : model.nearest? p = some q) : q ≤ p := by
  have hup := ancestorsWithin_all (P := (· ≤ p))
    (fun x y hy hx => (Nat.le_of_lt (hm.up x y hy)).trans hx) model.size p (Nat.le_refl p)
  exact hup q (List.mem_of_find?_eq_some h)

/-- The `dataChildren` of a node are, depth first, all its `descendants` that data shows with the
same `nearest?` as the children of the node. -/
theorem Linked.dataChildren_eq_filter {p : NodeId}
    (hkind : (model.node p).kind.isAugment = false) :
    model.dataChildren p = (model.descendants p).filter fun c =>
      !(model.node c).kind.isTransparent && model.dataParent? c == model.nearest? p := by
  -- a choice or a case below has the nearest ancestor of its own children, so it is gone through
  induction hn : model.size - p using Nat.strong_induction_on generalizing p with
  | _ n ih =>
    rw [hm.dataChildren_eq, hm.descendants_eq, List.filter_flatMap]
    refine List.flatMap_congr fun c hc => ?_
    obtain ⟨hparent, htakes⟩ := hm.below p hkind c hc
    obtain ⟨hlt, hsize⟩ := hm.children p c hc
    have hplain := (Kind.of_takes htakes).1
    have hup := hm.dataParent?_of_parent hparent
    split
    · rename_i htransparent
      have hnearest : model.nearest? c = model.nearest? p := by
        rw [← hup]
        exact List.find?_cons_of_neg (by simp [htransparent])
      rw [List.filter_cons_of_neg (by simp [htransparent]), ← hnearest]
      exact ih (model.size - c) (hn ▸ Nat.sub_lt_sub_left (hlt.trans hsize) hlt) hplain rfl
    · rename_i htransparent
      have hshown : (model.node c).kind.isTransparent = false := Bool.eq_false_iff.2 htransparent
      rw [List.filter_cons_of_pos (by simp [hshown, hup]), List.filter_eq_nil_iff.2]
      intro z hz hpass
      obtain ⟨q, hq, hle⟩ := hm.dataParent?_descendant hplain hshown hz
      simp only [Bool.and_eq_true, beq_iff_eq, hq] at hpass
      exact absurd (hm.nearest?_le hpass.2.symm) (Nat.not_le.2 (Nat.lt_of_lt_of_le hlt hle))

theorem Linked.above_of_mem_ancestors {a id : NodeId} (h : a ∈ model.ancestors id) :
    model.Above a id := by
  induction id using Nat.strong_induction_on with
  | _ id ih =>
    rw [hm.ancestors_eq] at h
    cases hp : (model.node id).parent with
    | none =>
      rw [hp] at h
      cases h
    | some p =>
      rw [hp] at h
      rcases List.mem_cons.1 h with rfl | h
      · exact .single hp
      · exact .head hp (ih p (hm.up id p hp) h)

end Up

/-! ## Down and up -/

/-- What `dataChildNamed?` finds at a node that data shows is the first of its `descendants`, depth
first, that `IsDataChild` of the node under the name; it finds one just if there is one. -/
theorem dataChildNamed?_first_dataChild (h : link sources = .ok model) {p : NodeId}
    (hshown : (model.node p).kind.isTransparent = false)
    (hkind : (model.node p).kind.isAugment = false) (name : String) :
    ((model.dataChildNamed? p name).isSome = true ↔ ∃ c, model.IsDataChild p name c) ∧
    model.dataChildNamed? p name =
      (model.descendants p).find? fun c => decide (model.IsDataChild p name c) := by
  obtain ⟨hm, -⟩ := linked_of_link h
  have hnearest : model.nearest? p = some p := List.find?_cons_of_pos (by rw [hshown]; rfl)
  have hfind : model.dataChildNamed? p name =
      (model.descendants p).find? fun c => decide (model.IsDataChild p name c) := by
    unfold dataChildNamed?
    rw [hm.dataChildren_eq_filter hkind, hnearest, List.find?_filter]
    congr 1
    funext c
    rw [Bool.eq_iff_iff]
    simp only [Bool.and_eq_true, beq_iff_eq, Bool.not_eq_true', decide_eq_true_eq]
    exact ⟨fun hc => ⟨hc.1.1, hc.2, hc.1.2⟩, fun hc => ⟨⟨hc.shown, hc.parent⟩, hc.name⟩⟩
  refine ⟨?_, hfind⟩
  rw [hfind, List.find?_isSome]
  constructor
  · rintro ⟨c, -, hc⟩
    exact ⟨c, of_decide_eq_true hc⟩
  · rintro ⟨c, hc⟩
    -- the node is above `c` by parents, so the lists of children lead from it to `c`
    have habove := hm.above_of_mem_ancestors (List.mem_of_find?_eq_some hc.parent)
    exact ⟨c, hm.mem_descendants_of_down (down_of_above h habove), decide_eq_true hc⟩

/-- A container with a choice in a case of a choice, to which case an augment adds a leaf. -/
def branching : List Source.Module :=
  [{ name := "net", modulePrefix := none, namespaceUri := none, revision := none,
     description := none, typedefs := [], groupings := [], rpcs := []
     data := [containerOf "top"
       [⟨.choice, "mode", none, none, none,
         [⟨.case, "fast", none, none, none,
           [⟨.choice, "unit", none, none, none,
             [⟨.case, "metric", none, none, none, [leafOf "rate" "string"], []⟩], []⟩], []⟩,
          ⟨.case, "careful", none, none, none,
            [containerOf "slow" [leafOf "limit" "string"] []], []⟩], []⟩,
        leafOf "limit" "string"] []]
     augments := [⟨"/top/mode/fast", none, ⟨[leafOf "limit" "uint32"], []⟩⟩] }]

/-- Of two limits of the container, the one that an augment put into a case comes first; that of
`slow` lies deeper. -/
theorem dataChildNamed?_branching : ∃ model, link branching = .ok model ∧
    model.IsDataChild 0 "limit" 9 ∧ ¬ model.IsDataChild 0 "limit" 8 ∧
    (model.dataChildNamed? 0 "limit").isSome = true ∧
    model.dataChildNamed? 0 "limit" = some 11 ∧
    model.descendants 0 = [1, 2, 3, 4, 5, 11, 6, 7, 8, 9] := by
  obtain ⟨model, h⟩ := exists_ok_of_isSome (x := link branching) (by decide +kernel)
  have hkinds := map_of_ok h (f := fun model =>
      ((model.node 0).kind.isTransparent, (model.node 0).kind.isAugment))
    (b := (false, false)) (by decide +kernel)
  have hlimits := map_of_ok h (f := fun model =>
      (decide (model.IsDataChild 0 "limit" 9), decide (model.IsDataChild 0 "limit" 8)))
    (b := (true, false)) (by decide +kernel)
  have hbelow := map_of_ok h (f := fun model => model.descendants 0)
    (b := [1, 2, 3, 4, 5, 11, 6, 7, 8, 9]) (by decide +kernel)
  have hfind := map_of_ok h (f := fun model =>
    (model.descendants 0).find? fun c => decide (model.IsDataChild 0 "limit" c)) (b := some 11)
    (by decide +kernel)
  simp only [Prod.mk.injEq] at hkinds hlimits
  obtain ⟨hsome, hfirst⟩ := dataChildNamed?_first_dataChild h hkinds.1 hkinds.2 "limit"
  have hnine : model.IsDataChild 0 "limit" 9 := of_decide_eq_true hlimits.1
  exact ⟨model, h, hnine, of_decide_eq_false hlimits.2, hsome.2 ⟨9, hnine⟩, hfirst.trans hfind,
    hbelow⟩

end RestSpec.DataModel
