/-
What lies above a node, and the ways down to it. The chain of a node goes from its root down to it;
as data shows it, choices and cases are left out. A way down by names starts at a root, be it a
choice, and leaves out choices and cases from there on: it leaves a trail. It takes the first of each
name, so it comes to a node just if every node of the trail is the first of its name where it stands.
-/
import RestSpec.Proofs.DataModel.Walks

namespace RestSpec.DataModel

variable (model : DataModel)

/-! ## Chains -/

/-- The nodes from the root down to a node: its `ancestors` backwards, and the node. -/
def chain (id : NodeId) : List NodeId := (model.ancestors id).reverse ++ [id]

/-- Of the `ancestors` of a node those that data shows, the nearest first. -/
def dataAncestors (id : NodeId) : List NodeId :=
  (model.ancestors id).filter fun a => !(model.node a).kind.isTransparent

/-- The `dataAncestors` of a node from the root on, and the node. -/
def dataChain (id : NodeId) : List NodeId := (model.dataAncestors id).reverse ++ [id]

/-- A node that data shows, or a root: a way down may start at a choice. -/
def isLandmark (id : NodeId) : Bool :=
  (model.node id).parent.isNone || !(model.node id).kind.isTransparent

/-- Of the `ancestors` of a node those that a way down by `dataChildren` comes by, the nearest
first. -/
def landmarks (id : NodeId) : List NodeId := (model.ancestors id).filter model.isLandmark

/-- The `landmarks` of a node from the root on, and the node. It is longer than the `dataChain` of
a node below a choice that is a root. -/
def dataTrail (id : NodeId) : List NodeId := (model.landmarks id).reverse ++ [id]

/-- The local names of nodes. -/
def namesOf (ids : List NodeId) : List String := ids.map fun id => (model.node id).name

/-- One node below the other, each what `find?` gives for its name among those next to it. -/
inductive Foremost (below : NodeId → List NodeId) : List NodeId → List NodeId → Prop
  | nil {among : List NodeId} : Foremost below among []
  | cons {among rest : List NodeId} {x : NodeId} :
      among.find? (fun y => (model.node y).name == (model.node x).name) = some x →
      Foremost below (below x) rest → Foremost below among (x :: rest)

instance decidableForemost (below : NodeId → List NodeId) :
    ∀ among ids : List NodeId, Decidable (model.Foremost below among ids)
  | _, [] => isTrue .nil
  | among, x :: rest =>
    have := decidableForemost below (below x) rest
    decidable_of_iff (among.find? (fun y => (model.node y).name == (model.node x).name) = some x ∧
        model.Foremost below (below x) rest)
      ⟨fun h => .cons h.1 h.2, fun h => match h with | .cons hfirst hrest => ⟨hfirst, hrest⟩⟩

/-- A way down by names, each step to the first node of the name among those that `below` gives. -/
def descend? (below : NodeId → List NodeId) (id : NodeId) (names : List String) : Option NodeId :=
  names.foldlM (fun x name => (below x).find? fun c => (model.node c).name == name) id

variable {model}

/-- The nearest of the `dataAncestors` is the parent that data shows. -/
theorem dataParent?_eq_head? (id : NodeId) :
    model.dataParent? id = (model.dataAncestors id).head? :=
  List.head?_filter.symm

/-- The `dataTrail` of a node is its `dataChain` if it is no longer. -/
theorem dataTrail_eq_dataChain {id : NodeId}
    (h : (model.dataTrail id).length = (model.dataChain id).length) :
    model.dataTrail id = model.dataChain id := by
  have hsub : (model.dataAncestors id).Sublist (model.landmarks id) :=
    List.monotone_filter_right _ fun a ha => by simp_all [isLandmark]
  have hlength : (model.dataAncestors id).length = (model.landmarks id).length := by
    simpa [dataTrail, dataChain] using h.symm
  unfold dataTrail dataChain
  rw [hsub.eq_of_length hlength]

/-! ## Ways down -/

section Down

variable {below : NodeId → List NodeId}

theorem find?_name_iff {among : List NodeId} {name : String} {x : NodeId} :
    among.find? (fun y => (model.node y).name == name) = some x ↔ (model.node x).name = name ∧
      among.find? (fun y => (model.node y).name == (model.node x).name) = some x := by
  constructor
  · intro h
    have hname : (model.node x).name = name := by simpa using List.find?_some h
    exact ⟨hname, hname ▸ h⟩
  · rintro ⟨rfl, h⟩
    exact h

/-- What `descend?` finds is the last of nodes that are `Foremost` below the start and have the
names. -/
theorem descend?_eq_some_iff {t : NodeId} : ∀ {names : List String} {x : NodeId},
    model.descend? below x names = some t ↔ ∃ rest, model.namesOf rest = names ∧
      model.Foremost below (below x) rest ∧ (x :: rest).getLast? = some t
  | [], x => by
    constructor
    · intro h
      exact ⟨[], rfl, .nil, h⟩
    · rintro ⟨rest, hnames, -, hlast⟩
      obtain rfl : rest = [] := List.map_eq_nil_iff.1 hnames
      exact hlast
  | name :: names, x => by
    unfold descend?
    rw [List.foldlM_cons, Option.bind_eq_bind, Option.bind_eq_some_iff]
    constructor
    · rintro ⟨c, hc, h⟩
      obtain ⟨rest, hnames, hforemost, hlast⟩ := descend?_eq_some_iff.1 h
      obtain ⟨hname, hfirst⟩ := find?_name_iff.1 hc
      exact ⟨c :: rest, congrArg₂ List.cons hname hnames, .cons hfirst hforemost, hlast⟩
    · rintro ⟨rest, hnames, hforemost, hlast⟩
      cases hforemost with
      | nil => cases hnames
      | @cons _ rest c hfirst hforemost =>
        obtain ⟨hname, hnames⟩ := List.cons.inj hnames
        exact ⟨c, find?_name_iff.2 ⟨hname, hfirst⟩,
          descend?_eq_some_iff.2 ⟨rest, hnames, hforemost, hlast⟩⟩

/-- Every step down makes the trail `up` one longer, so a way down goes along the trail of its end. -/
theorem Foremost.eq_trail {up : NodeId → List NodeId} {ok : NodeId → Prop}
    (hstep : ∀ x, ok x → ∀ y ∈ below x, ok y ∧ up y = up x ++ [y]) {t : NodeId} :
    ∀ {among ids : List NodeId} {above : List NodeId}, model.Foremost below among ids →
      (∀ y ∈ among, ok y ∧ up y = above ++ [y]) → ids.getLast? = some t → up t = above ++ ids
  | _, [x], above, .cons hfirst _, hamong, hlast => by
    obtain rfl := Option.some.inj hlast
    exact (hamong x (List.mem_of_find?_eq_some hfirst)).2
  | _, x :: y :: ids, above, .cons hfirst hrest, hamong, hlast => by
    obtain ⟨hok, hup⟩ := hamong x (List.mem_of_find?_eq_some hfirst)
    have hbelow : ∀ z ∈ below x, ok z ∧ up z = (above ++ [x]) ++ [z] := fun z hz =>
      ⟨(hstep x hok z hz).1, hup ▸ (hstep x hok z hz).2⟩
    rw [hrest.eq_trail hstep hbelow hlast, List.append_assoc, List.singleton_append]

end Down

/-! ## Steps down -/

section Steps

variable (hm : model.Linked)

include hm

/-- A child has the `chain` of its parent above it. -/
theorem Linked.chain_child {x : NodeId} (hx : (model.node x).kind.isAugment = false) :
    ∀ y ∈ (model.node x).children,
      (model.node y).kind.isAugment = false ∧ model.chain y = model.chain x ++ [y] := by
  intro y hy
  obtain ⟨hparent, htakes⟩ := hm.below x hx y hy
  refine ⟨(Kind.of_takes htakes).1, ?_⟩
  unfold chain
  rw [hm.ancestors_eq y, hparent, List.reverse_cons]

/-- The nodes that `dataChildren` gives have the `landmarks` of the node above them, from the node
itself on. -/
theorem Linked.landmarks_dataChild {x : NodeId} (hx : (model.node x).kind.isAugment = false) :
    ∀ y ∈ model.dataChildren x, (model.node y).kind.isAugment = false ∧
      model.isLandmark y = true ∧
      model.landmarks y = (x :: model.ancestors x).filter model.isLandmark := by
  -- choices and cases are gone through on the way down, to higher and higher numbers
  induction hn : model.size - x using Nat.strong_induction_on generalizing x with
  | _ n ih =>
    intro y hy
    rw [hm.dataChildren_eq, List.mem_flatMap] at hy
    obtain ⟨c, hc, hy⟩ := hy
    obtain ⟨hparent, htakes⟩ := hm.below x hx c hc
    have hplain := (Kind.of_takes htakes).1
    obtain ⟨hlt, hsize⟩ := hm.children x c hc
    have habove : model.ancestors c = x :: model.ancestors x := by rw [hm.ancestors_eq c, hparent]
    split at hy
    · rename_i htransparent
      obtain ⟨hy, hshown, hdata⟩ := ih (model.size - c)
        (hn ▸ Nat.sub_lt_sub_left (hlt.trans hsize) hlt) hplain rfl y hy
      have hpassed : ¬ model.isLandmark c = true := by simp [isLandmark, hparent, htransparent]
      refine ⟨hy, hshown, ?_⟩
      rw [hdata, List.filter_cons_of_neg hpassed, habove]
    · rename_i htransparent
      obtain rfl := List.mem_singleton.1 hy
      refine ⟨hplain, by simp [isLandmark, htransparent], ?_⟩
      unfold landmarks
      rw [habove]

/-- Below a landmark, the `dataTrail` of a node that data shows is that of the landmark and one node
more. -/
theorem Linked.dataTrail_dataChild {x : NodeId} (hx : (model.node x).kind.isAugment = false)
    (hlandmark : model.isLandmark x = true) :
    ∀ y ∈ model.dataChildren x, ((model.node y).kind.isAugment = false ∧
      model.isLandmark y = true) ∧ model.dataTrail y = model.dataTrail x ++ [y] := by
  intro y hy
  obtain ⟨hplain, hy, hdata⟩ := hm.landmarks_dataChild hx y hy
  refine ⟨⟨hplain, hy⟩, ?_⟩
  unfold dataTrail
  rw [hdata, List.filter_cons_of_pos hlandmark, List.reverse_cons]
  rfl

end Steps

end RestSpec.DataModel
