/-
How paths are followed. Two walks do it: linking goes from a root or a remote call of a module down
by children, and a reference to a leaf goes from a root down by what data shows. Both look at the
module in the first part of a path only and take the first node of each name from there on. So what
a path leads to has the names of the path all the way up, and a node that the path means, by modules
and names, is what it leads to just if its chain starts at a root and no other node of its name
stands before any of the chain.
-/
import RestSpec.LeafType.Convert
import RestSpec.Proofs.DataModel.Chains
import RestSpec.Proofs.DataModel.Dependency
import RestSpec.Proofs.DataModel.Target

namespace RestSpec.DataModel

/-! ## Walks -/

/-- A way to follow paths: the name of the module that a prefix stands for, the roots of a module,
the nodes below a node, the `trail` of nodes that are passed on the way down to a node and the
`chain` of its ancestors, which the parts of a path speak of. -/
structure Walk where
  moduleOf : String → Option String
  roots : Module → List NodeId
  below : NodeId → List NodeId
  trail : NodeId → List NodeId
  chain : NodeId → List NodeId

namespace Walk

variable (w : Walk) (model : DataModel)

/-- The nodes `ids` go down from a root of the module, each below the one before, and each the first
of its name there. -/
def Leading (home : Module) (ids : List NodeId) : Prop :=
  model.Foremost w.below (w.roots home) ids

/-- The `chain` of the node is meant by the parts of a path, by modules and names. -/
def Matches (parts : List (String × String)) (id : NodeId) : Prop :=
  List.Forall₂ (fun part x => w.moduleOf part.1 = some (model.node x).moduleName ∧
    part.2 = (model.node x).name) parts (w.chain id)

instance (home : Module) (ids : List NodeId) : Decidable (w.Leading model home ids) :=
  model.decidableForemost w.below (w.roots home) ids

instance (parts : List (String × String)) (id : NodeId) : Decidable (w.Matches model parts id) :=
  decidable_of_iff (parts.length = (w.chain id).length ∧ ∀ e ∈ parts.zip (w.chain id),
      w.moduleOf e.1.1 = some (model.node e.2).moduleName ∧ e.1.2 = (model.node e.2).name)
    (List.forall₂_iff_zip.trans (and_congr_right fun _ =>
      ⟨fun h _ he => h he, fun h _ _ he => h _ he⟩)).symm

/-- The `trail` of the node has the names of a path and is `Leading` from a root of the module on
that the first part of the path says; and this root belongs to the module. -/
structure Follows (parts : List (String × String)) (home : Module) (id : NodeId) : Prop where
  names : model.namesOf (w.trail id) = parts.map (·.2)
  start : parts.head?.bind (fun part => w.moduleOf part.1) = some home.name
  leading : w.Leading model home (w.trail id)
  home : ∀ x ∈ (w.trail id).head?, (model.node x).moduleName = home.name

/-- A walk is sure of its trails: at the top there is a root of the module, and each step makes the
`trail` one longer. A node is the last of its `chain`, which is the `trail` if it is as long. -/
structure Sound (home : Module) (ok : NodeId → Prop) : Prop where
  roots : ∀ r ∈ w.roots home, ok r ∧ w.trail r = [r]
  below : ∀ x, ok x → ∀ y ∈ w.below x, ok y ∧ w.trail y = w.trail x ++ [y]
  last : ∀ x, (w.chain x).getLast? = some x
  chain : ∀ x, (w.trail x).length = (w.chain x).length → w.trail x = w.chain x

/-- What a path leads to, if anything, `Follows` it and may be its end; and a node that the path
means, as it `Matches`, is what it leads to just if it may be its end and its `chain` is `Leading`. -/
structure Resolves (ends : NodeId → Bool) (parts : List (String × String)) (found : Option NodeId) :
    Prop where
  follows : ∀ t, found = some t → ends t = true ∧ ∃ m ∈ model.modules, w.Follows model parts m t
  meant : ∀ t, w.Matches model parts t →
    (found = some t ↔ ends t = true ∧ ∃ m ∈ model.modules, w.Leading model m (w.chain t))

variable {w model} {home : Module} {parts : List (String × String)} {t : NodeId}

/-- Names that `descend?` takes from a root to a node take it along nodes that are `Leading`. -/
theorem Sound.leading {ok : NodeId → Prop} (h : w.Sound home ok) {root : String} {r : NodeId}
    {names : List String}
    (hroot : (w.roots home).find? (fun id => (model.node id).name == root) = some r)
    (hdown : model.descend? w.below r names = some t) :
    w.Leading model home (w.trail t) ∧ model.namesOf (w.trail t) = root :: names := by
  obtain ⟨rest, hnames, hforemost, hlast⟩ := descend?_eq_some_iff.1 hdown
  obtain ⟨hname, hfirst⟩ := find?_name_iff.1 hroot
  have hall : model.Foremost w.below (w.roots home) (r :: rest) := .cons hfirst hforemost
  have htrail : w.trail t = [] ++ (r :: rest) := hall.eq_trail h.below h.roots hlast
  unfold Leading
  rw [htrail, List.nil_append]
  exact ⟨hall, congrArg₂ List.cons hname hnames⟩

/-- Nodes that are `Leading` are what `find?` and `descend?` find under their names. -/
theorem Leading.found {ids : List NodeId} (h : w.Leading model home ids)
    (hlast : ids.getLast? = some t) :
    ∃ r rest, ids = r :: rest ∧ r ∈ w.roots home ∧
      (w.roots home).find? (fun id => (model.node id).name == (model.node r).name) = some r ∧
      model.descend? w.below r (model.namesOf rest) = some t := by
  cases h with
  | nil => cases hlast
  | @cons _ rest r hfirst hrest =>
    exact ⟨r, rest, rfl, List.mem_of_find?_eq_some hfirst, hfirst,
      descend?_eq_some_iff.2 ⟨rest, rfl, hrest, hlast⟩⟩

theorem Leading.mem_roots {ids : List NodeId} (h : w.Leading model home ids) :
    ∀ x ∈ ids.head?, x ∈ w.roots home := by
  cases h with
  | nil => exact nofun
  | cons hfirst _ => exact fun x hx => Option.some.inj hx ▸ List.mem_of_find?_eq_some hfirst

theorem Matches.names (h : w.Matches model parts t) :
    model.namesOf (w.chain t) = parts.map (·.2) := by
  unfold namesOf
  rw [← List.forall₂_eq_eq_eq, List.forall₂_map_left_iff, List.forall₂_map_right_iff]
  exact h.flip.imp fun _ _ hpart => hpart.2.symm

/-- What a path both leads to and means has a `Leading` chain: its trail is as long as its chain. -/
theorem Follows.leading_chain {ok : NodeId → Prop} (h : w.Follows model parts home t)
    (hsound : w.Sound home ok) (hmatches : w.Matches model parts t) :
    w.Leading model home (w.chain t) := by
  have hnames : model.namesOf (w.trail t) = model.namesOf (w.chain t) :=
    h.names.trans hmatches.names.symm
  have hlength : (w.trail t).length = (w.chain t).length := by
    simpa [namesOf] using congrArg List.length hnames
  exact hsound.chain t hlength ▸ h.leading

end Walk

/-! ## Parts of paths -/

/-- All segments have a prefix, and `parts` lists these prefixes with the local names. -/
def Spells (segments : List String) (parts : List (String × String)) : Prop :=
  List.Forall₂ (fun segment part => Prefixed segment part.1 part.2) segments parts

/-! ## Targets of augments -/

/-- The `Walk` of `resolveTarget`, by which the target of an augment is followed: from the `data`
and `rpcs` roots of a module down through `children`. -/
def targetWalk (sources : List Source.Module) (model : DataModel) : Walk where
  moduleOf before := (prefixModule? sources before).map (·.name)
  roots home := home.data ++ home.rpcs
  below id := (model.node id).children
  trail := model.chain
  chain := model.chain

/-- The parts of a target path between slashes, empty ones left out. -/
def targetSegments (target : String) : List String :=
  (Text.words (· != '/') target.toList).map String.ofList

section Targets

variable {sources : List Source.Module} {model : DataModel} {home target : String}

theorem leads_iff {x t : NodeId} {names : List String} : model.Leads x names t ↔
    model.descend? (fun id => (model.node id).children) x names = some t := by
  induction names generalizing x with
  | nil =>
    constructor
    · rintro ⟨⟩
      rfl
    · intro h
      cases h
      exact .here
  | cons name names ih =>
    unfold descend?
    rw [List.foldlM_cons, Option.bind_eq_bind, Option.bind_eq_some_iff]
    constructor
    · intro h
      cases h with
      | down hchild hleads => exact ⟨_, hchild, ih.1 hleads⟩
    · rintro ⟨c, hchild, h⟩
      exact .down hchild (ih.2 h)

theorem foldlM_of_leads {x t : NodeId} {segments : List String} {keys : List (String × String)}
    (hkeys : List.Forall₂ (fun s k => qualify model.modules s home target = .ok k) segments keys)
    (h : model.Leads x (keys.map (·.2)) t) :
    segments.foldlM (resolveStep model home target) (some x) = .ok (some t) := by
  induction hkeys generalizing x with
  | nil =>
    cases h
    rfl
  | @cons segment key segments keys hkey _ ih =>
    cases h with
    | @down _ c _ _ _ hchild hleads =>
      rw [List.foldlM_cons]
      refine bind_eq_ok.2 ⟨some c, ?_, ih hleads⟩
      unfold resolveStep
      refine bind_eq_ok.2 ⟨key, hkey, ?_⟩
      dsimp only
      rw [hchild]

/-- `resolveTarget` finds the node that the qualified names lead to, if that `isAugmentable`. -/
theorem resolveTarget_of_leads {moduleName root : String} {rest : List (String × String)}
    {m : Module} {r t : NodeId}
    (hkeys : List.Forall₂ (fun s k => qualify model.modules s home target = .ok k)
      (targetSegments target) ((moduleName, root) :: rest))
    (hmodule : model.module? moduleName = some m)
    (hroot : (m.data ++ m.rpcs).find? (fun id => (model.node id).name == root) = some r)
    (hleads : model.Leads r (rest.map (·.2)) t)
    (hkind : isAugmentable (model.node t).kind = true) :
    resolveTarget model home target = .ok t := by
  unfold resolveTarget
  refine bind_eq_ok.2 ⟨some t, ?_, by simp [hkind]⟩
  show (targetSegments target).foldlM _ _ = _
  generalize targetSegments target = segments at hkeys
  cases hkeys with
  | @cons segment _ segments _ hkey hkeys =>
    rw [List.foldlM_cons]
    refine bind_eq_ok.2 ⟨some r, ?_, foldlM_of_leads hkeys hleads⟩
    unfold resolveStep
    refine bind_eq_ok.2 ⟨_, hkey, ?_⟩
    dsimp only
    rw [hmodule, Option.bind_some, hroot]

end Targets

/-! ## Models that paths are followed in -/

/-- A model on the way of `link` or at its end: it is `Linked`, its modules go by the names and
prefixes of the `sources`, and their roots have their names and stand at the top. -/
structure Stage (sources : List Source.Module) (model : DataModel) : Prop where
  linked : model.Linked
  names : model.moduleNames.Nodup
  heads : model.heads = (sources.map emptyModule).map fun m => m.outline.head
  parentless : ∀ m ∈ model.modules, ∀ r ∈ m.data ++ m.rpcs, (model.node r).parent = none
  plain : ∀ m ∈ model.modules, ∀ r ∈ m.data ++ m.rpcs, (model.node r).kind.isAugment = false
  home : ∀ m ∈ model.modules, ∀ r ∈ m.data ++ m.rpcs, (model.node r).moduleName = m.name

section Stage

variable {sources : List Source.Module} {model : DataModel} (h : Stage sources model)

include h

theorem Stage.ancestors_root {m : Module} (hm : m ∈ model.modules) {r : NodeId}
    (hr : r ∈ m.data ++ m.rpcs) : model.ancestors r = [] := by
  rw [h.linked.ancestors_eq, h.parentless m hm r hr]

theorem Stage.eq_of_name {m m' : Module} (hm : m ∈ model.modules) (hm' : m' ∈ model.modules)
    (hname : m.name = m'.name) : m = m' :=
  List.inj_on_of_nodup_map h.names hm hm' hname

theorem Stage.module?_name {m : Module} (hm : m ∈ model.modules) :
    model.module? m.name = some m := by
  cases hfind : model.module? m.name with
  | none => simpa using List.find?_eq_none.1 hfind m hm
  | some m' =>
    have hname : m'.name = m.name := by simpa using List.find?_some hfind
    rw [h.eq_of_name (List.mem_of_find?_eq_some hfind) hm hname]

/-- `qualify` takes a segment with a prefix to the name of its `prefixModule?` and its local
name. -/
theorem Stage.qualify_eq_ok {segment before localName home target : String}
    {key : String × String} (hsegment : Prefixed segment before localName) :
    qualify model.modules segment home target = .ok key ↔
      (prefixModule? sources before).map (·.name) = some key.1 ∧ localName = key.2 := by
  rw [qualify_of_heads h.heads, qualify_of_prefixed hsegment]
  cases prefixModule? sources before with
  | none => simp
  | some m => simp [Prod.ext_iff]

/-- The segments of a path are qualified one by one, so `Stage.qualify_eq_ok` tells of all of
them. -/
theorem Stage.forall₂_qualify {home target : String} {segments : List String}
    {parts keys : List (String × String)} (hspells : Spells segments parts) :
    List.Forall₂ (fun s k => qualify model.modules s home target = .ok k)
        segments keys ↔
      List.Forall₂ (fun part key => (prefixModule? sources part.1).map (·.name) = some key.1 ∧
        part.2 = key.2) parts keys := by
  induction hspells generalizing keys with
  | nil => rw [List.forall₂_nil_left_iff, List.forall₂_nil_left_iff]
  | cons hs _ ih =>
    rw [List.forall₂_cons_left_iff, List.forall₂_cons_left_iff]
    simp only [h.qualify_eq_ok hs, ih]

theorem Stage.targetWalk_sound {m : Module} (hm : m ∈ model.modules) :
    (targetWalk sources model).Sound m fun x => (model.node x).kind.isAugment = false where
  roots r hr := by
    refine ⟨h.plain m hm r hr, ?_⟩
    show model.chain r = [r]
    unfold chain
    rw [h.ancestors_root hm hr]
    rfl
  below _ hx := h.linked.chain_child hx
  last _ := List.getLast?_concat
  chain _ _ := rfl

/-- A node that `resolveTarget` leads to `Follows` the target: its names from a root of the module
on are those of the segments. -/
theorem Stage.follows_target {home target : String} {parts : List (String × String)}
    (hspells : Spells (targetSegments target) parts) {t : NodeId}
    (ht : resolveTarget model home target = .ok t) :
    ∃ m ∈ model.modules, (targetWalk sources model).Follows model parts m t := by
  obtain ⟨moduleName, root, rest, m, r, hpath, hmodule, hroot, hleads⟩ := resolveTarget_leads ht
  have hm : m ∈ model.modules := List.mem_of_find?_eq_some hmodule
  have hname : m.name = moduleName := by simpa using List.find?_some hmodule
  have hkeys := (h.forall₂_qualify hspells).1 (mapM_eq_ok_iff.1 hpath)
  obtain ⟨hleading, hnames⟩ := (h.targetWalk_sound hm).leading hroot (leads_iff.1 hleads)
  have hparts : parts.map (·.2) = root :: rest.map (·.2) := by
    show _ = ((moduleName, root) :: rest).map (·.2)
    rw [← List.forall₂_eq_eq_eq, List.forall₂_map_left_iff, List.forall₂_map_right_iff]
    exact hkeys.imp fun _ _ hkey => hkey.2
  refine ⟨m, hm, hnames.trans hparts.symm, ?_, hleading, fun x hx => ?_⟩
  · cases hkeys with
    | cons hkey _ => exact hname ▸ hkey.1
  · exact h.home m hm x (hleading.mem_roots x hx)

/-- `resolveTarget` leads to the node `t` that a target `Matches`, if every node down to `t` is
`Leading`, the first of its name. -/
theorem Stage.target_of_matches {home target : String} {parts : List (String × String)}
    (hspells : Spells (targetSegments target) parts) {m : Module} (hm : m ∈ model.modules)
    {t : NodeId}
    (hleading : (targetWalk sources model).Leading model m ((targetWalk sources model).chain t))
    (hmatches : (targetWalk sources model).Matches model parts t)
    (hkind : isAugmentable (model.node t).kind = true) :
    resolveTarget model home target = .ok t := by
  have hlast := (h.targetWalk_sound hm).last t
  let keyOf (x : NodeId) : String × String := ((model.node x).moduleName, (model.node x).name)
  have hkeys : List.Forall₂ (fun s k => qualify model.modules s home target = .ok k)
      (targetSegments target) (((targetWalk sources model).chain t).map keyOf) :=
    (h.forall₂_qualify hspells).2 (List.forall₂_map_right_iff.2 hmatches)
  obtain ⟨r, rest, hchain, hr, hroot, hdown⟩ := hleading.found hlast
  have hmodule : (model.node r).moduleName = m.name := h.home m hm r hr
  rw [hchain, List.map_cons] at hkeys
  refine resolveTarget_of_leads hkeys (hmodule ▸ h.module?_name hm) hroot (leads_iff.2 ?_) hkind
  rw [List.map_map]
  exact hdown

theorem Stage.resolves_target (home : String) {target : String} {parts : List (String × String)}
    (hspells : Spells (targetSegments target) parts) :
    (targetWalk sources model).Resolves model (fun t => isAugmentable (model.node t).kind) parts
      (resolveTarget model home target).toOption where
  follows _ ht := by
    have ht := eq_ok_of_toOption ht
    exact ⟨(foldlM_of_resolveTarget ht).2, h.follows_target hspells ht⟩
  meant t hmatches := by
    constructor
    · intro ht
      have ht := eq_ok_of_toOption ht
      obtain ⟨m, hm, hfollows⟩ := h.follows_target hspells ht
      exact ⟨(foldlM_of_resolveTarget ht).2, m, hm,
        hfollows.leading_chain (h.targetWalk_sound hm) hmatches⟩
    · rintro ⟨hkind, m, hm, hleading⟩
      rw [h.target_of_matches hspells hm hleading hmatches hkind]
      rfl

end Stage

/-! ## References to leaves -/

/-- The `Walk` of `followPath?`, by which the path of a leafref is followed: from the `data` roots
of a module down through `dataChildren`. -/
def leafWalk (model : DataModel) : Walk where
  moduleOf before := (model.moduleCalled? before).map (·.name)
  roots home := home.data
  below := model.dataChildren
  trail := model.dataTrail
  chain := model.dataChain

/-- The segments of a path that starts with a slash, after `dropConditions`. -/
def absoluteSegments? (path : String) : Option (List String) :=
  let plain := dropConditions false path.toList
  if plain.head? == some '/' then some (pathSegments plain) else none

section Leaves

variable {sources : List Source.Module} {model : DataModel} {home path : String} {start : NodeId}

theorem pathStep_of_prefixed {segment before localName : String}
    (h : Prefixed segment before localName) (id : NodeId) :
    model.pathStep id segment = model.dataChildNamed? id localName := by
  unfold pathStep
  rw [if_neg, h.splitFirst]
  · rfl
  · rintro rfl
    exact absurd h.mem (by decide)

theorem foldlM_pathStep {segments : List String} {parts : List (String × String)}
    (hspells : Spells segments parts) (id : NodeId) :
    segments.foldlM model.pathStep id = model.descend? model.dataChildren id (parts.map (·.2)) := by
  unfold descend?
  induction hspells generalizing id with
  | nil => rfl
  | cons hs _ ih =>
    rw [List.foldlM_cons, List.map_cons, List.foldlM_cons, pathStep_of_prefixed hs]
    exact bind_congr fun c => ih c

theorem pathRoot?_of_prefixed {segment before localName : String}
    (h : Prefixed segment before localName) : model.pathRoot? home segment =
      (model.moduleCalled? before).bind fun m =>
        m.data.find? fun id => (model.node id).name == localName := by
  unfold pathRoot?
  rw [h.splitFirst]
  cases hcalled : model.moduleCalled? before with
  | none => simp [hcalled]
  | some m => simp [hcalled]

theorem followPath?_of_absolute {segments : List String}
    (habs : absoluteSegments? path = some segments) (home : String) (start : NodeId) :
    model.followPath? path home start = segments.head?.bind fun first =>
      (model.pathRoot? home first).bind fun r => segments.tail.foldlM model.pathStep r := by
  unfold absoluteSegments? at habs
  dsimp only at habs
  split at habs
  · rename_i hslash
    cases habs
    unfold followPath?
    dsimp only
    rw [hslash]
    cases pathSegments (dropConditions false path.toList) with
    | nil => rfl
    | cons first rest => rfl
  · cases habs

/-- `followPath?` takes a path from the root down: the module is `moduleCalled?` by the first
prefix, and each segment is looked up with `dataChildNamed?`. -/
theorem followPath?_eq_some_iff {segments : List String} {parts : List (String × String)}
    (habs : absoluteSegments? path = some segments) (hspells : Spells segments parts) {t : NodeId} :
    model.followPath? path home start = some t ↔ ∃ before root rest m r,
      parts = (before, root) :: rest ∧ model.moduleCalled? before = some m ∧
      m.data.find? (fun id => (model.node id).name == root) = some r ∧
      model.descend? model.dataChildren r (rest.map (·.2)) = some t := by
  rw [followPath?_of_absolute habs]
  cases hspells with
  | nil => simp
  | @cons first part segments rest hfirst hspells =>
    obtain ⟨before, root⟩ := part
    rw [List.head?_cons, List.tail_cons, Option.bind_some, pathRoot?_of_prefixed hfirst]
    simp only [Option.bind_eq_some_iff, foldlM_pathStep hspells]
    constructor
    · rintro ⟨r, ⟨m, hm, hr⟩, ht⟩
      exact ⟨before, root, rest, m, r, rfl, hm, hr, ht⟩
    · rintro ⟨_, _, _, m, r, heq, hm, hr, ht⟩
      cases heq
      exact ⟨r, ⟨m, hm, hr⟩, ht⟩

theorem mem_modules_of_moduleCalled? {before : String} {m : Module}
    (h : model.moduleCalled? before = some m) : m ∈ model.modules := mem_of_find?_orElse h

variable (h : Stage sources model)

include h

theorem Stage.leafWalk_sound {m : Module} (hm : m ∈ model.modules) :
    (leafWalk model).Sound m fun x => (model.node x).kind.isAugment = false ∧
      model.isLandmark x = true where
  roots r hr := by
    have hroot : r ∈ m.data ++ m.rpcs := List.mem_append_left _ hr
    refine ⟨⟨h.plain m hm r hroot, by simp [isLandmark, h.parentless m hm r hroot]⟩, ?_⟩
    show model.dataTrail r = [r]
    unfold dataTrail landmarks
    rw [h.ancestors_root hm hroot]
    rfl
  below _ hx := h.linked.dataTrail_dataChild hx.1 hx.2
  last _ := List.getLast?_concat
  chain _ := dataTrail_eq_dataChain

/-- A node that `followPath?` leads to `Follows` the path: its names from a root of the module on
are those of the segments. -/
theorem Stage.follows_path {segments : List String} {parts : List (String × String)}
    (habs : absoluteSegments? path = some segments) (hspells : Spells segments parts) {t : NodeId}
    (ht : model.followPath? path home start = some t) :
    ∃ m ∈ model.modules, (leafWalk model).Follows model parts m t := by
  obtain ⟨before, root, rest, m, r, rfl, hcalled, hroot, hdown⟩ :=
    (followPath?_eq_some_iff habs hspells).1 ht
  have hm := mem_modules_of_moduleCalled? hcalled
  obtain ⟨hleading, hnames⟩ := (h.leafWalk_sound hm).leading hroot hdown
  refine ⟨m, hm, hnames, ?_, hleading, fun x hx => ?_⟩
  · show (model.moduleCalled? before).map (·.name) = _
    rw [hcalled]
    rfl
  · exact h.home m hm x (List.mem_append_left _ (hleading.mem_roots x hx))

/-- `followPath?` leads to the node `t` that a path `Matches`, if every node down to `t` is
`Leading`, the first of its name. -/
theorem Stage.path_of_matches {segments : List String} {parts : List (String × String)}
    (habs : absoluteSegments? path = some segments) (hspells : Spells segments parts) {m : Module}
    (hm : m ∈ model.modules) {t : NodeId}
    (hleading : (leafWalk model).Leading model m ((leafWalk model).chain t))
    (hmatches : (leafWalk model).Matches model parts t) :
    model.followPath? path home start = some t := by
  have hlast := (h.leafWalk_sound hm).last t
  obtain ⟨r, rest, hchain, hr, hroot, hdown⟩ := hleading.found hlast
  have hmodule := h.home m hm r (List.mem_append_left _ hr)
  have hnames := hmatches.names
  unfold Walk.Matches at hmatches
  rw [hchain] at hmatches hnames
  cases hmatches with
  | @cons part _ parts _ hpart _ =>
    obtain ⟨called, hcalled, hname⟩ := Option.map_eq_some_iff.1 hpart.1
    obtain rfl := h.eq_of_name (mem_modules_of_moduleCalled? hcalled) hm (hname.trans hmodule)
    obtain ⟨-, hrest⟩ := List.cons.inj hnames
    exact (followPath?_eq_some_iff habs hspells).2
      ⟨part.1, part.2, parts, called, r, rfl, hcalled, hpart.2 ▸ hroot, hrest ▸ hdown⟩

theorem Stage.resolves_path {segments : List String} {parts : List (String × String)}
    (habs : absoluteSegments? path = some segments) (hspells : Spells segments parts)
    (home : String) (start : NodeId) :
    (leafWalk model).Resolves model (fun _ => true) parts (model.followPath? path home start) where
  follows _ ht := ⟨rfl, h.follows_path habs hspells ht⟩
  meant t hmatches := by
    constructor
    · intro ht
      obtain ⟨m, hm, hfollows⟩ := h.follows_path habs hspells ht
      exact ⟨rfl, m, hm, hfollows.leading_chain (h.leafWalk_sound hm) hmatches⟩
    · rintro ⟨-, m, hm, hleading⟩
      exact h.path_of_matches habs hspells hm hleading hmatches

end Leaves

end RestSpec.DataModel
