/-
What modules mean, read off the way they are written. A body stands for the nodes that it declares,
in order, followed by the children of every grouping that it uses, in order; a name in the body of
a grouping is looked up from the module of the grouping, while all nodes belong to the module in
whose tree they are placed. An augment adds the nodes that it stands for to the node that its path
leads to in the forest as it then is.
-/
import RestSpec.Proofs.DataModel.Shape

namespace RestSpec.DataModel

/-! ## Bodies -/

/-- The `Label` of a declared node as part of a module. -/
def statementLabel (placed : String) (s : Source.Statement) : Label where
  kind := linkedKind s.kind
  name := s.name
  moduleName := placed
  configStatement := s.config
  description := s.description
  reference := s.reference

/-- A body, written in the module `home`, stands for shapes in a tree of the module `placed`. -/
inductive Expands (sources : List Source.Module) (placed : String) :
    String → Source.Body → List Shape → Prop
  | nil {home : String} : Expands sources placed home ⟨[], []⟩ []
  | child {home : String} {s : Source.Statement} {rest : List Source.Statement}
      {uses : List String} {below shapes : List Shape} :
      Expands sources placed home ⟨s.children, s.uses⟩ below →
      Expands sources placed home ⟨rest, uses⟩ shapes →
      Expands sources placed home ⟨s :: rest, uses⟩
        (.node (statementLabel placed s) below :: shapes)
  | use {home name location : String} {uses : List String} {key : String × String}
      {g : Source.Grouping} {block shapes : List Shape} :
      qualify (sources.map emptyModule) name home location = .ok key →
      declaration? sources ⟨key.1, key.2⟩ = some g →
      Expands sources placed key.1 g.body block →
      Expands sources placed home ⟨[], uses⟩ shapes →
      Expands sources placed home ⟨[], name :: uses⟩ (block ++ shapes)

/-- Where a name stands matters to what is said of a wrong name only. -/
theorem qualify_ok {modules : List Module} {name home location location' : String}
    {key : String × String} (h : qualify modules name home location = .ok key) :
    qualify modules name home location' = .ok key := by
  unfold qualify at h ⊢
  split
  · rename_i hsplit
    rw [hsplit] at h
    exact h
  · rename_i before localName hsplit
    rw [hsplit] at h
    dsimp only at h ⊢
    split at h
    · exact h
    · cases h

section Expands

variable {sources : List Source.Module} {placed home : String}

/-- In what a body `Expands` to, declared nodes come first, and each use adds its block at the
end. -/
theorem Expands.append {body : Source.Body} {shapes : List Shape}
    (h : Expands sources placed home body shapes) {uses : List String} {more : List Shape}
    (h' : Expands sources placed home ⟨[], uses⟩ more) :
    Expands sources placed home ⟨body.children, body.uses ++ uses⟩ (shapes ++ more) := by
  induction h with
  | nil => exact h'
  | child hbelow _ _ ih => exact .child hbelow (ih h')
  | use hname hdecl hblock _ _ ih =>
    rw [List.append_assoc]
    exact .use hname hdecl hblock (ih h')

/-- A body that is placed in another module stands for the same shapes put `within` that. -/
theorem Expands.within {body : Source.Body} {shapes : List Shape}
    (h : Expands sources placed home body shapes) (placed' : String) :
    Expands sources placed' home body (Shape.allWithin placed' shapes) := by
  induction h with
  | nil => exact .nil
  | child _ _ ihbelow ih => exact .child ihbelow ih
  | use hname hdecl _ _ ihblock ih =>
    rw [Shape.allWithin_append]
    exact .use hname hdecl ihblock ih

theorem Expands.unique {body : Source.Body} {shapes : List Shape}
    (h : Expands sources placed home body shapes) :
    ∀ {shapes' : List Shape}, Expands sources placed home body shapes' → shapes = shapes' := by
  induction h with
  | nil =>
    intro shapes' h'
    cases h'
    rfl
  | child _ _ ihbelow ih =>
    intro shapes' h'
    cases h' with
    | child hbelow' h' => rw [ihbelow hbelow', ih h']
  | use hname hdecl _ _ ihblock ih =>
    intro shapes' h'
    cases h' with
    | use hname' hdecl' hblock' h' =>
      obtain rfl := Except.ok.inj ((qualify_ok hname).symm.trans hname')
      obtain rfl := Option.some.inj (hdecl.symm.trans hdecl')
      rw [ihblock hblock', ih h']

end Expands

/-! ## Roots -/

/-- What goes into a remote call or comes out of it stands for a node, if anything is declared. -/
inductive ExpandsMessage (sources : List Source.Module) (home : String) (kind : Kind) :
    Option Source.Body → List Shape → Prop
  | none : ExpandsMessage sources home kind none []
  | some {body : Source.Body} {below : List Shape} : Expands sources home home body below →
      ExpandsMessage sources home kind (some body)
        [.node ⟨kind, kind.keyword, home, .none, .none, .none⟩ below]

/-- A remote call stands for a node with its messages. -/
inductive ExpandsRpc (sources : List Source.Module) (home : String) (rpc : Source.Rpc) :
    Shape → Prop
  | node {input output : List Shape} : ExpandsMessage sources home .input rpc.input input →
      ExpandsMessage sources home .output rpc.output output →
      ExpandsRpc sources home rpc
        (.node ⟨.rpc, rpc.name, home, none, rpc.description, rpc.reference⟩ (input ++ output))

/-- A module stands for its `ModuleTrees`: the shapes of its data and of its remote calls. -/
structure ExpandsModule (sources : List Source.Module) (m : Source.Module) (trees : ModuleTrees) :
    Prop where
  name : trees.name = m.name
  data : Expands sources m.name m.name ⟨m.data, []⟩ trees.data
  rpcs : List.Forall₂ (ExpandsRpc sources m.name) m.rpcs trees.rpcs

section Roots

variable {sources : List Source.Module}

theorem ExpandsMessage.unique {home : String} {kind : Kind} {body : Option Source.Body}
    {ss ss' : List Shape} (h : ExpandsMessage sources home kind body ss)
    (h' : ExpandsMessage sources home kind body ss') : ss = ss' := by
  cases h with
  | none => cases h'; rfl
  | some h =>
    cases h' with
    | some h' => rw [h.unique h']

theorem ExpandsRpc.unique {home : String} {rpc : Source.Rpc} {s s' : Shape}
    (h : ExpandsRpc sources home rpc s) (h' : ExpandsRpc sources home rpc s') : s = s' := by
  obtain ⟨hin, hout⟩ := h
  obtain ⟨hin', hout'⟩ := h'
  rw [hin.unique hin', hout.unique hout']

theorem ExpandsModule.unique {m : Source.Module} {t t' : ModuleTrees}
    (h : ExpandsModule sources m t) (h' : ExpandsModule sources m t') : t = t' := by
  obtain ⟨name, data, rpcs⟩ := t
  obtain ⟨name', data', rpcs'⟩ := t'
  obtain ⟨hname, hdata, hrpcs⟩ := h
  obtain ⟨hname', hdata', hrpcs'⟩ := h'
  have hr : rpcs = rpcs' :=
    List.forall₂_eq_eq_eq ▸ forall₂_trans (fun _ _ _ _ _ _ h h' => h.unique h') hrpcs.flip hrpcs'
  simp only at hname hname' hdata hdata'
  rw [hname, hname', hdata.unique hdata', hr]

end Roots

/-! ## Augments -/

/-- Changes the first element of a name, as a look-up by `find?` would take it. -/
def onFirst {α : Type} (nameOf : α → String) (name : String) (change : α → α) (l : List α) :
    List α :=
  l.replaceF fun a => if nameOf a == name then some (change a) else none

theorem onFirst_here {α : Type} {nameOf : α → String} {name : String} {a : α}
    (h : nameOf a = name) (change : α → α) (l : List α) :
    onFirst nameOf name change (a :: l) = change a :: l :=
  List.replaceF_cons_of_some _ (if_pos (beq_iff_eq.2 h))

theorem onFirst_later {α : Type} {nameOf : α → String} {name : String} {a : α}
    (h : nameOf a ≠ name) (change : α → α) (l : List α) :
    onFirst nameOf name change (a :: l) = a :: onFirst nameOf name change l :=
  List.replaceF_cons_of_none _ (if_neg fun heq => h (beq_iff_eq.1 heq))

/-- What `change` leaves alone `onFirst` leaves alone. -/
theorem map_onFirst {α β : Type} {nameOf : α → String} {name : String} {change : α → α} {g : α → β}
    (h : ∀ a, g (change a) = g a) : ∀ l : List α, (onFirst nameOf name change l).map g = l.map g
  | [] => rfl
  | a :: l => by
    by_cases ha : nameOf a = name
    · rw [onFirst_here ha, List.map_cons, h, List.map_cons]
    · rw [onFirst_later ha, List.map_cons, map_onFirst h l, List.map_cons]

/-- Adds shapes as the last children of the node that names lead to. -/
def Shape.graft (added : List Shape) : List String → Shape → Shape
  | [], .node label children => .node label (children ++ added)
  | name :: rest, .node label children =>
    .node label (onFirst Shape.name name (Shape.graft added rest) children)

theorem Shape.label_graft (added : List Shape) (names : List String) (s : Shape) :
    (s.graft added names).label = s.label := by
  cases names <;> cases s <;> rfl

/-- Adds shapes below the root that a name leads to, looking among the data first. -/
def ModuleTrees.graft (added : List Shape) (root : String) (names : List String)
    (trees : ModuleTrees) : ModuleTrees :=
  if trees.data.any (·.name == root) then
    { trees with data := onFirst Shape.name root (Shape.graft added names) trees.data }
  else { trees with rpcs := onFirst Shape.name root (Shape.graft added names) trees.rpcs }

/-- The qualified names that a target path goes through. -/
def targetPath (modules : List Module) (home target : String) :
    Except SchemaError (List (String × String)) :=
  ((Text.words (· != '/') target.toList).map String.ofList).mapM fun segment =>
    qualify modules segment home target

/-- Adds shapes where a path leads: it names a module with a root of it, then local names for
`Shape.graft`. -/
def graftForest (added : List Shape) (path : List (String × String)) (forest : List ModuleTrees) :
    List ModuleTrees :=
  match path with
  | [] => forest
  | (moduleName, root) :: rest =>
    onFirst ModuleTrees.name moduleName (ModuleTrees.graft added root (rest.map (·.2))) forest

/-- Augments, each with the module that it is written in, are applied one after the other, as
`graftForest` does. -/
inductive Grafts (sources : List Source.Module) :
    List (String × Source.Augment) → List ModuleTrees → List ModuleTrees → Prop
  | nil {forest : List ModuleTrees} : Grafts sources [] forest forest
  | cons {home : String} {augment : Source.Augment} {rest : List (String × Source.Augment)}
      {path : List (String × String)} {added : List Shape} {forest forest' : List ModuleTrees} :
      targetPath (sources.map emptyModule) home augment.target = .ok path →
      Expands sources home home augment.body added →
      Grafts sources rest (graftForest added path forest) forest' →
      Grafts sources ((home, augment) :: rest) forest forest'

/-- All augments, in the order of modules and of declaration. -/
def placedAugments (sources : List Source.Module) : List (String × Source.Augment) :=
  sources.flatMap fun m => m.augments.map fun a => (m.name, a)

/-- The forest that modules stand for: every module is expanded by `ExpandsModule`, then the
`placedAugments` are applied. -/
def Substituted (sources : List Source.Module) (forest : List ModuleTrees) : Prop :=
  ∃ start, List.Forall₂ (ExpandsModule sources) sources start ∧
    Grafts sources (placedAugments sources) start forest

section Augments

variable {sources : List Source.Module}

theorem Grafts.unique {augments : List (String × Source.Augment)}
    {forest result : List ModuleTrees} (h : Grafts sources augments forest result) :
    ∀ {result' : List ModuleTrees}, Grafts sources augments forest result' → result = result' := by
  induction h with
  | nil =>
    intro result' h'
    cases h'
    rfl
  | cons hpath hadded _ ih =>
    intro result' h'
    cases h' with
    | cons hpath' hadded' h' =>
      obtain rfl := Except.ok.inj (hpath.symm.trans hpath')
      obtain rfl := hadded.unique hadded'
      exact ih h'

/-- The name of a module and the labels of its remote calls. -/
def ModuleTrees.calls (trees : ModuleTrees) : String × List Label :=
  (trees.name, trees.rpcs.map Shape.label)

theorem ModuleTrees.calls_graft (added : List Shape) (root : String) (names : List String)
    (trees : ModuleTrees) : (trees.graft added root names).calls = trees.calls := by
  unfold graft calls
  split
  · rfl
  · rw [map_onFirst (Shape.label_graft added names)]

/-- Augments change what lies below a remote call and leave its `Label` as it is. -/
theorem Grafts.calls {augments : List (String × Source.Augment)} {forest result : List ModuleTrees}
    (h : Grafts sources augments forest result) :
    result.map ModuleTrees.calls = forest.map ModuleTrees.calls := by
  induction h with
  | nil => rfl
  | @cons home augment rest path added forest result _ _ _ ih =>
    rw [ih]
    cases path with
    | nil => rfl
    | cons step path => exact map_onFirst (ModuleTrees.calls_graft added _ _) forest

/-- The remote calls of a module belong to it. -/
theorem Substituted.calls {forest : List ModuleTrees} (h : Substituted sources forest) :
    ∀ trees ∈ forest, ∀ s ∈ trees.rpcs, s.label.moduleName = trees.name := by
  obtain ⟨start, hstart, hgrafts⟩ := h
  intro trees htrees s hs
  have hmem : trees.calls ∈ start.map ModuleTrees.calls :=
    hgrafts.calls ▸ List.mem_map_of_mem htrees
  obtain ⟨trees', htrees', hcalls⟩ := List.mem_map.1 hmem
  obtain ⟨hname, hlabels⟩ := Prod.mk.inj hcalls
  have hlabel : s.label ∈ trees'.rpcs.map Shape.label := hlabels ▸ List.mem_map_of_mem hs
  obtain ⟨s', hs', hsame⟩ := List.mem_map.1 hlabel
  obtain ⟨m, -, hexpands⟩ := forall₂_mem_left hstart.flip trees' htrees'
  obtain ⟨rpc, -, hrpc⟩ := forall₂_mem_left hexpands.rpcs.flip s' hs'
  rw [← hname, ← hsame, hexpands.name]
  cases hrpc
  rfl

/-- Modules stand for one forest only: two that are `Substituted` for them are equal. -/
theorem Substituted.unique {forest forest' : List ModuleTrees}
    (h : Substituted sources forest) (h' : Substituted sources forest') : forest = forest' := by
  obtain ⟨start, hstart, hgrafts⟩ := h
  obtain ⟨start', hstart', hgrafts'⟩ := h'
  obtain rfl : start = start' := List.forall₂_eq_eq_eq ▸
    forall₂_trans (fun _ _ _ _ _ _ h h' => h.unique h') hstart.flip hstart'
  exact hgrafts.unique hgrafts'

end Augments

end RestSpec.DataModel
