/-
Linking: from modules as they are written to one data model. Every grouping becomes a tree of its
own, once, when it is first needed; a `uses` copies the children of its grouping to the place of
use; augments are applied last, to the model as it then is. A name used while the grouping of that
name is still being built closes a cycle, which is refused.

Building below a grouping is by recursion on the statements. Building one grouping inside another
ends because each grouping under way is declared and is under way once.
-/
import RestSpec.DataModel.Summary
import RestSpec.Error
import RestSpec.Text.Words

namespace RestSpec.DataModel

/-- A grouping by its module and its name. -/
structure GroupingName where
  moduleName : String
  name : String
  deriving DecidableEq, Repr

/-- A grouping as messages name it: its module, a colon and its own name. -/
def GroupingName.text (g : GroupingName) : String := g.moduleName ++ ":" ++ g.name

/-- A model under construction, with the groupings that have been `built` by their names. -/
structure Draft where
  model : DataModel
  built : List (GroupingName × NodeId) := []

namespace Draft

/-! ## Steps on a draft -/

/-- The node of a number in the model that is being made. -/
def node (d : Draft) (id : NodeId) : Node := d.model.node id

/-- Adds a node at the end of the table and sets its number as its `id`. It is `config` if its
parent is and it does not say otherwise, and it has the revision of its module. -/
def add (d : Draft) (n : Node) : Draft × NodeId :=
  let inherited := (n.parent.map fun p => (d.node p).config).getD true
  let n := { n with
    id := d.model.size
    config := inherited && n.configStatement.getD true
    revision := (d.model.module? n.moduleName).bind (·.revision) }
  ({ d with model := { d.model with nodes := d.model.nodes.push n } }, d.model.size)

/-- Rewrites one node of the model; a number that is not taken changes nothing, as with
`Array.modify`. -/
def update (d : Draft) (id : NodeId) (f : Node → Node) : Draft :=
  { d with model := { d.model with nodes := d.model.nodes.modify id f } }

/-- Makes a node the last of the `children` of another one. -/
def appendChild (d : Draft) (parent child : NodeId) : Draft :=
  d.update parent fun n => { n with children := n.children ++ [child] }

/-- Rewrites all modules of the given name, of which there is one in what `link` accepts. -/
def updateModule (d : Draft) (name : String) (f : Module → Module) : Draft :=
  let modules := d.model.modules.map fun m => if m.name == name then f m else m
  { d with model := { d.model with modules := modules } }

end Draft

/-! ## Names -/

/-- The text before and after the first occurrence of a character. -/
def splitFirst (mark : Char) (s : String) : Option (String × String) :=
  let before := s.toList.takeWhile (· != mark)
  match s.toList.drop before.length with
  | [] => none
  | _ :: after => some (String.ofList before, String.ofList after)

/-- The module and the local part of a name. A part before a colon is the prefix or the name of a
module, whichever fits a module first, and it is an `unknownPrefix` if none does; without one the
name belongs to `home`. -/
def qualify (modules : List Module) (name home location : String) :
    Except SchemaError (String × String) :=
  match splitFirst ':' name with
  | none => .ok (home, name)
  | some (before, localName) =>
    match modules.find? fun m => m.modulePrefix == before || m.name == before with
    | some m => .ok (m.name, localName)
    | none => .error (.unknownPrefix before location)

/-! ## Copies -/

/-- A draft in the middle of copying, with the `copies` made so far by what they are copies of. -/
structure Copying where
  draft : Draft
  copies : List (NodeId × NodeId) := []

mutual

/-- Copies a tree below a parent. The copy is `copiedFrom` its source, belongs to the module
`moduleName` and is `introducedBy` the given node. -/
def copyTree (moduleName : String) (parent : NodeId) (introducer : Option NodeId) (c : Copying) :
    Tree → Copying × NodeId
  | .node source children =>
    let s := c.draft.node source
    let (draft, id) := c.draft.add {
      kind := s.kind
      moduleName := moduleName
      name := s.name
      parent := some parent
      configStatement := s.configStatement
      description := s.description
      reference := s.reference
      uses := s.uses
      introducedBy := introducer
      copiedFrom := some source
      viaGrouping := s.viaGrouping
      augmentedBy := s.augmentedBy }
    (copyBelow moduleName id { draft := draft, copies := (source, id) :: c.copies } children, id)

/-- Copies trees below a copy with `copyTree`. Each is brought in by the copy of what brought it in
before. -/
def copyBelow (moduleName : String) (parent : NodeId) (c : Copying) : List Tree → Copying
  | [] => c
  | t :: ts =>
    let introducer := (c.draft.node t.id).introducedBy.bind fun i => c.copies.lookup i
    let (c, id) := copyTree moduleName parent introducer c t
    copyBelow moduleName parent { c with draft := c.draft.appendChild parent id } ts

end

/-- Copies the children of a grouping below the node `target`, which are its children from then on;
each is brought in by `introducer`, through that grouping. -/
def copyGrouping (moduleName : String) (target introducer grouping : NodeId) (d : Draft) : Draft :=
  let step (c : Copying) (t : Tree) : Copying :=
    let (c, id) := copyTree moduleName target (some introducer) c t
    let draft := c.draft.update id fun n => { n with viaGrouping := some grouping }
    { c with draft := draft.appendChild target id }
  ((d.model.tree grouping).children.foldl step { draft := d }).draft

/-! ## Statements -/

/-- How the tree of a grouping is obtained, for a use at a location: `provideGrouping`, or what
stands for it inside another grouping. -/
abbrev Provide := GroupingName → String → Draft → Except SchemaError (Draft × NodeId)

/-- Puts the children of a grouping below `target`, for the sake of `introducer`. -/
def applyUse (provide : Provide) (moduleName : String) (target introducer : NodeId) (d : Draft)
    (name : String) : Except SchemaError Draft := do
  let location := d.model.schemaPath target
  let (groupingModule, groupingName) ← qualify d.model.modules name moduleName location
  let (d, grouping) ← provide ⟨groupingModule, groupingName⟩ location d
  let d := d.update introducer fun n => { n with uses := n.uses ++ [grouping] }
  return copyGrouping moduleName target introducer grouping d

/-- The kind of the node that a statement becomes. -/
def linkedKind : Source.Kind → Kind
  | .container presence => .container presence
  | .list keys => .list keys
  | .leaf info => .leaf info
  | .leafList info => .leafList info
  | .choice => .choice
  | .case => .case

mutual

/-- Adds the node of a statement, then with `addChildren` what is declared in it, then what it uses,
in this order. -/
def addStatement (provide : Provide) (moduleName : String) (parent : Option NodeId) :
    Source.Statement → Draft → Except SchemaError (Draft × NodeId)
  | ⟨kind, name, config, description, reference, children, uses⟩, d => do
    let (d, id) := d.add {
      kind := linkedKind kind
      moduleName := moduleName
      name := name
      parent := parent
      configStatement := config
      description := description
      reference := reference }
    let d ← addChildren provide moduleName id children d
    let d ← uses.foldlM (applyUse provide moduleName id id) d
    return (d, id)

/-- Adds the nodes of statements below a parent, in their order, and links each to the parent as its
last child. -/
def addChildren (provide : Provide) (moduleName : String) (parent : NodeId) :
    List Source.Statement → Draft → Except SchemaError Draft
  | [], d => .ok d
  | s :: rest, d => do
    let (d, id) ← addStatement provide moduleName (some parent) s d
    addChildren provide moduleName parent rest (d.appendChild parent id)

end

/-- Adds what a block declares below a node: with `addChildren` the statements of its own, then with
`applyUse` copies of what it uses. -/
def addBody (provide : Provide) (moduleName : String) (id : NodeId) (body : Source.Body)
    (d : Draft) : Except SchemaError Draft := do
  let d ← addChildren provide moduleName id body.children d
  body.uses.foldlM (applyUse provide moduleName id id) d

/-! ## Groupings -/

/-- The names of all groupings that the modules declare at their top. -/
def declaredNames (sources : List Source.Module) : List GroupingName :=
  sources.flatMap fun m => m.groupings.map fun g => ⟨m.name, g.name⟩

/-- The first declaration of a grouping in its module. -/
def declaration? (sources : List Source.Module) (name : GroupingName) : Option Source.Grouping :=
  (sources.find? (·.name == name.moduleName)).bind fun m =>
    m.groupings.find? (·.name == name.name)

theorem mem_declaredNames {sources : List Source.Module} {name : GroupingName}
    {g : Source.Grouping} (h : declaration? sources name = some g) :
    name ∈ declaredNames sources := by
  obtain ⟨m, hm, hg⟩ := Option.bind_eq_some_iff.1 h
  have hname : m.name = name.moduleName := by simpa using List.find?_some hm
  have gname : g.name = name.name := by simpa using List.find?_some hg
  refine List.mem_flatMap.2 ⟨m, List.mem_of_find?_eq_some hm, List.mem_map.2
    ⟨g, List.mem_of_find?_eq_some hg, ?_⟩⟩
  rw [hname, gname]

/-- How many of the `declaredNames` are not under way; it bounds how deep groupings can lie in each
other. -/
def remaining (sources : List Source.Module) (underWay : List GroupingName) : Nat :=
  ((declaredNames sources).filter fun n => !underWay.contains n).length

theorem remaining_append_lt {sources : List Source.Module} {underWay : List GroupingName}
    {name : GroupingName} (hdeclared : name ∈ declaredNames sources) (hnew : name ∉ underWay) :
    remaining sources (underWay ++ [name]) < remaining sources underWay := by
  unfold remaining
  generalize declaredNames sources = names at hdeclared
  have hle : ∀ l : List GroupingName,
      (l.filter fun n => !(underWay ++ [name]).contains n).length ≤
        (l.filter fun n => !underWay.contains n).length := by
    intro l
    induction l with
    | nil => simp
    | cons a l ih =>
      by_cases h : a ∈ underWay <;> by_cases h' : a = name <;> simp_all
      omega
  induction names with
  | nil => simp at hdeclared
  | cons a l ih =>
    have hl := hle l
    clear hle
    by_cases h' : a = name
    · subst h'
      simpa [hnew] using Nat.lt_succ_of_le hl
    · have hmem : name ∈ l := by simpa [Ne.symm h'] using hdeclared
      have := ih hmem
      by_cases h : a ∈ underWay <;> simp_all

/-- The names from the first one that is `name` on, and `name` again. -/
def cycleChain (underWay : List GroupingName) (name : GroupingName) : List String :=
  ((underWay.dropWhile (· != name)) ++ [name]).map GroupingName.text

/-- The tree of a grouping: the one that is `built` already, or a new one, inside which the names
`underWay` and its own may not be used again. -/
def provideGrouping (sources : List Source.Module) (underWay : List GroupingName) : Provide :=
  fun name location d =>
    match d.built.lookup name with
    | some id => .ok (d, id)
    | none =>
      if hnew : name ∈ underWay then .error (.cyclicGrouping (cycleChain underWay name))
      else
        match hdecl : declaration? sources name with
        | none => .error (.unknownGrouping name.text location)
        | some g => do
          let (d, id) := d.add {
            kind := .grouping
            moduleName := name.moduleName
            name := name.name
            description := g.description
            reference := g.reference }
          let d ← addBody (provideGrouping sources (underWay ++ [name])) name.moduleName id g.body d
          let d := { d with built := (name, id) :: d.built }
          return (d.updateModule name.moduleName fun m =>
            { m with groupings := m.groupings ++ [id] }, id)
termination_by remaining sources underWay
decreasing_by exact remaining_append_lt (mem_declaredNames hdecl) hnew

/-! ## Remote calls -/

/-- Adds what goes into a remote call or comes out of it, if it is declared. -/
def addMessage (provide : Provide) (moduleName : String) (rpc : NodeId) (kind : Kind)
    (body : Option Source.Body) (d : Draft) : Except SchemaError Draft :=
  match body with
  | none => .ok d
  | some body => do
    let (d, id) := d.add { kind := kind, moduleName := moduleName, name := kind.keyword,
                           parent := some rpc }
    let d ← addBody provide moduleName id body d
    return d.appendChild rpc id

/-- Adds a remote call with its `input` and its `output`, which are left out where nothing is
declared in them. -/
def addRpc (provide : Provide) (moduleName : String) (rpc : Source.Rpc) (d : Draft) :
    Except SchemaError (Draft × NodeId) := do
  let (d, id) := d.add { kind := .rpc, moduleName := moduleName, name := rpc.name,
                         description := rpc.description, reference := rpc.reference }
  let d ← addMessage provide moduleName id .input rpc.input d
  let d ← addMessage provide moduleName id .output rpc.output d
  return (d, id)

/-! ## Augments -/

/-- One step of a target path: to a root of the module that `qualify` finds first, then with
`childNamed?` to a child of that local name. -/
def resolveStep (model : DataModel) (home target : String) (current : Option NodeId)
    (segment : String) : Except SchemaError (Option NodeId) := do
  let (moduleName, localName) ← qualify model.modules segment home target
  let next :=
    match current with
    | none => (model.module? moduleName).bind fun m =>
        (m.data ++ m.rpcs).find? fun id => (model.node id).name == localName
    | some parent => model.childNamed? parent localName
  match next with
  | some id => .ok (some id)
  | none => .error (.unresolvedAugmentTarget home target)

/-- The kinds of nodes that an augment may add children to: those that are `isStructural`, and
cases. -/
def isAugmentable (kind : Kind) : Bool :=
  match kind with
  | .case => true
  | _ => kind.isStructural

/-- The node that a target path leads to by `resolveStep`, if it `isAugmentable`. -/
def resolveTarget (model : DataModel) (home target : String) : Except SchemaError NodeId := do
  let segments := (Text.words (· != '/') target.toList).map String.ofList
  match ← segments.foldlM (resolveStep model home target) none with
  | some id =>
    if isAugmentable (model.node id).kind then .ok id
    else .error (.unresolvedAugmentTarget home target)
  | none => .error (.unresolvedAugmentTarget home target)

/-- Marks a node as added by an augment of the module, in `augmentedBy`, and lists it among the
children of the augment. -/
def markAugmented (moduleName : String) (augment : NodeId) (d : Draft) (id : NodeId) : Draft :=
  (d.update id fun n => { n with augmentedBy := some moduleName }).appendChild augment id

/-- A node and its ancestors up to the first that is no copy are copies no more: `copiedFrom` is
cleared along the way. -/
def diverge (d : Draft) (id : NodeId) : Draft :=
  let copies := (id :: d.model.ancestors id).takeWhile fun a => (d.node a).copiedFrom.isSome
  copies.foldl (fun d a => d.update a fun n => { n with copiedFrom := none }) d

/-- Adds one statement of an augment to its target and marks what comes of it as `markAugmented`
does. -/
def augmentChild (provide : Provide) (moduleName : String) (target augment : NodeId) (d : Draft)
    (s : Source.Statement) : Except SchemaError Draft := do
  let (d, id) ← addStatement provide moduleName (some target) s d
  return markAugmented moduleName augment (d.appendChild target id) id

/-- Lets the target of an augment use a grouping, and marks the children that this brings in. -/
def augmentUse (provide : Provide) (moduleName : String) (target augment : NodeId) (d : Draft)
    (name : String) : Except SchemaError Draft := do
  let before := (d.node target).children.length
  let d ← applyUse provide moduleName target augment d name
  return ((d.node target).children.drop before).foldl (markAugmented moduleName augment) d

/-- Adds what an augment declares to its target, notes the augment there, and lets all that copies
stand for `diverge` from the target. -/
def addAugment (provide : Provide) (moduleName : String) (a : Source.Augment) (d : Draft) :
    Except SchemaError (Draft × NodeId) := do
  let target ← resolveTarget d.model moduleName a.target
  let (d, id) := d.add { kind := .augment target, moduleName := moduleName, name := a.target,
                         description := a.description }
  let d ← a.body.children.foldlM (augmentChild provide moduleName target id) d
  let d ← a.body.uses.foldlM (augmentUse provide moduleName target id) d
  let d := d.update target fun n => { n with augmentations := n.augmentations ++ [id] }
  return (diverge d target, id)

/-! ## Modules -/

/-- A module before anything of it is linked: its name, texts and typedefs, and as its
`modulePrefix` its name if it declares none. -/
def emptyModule (m : Source.Module) : Module where
  name := m.name
  modulePrefix := m.modulePrefix.getD m.name
  namespaceUri := m.namespaceUri
  revision := m.revision
  description := m.description
  typedefs := Table.ofList (m.typedefs.map fun t => (t.name, t))

/-- The first name that stood in the list before. -/
def firstRepeated (seen : List String) : List String → Option String
  | [] => none
  | n :: rest => if seen.contains n then some n else firstRepeated (n :: seen) rest

/-- Adds groupings, data and rpcs of a module with `addStatement`, each in the order of
declaration. -/
def addModule (sources : List Source.Module) (d : Draft) (m : Source.Module) :
    Except SchemaError Draft := do
  let provide := provideGrouping sources []
  let d ← m.groupings.foldlM (fun d g => do
    let (d, _) ← provide ⟨m.name, g.name⟩ ("/" ++ m.name) d
    return d) d
  let d ← m.data.foldlM (fun d s => do
    let (d, id) ← addStatement provide m.name none s d
    return d.updateModule m.name fun x => { x with data := x.data ++ [id] }) d
  m.rpcs.foldlM (fun d r => do
    let (d, id) ← addRpc provide m.name r d
    return d.updateModule m.name fun x => { x with rpcs := x.rpcs ++ [id] }) d

/-- Carries out the augments of a module by `placeAugment` in their order, and lists them in it. -/
def addAugments (sources : List Source.Module) (d : Draft) (m : Source.Module) :
    Except SchemaError Draft :=
  m.augments.foldlM (fun d a => do
    let (d, id) ← addAugment (provideGrouping sources []) m.name a d
    return d.updateModule m.name fun x => { x with augments := x.augments ++ [id] }) d

/-- The data model that modules make together: all modules by `addModule` first, then all augments
by `addAugments`. -/
def link (sources : List Source.Module) : Except SchemaError DataModel :=
  match firstRepeated [] (sources.map (·.name)) with
  | some name => .error (.duplicateModule name)
  | none => do
    let start : Draft := { model := { modules := sources.map emptyModule } }
    let d ← sources.foldlM (addModule sources) start
    let d ← sources.foldlM (addAugments sources) d
    return d.model

end RestSpec.DataModel
