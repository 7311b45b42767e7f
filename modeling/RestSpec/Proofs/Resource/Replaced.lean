/-
Which operations replace each other. Where data nodes next to each other have different names, the
containers and lists that walks come to have different labels on the way to them, so the operations
on one never stand where those on another do, or where a remote call stands. Those on one and the
same list stand apart as well, but for a path that ends in a slash with keys or without: where there
are no keys, an entry is added under the path of the list.
-/
import RestSpec.Proofs.DataModel.Walks
import RestSpec.Proofs.DataModel.Substitution
import RestSpec.Proofs.Resource.Address
import RestSpec.Proofs.Resource.Visited

namespace RestSpec

open Document DataModel

/-! ## Operations of a document -/

namespace Document

/-- The path and the method of each of the `operations`. -/
def places (doc : Document) : List (String × Method) :=
  doc.operations.map fun op => (op.1, op.2.1)

theorem mem_places_iff {doc : Document} {path : String} {m : Method} :
    (path, m) ∈ doc.places ↔ (doc.operation? path m).isSome = true := by
  unfold places
  rw [List.mem_map, Option.isSome_iff_exists]
  constructor
  · rintro ⟨⟨path', m', op⟩, hop, heq⟩
    obtain ⟨rfl, rfl⟩ := Prod.mk.inj heq
    exact ⟨op, mem_operations_iff.1 hop⟩
  · rintro ⟨op, hop⟩
    exact ⟨(path, m, op), mem_operations_iff.2 hop, rfl⟩

theorem PathItem.nodup_operations (item : PathItem) :
    (item.operations.map Prod.fst).Nodup := by
  have hsub : (item.operations.map Prod.fst).Sublist Method.all := by
    unfold PathItem.operations
    rw [List.map_filterMap]
    have hfilter : (Method.all.filterMap fun m => ((item.find? m).map (m, ·)).map Prod.fst) =
        Method.all.filter fun m => (item.find? m).isSome := by
      rw [← List.filterMap_eq_filter]
      refine List.filterMap_congr fun m _ => ?_
      cases h : item.find? m <;> simp [Option.guard, h]
    rw [hfilter]
    exact List.filter_sublist
  exact List.Nodup.sublist hsub (by decide)

/-- A document holds one operation at most for a path and a method: its `places` differ. -/
theorem nodup_places (doc : Document) : doc.places.Nodup := by
  have heq : doc.places = doc.paths.entries.flatMap fun e =>
      (e.2.operations.map Prod.fst).map fun m => (e.1, m) := by
    simp [places, operations, List.map_flatMap, Function.comp_def]
  rw [heq, List.nodup_flatMap]
  refine ⟨fun e _ => (e.2.nodup_operations).map fun _ _ h => (Prod.mk.inj h).2, ?_⟩
  refine (doc.paths.ascending.imp fun {e e'} hlt => ?_)
  intro place hplace hplace'
  obtain ⟨_, -, rfl⟩ := List.mem_map.1 hplace
  obtain ⟨_, -, heq⟩ := List.mem_map.1 hplace'
  exact Std.ne_of_lt hlt (Prod.mk.inj heq).1.symm

end Document

/-- A document holds as many operations as are in `emitted` just if their `places` differ. -/
theorem length_operations_iff {doc : Document} {p : Progress}
    (h : ∀ path m, (doc.operation? path m).isSome = true ↔ p.Emits path m) :
    doc.operations.length = p.emitted.length ↔ p.places.Nodup := by
  have hperm : doc.places.Perm p.places.dedup := by
    refine (List.perm_ext_iff_of_nodup doc.nodup_places (List.nodup_dedup _)).2 fun place => ?_
    rw [List.mem_dedup, mem_places_iff, h]
    simp [Progress.Emits, Progress.places, Prod.ext_iff]
  have hdoc : doc.operations.length = p.places.dedup.length :=
    (List.length_map _).symm.trans hperm.length_eq
  have hemitted : p.emitted.length = p.places.length := (List.length_map _).symm
  rw [hdoc, hemitted, ← List.dedup_eq_self]
  exact ⟨(List.dedup_sublist _).eq_of_length, congrArg List.length⟩

/-! ## Different names -/

namespace DataModel

variable (model : DataModel)

/-- The `qualifiedName` of each of some nodes. -/
def qualifiedNames (ids : List NodeId) : List String :=
  ids.map fun id => (model.node id).qualifiedName

/-- The data nodes at the top of all modules, with choices and cases looked through. -/
def topData : List NodeId :=
  model.shownAmong (model.modules.flatMap fun m => m.data.map model.tree)

/-- The `dataChildren` of each container or list below a node have different `qualifiedNames`. -/
def DistinctBelow (root : NodeId) : Prop :=
  ∀ above id, model.Way root above id → (model.node id).kind.isResource = true →
    (model.qualifiedNames (model.dataChildren id)).Nodup

/-- Data nodes next to each other have different `qualifiedNames`, with choices and cases looked
through, and so have the rpcs of a module. -/
structure DistinctNames : Prop where
  top : (model.qualifiedNames model.topData).Nodup
  below : ∀ m ∈ model.modules, ∀ root ∈ m.data, model.DistinctBelow root
  calls : ∀ m ∈ model.modules, (m.rpcs.map fun call => (model.node call).name).Nodup

end DataModel

/-! ## Routes apart -/

/-- The `label` of each segment of a route, with the names of modules. -/
def Route.labels (route : Route) : List String := route.map (Segment.label true)

theorem Route.labels_toNode (start : Route) (model : DataModel) (id : NodeId) :
    (start.toNode model id).labels = start.labels ++ [(model.node id).qualifiedName] :=
  List.map_append

/-- Routes with different `labels`, each going on from `start` with the name of one of the nodes
`next`. -/
structure Apart (model : DataModel) (start : Route) (next : List NodeId)
    (routes : List (Route × NodeId)) : Prop where
  nodup : (routes.map fun x => x.1.labels).Nodup
  next : ∀ x ∈ routes, ∃ c ∈ next, start.labels ++ [(model.node c).qualifiedName] <+: x.1.labels

section Apart

variable {model : DataModel} {start : Route} {next next' : List NodeId}
  {routes routes' : List (Route × NodeId)}

theorem Apart.nil : Apart model start next [] := ⟨List.nodup_nil, nofun⟩

/-- Routes that go on with different names are `Apart` from each other. -/
theorem Apart.append (h : Apart model start next routes) (h' : Apart model start next' routes')
    (hnext : (model.qualifiedNames (next ++ next')).Nodup) :
    Apart model start (next ++ next') (routes ++ routes') := by
  refine ⟨?_, fun x hx => ?_⟩
  · rw [List.map_append, List.nodup_append']
    refine ⟨h.nodup, h'.nodup, fun labels hl hl' => ?_⟩
    obtain ⟨x, hx, rfl⟩ := List.mem_map.1 hl
    obtain ⟨x', hx', heq⟩ := List.mem_map.1 hl'
    obtain ⟨c, hc, hprefix⟩ := h.next x hx
    obtain ⟨c', hc', hprefix'⟩ := h'.next x' hx'
    rw [heq] at hprefix'
    have hsame : start.labels ++ [(model.node c).qualifiedName] =
        start.labels ++ [(model.node c').qualifiedName] :=
      (List.prefix_of_prefix_length_le hprefix hprefix' (by simp)).eq_of_length (by simp)
    have hname := List.append_cancel_left hsame
    unfold qualifiedNames at hnext
    rw [List.map_append, List.nodup_append'] at hnext
    refine hnext.2.2 (List.mem_map.2 ⟨c, hc, rfl⟩) ?_
    rw [List.singleton_inj.1 hname]
    exact List.mem_map.2 ⟨c', hc', rfl⟩
  · rcases List.mem_append.1 hx with hx | hx
    · obtain ⟨c, hc, hprefix⟩ := h.next x hx
      exact ⟨c, List.mem_append_left _ hc, hprefix⟩
    · obtain ⟨c, hc, hprefix⟩ := h'.next x hx
      exact ⟨c, List.mem_append_right _ hc, hprefix⟩

/-- The route to a node is shorter than those that go on from it, so it is `Apart` from them. -/
theorem Apart.cons {id : NodeId} (h : Apart model (start.toNode model id) next routes) :
    Apart model start [id] ((start.toNode model id, id) :: routes) := by
  refine ⟨?_, fun x hx => ⟨id, List.mem_singleton.2 rfl, ?_⟩⟩
  · rw [List.map_cons, List.nodup_cons]
    refine ⟨fun hmem => ?_, h.nodup⟩
    obtain ⟨x, hx, heq⟩ := List.mem_map.1 hmem
    obtain ⟨c, -, hprefix⟩ := h.next x hx
    have hlength := hprefix.length_le
    rw [heq] at hlength
    simp at hlength
  · rw [← Route.labels_toNode]
    rcases List.mem_cons.1 hx with rfl | hx
    · exact List.prefix_refl _
    · obtain ⟨c, -, hprefix⟩ := h.next x hx
      exact (List.prefix_append _ _).trans hprefix

mutual

/-- A walk takes routes that are `Apart`, by `visited`. -/
theorem visited_apart (s : Settings) (hm : model.Linked) :
    ∀ (t : Tree) (start : Route) (level : Nat), TreeOf model t → model.DistinctBelow t.id →
      (model.qualifiedNames (model.shown t)).Nodup →
      Apart model start (model.shown t) (visited s model start level t)
  | .node id children, start, level, ht@(.node hids hbelow), hdistinct, hnames => by
    have hchild : (∀ c ∈ (model.node id).children, model.DistinctBelow c) →
        ∀ t ∈ children, model.DistinctBelow t.id := fun h t htree =>
      h t.id (hids ▸ List.mem_map_of_mem htree)
    unfold shown at hnames ⊢
    unfold visited
    split
    · rename_i htransparent
      rw [if_pos htransparent] at hnames
      exact visitedAmong_apart s hm children start level hbelow (hchild fun c hc above x hway =>
        hdistinct above x (.past htransparent hc hway)) hnames
    · rename_i htransparent
      split
      · rename_i hresource
        split
        · exact .nil
        · have hchildren : model.dataChildren id = model.shownAmong children := by
            unfold dataChildren
            rw [TreeOf.unique (hm.treeOf id) ht (tree_id model id)]
            rfl
          refine .cons (visitedAmong_apart s hm children _ (level + 1) hbelow
            (hchild fun c hc above x hway => hdistinct _ x (.through hresource hc hway)) ?_)
          rw [← hchildren]
          exact hdistinct [] id .here hresource
      · exact .nil

theorem visitedAmong_apart (s : Settings) (hm : model.Linked) :
    ∀ (ts : List Tree) (start : Route) (level : Nat), (∀ t ∈ ts, TreeOf model t) →
      (∀ t ∈ ts, model.DistinctBelow t.id) → (model.qualifiedNames (model.shownAmong ts)).Nodup →
      Apart model start (model.shownAmong ts) (visitedAmong s model start level ts)
  | [], _, _, _, _, _ => .nil
  | t :: ts, start, level, hts, hdistinct, hnames => by
    unfold shownAmong at hnames ⊢
    have hparts := hnames
    unfold qualifiedNames at hparts
    rw [List.map_append, List.nodup_append'] at hparts
    exact .append
      (visited_apart s hm t start level (hts t List.mem_cons_self) (hdistinct t List.mem_cons_self)
        hparts.1)
      (visitedAmong_apart s hm ts start level (fun t ht => hts t (List.mem_cons_of_mem _ ht))
        (fun t ht => hdistinct t (List.mem_cons_of_mem _ ht)) hparts.2.1)
      hnames

end

end Apart

/-! ## Places apart -/

/-- The path is the `text` of an address with the given root and labels, in which no name holds a
mark. -/
def WrittenFor (d : Dialect) (root : String) (labels : List String) (path : String) : Prop :=
  ∃ a : Address, a.FreeOf pathMarks ∧ a.root = root ∧ a.parts.map Prod.fst = labels ∧
    path.toList = a.text d

/-- The root and the labels can be read off a path that is `WrittenFor` them. -/
theorem WrittenFor.unique {d : Dialect} {root root' : String} {labels labels' : List String}
    {path : String} (h : WrittenFor d root labels path) (h' : WrittenFor d root' labels' path) :
    root = root' ∧ labels = labels' := by
  obtain ⟨a, ha, rfl, rfl, hpath⟩ := h
  obtain ⟨a', ha', rfl, rfl, hpath'⟩ := h'
  obtain rfl := Address.text_injective ha ha' (by decide) (hpath.symm.trans hpath')
  exact ⟨rfl, rfl⟩

section Places

variable {s : Settings} {model : DataModel} {start : Route} {id : NodeId}

theorem parts_dataAddress_toNode : (s.dataAddress (start.toNode model id)).parts =
    start.map (Segment.part s.useModuleName) ++
      [(Route.segmentOf model start id).part s.useModuleName] :=
  List.map_append

theorem parts_listAddress_toNode : (s.listAddress (start.toNode model id)).parts =
    start.map (Segment.part s.useModuleName) ++
      [(Route.segmentOf model start id).collectionPart s.useModuleName] := by
  unfold Settings.listAddress Route.toNode
  rw [List.dropLast_concat, List.getLast?_concat]
  rfl

variable (hroute : ∀ segment ∈ start.toNode model id, segment.Plain pathMarks)

include hroute

/-- `listPath` and `dataPath` of a list are one string exactly for a list without keys in the
dialect `odl`, where every path ends in a slash. -/
theorem listPath_eq_dataPath_iff :
    s.listPath (start.toNode model id) = s.dataPath (start.toNode model id) ↔
      s.dialect = .odl ∧ (model.node id).kind.keys = [] := by
  have hne : start.toNode model id ≠ [] := by simp [Route.toNode]
  have hfree := Settings.dataAddress_freeOf s.marks hroute
  have hfree' := Settings.listAddress_freeOf s.marks hroute
  rw [← String.toList_inj, Settings.toList_dataPath s.marks hroute hne,
    Settings.toList_listPath s.marks hroute hne]
  have hkeys : (Route.segmentOf model start id).parameters.map (·.name) = [] ↔
      (model.node id).kind.keys = [] := by
    show (Route.keyParameters model id _ (model.node id).kind.keys).map _ = [] ↔ _
    cases (model.node id).kind.keys <;> simp [Route.keyParameters]
  constructor
  · intro heq
    have haddress := Address.text_injective hfree' hfree (by decide) heq
    have hclosed : true = (s.dialect == .odl) := congrArg Address.closed haddress
    have hparts := congrArg Address.parts haddress
    rw [parts_dataAddress_toNode, parts_listAddress_toNode] at hparts
    have hpart := List.singleton_inj.1 (List.append_cancel_left hparts)
    exact ⟨by simpa using hclosed.symm, hkeys.1 (congrArg Prod.snd hpart).symm⟩
  · rintro ⟨hodl, hnone⟩
    refine congrArg _ (Address.ext rfl ?_ ?_)
    · rw [parts_dataAddress_toNode, parts_listAddress_toNode, Segment.part, hkeys.2 hnone]
      rfl
    · simp [Settings.listAddress, Settings.dataAddress, hodl]

/-- The places of `placesAt` differ, but for the `post` that adds an entry to a list without keys,
in the dialect `odl`. -/
theorem nodup_placesAt_iff : (s.placesAt model (start.toNode model id) id).Nodup ↔
    ¬ (s.dialect = .odl ∧ s.fullCrud = true ∧ (model.node id).config = true ∧
      (model.node id).kind = .list []) := by
  have hlist : (model.node id).kind = .list [] ↔
      (model.node id).kind.isList = true ∧ (model.node id).kind.keys = [] := by
    cases (model.node id).kind <;> simp [Kind.isList, Kind.keys]
  have hpath := eq_comm.trans (listPath_eq_dataPath_iff (s := s) hroute)
  unfold Settings.placesAt
  rw [hlist]
  -- all have one path and different methods, except for the last
  cases s.fullCrud <;> cases (model.node id).config <;> cases (model.node id).kind.isList <;>
    cases s.patch <;> simp [hpath]

/-- Every path in `placesAt` is `WrittenFor` the labels of its route. -/
theorem writtenFor_of_mem_placesAt (huse : s.useModuleName = true) {place : String × Method}
    (h : place ∈ s.placesAt model (start.toNode model id) id) :
    WrittenFor s.dialect s.dialect.dataRoot (start.toNode model id).labels place.1 := by
  have hne : start.toNode model id ≠ [] := by simp [Route.toNode]
  have hlabels : ∀ route : Route, (route.map (Segment.part true)).map Prod.fst = route.labels :=
    fun route => List.map_map
  rcases path_of_mem_placesAt h with hpath | hpath
  · refine ⟨_, Settings.dataAddress_freeOf s.marks hroute, rfl, ?_,
      hpath ▸ Settings.toList_dataPath s.marks hroute hne⟩
    rw [parts_dataAddress_toNode, huse, List.map_append, hlabels, Route.labels_toNode]
    rfl
  · refine ⟨_, Settings.listAddress_freeOf s.marks hroute, rfl, ?_,
      hpath ▸ Settings.toList_listPath s.marks hroute hne⟩
    rw [parts_listAddress_toNode, huse, List.map_append, hlabels, Route.labels_toNode]
    rfl

end Places

/-! ## Remote calls apart -/

section Calls

variable {s : Settings} {sources : List Source.Module} {model : DataModel}

/-- The `callPath` of an rpc is `WrittenFor` its name. -/
theorem writtenFor_callPath (huse : s.useModuleName = true) {call : NodeId}
    (hname : PlainName pathMarks (model.node call).name)
    (hmodule : PlainName pathMarks (model.node call).moduleName) :
    WrittenFor s.dialect operationsRoot [(model.node call).qualifiedName] (s.callPath model call) := by
  obtain ⟨hfree, hpath⟩ := Settings.toList_callPath s.marks hname hmodule
  refine ⟨_, hfree, rfl, ?_, hpath⟩
  unfold Settings.callAddress
  rw [huse]
  rfl

/-- The `qualifiedNames` of all rpcs differ, as long as no name holds a colon. -/
theorem nodup_qualifiedNames_rpcs (h : link sources = .ok model)
    (hnames : model.PlainNames [':']) (hdistinct : model.DistinctNames) :
    (model.qualifiedNames (model.modules.flatMap (·.rpcs))).Nodup := by
  have hhome := moduleName_of_mem_rpcs h
  have hplain : ∀ m ∈ model.modules, ∀ call ∈ m.rpcs, PlainName [':'] (model.node call).name := by
    intro m hmem call hcall
    have hrooted := rooted_of_mem_rpcs h hmem hcall
    exact hnames.nodes call hrooted.lt hrooted.kind
  have hunique : ∀ m ∈ model.modules, ∀ m' ∈ model.modules, ∀ call ∈ m.rpcs, ∀ call' ∈ m'.rpcs,
      (model.node call).qualifiedName = (model.node call').qualifiedName →
      m.name = m'.name ∧ (model.node call).name = (model.node call').name := by
    intro m hmem m' hmem' call hcall call' hcall' heq
    have hlists := congrArg String.toList heq
    unfold Node.qualifiedName at hlists
    rw [hhome m hmem call hcall, hhome m' hmem' call' hcall'] at hlists
    simp only [String.toList_append, List.append_assoc, show ":".toList = [':'] from rfl,
      List.singleton_append] at hlists
    have hcolon : ∀ {n : String}, PlainName [':'] n → ':' ∉ n.toList := fun h hmem =>
      h.disjoint hmem List.mem_cons_self
    obtain ⟨hmodules, -, hcalls⟩ := (List.append_cons_inj_of_notMem
      (hcolon (hnames.modules _ (List.mem_map_of_mem hmem)))
      (hcolon (hplain m hmem call hcall))).1 hlists
    exact ⟨String.toList_inj.1 hmodules, String.toList_inj.1 hcalls⟩
  unfold qualifiedNames
  rw [List.map_flatMap, List.nodup_flatMap]
  constructor
  · intro m hmem
    have hcalls := hdistinct.calls m hmem
    unfold List.Nodup at hcalls ⊢
    rw [List.pairwise_map] at hcalls ⊢
    exact hcalls.imp_of_mem fun ha hb hne heq => hne (hunique m hmem m hmem _ ha _ hb heq).2
  · have hmodules : model.modules.Pairwise fun m m' => m.name ≠ m'.name :=
      List.pairwise_map.1 (nodup_moduleNames h)
    refine hmodules.imp_of_mem fun {m m'} hmem hmem' hne n hn hn' => ?_
    obtain ⟨call, hcall, rfl⟩ := List.mem_map.1 hn
    obtain ⟨call', hcall', heq⟩ := List.mem_map.1 hn'
    exact hne (hunique m hmem m' hmem' call hcall call' hcall' heq.symm).1

end Calls

/-! ## A whole run -/

/-- The walk of a module adds entries to a list under `listPath`, where `dataPath` is the same: the
settings are those of `odl` with full CRUD, and the list can be written and has no keys. -/
inductive Settings.Overwrites (s : Settings) (model : DataModel) (home : Module) : Prop
  | entry {root id : NodeId} {above : List NodeId} : s.dialect = .odl → s.generates .data = true →
      s.fullCrud = true → root ∈ home.data → model.Way root above id →
      (∀ limit, s.maxDepth = some limit → above.length < limit) →
      (model.node id).kind = .list [] → (model.node id).config = true → Overwrites s model home

section Run

variable {s : Settings} {model : DataModel} {selected : List Module}

theorem mem_visitedIn_iff (hm : model.Linked) {home : Module} {x : Route × NodeId} :
    x ∈ s.visitedIn model home ↔ s.generates .data = true ∧
      ∃ root ∈ home.data, s.Visits model [] 0 root x.1 x.2 := by
  unfold Settings.visitedIn
  split
  · rename_i hdata
    rw [mem_visitedAmong_iff _ _ _ fun t ht => ?_]
    · simp only [List.mem_map, exists_exists_and_eq_and, tree_id, hdata, true_and]
    · obtain ⟨root, -, rfl⟩ := List.mem_map.1 ht
      exact hm.treeOf root
  · rename_i hdata
    simp [hdata]

theorem overwrites_iff (hm : model.Linked) {home : Module} : s.Overwrites model home ↔
    ∃ x ∈ s.visitedIn model home, s.dialect = .odl ∧ s.fullCrud = true ∧
      (model.node x.2).config = true ∧ (model.node x.2).kind = .list [] := by
  constructor
  · rintro ⟨hodl, hdata, hcrud, hroot, hway, hlimit, hkind, hconfig⟩
    refine ⟨(_, _), (mem_visitedIn_iff hm).2 ⟨hdata, _, hroot, .node hway ?_ ?_⟩, hodl, hcrud,
      hconfig, hkind⟩
    · rw [hkind]
      rfl
    · simpa using hlimit
  · rintro ⟨⟨route, id⟩, hx, hodl, hcrud, hconfig, hkind⟩
    obtain ⟨hdata, root, hroot, hvisits⟩ := (mem_visitedIn_iff hm).1 hx
    dsimp only at hvisits hconfig hkind
    obtain ⟨hway, -, hlimit⟩ := hvisits
    exact ⟨hodl, hdata, hcrud, hroot, hway, by simpa using hlimit, hkind, hconfig⟩

/-- The walks of modules, by `visitedIn`, take routes with different `labels`. -/
theorem nodup_labels_visitedIn (hm : model.Linked) (hdistinct : model.DistinctNames)
    (hselected : selected.Sublist model.modules) :
    ((selected.flatMap (s.visitedIn model)).map fun x => x.1.labels).Nodup := by
  unfold Settings.visitedIn
  cases s.generates .data with
  | false =>
    have hnone : (selected.flatMap fun _ => ([] : List (Route × NodeId))) = [] :=
      List.flatMap_eq_nil_iff.2 fun _ _ => rfl
    simp only [Bool.false_eq_true, if_false, hnone]
    exact List.nodup_nil
  | true =>
    have hflat : (selected.flatMap fun home =>
        visitedAmong s model [] 0 (home.data.map model.tree)) =
        visitedAmong s model [] 0 (selected.flatMap fun home => home.data.map model.tree) := by
      simp only [visitedAmong_eq_flatMap, List.flatMap_assoc]
    have hroots : ∀ t ∈ selected.flatMap fun home => home.data.map model.tree,
        ∃ home ∈ selected, ∃ root ∈ home.data, model.tree root = t := by
      intro t ht
      obtain ⟨home, hhome, ht⟩ := List.mem_flatMap.1 ht
      obtain ⟨root, hroot, rfl⟩ := List.mem_map.1 ht
      exact ⟨home, hhome, root, hroot, rfl⟩
    simp only [if_true]
    rw [hflat]
    refine (visitedAmong_apart s hm _ [] 0 (fun t ht => ?_) (fun t ht => ?_) ?_).nodup
    · obtain ⟨_, -, root, -, rfl⟩ := hroots t ht
      exact hm.treeOf root
    · obtain ⟨home, hhome, root, hroot, rfl⟩ := hroots t ht
      rw [tree_id]
      exact hdistinct.below home (hselected.subset hhome) root hroot
    · refine List.Nodup.sublist (List.Sublist.map _ ?_) hdistinct.top
      unfold topData
      rw [shownAmong_eq_flatMap, shownAmong_eq_flatMap]
      exact (hselected.flatMap _).flatMap _

/-- The places of what is `visitedIn` a module are `WrittenFor` the labels on the way there. -/
theorem writtenFor_of_mem_visitedIn (hm : model.Linked) (hnames : model.PlainNames pathMarks)
    (huse : s.useModuleName = true) {x : Route × NodeId}
    (hx : x ∈ selected.flatMap (s.visitedIn model)) {place : String × Method}
    (hplace : place ∈ s.placesAt model x.1 x.2) :
    WrittenFor s.dialect s.dialect.dataRoot x.1.labels place.1 := by
  obtain ⟨route, id⟩ := x
  obtain ⟨home, -, hx⟩ := List.mem_flatMap.1 hx
  obtain ⟨-, root, -, hvisits⟩ := (mem_visitedIn_iff hm).1 hx
  obtain ⟨hroute, above, habove⟩ := hnames.visits hm s.marks hvisits
  dsimp only at hroute habove hplace ⊢
  subst habove
  exact writtenFor_of_mem_placesAt hroute huse hplace

/-- The `dataPlaces` differ, but for lists without keys. -/
theorem nodup_dataPlaces_iff (hm : model.Linked) (hnames : model.PlainNames pathMarks)
    (hdistinct : model.DistinctNames) (huse : s.useModuleName = true)
    (hselected : selected.Sublist model.modules) :
    (s.dataPlaces model (selected.flatMap (s.visitedIn model))).Nodup ↔
      ∀ home ∈ selected, ¬ s.Overwrites model home := by
  have hone : ∀ x ∈ selected.flatMap (s.visitedIn model), (s.placesAt model x.1 x.2).Nodup ↔
      ¬ (s.dialect = .odl ∧ s.fullCrud = true ∧ (model.node x.2).config = true ∧
        (model.node x.2).kind = .list []) := by
    rintro ⟨route, id⟩ hx
    obtain ⟨home, -, hx⟩ := List.mem_flatMap.1 hx
    obtain ⟨-, root, -, hvisits⟩ := (mem_visitedIn_iff hm).1 hx
    obtain ⟨hroute, above, habove⟩ := hnames.visits hm s.marks hvisits
    dsimp only at hroute habove ⊢
    subst habove
    exact nodup_placesAt_iff hroute
  have hapart : (selected.flatMap (s.visitedIn model)).Pairwise
      (Function.onFun List.Disjoint fun x => s.placesAt model x.1 x.2) := by
    have hlabels := nodup_labels_visitedIn (s := s) hm hdistinct hselected
    refine (List.pairwise_map.1 hlabels).imp_of_mem fun hx hx' hne place hplace hplace' => hne ?_
    exact ((writtenFor_of_mem_visitedIn hm hnames huse hx hplace).unique
      (writtenFor_of_mem_visitedIn hm hnames huse hx' hplace')).2
  unfold Settings.dataPlaces
  rw [List.nodup_flatMap, and_iff_left hapart]
  constructor
  · intro hnodup home hhome hoverwrites
    obtain ⟨x, hx, hlist⟩ := (overwrites_iff hm).1 hoverwrites
    have hmem := List.mem_flatMap.2 ⟨home, hhome, hx⟩
    exact (hone x hmem).1 (hnodup x hmem) hlist
  · intro hnone x hx
    refine (hone x hx).2 fun hlist => ?_
    obtain ⟨home, hhome, hx⟩ := List.mem_flatMap.1 hx
    exact hnone home hhome ((overwrites_iff hm).2 ⟨x, hx, hlist⟩)

theorem calledIn_sublist (hselected : selected.Sublist model.modules) :
    (selected.flatMap s.calledIn).Sublist (model.modules.flatMap (·.rpcs)) := by
  refine (hselected.flatMap _).trans (List.Sublist.flatMap_right _ fun home _ => ?_)
  unfold Settings.calledIn
  split
  · exact List.Sublist.refl _
  · exact List.nil_sublist _

/-- The `callPlaces` are `WrittenFor` the names of the rpcs. -/
theorem writtenFor_of_mem_calledIn {sources : List Source.Module} (h : link sources = .ok model)
    (hnames : model.PlainNames pathMarks) (huse : s.useModuleName = true)
    (hselected : selected.Sublist model.modules) {call : NodeId}
    (hcall : call ∈ selected.flatMap s.calledIn) : WrittenFor s.dialect operationsRoot
      [(model.node call).qualifiedName] (s.callPath model call) := by
  obtain ⟨m, hmem, hcall⟩ := List.mem_flatMap.1 ((calledIn_sublist hselected).subset hcall)
  have hrooted := rooted_of_mem_rpcs h hmem hcall
  exact writtenFor_callPath huse (hnames.nodes call hrooted.lt hrooted.kind)
    (hnames.modules _ ((linked_of_link h).1.home call hrooted.lt))

/-- The `callPlaces` differ. -/
theorem nodup_callPlaces {sources : List Source.Module} (h : link sources = .ok model)
    (hnames : model.PlainNames ['/', '{', '}', '=', ':', ',']) (hdistinct : model.DistinctNames)
    (huse : s.useModuleName = true) (hselected : selected.Sublist model.modules) :
    (s.callPlaces model (selected.flatMap s.calledIn)).Nodup := by
  have hplain : model.PlainNames pathMarks := hnames.mono (by decide)
  have hpath : ∀ call ∈ selected.flatMap s.calledIn, WrittenFor s.dialect operationsRoot
      [(model.node call).qualifiedName] (s.callPath model call) :=
    fun _ => writtenFor_of_mem_calledIn h hplain huse hselected
  have hnodup := List.Nodup.sublist ((calledIn_sublist (s := s) hselected).map _)
    (nodup_qualifiedNames_rpcs h (hnames.mono (by decide)) hdistinct)
  refine List.pairwise_map.2 ((List.pairwise_map.1 hnodup).imp_of_mem
    fun {call call'} hcall hcall' hne heq => hne ?_)
  have hsame := hpath call hcall
  rw [(Prod.mk.inj heq).1] at hsame
  exact List.singleton_inj.1 (hsame.unique (hpath call' hcall')).2

/-- The places of all that is emitted, by `placesIn`, differ unless a module `Overwrites`. -/
theorem nodup_placesIn_iff {sources : List Source.Module} (h : link sources = .ok model)
    (hnames : model.PlainNames ['/', '{', '}', '=', ':', ',']) (hdistinct : model.DistinctNames)
    (huse : s.useModuleName = true) (hselected : selected.Sublist model.modules) :
    (selected.flatMap (s.placesIn model)).Nodup ↔
      ∀ home ∈ selected, ¬ s.Overwrites model home := by
  have hm := (linked_of_link h).1
  have hplain : model.PlainNames pathMarks := hnames.mono (by decide)
  have hcalls := nodup_callPlaces h hnames hdistinct huse hselected
  -- data and remote calls have different roots
  have hroots : List.Disjoint (s.dataPlaces model (selected.flatMap (s.visitedIn model)))
      (s.callPlaces model (selected.flatMap s.calledIn)) := by
    intro place hplace hplace'
    obtain ⟨x, hx, hplace⟩ := List.mem_flatMap.1 hplace
    obtain ⟨call, hcall, rfl⟩ := List.mem_map.1 hplace'
    have hroot := ((writtenFor_of_mem_visitedIn hm hplain huse hx hplace).unique
      (writtenFor_of_mem_calledIn h hplain huse hselected hcall)).1
    cases hd : s.dialect <;> rw [hd] at hroot <;> exact absurd hroot (by decide)
  rw [← (placesIn_perm s model selected).nodup_iff, List.nodup_append',
    and_iff_left ⟨hcalls, hroots⟩, nodup_dataPlaces_iff hm hplain hdistinct huse hselected]

end Run

/-! ## The document -/

/-- Where names are `DistinctNames` and plain, an operation that is emitted replaces another one
just where a selected module `Overwrites`: an entry is added to a list under the path of the list
itself. The document holds as many operations as have been emitted just if none is replaced. -/
theorem generate_replaces {sources : List Source.Module} {model : DataModel}
    (h : link sources = .ok model) (hnames : model.PlainNames ['/', '{', '}', '=', ':', ','])
    (hdistinct : model.DistinctNames) (s : Settings) (huse : s.useModuleName = true)
    {selected : List Module} (hselected : selectedModules s model = .ok selected) :
    ∃ p, selected.foldlM (emitModule s model) {} = .ok p ∧
      (p.places.Nodup ↔ ∀ home ∈ selected, ¬ s.Overwrites model home) ∧
      ∀ doc, generate s model = .ok doc →
        (doc.operations.length = p.emitted.length ↔ p.places.Nodup) := by
  obtain ⟨hm, -⟩ := linked_of_link h
  obtain ⟨p, hp, -⟩ := foldlM_ok (Progress.Sound s.strategy model) selected {}
    (fun home _ _ hb => emitModule_ok s hm home hb) (Progress.sound_empty s.strategy model)
  have hplaces : p.places = selected.flatMap (s.placesIn model) :=
    foldlM_places selected {} p (fun _ _ _ _ h => emitModule_places h) hp
  refine ⟨p, hp, ?_, fun doc hdoc => length_operations_iff fun path m => ?_⟩
  · rw [hplaces]
    exact nodup_placesIn_iff h hnames hdistinct huse (selectedModules_sublist hselected)
  · rw [generate_eq hselected] at hdoc
    exact operation?_generateSelected hp hdoc path m

/-- The settings of the dialect `odl`, where every path ends in a slash, with names of modules in
the paths. -/
def closing : Settings := { dialect := .odl, useModuleName := true }

/-- The `dataChildren` of every node have different `qualifiedNames`, a condition that can be
decided. -/
def DataModel.DistinctEverywhere (model : DataModel) : Prop :=
  (model.qualifiedNames model.topData).Nodup ∧
    (∀ id < model.size, (model.qualifiedNames (model.dataChildren id)).Nodup) ∧
    ∀ m ∈ model.modules, (m.rpcs.map fun call => (model.node call).name).Nodup

instance (model : DataModel) : Decidable model.DistinctEverywhere :=
  inferInstanceAs (Decidable (_ ∧ _ ∧ _))

theorem DataModel.DistinctEverywhere.distinctNames {model : DataModel}
    (h : model.DistinctEverywhere) : model.DistinctNames :=
  ⟨h.1, fun _ _ _ _ _ id _ hresource => h.2.1 id (lt_size_of_isResource hresource), h.2.2⟩

theorem generate_replaces_servers : ∃ model selected p, link servers = .ok model ∧
    model.PlainNames ['/', '{', '}', '=', ':', ','] ∧ model.DistinctNames ∧
    closing.useModuleName = true ∧ selectedModules closing model = .ok selected ∧
    selected.foldlM (emitModule closing model) {} = .ok p ∧
    (p.places.Nodup ↔ ∀ home ∈ selected, ¬ closing.Overwrites model home) ∧
    ∀ doc, generate closing model = .ok doc →
      (doc.operations.length = p.emitted.length ↔ p.places.Nodup) := by
  obtain ⟨model, h⟩ := link_servers
  have hnames : model.PlainNames ['/', '{', '}', '=', ':', ','] := of_decide_eq_true <|
    map_of_ok h (f := fun model => decide (model.PlainNames ['/', '{', '}', '=', ':', ',']))
      (b := true) (by decide +kernel)
  have hdistinct : model.DistinctEverywhere := of_decide_eq_true <|
    map_of_ok h (f := fun model => decide model.DistinctEverywhere) (b := true) (by decide +kernel)
  obtain ⟨selected, hselected⟩ := exists_ok_of_isSome <|
    map_of_ok h (f := fun model => (selectedModules closing model).toOption.isSome) (b := true)
      (by decide +kernel)
  obtain ⟨p, hp, hreplaces⟩ := generate_replaces h hnames hdistinct.distinctNames closing rfl hselected
  exact ⟨model, selected, p, h, hnames, hdistinct.distinctNames, rfl, hselected, hp, hreplaces⟩

/-- A list without keys that can be written. -/
def journal : List Source.Module :=
  [{ name := "net", modulePrefix := none, namespaceUri := none, revision := none,
     description := none, typedefs := [], groupings := [], augments := [], rpcs := []
     data := [⟨.list [], "entry", none, none, none, [leafOf "text" "string"], []⟩] }]

theorem link_journal : ∃ model, link journal = .ok model :=
  exists_ok_of_isSome (by decide +kernel)

/-- In `journal` the operation that adds an entry replaces the one that creates the list. -/
theorem journal_replaced : ∃ model selected p doc, link journal = .ok model ∧
    model.PlainNames ['/', '{', '}', '=', ':', ','] ∧ model.DistinctNames ∧
    closing.useModuleName = true ∧ selectedModules closing model = .ok selected ∧
    selected.foldlM (emitModule closing model) {} = .ok p ∧ generate closing model = .ok doc ∧
    p.places = [("/config/net:entry/", .get), ("/config/net:entry/", .put),
      ("/config/net:entry/", .post), ("/config/net:entry/", .delete),
      ("/config/net:entry/", .post)] ∧
    ¬ p.places.Nodup ∧ doc.operations.length < p.emitted.length := by
  obtain ⟨model, h⟩ := link_journal
  have hnames : model.PlainNames ['/', '{', '}', '=', ':', ','] := of_decide_eq_true <|
    map_of_ok h (f := fun model => decide (model.PlainNames ['/', '{', '}', '=', ':', ',']))
      (b := true) (by decide +kernel)
  have hdistinct : model.DistinctEverywhere := of_decide_eq_true <|
    map_of_ok h (f := fun model => decide model.DistinctEverywhere) (b := true) (by decide +kernel)
  obtain ⟨selected, hselected⟩ := exists_ok_of_isSome <|
    map_of_ok h (f := fun model => (selectedModules closing model).toOption.isSome) (b := true)
      (by decide +kernel)
  have hplaces := map_of_ok h (f := fun model => (selectedModules closing model).toOption.bind
      fun selected => (selected.foldlM (emitModule closing model) {}).toOption.map (·.places))
    (b := some [("/config/net:entry/", .get), ("/config/net:entry/", .put),
      ("/config/net:entry/", .post), ("/config/net:entry/", .delete),
      ("/config/net:entry/", .post)]) (by decide +kernel)
  have hlength := map_of_ok h (f := fun model =>
      (generate closing model).toOption.map (·.operations.length)) (b := some 4) (by decide +kernel)
  rw [hselected] at hplaces
  obtain ⟨p, hp, hplaces⟩ := Option.map_eq_some_iff.1 hplaces
  obtain ⟨doc, hdoc, hlength⟩ := Option.map_eq_some_iff.1 hlength
  have hemitted : p.emitted.length = p.places.length := (List.length_map _).symm
  refine ⟨model, selected, p, doc, h, hnames, hdistinct.distinctNames, rfl, hselected, ?_, ?_,
    hplaces, ?_, ?_⟩
  · exact eq_ok_of_toOption hp
  · exact eq_ok_of_toOption hdoc
  · rw [hplaces]
    decide
  · rw [hemitted, hplaces, hlength]
    decide

end RestSpec
