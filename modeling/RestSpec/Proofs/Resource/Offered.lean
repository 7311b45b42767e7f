/-
Which operations a document offers. A container or list is offered if a way leads down to it from a
data root of a selected module and the containers and lists that the way goes through are fewer than
the depth that is asked for; a remote call is offered by its module. The walk through a module emits
just what is offered, each part what lies below it, and no pass adds, removes or moves an operation.
-/
import RestSpec.Proofs.Generate

namespace RestSpec

open Document DataModel

/-! ## What is offered -/

/-- A way down to a node, with the containers and lists that it goes through before. A node that
`isTransparent` is passed without notice, and nothing else has children that data shows. -/
inductive DataModel.Way (model : DataModel) : NodeId → List NodeId → NodeId → Prop
  | here {id : NodeId} : Way model id [] id
  | past {a c id : NodeId} {above : List NodeId} : (model.node a).kind.isTransparent = true →
      c ∈ (model.node a).children → Way model c above id → Way model a above id
  | through {a c id : NodeId} {above : List NodeId} : (model.node a).kind.isResource = true →
      c ∈ (model.node a).children → Way model c above id → Way model a (a :: above) id

theorem DataModel.Way.resources {model : DataModel} {root id : NodeId} {above : List NodeId}
    (h : model.Way root above id) : ∀ a ∈ above, (model.node a).kind.isResource = true := by
  induction h with
  | here => exact nofun
  | past _ _ _ ih => exact ih
  | through hresource _ _ ih => exact List.forall_mem_cons.2 ⟨hresource, ih⟩

/-- The route that `toNode` lays over nodes, one below the other. -/
def Route.over (model : DataModel) (start : Route) (ids : List NodeId) : Route :=
  ids.foldl (Route.toNode model) start

/-- A walk from the node `root` comes to a container or list, on a route that goes on from `start`,
as far as `maxDepth` allows. -/
inductive Settings.Visits (s : Settings) (model : DataModel) (start : Route) (level : Nat)
    (root : NodeId) : Route → NodeId → Prop
  | node {id : NodeId} {above : List NodeId} : model.Way root above id →
      (model.node id).kind.isResource = true →
      (∀ limit, s.maxDepth = some limit → level + above.length < limit) →
      Visits s model start level root (Route.over model start (above ++ [id])) id

/-- What `toNode` keeps for containers and lists, a walk keeps: it holds of the route above what it
`Visits`. -/
theorem Settings.Visits.above {s : Settings} {model : DataModel} {R : Route → Prop}
    (hstep : ∀ (above : Route) (id : NodeId), R above → (model.node id).kind.isResource = true →
      R (above.toNode model id))
    {start route : Route} {level : Nat} {root id : NodeId}
    (h : s.Visits model start level root route id) (hstart : R start) :
    ∃ above : Route, R above ∧ (model.node id).kind.isResource = true ∧
      route = above.toNode model id := by
  obtain @⟨_, ids, hway, hresource, -⟩ := h
  have hover : ∀ (ids : List NodeId) (start : Route), R start →
      (∀ a ∈ ids, (model.node a).kind.isResource = true) → R (Route.over model start ids) := by
    intro ids
    induction ids with
    | nil => exact fun _ hstart _ => hstart
    | cons a ids ih =>
      intro start hstart hids
      obtain ⟨ha, hids⟩ := List.forall_mem_cons.1 hids
      exact ih _ (hstep start a hstart ha) hids
  refine ⟨Route.over model start ids, hover ids start hstart hway.resources, hresource, ?_⟩
  unfold Route.over
  rw [List.foldl_append]
  rfl

/-- What is offered of a container or list that a route leads to: `get`, and of configuration also
the other methods, as far as the settings ask for them. -/
inductive Settings.OffersAt (s : Settings) (model : DataModel) (route : Route) (id : NodeId) :
    String → Method → Prop
  | get : OffersAt s model route id (s.dataPath route) .get
  | write {m : Method} : s.fullCrud = true → (model.node id).config = true →
      m = .put ∨ m = .post ∨ m = .delete ∨ m = .patch ∧ s.patch = true →
      OffersAt s model route id (s.dataPath route) m
  | entry : s.fullCrud = true → (model.node id).config = true →
      (model.node id).kind.isList = true → OffersAt s model route id (s.listPath route) .post

/-- What is offered, by `OffersAt`, of a node and of all below it, at the end of a route of length
`level`. -/
inductive Settings.OffersBelow (s : Settings) (model : DataModel) (start : Route) (level : Nat)
    (root : NodeId) (path : String) (m : Method) : Prop
  | node {id : NodeId} {above : List NodeId} : model.Way root above id →
      (model.node id).kind.isResource = true →
      (∀ limit, s.maxDepth = some limit → level + above.length < limit) →
      s.OffersAt model (Route.over model start (above ++ [id])) id path m →
      OffersBelow s model start level root path m

/-- What is offered of a module: `OffersBelow` of each data root, and a `post` for each rpc. -/
inductive Settings.Offers (s : Settings) (model : DataModel) (home : Module) :
    String → Method → Prop
  | data {root : NodeId} {path : String} {m : Method} : s.generates .data = true →
      root ∈ home.data → s.OffersBelow model [] 0 root path m → Offers s model home path m
  | call {call : NodeId} : s.generates .rpc = true → call ∈ home.rpcs →
      Offers s model home (s.callPath model call) .post

theorem offersAt_iff {s : Settings} {model : DataModel} {route : Route} {id : NodeId}
    {path : String} {m : Method} : s.OffersAt model route id path m ↔
      s.dataPath route = path ∧ .get = m ∨
        (s.fullCrud && (model.node id).config) = true ∧
          (s.dataPath route = path ∧
              (m = .put ∨ m = .post ∨ m = .delete ∨ m = .patch ∧ s.patch = true) ∨
            (model.node id).kind.isList = true ∧ s.listPath route = path ∧ .post = m) := by
  rw [Bool.and_eq_true]
  constructor
  · intro h
    cases h with
    | get => exact .inl ⟨rfl, rfl⟩
    | write hcrud hconfig hm => exact .inr ⟨⟨hcrud, hconfig⟩, .inl ⟨rfl, hm⟩⟩
    | entry hcrud hconfig hlist => exact .inr ⟨⟨hcrud, hconfig⟩, .inr ⟨hlist, rfl, rfl⟩⟩
  · rintro (⟨rfl, rfl⟩ | ⟨⟨hcrud, hconfig⟩, ⟨rfl, hm⟩ | ⟨hlist, rfl, rfl⟩⟩)
    · exact .get
    · exact .write hcrud hconfig hm
    · exact .entry hcrud hconfig hlist

theorem DataModel.Kind.isResource_of_isTransparent {k : Kind} (h : k.isTransparent = true) :
    k.isResource = false := by
  cases k <;> first | rfl | cases h

section Below

variable {s : Settings} {model : DataModel} {start : Route} {level : Nat} {id : NodeId}

/-- A walk looks through a node that `isTransparent`: it `Visits` what its children do. -/
theorem visits_transparent (h : (model.node id).kind.isTransparent = true) {route : Route}
    {x : NodeId} : s.Visits model start level id route x ↔
      ∃ c ∈ (model.node id).children, s.Visits model start level c route x := by
  have hnot := Kind.isResource_of_isTransparent h
  constructor
  · rintro ⟨hway, hresource, hlimit⟩
    cases hway with
    | here => exact nomatch hresource.symm.trans hnot
    | past _ hc hway => exact ⟨_, hc, hway, hresource, hlimit⟩
    | through hresource' _ _ => exact nomatch hresource'.symm.trans hnot
  · rintro ⟨c, hc, hway, hresource, hlimit⟩
    exact ⟨.past h hc hway, hresource, hlimit⟩

/-- A walk `Visits` nothing below `maxDepth`. -/
theorem not_visits_of_le {limit : Nat} (hlimit : s.maxDepth = some limit) (hle : limit ≤ level)
    {route : Route} {x : NodeId} : ¬ s.Visits model start level id route x := by
  rintro ⟨-, -, hlt⟩
  exact absurd (hlt limit hlimit) (by omega)

/-- A walk `Visits` a container or list itself, and what lies in it, one level further down. -/
theorem visits_resource (h : (model.node id).kind.isResource = true)
    (hlt : ∀ limit, s.maxDepth = some limit → level < limit) {route : Route} {x : NodeId} :
    s.Visits model start level id route x ↔ route = start.toNode model id ∧ x = id ∨
      ∃ c ∈ (model.node id).children,
        s.Visits model (start.toNode model id) (level + 1) c route x := by
  constructor
  · rintro ⟨hway, hresource, hlimit⟩
    cases hway with
    | here => exact .inl ⟨rfl, rfl⟩
    | past htransparent _ _ =>
      exact nomatch h.symm.trans (Kind.isResource_of_isTransparent htransparent)
    | @through _ c _ above _ hc hway =>
      refine .inr ⟨c, hc, hway, hresource, fun limit hl => ?_⟩
      have := hlimit limit hl
      rw [List.length_cons] at this
      omega
  · rintro (⟨rfl, rfl⟩ | ⟨c, hc, hway, hresource, hlimit⟩)
    · exact ⟨.here, h, hlt⟩
    · refine ⟨.through h hc hway, hresource, fun limit hl => ?_⟩
      have := hlimit limit hl
      rw [List.length_cons]
      omega

/-- A walk `Visits` nothing from a node that is neither a resource nor transparent. -/
theorem not_visits (htransparent : (model.node id).kind.isTransparent ≠ true)
    (hresource : (model.node id).kind.isResource ≠ true) {route : Route} {x : NodeId} :
    ¬ s.Visits model start level id route x := by
  rintro ⟨hway, h, -⟩
  cases hway with
  | here => exact hresource h
  | past h _ _ => exact htransparent h
  | through h _ _ => exact hresource h

variable {path : String} {m : Method}

/-- What the settings offer below a node is what `OffersAt` says of the nodes that a walk
`Visits`. -/
theorem offersBelow_iff : s.OffersBelow model start level id path m ↔
    ∃ route x, s.Visits model start level id route x ∧ s.OffersAt model route x path m := by
  constructor
  · rintro ⟨hway, hresource, hlimit, hoffers⟩
    exact ⟨_, _, ⟨hway, hresource, hlimit⟩, hoffers⟩
  · rintro ⟨_, _, ⟨hway, hresource, hlimit⟩, hoffers⟩
    exact ⟨hway, hresource, hlimit, hoffers⟩

/-- `OffersBelow` a node that `isTransparent` is what the settings offer below its children. -/
theorem offersBelow_transparent (h : (model.node id).kind.isTransparent = true) :
    s.OffersBelow model start level id path m ↔
      ∃ c ∈ (model.node id).children, s.OffersBelow model start level c path m := by
  simp only [offersBelow_iff, visits_transparent h]
  exact ⟨fun ⟨route, x, ⟨c, hc, hvisits⟩, hoffers⟩ => ⟨c, hc, route, x, hvisits, hoffers⟩,
    fun ⟨c, hc, route, x, hvisits, hoffers⟩ => ⟨route, x, ⟨c, hc, hvisits⟩, hoffers⟩⟩

/-- `OffersBelow` a container or list is `OffersAt` it, and what lies in it, one level further
down. -/
theorem offersBelow_resource (h : (model.node id).kind.isResource = true)
    (hlt : ∀ limit, s.maxDepth = some limit → level < limit) :
    s.OffersBelow model start level id path m ↔
      s.OffersAt model (start.toNode model id) id path m ∨
        ∃ c ∈ (model.node id).children,
          s.OffersBelow model (start.toNode model id) (level + 1) c path m := by
  simp only [offersBelow_iff, visits_resource h hlt]
  constructor
  · rintro ⟨route, x, ⟨rfl, rfl⟩ | ⟨c, hc, hvisits⟩, hoffers⟩
    · exact .inl hoffers
    · exact .inr ⟨c, hc, route, x, hvisits, hoffers⟩
  · rintro (hoffers | ⟨c, hc, route, x, hvisits, hoffers⟩)
    · exact ⟨_, _, .inl ⟨rfl, rfl⟩, hoffers⟩
    · exact ⟨route, x, .inr ⟨c, hc, hvisits⟩, hoffers⟩

end Below

/-! ## What has been emitted -/

/-- An operation in `emitted` has the path and the method. -/
def Progress.Emits (p : Progress) (path : String) (m : Method) : Prop :=
  ∃ e ∈ p.emitted, e.path = path ∧ e.method = m

/-- Just the operations of `offers` have been emitted on the way from one `Progress` to the
other. -/
def Progress.Gains (p p' : Progress) (offers : String → Method → Prop) : Prop :=
  ∀ path m, p'.Emits path m ↔ p.Emits path m ∨ offers path m

section Gains

variable {p p' p'' : Progress} {offers offers' : String → Method → Prop}

theorem Progress.Gains.refl (p : Progress) : p.Gains p fun _ _ => False :=
  fun _ _ => (or_false _).symm.to_iff

theorem Progress.Gains.trans (h : p.Gains p' offers) (h' : p'.Gains p'' offers') :
    p.Gains p'' fun path m => offers path m ∨ offers' path m := fun path m => by
  rw [h' path m, h path m, or_assoc]

theorem Progress.Gains.congr (h : p.Gains p' offers)
    (heq : ∀ path m, offers path m ↔ offers' path m) : p.Gains p' offers' := fun path m => by
  rw [h path m, heq path m]

theorem Progress.gains_emit (p : Progress) (path : String) (m : Method) (names : List String)
    (op : Operation) :
    p.Gains (p.emit path m names op) fun path' m' => path = path' ∧ m = m' := fun path' m' => by
  unfold Emits emit
  simp only [List.mem_append, List.mem_singleton, or_and_right, exists_or, exists_eq_left]

end Gains

theorem gains_foldlM {α : Type} {f : Progress → α → Except CompileError Progress}
    {offers : α → String → Method → Prop} :
    ∀ (l : List α) (p p' : Progress),
      (∀ a ∈ l, ∀ p p', f p a = .ok p' → p.Gains p' (offers a)) → l.foldlM f p = .ok p' →
      p.Gains p' fun path m => ∃ a ∈ l, offers a path m
  | [], p, p', _, h => by
    cases h
    exact (Progress.Gains.refl p).congr fun path m => by simp
  | a :: l, p, p', hstep, h => by
    rw [List.foldlM_cons] at h
    obtain ⟨p₁, ha, h⟩ := bind_eq_ok.1 h
    refine ((hstep a List.mem_cons_self p p₁ ha).trans (gains_foldlM l p₁ p'
      (fun b hb => hstep b (List.mem_cons_of_mem _ hb)) h)).congr fun path m => ?_
    rw [List.exists_mem_cons_iff]

/-! ## Emitting -/

section Emit

variable {s : Settings} {model : DataModel} {p p' : Progress}

/-- To change the `definitions` emits nothing. -/
theorem Progress.gains_definitions (p : Progress) (defs : Definitions) :
    p.Gains { p with definitions := defs } fun _ _ => False :=
  fun _ _ => (or_false _).symm.to_iff

/-- `isWritable` is for configuration, if the settings ask for full CRUD. -/
theorem isWritable_toNode (s : Settings) (model : DataModel) (start : Route) (id : NodeId) :
    isWritable s (start.toNode model id) = (s.fullCrud && (model.node id).config) := by
  unfold isWritable Route.toNode
  rw [List.getLast?_concat]
  unfold Route.segmentOf
  simp

theorem emitWrites_gains (s : Settings) (model : DataModel) (route : Route) (id : NodeId)
    (schema : Schema) (p : Progress) :
    p.Gains (emitWrites s model route id schema p) fun path m => s.dataPath route = path ∧
      (m = .put ∨ m = .post ∨ m = .delete ∨ m = .patch ∧ s.patch = true) := by
  have hput := p.gains_emit (s.dataPath route) .put (route.map (·.name))
    ((subjectAt model route id).put schema)
  have hpost := hput.trans (Progress.gains_emit _ (s.dataPath route) .post (route.map (·.name))
    ((subjectAt model route id).post schema))
  have hdelete := hpost.trans (Progress.gains_emit _ (s.dataPath route) .delete
    (route.map (·.name)) (subjectAt model route id).delete)
  unfold emitWrites
  dsimp only
  split
  · rename_i hpatch
    refine (hdelete.trans (Progress.gains_emit _ _ _ _ _)).congr fun path m => ?_
    simp only [hpatch, and_true, ← and_or_left, or_assoc, eq_comm (b := m)]
  · rename_i hpatch
    refine hdelete.congr fun path m => ?_
    simp only [hpatch, Bool.false_eq_true, and_false, or_false, ← and_or_left, or_assoc,
      eq_comm (b := m)]

/-- `emitData` emits just what `OffersAt` says of the node. -/
theorem emitData_gains {start : Route} {id : NodeId}
    (h : emitData s model (start.toNode model id) id p = .ok p') :
    p.Gains p' (s.OffersAt model (start.toNode model id) id) := by
  unfold emitData at h
  obtain ⟨⟨defs, schema⟩, -, h⟩ := bind_eq_ok.1 h
  dsimp only at h
  rw [isWritable_toNode] at h
  generalize start.toNode model id = route at h ⊢
  have hread : p.Gains (emitRead s model route id schema { p with definitions := defs })
      fun path m => s.dataPath route = path ∧ .get = m :=
    ((p.gains_definitions defs).trans (Progress.gains_emit _ _ _ _ _)).congr
      fun _ _ => by rw [false_or]
  cases hwritable : s.fullCrud && (model.node id).config with
  | false =>
    rw [hwritable] at h
    cases h
    refine hread.congr fun path m => ?_
    rw [offersAt_iff, hwritable]
    simp only [Bool.false_eq_true, false_and, or_false]
  | true =>
    rw [hwritable] at h
    cases h
    have hwrites := hread.trans (emitWrites_gains s model route id schema _)
    split
    · rename_i hlist
      refine (hwrites.trans (Progress.gains_emit _ _ _ _ _)).congr fun path m => ?_
      rw [offersAt_iff, hwritable]
      simp only [hlist, true_and, or_assoc]
    · rename_i hlist
      refine hwrites.congr fun path m => ?_
      rw [offersAt_iff, hwritable]
      simp only [hlist, false_and, or_false, true_and, Bool.false_eq_true]

theorem emitCall_gains {call : NodeId} (h : emitCall s model call p = .ok p') :
    p.Gains p' fun path m => s.callPath model call = path ∧ .post = m := by
  unfold emitCall at h
  obtain ⟨⟨defs, input, output⟩, -, h⟩ := bind_eq_ok.1 h
  cases h
  exact ((p.gains_definitions defs).trans (Progress.gains_emit _ _ _ _ _)).congr
    fun _ _ => by rw [false_or]

/-! ## Walking a module -/

theorem tooDeep_iff {level : Nat} :
    (s.maxDepth.map fun limit => decide (limit ≤ level)).getD false = true ↔
      ∃ limit, s.maxDepth = some limit ∧ limit ≤ level := by
  cases s.maxDepth <;> simp

mutual

theorem emitTree_gains (s : Settings) (model : DataModel) :
    ∀ (t : Tree) (start : Route) (level : Nat) (p p' : Progress), TreeOf model t →
      emitTree s model start level t p = .ok p' → p.Gains p' (s.OffersBelow model start level t.id)
  | .node id children, start, level, p, p', .node hids hbelow, h => by
    have hchildren : ∀ {start level path m},
        (∃ t ∈ children, s.OffersBelow model start level t.id path m) ↔
          ∃ c ∈ (model.node id).children, s.OffersBelow model start level c path m := by
      intro start level path m
      rw [← hids]
      simp only [List.mem_map, exists_exists_and_eq_and]
    unfold emitTree at h
    dsimp only at h
    split at h
    · rename_i htransparent
      refine (emitTrees_gains s model children start level p p' hbelow h).congr fun path m => ?_
      rw [hchildren]
      exact (offersBelow_transparent htransparent).symm
    · rename_i htransparent
      split at h
      · rename_i hresource
        split at h
        · rename_i hdeep
          obtain ⟨limit, hlimit, hle⟩ := tooDeep_iff.1 hdeep
          cases h
          exact (Progress.Gains.refl p).congr fun path m =>
            iff_of_false not_false fun hoffers =>
              let ⟨_, _, hvisits, _⟩ := offersBelow_iff.1 hoffers
              not_visits_of_le hlimit hle hvisits
        · rename_i hdeep
          obtain ⟨p₁, hdata, h⟩ := bind_eq_ok.1 h
          refine ((emitData_gains hdata).trans
            (emitTrees_gains s model children _ (level + 1) p₁ p' hbelow h)).congr fun path m => ?_
          rw [hchildren]
          refine (offersBelow_resource hresource fun limit hlimit => ?_).symm
          exact Nat.lt_of_not_le fun hle => hdeep (tooDeep_iff.2 ⟨limit, hlimit, hle⟩)
      · rename_i hresource
        cases h
        exact (Progress.Gains.refl p).congr fun path m =>
          iff_of_false not_false fun hoffers =>
            let ⟨_, _, hvisits, _⟩ := offersBelow_iff.1 hoffers
            not_visits htransparent hresource hvisits

theorem emitTrees_gains (s : Settings) (model : DataModel) :
    ∀ (ts : List Tree) (start : Route) (level : Nat) (p p' : Progress),
      (∀ t ∈ ts, TreeOf model t) → emitTrees s model start level ts p = .ok p' →
      p.Gains p' fun path m => ∃ t ∈ ts, s.OffersBelow model start level t.id path m
  | [], start, level, p, p', _, h => by
    cases h
    exact (Progress.Gains.refl p).congr fun path m => by simp
  | t :: ts, start, level, p, p', hts, h => by
    rw [emitTrees] at h
    obtain ⟨p₁, ht, h⟩ := bind_eq_ok.1 h
    refine ((emitTree_gains s model t start level p p₁ (hts t List.mem_cons_self) ht).trans
      (emitTrees_gains s model ts start level p₁ p'
        (fun t ht => hts t (List.mem_cons_of_mem _ ht)) h)).congr fun path m => ?_
    rw [List.exists_mem_cons_iff]

end

theorem emitRoots_gains (hm : model.Linked) {home : Module}
    (h : emitRoots s model home p = .ok p') :
    p.Gains p' fun path m => s.generates .data = true ∧
      ∃ root ∈ home.data, s.OffersBelow model [] 0 root path m := by
  unfold emitRoots at h
  split at h
  · rename_i hdata
    refine (emitTrees_gains s model _ [] 0 p p' (fun t ht => ?_) h).congr fun path m => ?_
    · obtain ⟨root, -, rfl⟩ := List.mem_map.1 ht
      exact hm.treeOf root
    · simp only [List.mem_map, exists_exists_and_eq_and, tree_id, hdata, true_and]
  · rename_i hdata
    cases h
    exact (Progress.Gains.refl p).congr fun path m => by simp [hdata]

theorem emitCalls_gains {home : Module} (h : emitCalls s model home p = .ok p') :
    p.Gains p' fun path m => s.generates .rpc = true ∧
      ∃ call ∈ home.rpcs, s.callPath model call = path ∧ .post = m := by
  unfold emitCalls at h
  split at h
  · rename_i hrpc
    refine (gains_foldlM _ p p' (fun call _ p p' h => emitCall_gains h) h).congr fun path m => ?_
    simp only [hrpc, true_and]
  · rename_i hrpc
    cases h
    exact (Progress.Gains.refl p).congr fun path m => by simp [hrpc]

theorem offers_iff {home : Module} {path : String} {m : Method} :
    s.Offers model home path m ↔
      (s.generates .data = true ∧ ∃ root ∈ home.data, s.OffersBelow model [] 0 root path m) ∨
        s.generates .rpc = true ∧ ∃ call ∈ home.rpcs, s.callPath model call = path ∧ .post = m := by
  constructor
  · intro h
    cases h with
    | data hdata hroot hoffers => exact .inl ⟨hdata, _, hroot, hoffers⟩
    | call hrpc hcall => exact .inr ⟨hrpc, _, hcall, rfl, rfl⟩
  · rintro (⟨hdata, root, hroot, hoffers⟩ | ⟨hrpc, call, hcall, rfl, rfl⟩)
    · exact .data hdata hroot hoffers
    · exact .call hrpc hcall

theorem emitModule_gains (hm : model.Linked) {home : Module}
    (h : emitModule s model p home = .ok p') : p.Gains p' (s.Offers model home) := by
  unfold emitModule at h
  obtain ⟨p₁, hroots, hcalls⟩ := bind_eq_ok.1 h
  exact ((emitRoots_gains hm hroots).trans (emitCalls_gains hcalls)).congr
    fun _ _ => offers_iff.symm

end Emit

/-! ## The document -/

/-- The `document` of what has been emitted has an operation just where a `Progress` emits one. -/
theorem Progress.operation?_document (p : Progress) {start : Document}
    (hstart : ∀ path m, start.operation? path m = none) (path : String) (m : Method) :
    ((p.document start).operation? path m).isSome = true ↔ p.Emits path m := by
  have hfold : ∀ (es : List Emission) (doc : Document),
      ((es.foldl (fun doc e => doc.addOperation e.path e.method e.operation) doc).operation?
        path m).isSome = true ↔
        (doc.operation? path m).isSome = true ∨ ∃ e ∈ es, e.path = path ∧ e.method = m := by
    intro es
    induction es with
    | nil => simp
    | cons e es ih =>
      intro doc
      rw [List.foldl_cons, ih, operation?_addOperation, List.exists_mem_cons_iff, ← or_assoc]
      refine or_congr_left ?_
      split
      · rename_i hsame
        simp [hsame]
      · rename_i hother
        simp [hother]
  refine (hfold p.emitted start).trans ?_
  rw [hstart]
  simp [Emits]

theorem Document.Reworks.isSome_iff {doc doc' : Document} (h : doc.Reworks doc') (path : String)
    (m : Method) : (doc'.operation? path m).isSome = true ↔ (doc.operation? path m).isSome = true := by
  obtain ⟨f, hf⟩ := h
  rw [hf, Option.isSome_map]

theorem selectedModules_eq {s : Settings} {model : DataModel} {selected : List Module}
    (h : selectedModules s model = .ok selected) : selected =
      if s.modules.isEmpty then model.modules
      else model.modules.filter fun m => s.modules.contains m.name := by
  unfold selectedModules at h
  dsimp only at h
  split at h
  · cases h
  obtain ⟨-, -, h⟩ := bind_eq_ok.1 h
  split
  · rename_i hall
    simp only [if_pos hall] at h
    split at h
    · cases h
    · exact (Except.ok.inj h).symm
  · rename_i hall
    simp only [if_neg hall] at h
    split at h
    · cases h
    · exact (Except.ok.inj h).symm

theorem mem_selectedModules {s : Settings} {model : DataModel} {selected : List Module}
    (h : selectedModules s model = .ok selected) {home : Module} :
    home ∈ selected ↔ home ∈ model.modules ∧ (s.modules = [] ∨ home.name ∈ s.modules) := by
  rw [selectedModules_eq h]
  split
  · rename_i hall
    simp [List.isEmpty_iff.1 hall]
  · rename_i hall
    simp [List.mem_filter, mt List.isEmpty_iff.2 hall]

theorem selectedModules_sublist {s : Settings} {model : DataModel} {selected : List Module}
    (h : selectedModules s model = .ok selected) : selected.Sublist model.modules := by
  rw [selectedModules_eq h]
  split
  · exact List.Sublist.refl _
  · exact List.filter_sublist

theorem generate_eq {s : Settings} {model : DataModel} {selected : List Module}
    (h : selectedModules s model = .ok selected) :
    generate s model = generateSelected s model selected := by
  unfold generate
  rw [h]
  rfl

/-- `generateSelected` makes the document that passes leave of all that has been emitted, if it is
closed. -/
theorem generateSelected_eq_ok {s : Settings} {model : DataModel} {selected : List Module}
    {doc : Document} : generateSelected s model selected = .ok doc ↔
      ∃ p, selected.foldlM (emitModule s model) {} = .ok p ∧
        doc = Pass.runAll s.security s.passes (p.document (heading s selected)) ∧
        doc.dangling? = none := by
  unfold generateSelected rawDocument Document.check
  cases selected.foldlM (emitModule s model) {} with
  | error e => simp [bind, Except.bind]
  | ok p =>
    simp only [bind, Except.bind, pure, Except.pure, Except.ok.injEq, exists_eq_left']
    split
    · rename_i herror
      split at herror
      · rename_i hsome
        refine iff_of_false nofun fun ⟨heq, hnone⟩ => ?_
        rw [heq, hsome] at hnone
        cases hnone
      · cases herror
    · rename_i hok
      split at hok
      · cases hok
      · rename_i hnone
        constructor
        · rintro ⟨⟩
          exact ⟨rfl, hnone⟩
        · rintro ⟨rfl, -⟩
          rfl

/-- The document of `generateSelected` has an operation just where one has been emitted, whatever
passes run. -/
theorem operation?_generateSelected {s : Settings} {model : DataModel} {selected : List Module}
    {p : Progress} (hp : selected.foldlM (emitModule s model) {} = .ok p) {doc : Document}
    (hdoc : generateSelected s model selected = .ok doc) (path : String) (m : Method) :
    (doc.operation? path m).isSome = true ↔ p.Emits path m := by
  obtain ⟨p', hp', rfl, -⟩ := generateSelected_eq_ok.1 hdoc
  obtain rfl := Except.ok.inj (hp.symm.trans hp')
  rw [(runAll_reworks s.security s.passes _).isSome_iff]
  exact p.operation?_document (fun _ _ => rfl) path m

/-- `generate` makes a document whenever `selectedModules` accepts the settings, and its operations
are those that the selected modules `Offers`, whatever passes run. -/
theorem generate_offers {sources : List Source.Module} {model : DataModel}
    (h : link sources = .ok model) (s : Settings) {selected : List Module}
    (hselected : selectedModules s model = .ok selected) :
    ((∀ m ∈ sources, Char.ofNat 0 ∉ m.name.toList) → ∃ doc, generate s model = .ok doc) ∧
      ∀ doc, generate s model = .ok doc → ∀ path m,
        (∃ op, (path, m, op) ∈ doc.operations) ↔
          ∃ home ∈ model.modules, (s.modules = [] ∨ home.name ∈ s.modules) ∧
            s.Offers model home path m := by
  obtain ⟨hm, -⟩ := linked_of_link h
  refine ⟨fun hnul => ?_, fun doc hdoc path m => ?_⟩
  · obtain ⟨doc, hdoc, -⟩ := generateSelected_ok s hm (nulFree_moduleNames h hnul) selected
    exact ⟨doc, by unfold generate; rw [hselected]; exact hdoc⟩
  · unfold generate at hdoc
    rw [hselected] at hdoc
    obtain ⟨raw, hraw, hdoc⟩ := bind_eq_ok.1 (show generateSelected s model selected = .ok doc from hdoc)
    obtain ⟨-, -, hret⟩ := bind_eq_ok.1 hdoc
    cases hret
    obtain ⟨p, hp, hret⟩ := bind_eq_ok.1 hraw
    cases hret
    have hgains := gains_foldlM selected {} p (fun _ _ _ _ h => emitModule_gains hm h) hp
    simp only [mem_operations_iff, ← Option.isSome_iff_exists]
    rw [(runAll_reworks s.security s.passes _).isSome_iff,
      p.operation?_document (fun _ _ => rfl), hgains path m]
    have hnone : ¬ Progress.Emits {} path m := nofun
    simp only [hnone, false_or, mem_selectedModules hselected, and_assoc]

/-- The settings of a document that shows two levels of the module `net` and has `get` alone. -/
def shallow : Settings := { modules := ["net"], maxDepth := some 2, fullCrud := false }

theorem generate_offers_sharing : ∃ model doc, link sharing = .ok model ∧
    generate shallow model = .ok doc ∧ ∀ path m,
      (∃ op, (path, m, op) ∈ doc.operations) ↔
        ∃ home ∈ model.modules, (shallow.modules = [] ∨ home.name ∈ shallow.modules) ∧
          shallow.Offers model home path m := by
  obtain ⟨model, h⟩ := link_sharing
  have hselected : ((link sharing).toOption.map fun model =>
      (selectedModules shallow model).toOption.isSome) = some true := by decide +kernel
  obtain ⟨selected, hselected⟩ := exists_ok_of_isSome (map_of_ok h hselected)
  obtain ⟨hexists, hoffers⟩ := generate_offers h shallow hselected
  obtain ⟨doc, hdoc⟩ := hexists (by decide)
  exact ⟨model, doc, h, hdoc, hoffers doc hdoc⟩

end RestSpec
