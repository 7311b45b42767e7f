/-
Linking from statement to statement. Between two statements at the top of a module the draft is
faithful to its sources, its roots are distinct and stand at the top, and they show the forest that
has grown so far: a root is added to the trees of its module, an augment grafts, and nothing else
changes what is shown.
-/
import RestSpec.Proofs.DataModel.Target

namespace RestSpec.DataModel

open Relation (ReflTransGen)

/-! ## Forests that are shown -/

/-- The roots that an `Outline` lists show the trees of a module. -/
structure ShowsModule (model : DataModel) (o : Outline) (trees : ModuleTrees) : Prop where
  name : trees.name = o.name
  data : model.ShowsAll o.data trees.data
  rpcs : model.ShowsAll o.rpcs trees.rpcs

/-- The modules of a model show the trees of a forest, module by module. -/
def ShowsForest (model : DataModel) (forest : List ModuleTrees) : Prop :=
  List.Forall₂ model.ShowsModule model.outlines forest

/-- Changes the trees of the modules of a name. -/
def updateTrees (name : String) (change : ModuleTrees → ModuleTrees) (forest : List ModuleTrees) :
    List ModuleTrees :=
  forest.map fun trees => if trees.name == name then change trees else trees

section Forests

variable {model model' : DataModel}

theorem mem_roots {r : NodeId} :
    r ∈ model.roots ↔ ∃ o ∈ model.outlines, r ∈ o.data ++ o.rpcs := by
  unfold roots outlines
  constructor
  · intro h
    obtain ⟨m, hm, hr⟩ := List.mem_flatMap.1 h
    exact ⟨m.outline, List.mem_map.2 ⟨m, hm, rfl⟩, hr⟩
  · rintro ⟨o, ho, hr⟩
    obtain ⟨m, hm, rfl⟩ := List.mem_map.1 ho
    exact List.mem_flatMap.2 ⟨m, hm, hr⟩

theorem roots_of_outlines (h : model'.outlines = model.outlines) : model'.roots = model.roots := by
  have hroots : ∀ model : DataModel,
      model.roots = model.outlines.flatMap fun o => o.data ++ o.rpcs := fun model => by
    unfold roots outlines
    rw [List.flatMap_map]
    rfl
  rw [hroots, hroots, h]

theorem ShowsModule.imp {o : Outline} {trees : ModuleTrees} (h : model.ShowsModule o trees)
    (himp : ∀ r ∈ o.data ++ o.rpcs, ∀ s, model.Shows r s → model'.Shows r s) :
    model'.ShowsModule o trees :=
  ⟨h.name, h.data.imp fun r hr => himp r (List.mem_append_left _ hr),
    h.rpcs.imp fun r hr => himp r (List.mem_append_right _ hr)⟩

/-- As long as the `outlines` and what the roots show are the same, `ShowsForest` is. -/
theorem ShowsForest.imp {forest : List ModuleTrees} (h : model.ShowsForest forest)
    (houtlines : model'.outlines = model.outlines)
    (himp : ∀ r ∈ model.roots, ∀ s, model.Shows r s → model'.Shows r s) :
    model'.ShowsForest forest := by
  unfold ShowsForest
  rw [houtlines]
  exact forall₂_imp_mem h fun o ho trees _ hshows =>
    hshows.imp fun r hr => himp r (mem_roots.2 ⟨o, ho, hr⟩)

theorem updateTrees_updateTrees (name : String) {change change' : ModuleTrees → ModuleTrees}
    (hname : ∀ trees, (change trees).name = trees.name) (forest : List ModuleTrees) :
    updateTrees name change' (updateTrees name change forest) =
      updateTrees name (fun trees => change' (change trees)) forest := by
  unfold updateTrees
  rw [List.map_map]
  refine List.map_congr_left fun trees _ => ?_
  rw [Function.comp_apply]
  by_cases h : trees.name == name
  · rw [if_pos h, if_pos h, hname, if_pos h]
  · rw [if_neg h, if_neg h, if_neg h]

theorem updateTrees_of_ne {name : String} {change : ModuleTrees → ModuleTrees}
    {forest : List ModuleTrees} (h : ∀ trees ∈ forest, trees.name ≠ name) :
    updateTrees name change forest = forest := by
  unfold updateTrees
  refine (List.map_congr_left fun trees ht => ?_).trans (List.map_id _)
  rw [if_neg fun heq => h trees ht (beq_iff_eq.1 heq)]
  rfl

end Forests

namespace Draft

variable {d d' d'' : Draft} {sources : List Source.Module} {since : NodeId}

/-! ## Between two statements -/

/-- A draft between two statements at the top; no augment has touched a node from `since` on. -/
structure Staged (sources : List Source.Module) (since : NodeId) (d : Draft) : Prop where
  sound : d.Sound (sources.map (·.name))
  faithful : Faithful ⟨sources, since, d.model.outlines⟩ d
  parentless : ∀ r ∈ d.model.roots, (d.node r).parent = none
  distinct : d.model.roots.Nodup

/-- A draft stays `Staged` when it `Grows` without touching old nodes. -/
theorem Staged.grows (h : Staged sources since d) (hc : d'.Coherent fun _ => False)
    (hf : Faithful ⟨sources, since, d.model.outlines⟩ d') (hg : Grows (fun _ => False) d d') :
    Staged sources since d' ∧
      ∀ forest, d.model.ShowsForest forest → d'.model.ShowsForest forest := by
  have houtlines : d'.model.outlines = d.model.outlines := hf.outlines
  have hroots := roots_of_outlines houtlines
  have hsame : SameBelow d.model d'.model fun x => 0 ≤ x ∧ x < d.model.size :=
    hg.sameBelow h.sound.coherent fun _ hx => hx.elim
  refine ⟨⟨h.sound.later hc hg.later, houtlines.symm ▸ hf, fun r hr => ?_, hroots ▸ h.distinct⟩,
    fun forest hshows => hshows.imp houtlines fun r hr s hs => ?_⟩
  · rw [hroots] at hr
    rw [hg.parent (h.sound.rooted r hr).lt]
    exact h.parentless r hr
  · exact hs.frame hsame ⟨Nat.zero_le r, (h.sound.rooted r hr).lt⟩

theorem foldlM_provide {m : Source.Module} :
    ∀ (groupings : List Source.Grouping) (d d' : Draft), Staged sources since d →
      groupings.foldlM (fun d g => do
        let (d, _) ← provideGrouping sources [] ⟨m.name, g.name⟩ ("/" ++ m.name) d
        return d) d = .ok d' →
      Staged sources since d' ∧
        ∀ forest, d.model.ShowsForest forest → d'.model.ShowsForest forest
  | [], d, d', h, hok => by
    cases hok
    exact ⟨h, fun _ hshows => hshows⟩
  | g :: rest, d, d', h, hok => by
    rw [List.foldlM_cons] at hok
    obtain ⟨d₁, hstep, hok⟩ := bind_eq_ok.1 hok
    obtain ⟨⟨d₂, id⟩, hprovided, hret⟩ := bind_eq_ok.1 hstep
    cases hret
    have hs := provideGrouping_serves ⟨sources, since, d.model.outlines⟩ []
    obtain ⟨hc, hg, -⟩ := hs.provides _ _ d d₁ id _ h.sound.coherent h.sound.modules hprovided
    obtain ⟨h₁, hshows₁⟩ :=
      h.grows hc (hs.faithful _ _ d d₁ id _ h.sound.coherent h.faithful hprovided) hg
    obtain ⟨h₂, hshows₂⟩ := foldlM_provide rest d₁ d' h₁ hok
    exact ⟨h₂, fun forest hshows => hshows₂ forest (hshows₁ forest hshows)⟩

/-! ## Roots -/

/-- Adding one element in the place of a key adds it to the whole. -/
theorem flatMap_insert_perm {α β κ : Type} [DecidableEq κ] (key : α → κ) (old new : α → List β)
    {k : κ} {b : β} (hnew : ∀ a, key a = k → (new a).Perm (b :: old a)) :
    ∀ {l : List α}, (l.map key).Nodup → k ∈ l.map key →
      (l.flatMap fun a => if key a = k then new a else old a).Perm (b :: l.flatMap old)
  | [], _, hk => by cases hk
  | a :: l, hnodup, hk => by
    rw [List.map_cons] at hnodup hk
    obtain ⟨hnot, hnodup⟩ := List.nodup_cons.1 hnodup
    rw [List.flatMap_cons, List.flatMap_cons]
    by_cases ha : key a = k
    · have hrest : (l.flatMap fun a => if key a = k then new a else old a) = l.flatMap old := by
        refine List.flatMap_congr fun x hx => if_neg fun hxk => hnot ?_
        rw [ha, ← hxk]
        exact List.mem_map.2 ⟨x, hx, rfl⟩
      rw [if_pos ha, hrest]
      exact (hnew a ha).append_right _
    · have hmem : k ∈ l.map key := (List.mem_cons.1 hk).resolve_left fun h => ha h.symm
      rw [if_neg ha]
      exact ((flatMap_insert_perm key old new hnew hnodup hmem).append_left _).trans List.perm_middle

/-- A change of a module that gives it one more root and leaves its name and prefix. -/
structure PlantsRoot (id : NodeId) (f : Module → Module) : Prop where
  head : ∀ m, (f m).name = m.name ∧ (f m).modulePrefix = m.modulePrefix
  roots : ∀ m, ((f m).data ++ (f m).rpcs).Perm (id :: (m.data ++ m.rpcs))

theorem Staged.plant (h : Staged sources since d) (hnames : (sources.map (·.name)).Nodup)
    {name : String} (hname : name ∈ sources.map (·.name)) {id : NodeId} {f : Module → Module}
    (hf : PlantsRoot id f) (hid : d.model.Rooted id) (htop : (d.node id).parent = none)
    (hnew : id ∉ d.model.roots) : Staged sources since (d.updateModule name f) := by
  have hroots : (d.updateModule name f).model.roots.Perm (id :: d.model.roots) := by
    rw [← h.sound.modules] at hnames hname
    have hperm := flatMap_insert_perm Module.name (fun m : Module => m.data ++ m.rpcs)
      (fun m => (f m).data ++ (f m).rpcs) (fun m _ => hf.roots m) hnames hname
    refine List.Perm.trans (List.Perm.of_eq ?_) hperm
    unfold DataModel.roots updateModule
    rw [List.flatMap_map]
    refine List.flatMap_congr fun m _ => ?_
    by_cases hm : m.name = name
    · rw [if_pos hm, if_pos (beq_iff_eq.2 hm)]
    · rw [if_neg hm, if_neg fun heq => hm (beq_iff_eq.1 heq)]
  have hheads : (d.updateModule name f).model.heads = d.model.heads := by
    unfold DataModel.heads outlines updateModule
    rw [List.map_map, List.map_map, List.map_map]
    refine List.map_congr_left fun m _ => ?_
    simp only [Function.comp_apply]
    split
    · obtain ⟨hname, hprefix⟩ := hf.head m
      unfold Module.outline Outline.head
      dsimp only
      rw [hname, hprefix]
    · rfl
  refine ⟨h.sound.updateModule hid fun m => ⟨(hf.head m).1, fun r hr => ?_⟩,
    h.faithful.ofNodes rfl hheads h.faithful.unfolds, fun r hr => ?_,
    hroots.nodup_iff.2 (List.nodup_cons.2 ⟨hnew, h.distinct⟩)⟩
  · rcases List.mem_cons.1 ((hf.roots m).mem_iff.1 hr) with rfl | hr
    · exact .inr rfl
    · exact .inl hr
  · rcases List.mem_cons.1 (hroots.mem_iff.1 hr) with rfl | hr
    · exact htop
    · exact h.parentless r hr

/-- A module that `updateModule` changes shows the changed trees. -/
theorem showsForest_updateModule {forest : List ModuleTrees} (h : d.model.ShowsForest forest)
    (name : String) {f : Module → Module} {change : ModuleTrees → ModuleTrees}
    (hf : ∀ m trees, d.model.ShowsModule m.outline trees →
      d.model.ShowsModule (f m).outline (change trees)) :
    (d.updateModule name f).model.ShowsForest (updateTrees name change forest) := by
  have hsame : SameBelow d.model (d.updateModule name f).model fun _ => True :=
    ⟨fun _ _ _ _ => trivial, fun _ _ => rfl, fun _ _ => rfl⟩
  unfold ShowsForest DataModel.outlines at h
  unfold ShowsForest DataModel.outlines updateTrees
  rw [List.forall₂_map_left_iff] at h ⊢
  show List.Forall₂ _ (d.model.modules.map fun m => if m.name == name then f m else m) _
  rw [List.forall₂_map_left_iff, List.forall₂_map_right_iff]
  refine h.imp fun m trees hshows => ?_
  suffices hsuffices : d.model.ShowsModule (if m.name == name then f m else m).outline
      (if trees.name == name then change trees else trees) from
    hsuffices.imp fun r _ s hs => hs.frame hsame trivial
  have hname : trees.name = m.name := hshows.name
  by_cases hm : m.name == name
  · rw [if_pos hm, hname, if_pos hm]
    exact hf m trees hshows
  · rw [if_neg hm, hname, if_neg hm]
    exact hshows

/-- Adds a root with `add`, and tells its module by `list`. -/
def addRoot {α : Type} (add : α → Draft → Except SchemaError (Draft × NodeId)) (name : String)
    (list : NodeId → Module → Module) (d : Draft) (x : α) : Except SchemaError Draft := do
  let (d, id) ← add x d
  return d.updateModule name (list id)

/-- A way to add a node at the top that shows what the added thing `stands` for. -/
def AddsRoots {α : Type} (sources : List Source.Module) (since : NodeId)
    (add : α → Draft → Except SchemaError (Draft × NodeId)) (stands : α → Shape → Prop) : Prop :=
  ∀ x d d' id, Staged sources since d → add x d = .ok (d', id) → ∃ kind, kind ≠ .grouping ∧
    id = d.model.size ∧ AddsNode (fun _ => False) none kind d d' ∧
    Faithful ⟨sources, since, d.model.outlines⟩ d' ∧
    ∃ s, d'.model.Shows id s ∧ stands x s

/-- How a module lists a root, and how `grow` lists the shape of it in its trees. -/
structure Lists (list : NodeId → Module → Module)
    (grow : List Shape → ModuleTrees → ModuleTrees) : Prop where
  plants : ∀ id, PlantsRoot id (list id)
  empty : ∀ trees, grow [] trees = trees
  cons : ∀ s ss trees, grow ss (grow [s] trees) = grow (s :: ss) trees
  name : ∀ ss trees, (grow ss trees).name = trees.name
  shows : ∀ (model : DataModel) m trees id s, model.ShowsModule m.outline trees →
    model.Shows id s → model.ShowsModule (list id m).outline (grow [s] trees)

theorem foldlM_addRoot {α : Type} {add : α → Draft → Except SchemaError (Draft × NodeId)}
    {stands : α → Shape → Prop} {list : NodeId → Module → Module}
    {grow : List Shape → ModuleTrees → ModuleTrees} (hadd : AddsRoots sources since add stands)
    (hlist : Lists list grow) (hnames : (sources.map (·.name)).Nodup) {name : String}
    (hname : name ∈ sources.map (·.name)) :
    ∀ (l : List α) (d d' : Draft) (forest : List ModuleTrees), Staged sources since d →
      d.model.ShowsForest forest → l.foldlM (addRoot add name list) d = .ok d' →
      ∃ ss, List.Forall₂ stands l ss ∧ Staged sources since d' ∧
        d'.model.ShowsForest (updateTrees name (grow ss) forest)
  | [], d, d', forest, h, hshows, hok => by
    cases hok
    refine ⟨[], .nil, h, ?_⟩
    have hsame : updateTrees name (grow []) forest = forest := by
      unfold updateTrees
      refine (List.map_congr_left fun trees _ => ?_).trans (List.map_id _)
      rw [hlist.empty]
      simp
    rw [hsame]
    exact hshows
  | x :: rest, d, d', forest, h, hshows, hok => by
    rw [List.foldlM_cons] at hok
    obtain ⟨d₁, hstep, hok⟩ := bind_eq_ok.1 hok
    obtain ⟨⟨d₂, id⟩, hx, hret⟩ := bind_eq_ok.1 hstep
    cases hret
    obtain ⟨kind, hkind, rfl, hadds, hf, s, hs, hstands⟩ := hadd x d d₂ id h hx
    obtain ⟨h₂, hshows₂⟩ :=
      h.grows hadds.coherent hf (hadds.grows.weaken fun _ _ hx => nomatch hx)
    have hnew : d.model.size ∉ d₂.model.roots := by
      rw [hadds.grows.roots]
      exact fun hmem => absurd (h.sound.rooted _ hmem).lt (Nat.lt_irrefl _)
    have h₃ := h₂.plant hnames hname (hlist.plants d.model.size) (hadds.rooted hkind) hadds.place
      hnew
    obtain ⟨ss, hrest, h', hshows'⟩ := foldlM_addRoot hadd hlist hnames hname rest _ d' _ h₃
      (showsForest_updateModule (hshows₂ forest hshows) name
        fun m trees hm => hlist.shows d₂.model m trees d.model.size s hm hs) hok
    refine ⟨s :: ss, .cons hstands hrest, h', ?_⟩
    rw [updateTrees_updateTrees name (hlist.name [s])] at hshows'
    have hgrow : (fun trees => grow ss (grow [s] trees)) = grow (s :: ss) :=
      funext (hlist.cons s ss)
    rwa [hgrow] at hshows'

/-! ## Modules -/

/-- The trees of a module with more data roots after the others. -/
def growData (ss : List Shape) (trees : ModuleTrees) : ModuleTrees :=
  { trees with data := trees.data ++ ss }

/-- The trees of a module with more remote calls after the others. -/
def growRpcs (ss : List Shape) (trees : ModuleTrees) : ModuleTrees :=
  { trees with rpcs := trees.rpcs ++ ss }

theorem lists_data : Lists (fun id m => { m with data := m.data ++ [id] }) growData := by
  refine ⟨fun id => ⟨fun _ => ⟨rfl, rfl⟩, fun m => ?_⟩, fun trees => ?_, fun s ss trees => ?_,
    fun _ _ => rfl, fun model m trees id s hm hs => ?_⟩
  · show (m.data ++ [id] ++ m.rpcs).Perm _
    rw [List.append_assoc]
    exact List.perm_middle
  · simp [growData]
  · simp [growData]
  · exact ⟨hm.name, hm.data.append (.cons hs .nil), hm.rpcs⟩

theorem lists_rpcs : Lists (fun id m => { m with rpcs := m.rpcs ++ [id] }) growRpcs := by
  refine ⟨fun id => ⟨fun _ => ⟨rfl, rfl⟩, fun m => ?_⟩, fun trees => ?_, fun s ss trees => ?_,
    fun _ _ => rfl, fun model m trees id s hm hs => ?_⟩
  · show (m.data ++ (m.rpcs ++ [id])).Perm _
    rw [← List.append_assoc]
    exact List.perm_append_singleton id _
  · simp [growRpcs]
  · simp [growRpcs]
  · exact ⟨hm.name, hm.data, hm.rpcs.append (.cons hs .nil)⟩

theorem addsRoots_data {m : Source.Module} (hm : m ∈ sources) :
    AddsRoots sources since (addStatement (provideGrouping sources []) m.name none)
      fun s shape => Expands sources m.name m.name ⟨[s], []⟩ [shape] := by
  intro s d d' id h hok
  have hname : m.name ∈ sources.map (·.name) := List.mem_map.2 ⟨m, hm, rfl⟩
  have hs := provideGrouping_serves ⟨sources, since, d.model.outlines⟩ []
  have htop : ∀ p, (none : Option NodeId) = some p → p < d.model.size ∧ ¬ d.Done p := nofun
  obtain ⟨rfl, hadds⟩ := addStatement_adds hs.provides hname s d d' h.sound.coherent
    h.sound.modules htop hok
  obtain ⟨hf, hshows⟩ := addStatement_shows hs hname s d d' h.sound.coherent h.faithful htop hok
  exact ⟨_, linkedKind_ne_grouping s.kind, rfl, hadds, hf, hshows⟩

theorem addsRoots_rpcs {m : Source.Module} (hm : m ∈ sources) :
    AddsRoots sources since (addRpc (provideGrouping sources []) m.name)
      (ExpandsRpc sources m.name) := by
  intro rpc d d' id h hok
  have hname : m.name ∈ sources.map (·.name) := List.mem_map.2 ⟨m, hm, rfl⟩
  have hs := provideGrouping_serves ⟨sources, since, d.model.outlines⟩ []
  obtain ⟨rfl, hadds⟩ := addRpc_adds hs.provides hname h.sound.coherent h.sound.modules hok
  obtain ⟨hf, hshows⟩ := addRpc_shows hs hname h.sound.coherent h.faithful hok
  exact ⟨.rpc, nofun, rfl, hadds, hf, hshows⟩

theorem expands_of_forall₂ {placed home : String} :
    ∀ {l : List Source.Statement} {ss : List Shape},
      List.Forall₂ (fun s shape => Expands sources placed home ⟨[s], []⟩ [shape]) l ss →
      Expands sources placed home ⟨l, []⟩ ss
  | [], [], .nil => .nil
  | _ :: _, _ :: _, .cons h hrest => by
    cases h with
    | child hbelow _ => exact .child hbelow (expands_of_forall₂ hrest)

theorem addModule_staged {m : Source.Module} (hm : m ∈ sources)
    (hnames : (sources.map (·.name)).Nodup) (h : Staged sources since d)
    {forest : List ModuleTrees} (hshows : d.model.ShowsForest forest)
    (hok : addModule sources d m = .ok d') :
    ∃ data rpcs, Expands sources m.name m.name ⟨m.data, []⟩ data ∧
      List.Forall₂ (ExpandsRpc sources m.name) m.rpcs rpcs ∧ Staged sources since d' ∧
      d'.model.ShowsForest
        (updateTrees m.name (fun trees => growRpcs rpcs (growData data trees)) forest) := by
  have hname : m.name ∈ sources.map (·.name) := List.mem_map.2 ⟨m, hm, rfl⟩
  unfold addModule at hok
  obtain ⟨d₁, hgroupings, hok⟩ := bind_eq_ok.1 hok
  obtain ⟨d₂, hdata, hrpcs⟩ := bind_eq_ok.1 hok
  obtain ⟨h₁, hshows₁⟩ := foldlM_provide m.groupings d d₁ h hgroupings
  obtain ⟨data, hexpands, h₂, hshows₂⟩ := foldlM_addRoot (addsRoots_data hm) lists_data hnames
    hname m.data d₁ d₂ forest h₁ (hshows₁ forest hshows) hdata
  obtain ⟨rpcs, hexpands', h₃, hshows₃⟩ := foldlM_addRoot (addsRoots_rpcs hm) lists_rpcs hnames
    hname m.rpcs d₂ d' _ h₂ hshows₂ hrpcs
  rw [updateTrees_updateTrees m.name (lists_data.name data)] at hshows₃
  exact ⟨data, rpcs, expands_of_forall₂ hexpands, hexpands', h₃, hshows₃⟩

/-- The trees of a module before anything of it is added: none. -/
def bareTrees (m : Source.Module) : ModuleTrees := ⟨m.name, [], []⟩

theorem foldlM_addModule (hnames : (sources.map (·.name)).Nodup) :
    ∀ (rest before : List Source.Module) (trees : List ModuleTrees) (d d' : Draft),
      sources = before ++ rest → List.Forall₂ (ExpandsModule sources) before trees →
      Staged sources since d → d.model.ShowsForest (trees ++ rest.map bareTrees) →
      rest.foldlM (addModule sources) d = .ok d' →
      ∃ forest, List.Forall₂ (ExpandsModule sources) sources forest ∧ Staged sources since d' ∧
        d'.model.ShowsForest forest
  | [], before, trees, d, d', hsources, htrees, h, hshows, hok => by
    cases hok
    rw [List.append_nil] at hsources
    rw [List.map_nil, List.append_nil] at hshows
    have hall : List.Forall₂ (ExpandsModule sources) sources trees := by
      have := htrees
      rwa [← hsources] at this
    exact ⟨trees, hall, h, hshows⟩
  | m :: rest, before, trees, d, d', hsources, htrees, h, hshows, hok => by
    rw [List.foldlM_cons] at hok
    obtain ⟨d₁, hstep, hok⟩ := bind_eq_ok.1 hok
    have hm : m ∈ sources := by rw [hsources]; simp
    obtain ⟨data, rpcs, hdata, hrpcs, h₁, hshows₁⟩ := addModule_staged hm hnames h hshows hstep
    have hdistinct := hnames
    rw [hsources, List.map_append, List.map_cons] at hdistinct
    obtain ⟨-, hlater, hdisjoint⟩ := List.nodup_append.1 hdistinct
    have hother : ∀ t ∈ trees, t.name ≠ m.name := by
      intro t ht hname
      obtain ⟨b, hb, hexpands⟩ := forall₂_mem_left htrees.flip t ht
      have hbm : b.name = m.name := hexpands.name.symm.trans hname
      exact hdisjoint b.name (List.mem_map.2 ⟨b, hb, rfl⟩) m.name List.mem_cons_self hbm
    have hrest : ∀ t ∈ rest.map bareTrees, t.name ≠ m.name := by
      intro t ht hname
      obtain ⟨r, hr, rfl⟩ := List.mem_map.1 ht
      exact (List.nodup_cons.1 hlater).1 (hname ▸ List.mem_map.2 ⟨r, hr, rfl⟩)
    -- the trees of the one module grow, between those that are complete and those that are bare
    have hgrown : updateTrees m.name (fun t => growRpcs rpcs (growData data t))
        (trees ++ (m :: rest).map bareTrees) =
          trees ++ [⟨m.name, data, rpcs⟩] ++ rest.map bareTrees := by
      have hself : updateTrees m.name (fun t => growRpcs rpcs (growData data t)) [bareTrees m] =
          [⟨m.name, data, rpcs⟩] := by
        simp [updateTrees, bareTrees, growRpcs, growData]
      have happend : ∀ l l' : List ModuleTrees,
          updateTrees m.name (fun t => growRpcs rpcs (growData data t)) (l ++ l') =
            updateTrees m.name (fun t => growRpcs rpcs (growData data t)) l ++
              updateTrees m.name (fun t => growRpcs rpcs (growData data t)) l' :=
        fun l l' => List.map_append
      rw [List.map_cons, ← List.singleton_append, happend, happend, hself,
        updateTrees_of_ne hother, updateTrees_of_ne hrest, List.append_assoc]
    rw [hgrown] at hshows₁
    exact foldlM_addModule hnames rest (before ++ [m]) _ d₁ d'
      (by rw [hsources, List.append_assoc]; rfl)
      (List.rel_append htrees (.cons ⟨rfl, hdata, hrpcs⟩ .nil)) h₁ hshows₁ hok

end Draft

end RestSpec.DataModel
