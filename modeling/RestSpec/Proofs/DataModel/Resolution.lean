/-
What paths lead to in modules that are linked. The targets of augments are looked for while the
modules grow, each in what all modules and the augments before it have made; references to leaves
are followed in the end. At every such point roots have the name of their module, so the walks say
what is found. Of two nodes of one name that different modules put next to each other, the first is
taken, whichever of them a path means.
-/
import RestSpec.Proofs.DataModel.PathWalks
import RestSpec.Proofs.DataModel.Substitution

namespace RestSpec.DataModel

/-! ## Roots belong to their modules -/

/-- All roots belong to the modules that list them, by the `moduleName` of their labels. -/
def AtHome (forest : List ModuleTrees) : Prop :=
  ∀ trees ∈ forest, ∀ s ∈ trees.data ++ trees.rpcs, s.label.moduleName = trees.name

section AtHome

variable {sources : List Source.Module} {forest : List ModuleTrees}

theorem Expands.moduleName {placed home : String} {body : Source.Body} {shapes : List Shape}
    (h : Expands sources placed home body shapes) :
    ∀ s ∈ shapes, s.label.moduleName = placed := by
  induction h with
  | nil => exact nofun
  | child _ _ _ ih => exact List.forall_mem_cons.2 ⟨rfl, ih⟩
  | use _ _ _ _ ihblock ih => exact List.forall_mem_append.2 ⟨ihblock, ih⟩

theorem atHome_of_expands (h : List.Forall₂ (ExpandsModule sources) sources forest) :
    AtHome forest := by
  intro trees htrees s hs
  obtain ⟨m, -, hexpands⟩ := forall₂_mem_left h.flip trees htrees
  rw [hexpands.name]
  rcases List.mem_append.1 hs with hs | hs
  · exact hexpands.data.moduleName s hs
  · obtain ⟨rpc, -, hrpc⟩ := forall₂_mem_left hexpands.rpcs.flip s hs
    cases hrpc
    rfl

/-- The name of a module and the labels of its roots, `data` before `rpcs`. -/
def ModuleTrees.tops (trees : ModuleTrees) : String × List Label :=
  (trees.name, (trees.data ++ trees.rpcs).map Shape.label)

theorem ModuleTrees.tops_graft (added : List Shape) (root : String) (names : List String)
    (trees : ModuleTrees) : (trees.graft added root names).tops = trees.tops := by
  unfold graft tops
  split <;> simp only [List.map_append, map_onFirst (Shape.label_graft added names)]

/-- `graftForest` leaves roots `AtHome`, since it changes no `tops`. -/
theorem AtHome.graft (h : AtHome forest) (added : List Shape) (path : List (String × String)) :
    AtHome (graftForest added path forest) := by
  have htops : (graftForest added path forest).map ModuleTrees.tops =
      forest.map ModuleTrees.tops := by
    cases path with
    | nil => rfl
    | cons step path => exact map_onFirst (ModuleTrees.tops_graft added _ _) forest
  intro trees htrees s hs
  have hmem : trees.tops ∈ forest.map ModuleTrees.tops := htops ▸ List.mem_map_of_mem htrees
  obtain ⟨trees', htrees', hsame⟩ := List.mem_map.1 hmem
  obtain ⟨hname, hlabels⟩ := Prod.mk.inj hsame
  obtain ⟨s', hs', hlabel⟩ := List.mem_map.1 (hlabels ▸ List.mem_map_of_mem hs)
  rw [← hname, ← hlabel]
  exact h trees' htrees' s' hs'

end AtHome

/-! ## On the way of linking -/

/-- The draft after `addModule` for all sources and `placeAugment` for the augments `done`, each
with the module it is written in. -/
def draftAfter (sources : List Source.Module) (done : List (String × Source.Augment)) :
    Except SchemaError Draft := do
  let d ← sources.foldlM (addModule sources) { model := { modules := sources.map emptyModule } }
  done.foldlM (fun d x => Draft.placeAugment sources x.1 d x.2) d

section Stages

variable {sources : List Source.Module} {model : DataModel}

theorem foldlM_addAugments_eq : ∀ (modules : List Source.Module) (d : Draft),
    modules.foldlM (addAugments sources) d =
      (placedAugments modules).foldlM (fun d x => Draft.placeAugment sources x.1 d x.2) d
  | [], _ => rfl
  | m :: rest, d => by
    have hplaced : placedAugments (m :: rest) =
        m.augments.map (fun a => (m.name, a)) ++ placedAugments rest := List.flatMap_cons
    rw [List.foldlM_cons, hplaced, List.foldlM_append, List.foldlM_map]
    exact bind_congr fun d' => foldlM_addAugments_eq rest d'

theorem stage_of_staged (hnames : (sources.map (·.name)).Nodup) {d : Draft}
    (h : Draft.Staged sources d.model.size d) {forest : List ModuleTrees}
    (hshows : d.model.ShowsForest forest) (hhome : AtHome forest) : Stage sources d.model := by
  have hroots : ∀ m ∈ d.model.modules, ∀ r ∈ m.data ++ m.rpcs, r ∈ d.model.roots :=
    fun m hm r hr => List.mem_flatMap.2 ⟨m, hm, hr⟩
  refine ⟨h.sound.coherent.linked, h.sound.modules ▸ hnames, h.faithful.heads,
    fun m hm r hr => h.parentless r (hroots m hm r hr),
    fun m hm r hr => (h.sound.rooted r (hroots m hm r hr)).kind, fun m hm r hr => ?_⟩
  obtain ⟨trees, htrees, hmodule⟩ := forall₂_mem_left hshows m.outline (List.mem_map_of_mem hm)
  have hshown : ∃ s ∈ trees.data ++ trees.rpcs, d.model.Shows r s := by
    rcases List.mem_append.1 hr with hr | hr
    · obtain ⟨s, hs, hshow⟩ := hmodule.data.exists_shows r hr
      exact ⟨s, List.mem_append_left _ hs, hshow⟩
    · obtain ⟨s, hs, hshow⟩ := hmodule.rpcs.exists_shows r hr
      exact ⟨s, List.mem_append_right _ hs, hshow⟩
  obtain ⟨s, hs, hshow⟩ := hshown
  exact (congrArg Label.moduleName hshow.label).trans ((hhome trees htrees s hs).trans hmodule.name)

theorem foldlM_placeAugment_stage (hnames : (sources.map (·.name)).Nodup) :
    ∀ (done : List (String × Source.Augment)) (d d' : Draft) (forest : List ModuleTrees),
      (∀ x ∈ done, x.1 ∈ sources.map (·.name)) → Draft.Staged sources d.model.size d →
      d.model.ShowsForest forest → AtHome forest →
      done.foldlM (fun d x => Draft.placeAugment sources x.1 d x.2) d = .ok d' →
      Stage sources d'.model
  | [], d, d', forest, _, h, hshows, hhome, hok => by
    cases hok
    exact stage_of_staged hnames h hshows hhome
  | x :: done, d, d', forest, hdone, h, hshows, hhome, hok => by
    obtain ⟨hx, hdone⟩ := List.forall_mem_cons.1 hdone
    rw [List.foldlM_cons] at hok
    obtain ⟨d₁, hstep, hok⟩ := bind_eq_ok.1 hok
    obtain ⟨path, ss, -, -, haugmented, hshows₁⟩ :=
      Draft.placeAugment_augmented hx h hshows hstep
    exact foldlM_placeAugment_stage hnames done d₁ d' _ hdone haugmented.after hshows₁
      (hhome.graft ss path) hok

/-- `link` goes through `draftAfter` each prefix of `placedAugments`; each of these drafts is a
`Stage`, and the last one holds the linked model. -/
theorem draftAfter_of_link (h : link sources = .ok model) {done : List (String × Source.Augment)}
    (hdone : done <+: placedAugments sources) :
    ∃ d, draftAfter sources done = .ok d ∧ Stage sources d.model ∧
      (done = placedAugments sources → d.model = model) ∧
      ∀ home a rest, placedAugments sources = done ++ (home, a) :: rest →
        ∃ t, resolveTarget d.model home a.target = .ok t := by
  obtain ⟨rest, hplaced⟩ := hdone
  unfold link at h
  split at h
  · cases h
  · rename_i hrepeated
    obtain ⟨hnames, -⟩ := Draft.nodup_of_firstRepeated _ [] hrepeated
    obtain ⟨d₁, hmodules, h⟩ := bind_eq_ok.1 h
    obtain ⟨d₂, haugments, h⟩ := bind_eq_ok.1 h
    cases h
    rw [foldlM_addAugments_eq, ← hplaced, List.foldlM_append] at haugments
    obtain ⟨d, hd, hrest⟩ := bind_eq_ok.1 haugments
    obtain ⟨hstart, hshows⟩ := Draft.staged_start sources
    obtain ⟨forest, hexpands, hstaged, hshows₁⟩ := Draft.foldlM_addModule hnames sources [] [] _ d₁
      rfl .nil hstart hshows hmodules
    have hready : Draft.Staged sources d₁.model.size d₁ :=
      ⟨hstaged.sound, hstaged.faithful.since (Nat.zero_le _), hstaged.parentless, hstaged.distinct⟩
    have hmem : ∀ x ∈ done, x.1 ∈ sources.map (·.name) := by
      intro x hx
      have hx : x ∈ placedAugments sources := hplaced ▸ List.mem_append_left _ hx
      obtain ⟨m, hm, hx⟩ := List.mem_flatMap.1 hx
      obtain ⟨a, -, rfl⟩ := List.mem_map.1 hx
      exact List.mem_map_of_mem hm
    have hstage := foldlM_placeAugment_stage hnames done d₁ d forest hmem hready hshows₁
      (atHome_of_expands hexpands) hd
    refine ⟨d, bind_eq_ok.2 ⟨d₁, hmodules, hd⟩, hstage, fun hall => ?_,
      fun home a rest' hnext => ?_⟩
    · obtain rfl : rest = [] := List.append_right_eq_self.1 (hplaced.trans hall.symm)
      cases hrest
      rfl
    · obtain rfl := List.append_cancel_left (hplaced.trans hnext)
      rw [List.foldlM_cons] at hrest
      obtain ⟨d', hplace, -⟩ := bind_eq_ok.1 hrest
      obtain ⟨r, hadd, -⟩ := bind_eq_ok.1 hplace
      obtain ⟨t, ht, -⟩ := bind_eq_ok.1 hadd
      exact ⟨t, ht⟩

end Stages

/-! ## What paths lead to -/

/-- In each draft of `draftAfter`, where the target of an augment is looked for, and in the linked
model, where references to leaves are followed, paths `Resolves`: what a path leads to has the names
of the path on its `trail` from a root of the module that the path starts with, each the first of
its name, whatever modules the other parts say; and it is a node that the path means, by modules and
names, just if the `chain` of that node starts at a root and is made of first ones too. -/
theorem link_resolves {sources : List Source.Module} {model : DataModel}
    (h : link sources = .ok model) :
    (∀ done, done <+: placedAugments sources → ∃ d, draftAfter sources done = .ok d ∧
      (done = placedAugments sources → d.model = model) ∧
      (∀ home a rest, placedAugments sources = done ++ (home, a) :: rest →
        ∃ t, resolveTarget d.model home a.target = .ok t) ∧
      ∀ home target parts, Spells (targetSegments target) parts →
        (targetWalk sources d.model).Resolves d.model
          (fun t => isAugmentable (d.model.node t).kind) parts
          (resolveTarget d.model home target).toOption) ∧
    ∀ path segments parts, absoluteSegments? path = some segments → Spells segments parts →
      ∀ home start, (leafWalk model).Resolves model (fun _ => true) parts
        (model.followPath? path home start) := by
  refine ⟨fun done hdone => ?_, fun path segments parts habs hspells home start => ?_⟩
  · obtain ⟨d, hd, hstage, hall, hnext⟩ := draftAfter_of_link h hdone
    exact ⟨d, hd, hall, hnext, fun home target parts hspells => hstage.resolves_target home hspells⟩
  · obtain ⟨d, -, hstage, hall, -⟩ := draftAfter_of_link h (List.prefix_refl _)
    obtain rfl := hall rfl
    exact hstage.resolves_path habs hspells home start

/-- Modules in which `ext` puts nodes next to those of `net` under the same local names, then
augments one of its own and refers to another. -/
def overlaid : List Source.Module :=
  [{ name := "net", modulePrefix := none, namespaceUri := none, revision := none,
     description := none, typedefs := [], groupings := [], rpcs := [], augments := []
     data := [containerOf "top" [containerOf "item" [] [], leafOf "size" "string"] []] },
   { name := "ext", modulePrefix := none, namespaceUri := none, revision := none,
     description := none, typedefs := [], groupings := [], rpcs := []
     data := [⟨.leaf ⟨.restricted "leafref" [] (some "/net:top/ext:size") none [], false, none⟩,
       "limit", none, none, none, [], []⟩]
     augments := [⟨"/net:top", none, ⟨[containerOf "item" [] [], leafOf "size" "uint32"], []⟩⟩,
       ⟨"/net:top/ext:item", none, ⟨[leafOf "note" "string"], []⟩⟩] }]

theorem link_overlaid : ∃ model, link overlaid = .ok model :=
  exists_ok_of_isSome (by decide +kernel)

/-- There is a draft after the first augment of `overlaid`, in which the target of the second is
looked for. -/
theorem draftAfter_overlaid :
    ∃ d, draftAfter overlaid ((placedAugments overlaid).take 1) = .ok d :=
  exists_ok_of_isSome (by decide +kernel)

/-- In `overlaid` the paths with the prefix of `net` lead to the nodes of `net`, for `resolveTarget`
as for `followPath?`. -/
theorem link_resolves_overlaid : ∃ model d, link overlaid = .ok model ∧
    draftAfter overlaid ((placedAugments overlaid).take 1) = .ok d ∧
    (resolveTarget d.model "ext" "/net:top/net:item").toOption = some 1 ∧
    (∃ m ∈ d.model.modules, (targetWalk overlaid d.model).Follows d.model
      [("net", "top"), ("net", "item")] m 1) ∧
    model.followPath? "/net:top/net:size" "ext" 3 = some 2 ∧
    ∃ m ∈ model.modules, (leafWalk model).Follows model [("net", "top"), ("net", "size")] m 2 := by
  obtain ⟨model, h⟩ := link_overlaid
  obtain ⟨d, hd⟩ := draftAfter_overlaid
  obtain ⟨htargets, hpaths⟩ := link_resolves h
  obtain ⟨d', hd', -, -, htargets⟩ := htargets _ (List.take_prefix 1 (placedAugments overlaid))
  obtain rfl := Except.ok.inj (hd.symm.trans hd')
  -- the target of an augment
  have htarget := htargets "ext" "/net:top/net:item" [("net", "top"), ("net", "item")]
    (.cons ⟨by decide, rfl⟩ (.cons ⟨by decide, rfl⟩ .nil))
  obtain ⟨m, hm, hleading, hmatches, hkind⟩ := of_decide_eq_true <| map_of_ok hd
    (f := fun d => decide (∃ m ∈ d.model.modules,
      (targetWalk overlaid d.model).Leading d.model m (d.model.chain 1) ∧
      (targetWalk overlaid d.model).Matches d.model [("net", "top"), ("net", "item")] 1 ∧
      isAugmentable (d.model.node 1).kind = true)) (b := true) (by decide +kernel)
  have hitem := (htarget.meant 1 hmatches).2 ⟨hkind, m, hm, hleading⟩
  -- a reference to a leaf
  have hpath := hpaths "/net:top/net:size" ["net:top", "net:size"]
    [("net", "top"), ("net", "size")] (by decide +kernel)
    (.cons ⟨by decide, rfl⟩ (.cons ⟨by decide, rfl⟩ .nil)) "ext" 3
  obtain ⟨m', hm', hleading', hmatches'⟩ := of_decide_eq_true <| map_of_ok h
    (f := fun model => decide (∃ m ∈ model.modules,
      (leafWalk model).Leading model m (model.dataChain 2) ∧
      (leafWalk model).Matches model [("net", "top"), ("net", "size")] 2))
    (b := true) (by decide +kernel)
  have hsize := (hpath.meant 2 hmatches').2 ⟨rfl, m', hm', hleading'⟩
  exact ⟨model, d, h, hd, hitem, (htarget.follows 1 hitem).2, hsize, (hpath.follows 2 hsize).2⟩

/-- A module with a leaf below a `choice` at the top, and another leaf that refers to it. -/
def sheltered : List Source.Module :=
  [{ name := "net", modulePrefix := none, namespaceUri := none, revision := none,
     description := none, typedefs := [], groupings := [], rpcs := [], augments := []
     data := [⟨.choice, "mode", none, none, none,
         [⟨.case, "fast", none, none, none, [containerOf "box" [leafOf "size" "uint32"] []], []⟩], []⟩,
       ⟨.leaf ⟨.restricted "leafref" [] (some "/net:box/net:size") none [], false, none⟩,
         "limit", none, none, none, [], []⟩] }]

theorem link_sheltered : ∃ model, link sheltered = .ok model :=
  exists_ok_of_isSome (by decide +kernel)

/-- In `overlaid`, paths with the prefix of the second module mean its nodes, and lead to those of
the first that stand before them; in `sheltered`, the path means the leaf, and leads to nothing. -/
theorem overlaid_elsewhere : (∃ model d, link overlaid = .ok model ∧
    placedAugments overlaid = (placedAugments overlaid).take 1 ++
      [("ext", ⟨"/net:top/ext:item", none, ⟨[leafOf "note" "string"], []⟩⟩)] ∧
    draftAfter overlaid ((placedAugments overlaid).take 1) = .ok d ∧
    Spells (targetSegments "/net:top/ext:item") [("net", "top"), ("ext", "item")] ∧
    (∃ m ∈ d.model.modules, (d.model.chain 5).head? = m.data.head?) ∧
    (targetWalk overlaid d.model).Matches d.model [("net", "top"), ("ext", "item")] 5 ∧
    isAugmentable (d.model.node 5).kind = true ∧
    resolveTarget d.model "ext" "/net:top/ext:item" = .ok 1 ∧
    ¬ (targetWalk overlaid d.model).Matches d.model [("net", "top"), ("ext", "item")] 1 ∧
    absoluteSegments? "/net:top/ext:size" = some ["net:top", "ext:size"] ∧
    Spells ["net:top", "ext:size"] [("net", "top"), ("ext", "size")] ∧
    (∃ m ∈ model.modules, (model.dataChain 6).head? = m.data.head?) ∧
    (leafWalk model).Matches model [("net", "top"), ("ext", "size")] 6 ∧
    model.followPath? "/net:top/ext:size" "ext" 3 = some 2 ∧
    ¬ (leafWalk model).Matches model [("net", "top"), ("ext", "size")] 2) ∧
  ∃ model, link sheltered = .ok model ∧
    absoluteSegments? "/net:box/net:size" = some ["net:box", "net:size"] ∧
    Spells ["net:box", "net:size"] [("net", "box"), ("net", "size")] ∧
    (leafWalk model).Matches model [("net", "box"), ("net", "size")] 3 ∧
    model.followPath? "/net:box/net:size" "net" 4 = none := by
  constructor
  · obtain ⟨model, h⟩ := link_overlaid
    obtain ⟨d, hd⟩ := draftAfter_overlaid
    obtain ⟨htop, hmeant, hkind, htarget, hmissed⟩ := of_decide_eq_true <| map_of_ok hd
      (f := fun d => decide ((∃ m ∈ d.model.modules, (d.model.chain 5).head? = m.data.head?) ∧
        (targetWalk overlaid d.model).Matches d.model [("net", "top"), ("ext", "item")] 5 ∧
        isAugmentable (d.model.node 5).kind = true ∧
        (resolveTarget d.model "ext" "/net:top/ext:item").toOption = some 1 ∧
        ¬ (targetWalk overlaid d.model).Matches d.model [("net", "top"), ("ext", "item")] 1))
      (b := true) (by decide +kernel)
    obtain ⟨htop', hmeant', hpath, hmissed'⟩ := of_decide_eq_true <| map_of_ok h
      (f := fun model => decide ((∃ m ∈ model.modules, (model.dataChain 6).head? = m.data.head?) ∧
        (leafWalk model).Matches model [("net", "top"), ("ext", "size")] 6 ∧
        model.followPath? "/net:top/ext:size" "ext" 3 = some 2 ∧
        ¬ (leafWalk model).Matches model [("net", "top"), ("ext", "size")] 2))
      (b := true) (by decide +kernel)
    exact ⟨model, d, h, rfl, hd, .cons ⟨by decide, rfl⟩ (.cons ⟨by decide, rfl⟩ .nil), htop,
      hmeant, hkind, eq_ok_of_toOption htarget, hmissed, by decide +kernel,
      .cons ⟨by decide, rfl⟩ (.cons ⟨by decide, rfl⟩ .nil), htop', hmeant', hpath, hmissed'⟩
  · obtain ⟨model, h⟩ := link_sheltered
    obtain ⟨hmeant, hpath⟩ := of_decide_eq_true <| map_of_ok h
      (f := fun model => decide ((leafWalk model).Matches model [("net", "box"), ("net", "size")] 3 ∧
        model.followPath? "/net:box/net:size" "net" 4 = none)) (b := true) (by decide +kernel)
    exact ⟨model, h, by decide +kernel, .cons ⟨by decide, rfl⟩ (.cons ⟨by decide, rfl⟩ .nil),
      hmeant, hpath⟩

end RestSpec.DataModel
