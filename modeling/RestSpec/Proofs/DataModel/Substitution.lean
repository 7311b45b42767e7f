/-
Linking is substitution. Once all modules are added, the roots show what the modules expand to, and
every augment that is applied grafts what its body stands for. So the forest of a linked model is
the one that its sources stand for.
-/
import RestSpec.Proofs.DataModel.Stages

namespace RestSpec.DataModel

open Relation (ReflTransGen)

namespace Draft

variable {d d' d'' : Draft} {sources : List Source.Module} {since t : NodeId}

/-! ## Grafts on forests -/

theorem any_name_of_showsAll {model : DataModel} {name : String} :
    ∀ {ids : List NodeId} {ss : List Shape}, model.ShowsAll ids ss →
      ss.any (·.name == name) = (ids.find? fun id => (model.node id).name == name).isSome
  | [], [], .nil => rfl
  | id :: ids, s :: ss, .cons h hs => by
    have hname : (model.node id).name = s.name := h.name
    rw [List.any_cons, List.find?_cons, hname, any_name_of_showsAll hs]
    cases s.name == name <;> rfl

section Grafted

variable {ss : List Shape} (h : Staged sources since d)
  (hg : Grafted ⟨sources, since, d.model.outlines⟩ t ss d d')

include h hg

/-- A root that the target does not lie `Beneath` shows what it showed. -/
theorem Grafted.shows_root {r y : NodeId} (hr : r ∈ d.model.roots) (ht : d.model.Beneath t r)
    (hy : y ∈ d.model.roots) (hne : y ≠ r) {s : Shape} (hs : d.model.Shows y s) :
    d'.model.Shows y s := by
  refine hg.shows_beside h.sound.coherent hs (h.sound.rooted y hy) fun hbeneath => hne ?_
  rcases ht.total hbeneath with hry | hyr
  · exact hry.eq_of_parentless (h.parentless r hr)
  · exact (hyr.eq_of_parentless (h.parentless y hy)).symm

theorem Grafted.showsModule {o : Outline} {trees : ModuleTrees} {root : String}
    {names : List String} {r : NodeId} (hroots : ∀ y ∈ o.data ++ o.rpcs, y ∈ d.model.roots)
    (hdistinct : (o.data ++ o.rpcs).Nodup)
    (hfind : (o.data ++ o.rpcs).find? (fun id => (d.model.node id).name == root) = some r)
    (hleads : d.model.Leads r names t) (hm : d.model.ShowsModule o trees) :
    d'.model.ShowsModule o (trees.graft ss root names) := by
  have hr : r ∈ d.model.roots := hroots r (List.mem_of_find?_eq_some hfind)
  have hrooted := h.sound.rooted r hr
  have hbeneath := h.sound.coherent.leads_beneath hleads hrooted
  have hchange : ∀ s, d.model.Shows r s → d'.model.Shows r (s.graft ss names) := fun s hs =>
    hg.shows_path h.sound.coherent h.faithful.distinct hleads hrooted hs
  have hother : ∀ y ∈ o.data ++ o.rpcs, y ≠ r → ∀ s, d.model.Shows y s → d'.model.Shows y s :=
    fun y hy hne s hs => hg.shows_root h hr hbeneath (hroots y hy) hne hs
  obtain ⟨hdata, hrpcs, hdisjoint⟩ := List.nodup_append.1 hdistinct
  unfold ModuleTrees.graft
  rw [any_name_of_showsAll hm.data]
  rw [List.find?_append] at hfind
  cases hin : o.data.find? fun id => (d.model.node id).name == root with
  | some x =>
    rw [hin] at hfind
    obtain rfl : x = r := Option.some.inj hfind
    have hmem := List.mem_of_find?_eq_some hin
    refine ⟨hm.name, shows_onFirst hchange hm.data hdata hin fun y hy =>
      hother y (List.mem_append_left _ hy), hm.rpcs.imp fun y hy => ?_⟩
    exact hother y (List.mem_append_right _ hy) fun heq => hdisjoint x hmem y hy heq.symm
  | none =>
    rw [hin] at hfind
    have hmem := List.mem_of_find?_eq_some hfind
    refine ⟨hm.name, hm.data.imp fun y hy => ?_, shows_onFirst hchange hm.rpcs hrpcs hfind
      fun y hy => hother y (List.mem_append_right _ hy)⟩
    exact hother y (List.mem_append_left _ hy) fun heq => hdisjoint y hy r hmem heq

/-- Adding below a root of the module of a name grafts on its trees, as `graftForest` does. -/
theorem Grafted.showsForest {moduleName root : String} {names : List String} {r : NodeId} :
    ∀ {os : List Outline} {forest : List ModuleTrees} {o : Outline},
      (∀ x ∈ os, ∀ y ∈ x.data ++ x.rpcs, y ∈ d.model.roots) →
      (os.flatMap fun x => x.data ++ x.rpcs).Nodup → os.find? (·.name == moduleName) = some o →
      (o.data ++ o.rpcs).find? (fun id => (d.model.node id).name == root) = some r →
      d.model.Leads r names t → List.Forall₂ d.model.ShowsModule os forest →
      List.Forall₂ d'.model.ShowsModule os
        (onFirst ModuleTrees.name moduleName (ModuleTrees.graft ss root names) forest)
  | [], [], _, _, _, ho, _, _, .nil => by cases ho
  | x :: os, trees :: forest, o, hroots, hdistinct, ho, hfind, hleads, .cons hx hrest => by
    rw [List.flatMap_cons] at hdistinct
    obtain ⟨hhere, hlater, hdisjoint⟩ := List.nodup_append.1 hdistinct
    have hname : trees.name = x.name := hx.name
    have hr : r ∈ d.model.roots := hroots o (List.mem_of_find?_eq_some ho) r
      (List.mem_of_find?_eq_some hfind)
    have hbeneath := h.sound.coherent.leads_beneath hleads (h.sound.rooted r hr)
    rw [List.find?_cons] at ho
    by_cases heq : x.name = moduleName
    · rw [beq_iff_eq.2 heq] at ho
      obtain rfl : x = o := Option.some.inj ho
      rw [onFirst_here (hname.trans heq)]
      refine .cons (hg.showsModule h (hroots x List.mem_cons_self) hhere hfind hleads hx)
        (forall₂_imp_mem hrest fun z hz ts _ hshows => hshows.imp fun y hy s hs => ?_)
      refine hg.shows_root h hr hbeneath (hroots z (List.mem_cons_of_mem _ hz) y hy) ?_ hs
      exact fun heq => hdisjoint r (List.mem_of_find?_eq_some hfind) y
        (List.mem_flatMap.2 ⟨z, hz, hy⟩) heq.symm
    · rw [beq_eq_false_iff_ne.2 heq] at ho
      have hmem : r ∈ os.flatMap fun x => x.data ++ x.rpcs :=
        List.mem_flatMap.2 ⟨o, List.mem_of_find?_eq_some ho, List.mem_of_find?_eq_some hfind⟩
      rw [onFirst_later fun h => heq (hname.symm.trans h)]
      refine .cons (hx.imp fun y hy s hs => ?_)
        (Grafted.showsForest (fun x hx => hroots x (List.mem_cons_of_mem _ hx)) hlater ho hfind
          hleads hrest)
      exact hg.shows_root h hr hbeneath (hroots x List.mem_cons_self y hy)
        (fun heq => hdisjoint y hy r hmem heq) hs

/-- Adding below a root that is found under a name `graftForest`s the forest that is shown. -/
theorem Grafted.grafts {moduleName root : String} {rest : List (String × String)} {m : Module}
    {r : NodeId} {forest : List ModuleTrees}
    (hmodule : d.model.modules.find? (·.name == moduleName) = some m)
    (hroot : (m.data ++ m.rpcs).find? (fun id => (d.model.node id).name == root) = some r)
    (hleads : d.model.Leads r (rest.map (·.2)) t) (hshows : d.model.ShowsForest forest) :
    d'.model.ShowsForest (graftForest ss ((moduleName, root) :: rest) forest) := by
  have hmember : ∀ o ∈ d.model.outlines, ∀ y ∈ o.data ++ o.rpcs, y ∈ d.model.roots :=
    fun o ho y hy => mem_roots.2 ⟨o, ho, hy⟩
  have hdistinct : (d.model.outlines.flatMap fun o => o.data ++ o.rpcs).Nodup := by
    unfold DataModel.outlines
    rw [List.flatMap_map]
    exact h.distinct
  have hfind : d.model.outlines.find? (·.name == moduleName) = some m.outline := by
    have hm : d.model.modules.find? (fun x => x.outline.name == moduleName) = some m := hmodule
    unfold DataModel.outlines
    rw [List.find?_map]
    exact congrArg (Option.map Module.outline) hm
  have houtlines : d'.model.outlines = d.model.outlines := hg.faithful.outlines
  unfold DataModel.ShowsForest
  rw [houtlines]
  exact hg.showsForest h hmember hdistinct hfind hroot hleads hshows

/-- A draft that an augment has changed is `Staged` again, if it is `Sound`. -/
theorem Grafted.staged (hsound : d'.Sound (sources.map (·.name))) :
    Staged sources d'.model.size d' := by
  have houtlines : d'.model.outlines = d.model.outlines := hg.faithful.outlines
  have hroots := roots_of_outlines houtlines
  refine ⟨hsound, ?_, fun r hr => ?_, hroots ▸ h.distinct⟩
  · rw [houtlines]
    exact hg.faithful.since hg.size
  · rw [hroots] at hr
    exact (hg.parent r (h.sound.rooted r hr).lt).trans (h.parentless r hr)

end Grafted

/-! ## Applying augments -/

/-- A draft with one more augment applied: both drafts are `Staged`. -/
structure Augmented (sources : List Source.Module) (d d' : Draft) : Prop where
  before : Staged sources d.model.size d
  after : Staged sources d'.model.size d'
  grafted : ∃ t ss, Grafted ⟨sources, d.model.size, d.model.outlines⟩ t ss d d' ∧
    ∃ r ∈ d.model.roots, ∃ names, d.model.Leads r names t

/-- Listing an augment at its module changes no node. -/
theorem Grafted.updateModule {σ : Setting} {ss : List Shape} (h : Grafted σ t ss d d')
    (name : String) {f : Module → Module} (hf : ∀ m, (f m).outline = m.outline) :
    Grafted σ t ss d (d'.updateModule name f) := by
  have hsame : SameBelow d'.model (d'.updateModule name f).model fun _ => True :=
    ⟨fun _ _ _ _ => trivial, fun _ _ => rfl, fun _ _ => rfl⟩
  obtain ⟨ids, hids, hbounds, hshows⟩ := h.grown
  exact ⟨h.faithful.updateModule name hf, h.size, h.label, h.parent, h.introduced, h.kept, h.copied,
    h.touched, ⟨ids, hids, hbounds, hshows.frame hsame fun _ _ => trivial⟩, h.listed, h.augment⟩

/-- A step of `addAugments`. -/
def placeAugment (sources : List Source.Module) (home : String) (d : Draft) (a : Source.Augment) :
    Except SchemaError Draft := do
  let (d, id) ← addAugment (provideGrouping sources []) home a d
  return d.updateModule home fun x => { x with augments := x.augments ++ [id] }

theorem placeAugment_augmented {home : String} (hm : home ∈ sources.map (·.name))
    (h : Staged sources d.model.size d) {forest : List ModuleTrees}
    (hshows : d.model.ShowsForest forest) {a : Source.Augment}
    (hok : placeAugment sources home d a = .ok d') :
    ∃ path ss, targetPath (sources.map emptyModule) home a.target = .ok path ∧
      Expands sources home home a.body ss ∧ Augmented sources d d' ∧
      d'.model.ShowsForest (graftForest ss path forest) := by
  obtain ⟨⟨d₁, id⟩, hadd, hret⟩ := bind_eq_ok.1 hok
  cases hret
  have hserves : ∀ n, Serves { sources := sources, since := n, outlines := d.model.outlines }
      (provideGrouping sources []) := fun n => provideGrouping_serves ⟨sources, n, _⟩ []
  obtain ⟨t, ss, htarget, hexpands, hg⟩ := addAugment_grafts hserves hm h.sound.coherent
    h.sound.rooted h.faithful le_rfl hadd
  obtain ⟨hc, hl⟩ := addAugment_coherent (provideGrouping_provides sources []) hm h.sound.coherent
    h.sound.rooted h.sound.modules hadd
  let list (x : Module) : Module := { x with augments := x.augments ++ [id] }
  have hg' := hg.updateModule home (f := list) fun _ => rfl
  have hsound₁ := h.sound.later hc hl
  have hsound : (d₁.updateModule home list).Sound (sources.map (·.name)) :=
    hsound₁.later (hsound₁.coherent.updateModule (f := list) home fun _ => rfl)
      (grows_updateModule (f := list) (fun _ => False) d₁ home fun _ => ⟨rfl, rfl, rfl⟩).later
  obtain ⟨moduleName, root, rest, m, r, hpath, hmodule, hroot, hleads⟩ :=
    resolveTarget_leads htarget
  have hqualified : targetPath (sources.map emptyModule) home a.target =
      .ok ((moduleName, root) :: rest) := by
    rw [← hpath]
    unfold targetPath
    exact congrArg (fun f => List.mapM f _) (funext fun s => (h.faithful.qualify s home _).symm)
  have hr : r ∈ d.model.roots := List.mem_flatMap.2
    ⟨m, List.mem_of_find?_eq_some hmodule, List.mem_of_find?_eq_some hroot⟩
  exact ⟨(moduleName, root) :: rest, ss, hqualified, hexpands,
    ⟨h, hg'.staged h hsound, t, ss, hg', r, hr, _, hleads⟩, hg'.grafts h hmodule hroot hleads hshows⟩

theorem Grafts.append {augments more : List (String × Source.Augment)}
    {f f' f'' : List ModuleTrees} (h : Grafts sources augments f f') (h' : Grafts sources more f' f'') :
    Grafts sources (augments ++ more) f f'' := by
  induction h with
  | nil => exact h'
  | cons hpath hexpands _ ih => exact .cons hpath hexpands (ih h')

theorem foldlM_placeAugment {home : String} (hm : home ∈ sources.map (·.name)) :
    ∀ (augments : List Source.Augment) (d d' : Draft) (forest : List ModuleTrees),
      Staged sources d.model.size d → d.model.ShowsForest forest →
      augments.foldlM (placeAugment sources home) d = .ok d' →
      Staged sources d'.model.size d' ∧ ReflTransGen (Augmented sources) d d' ∧
        ∃ forest', Grafts sources (augments.map fun a => (home, a)) forest forest' ∧
          d'.model.ShowsForest forest'
  | [], d, d', forest, h, hshows, hok => by
    cases hok
    exact ⟨h, .refl, forest, .nil, hshows⟩
  | a :: rest, d, d', forest, h, hshows, hok => by
    rw [List.foldlM_cons] at hok
    obtain ⟨d₁, hstep, hok⟩ := bind_eq_ok.1 hok
    obtain ⟨path, ss, hpath, hexpands, haug, hshows₁⟩ :=
      placeAugment_augmented hm h hshows hstep
    obtain ⟨h', hchain, forest', hgrafts, hshows'⟩ :=
      foldlM_placeAugment hm rest d₁ d' _ haug.after hshows₁ hok
    exact ⟨h', .head haug hchain, forest', .cons hpath hexpands hgrafts, hshows'⟩

theorem foldlM_addAugments :
    ∀ (modules : List Source.Module) (d d' : Draft) (forest : List ModuleTrees),
      (∀ m ∈ modules, m ∈ sources) → Staged sources d.model.size d → d.model.ShowsForest forest →
      modules.foldlM (addAugments sources) d = .ok d' →
      Staged sources d'.model.size d' ∧ ReflTransGen (Augmented sources) d d' ∧
        ∃ forest', Grafts sources (placedAugments modules) forest forest' ∧
          d'.model.ShowsForest forest'
  | [], d, d', forest, _, h, hshows, hok => by
    cases hok
    exact ⟨h, .refl, forest, .nil, hshows⟩
  | m :: rest, d, d', forest, hmem, h, hshows, hok => by
    rw [List.foldlM_cons] at hok
    obtain ⟨d₁, hstep, hok⟩ := bind_eq_ok.1 hok
    have hm : m.name ∈ sources.map (·.name) :=
      List.mem_map.2 ⟨m, hmem m List.mem_cons_self, rfl⟩
    obtain ⟨h₁, hchain₁, f₁, hgrafts₁, hshows₁⟩ :=
      foldlM_placeAugment hm m.augments d d₁ forest h hshows hstep
    obtain ⟨h', hchain, f', hgrafts, hshows'⟩ := foldlM_addAugments rest d₁ d' f₁
      (fun x hx => hmem x (List.mem_cons_of_mem _ hx)) h₁ hshows₁ hok
    refine ⟨h', hchain₁.trans hchain, f', ?_, hshows'⟩
    show Grafts sources ((m :: rest).flatMap fun m => m.augments.map fun a => (m.name, a)) forest f'
    rw [List.flatMap_cons]
    exact Grafts.append hgrafts₁ hgrafts

/-! ## The whole -/

theorem nodup_of_firstRepeated :
    ∀ (names seen : List String), firstRepeated seen names = none →
      names.Nodup ∧ ∀ n ∈ names, n ∉ seen
  | [], _, _ => ⟨List.nodup_nil, by simp⟩
  | n :: names, seen, h => by
    unfold firstRepeated at h
    split at h
    · cases h
    · rename_i hnew
      obtain ⟨hnodup, hfresh⟩ := nodup_of_firstRepeated names (n :: seen) h
      refine ⟨List.nodup_cons.2 ⟨fun hmem => hfresh n hmem List.mem_cons_self, hnodup⟩, ?_⟩
      intro x hx
      rcases List.mem_cons.1 hx with rfl | hx
      · simpa using hnew
      · exact fun hseen => hfresh x hx (List.mem_cons_of_mem _ hseen)

theorem staged_start (sources : List Source.Module) :
    Staged sources 0 { model := { modules := sources.map emptyModule } } ∧
      DataModel.ShowsForest { modules := sources.map emptyModule } (sources.map bareTrees) := by
  have hblank : ∀ x, Draft.node { model := { modules := sources.map emptyModule } } x = Node.blank :=
    fun x => node_of_size_le (Nat.zero_le x)
  have hroots : ∀ r, r ∉ DataModel.roots { modules := sources.map emptyModule } := by
    intro r hr
    obtain ⟨m', hm', hr⟩ := List.mem_flatMap.1 hr
    obtain ⟨m, -, rfl⟩ := List.mem_map.1 hm'
    cases hr
  refine ⟨⟨sound_start sources, ⟨rfl, ?_, fun x hx => absurd hx (Nat.not_lt_zero x),
    fun x _ hx => absurd hx (Nat.not_lt_zero x), fun x => ?_, fun _ _ hb => nomatch hb⟩,
    fun r hr => absurd hr (hroots r), ?_⟩, ?_⟩
  · unfold DataModel.heads DataModel.outlines
    rw [List.map_map]
    rfl
  · rw [hblank]
    exact List.nodup_nil
  · rw [List.eq_nil_iff_forall_not_mem.2 hroots]
    exact List.nodup_nil
  · unfold DataModel.ShowsForest DataModel.outlines
    rw [List.map_map, List.forall₂_map_left_iff, List.forall₂_map_right_iff]
    exact List.forall₂_same.2 fun m _ => ⟨rfl, .nil, .nil⟩

/-- The way that `link` takes: modules one after the other, then augments. -/
structure Passes (sources : List Source.Module) (d d' : Draft) : Prop where
  built : Staged sources 0 d
  linked : Staged sources d'.model.size d'
  augmented : ReflTransGen (Augmented sources) d d'

theorem passes_of_link {model : DataModel} (h : link sources = .ok model) :
    ∃ d d' forest, Passes sources d d' ∧ d'.model = model ∧ Substituted sources forest ∧
      model.ShowsForest forest := by
  unfold link at h
  split at h
  · cases h
  · rename_i hrepeated
    obtain ⟨hnames, -⟩ := nodup_of_firstRepeated _ [] hrepeated
    obtain ⟨d₁, hmodules, h⟩ := bind_eq_ok.1 h
    obtain ⟨d₂, haugments, h⟩ := bind_eq_ok.1 h
    cases h
    obtain ⟨hstart, hshows⟩ := staged_start sources
    obtain ⟨f₁, hexpands, h₁, hshows₁⟩ := foldlM_addModule hnames sources [] [] _ d₁ rfl .nil hstart
      hshows hmodules
    have hready : Staged sources d₁.model.size d₁ :=
      ⟨h₁.sound, h₁.faithful.since (Nat.zero_le _), h₁.parentless, h₁.distinct⟩
    obtain ⟨h₂, hchain, f₂, hgrafts, hshows₂⟩ := foldlM_addAugments sources d₁ d₂ f₁
      (fun _ hm => hm) hready hshows₁ haugments
    exact ⟨d₁, d₂, f₂, ⟨h₁, h₂, hchain⟩, rfl, ⟨f₁, hexpands, hgrafts⟩, hshows₂⟩

end Draft

variable {sources : List Source.Module} {model : DataModel}

/-- A linked model `ShowsForest` for one forest alone, `model.forest`. -/
theorem Linked.forest_eq (hm : model.Linked) {forest : List ModuleTrees}
    (h : model.ShowsForest forest) : model.forest = forest := by
  unfold ShowsForest outlines at h
  rw [List.forall₂_map_left_iff] at h
  unfold DataModel.forest
  refine List.forall₂_eq_eq_eq ▸ List.forall₂_map_left_iff.2 (h.imp fun m trees hshows => ?_)
  obtain ⟨name, data, rpcs⟩ := trees
  obtain ⟨hname, hdata, hrpcs⟩ := hshows
  dsimp only at hname hdata hrpcs
  rw [hname, ← hm.shapes_eq hdata, ← hm.shapes_eq hrpcs]
  rfl

/-- The forest of a linked model is the one that its sources stand for by `Substituted`: every use
replaced by what its grouping stands for, and every augment grafted in turn. -/
theorem link_substitutes (h : link sources = .ok model) (forest : List ModuleTrees) :
    Substituted sources forest ↔ forest = model.forest := by
  obtain ⟨d, d', forest', hpasses, rfl, hsubstituted, hshows⟩ := Draft.passes_of_link h
  have hforest := (linked_of_link h).1.forest_eq hshows
  constructor
  · intro hother
    rw [hforest]
    exact hother.unique hsubstituted
  · rintro rfl
    rw [hforest]
    exact hsubstituted

theorem link_substitutes_sharing : ∃ model, link sharing = .ok model ∧
    Substituted sharing model.forest :=
  let ⟨model, h⟩ := link_sharing
  ⟨model, h, (link_substitutes h model.forest).2 rfl⟩

/-- Modules that are linked have different names. -/
theorem nodup_moduleNames (h : link sources = .ok model) : model.moduleNames.Nodup := by
  rw [(linked_of_link h).2]
  unfold link at h
  split at h
  · cases h
  · rename_i hrepeated
    exact (Draft.nodup_of_firstRepeated _ [] hrepeated).1

theorem rooted_of_mem_rpcs (h : link sources = .ok model) {m : Module} (hm : m ∈ model.modules)
    {call : NodeId} (hcall : call ∈ m.rpcs) : model.Rooted call := by
  obtain ⟨_, d, _, hpasses, rfl, -, -⟩ := Draft.passes_of_link h
  exact hpasses.linked.sound.rooted call
    (List.mem_flatMap.2 ⟨m, hm, List.mem_append_right _ hcall⟩)

/-- What a node `Copies` lies in a grouping. -/
theorem grouped_of_copies (h : link sources = .ok model) {id s : NodeId}
    (hs : model.Copies id s) : model.Grouped s := by
  obtain ⟨_, d, _, hpasses, rfl, -, -⟩ := Draft.passes_of_link h
  have hcoherent := hpasses.linked.sound.coherent
  obtain ⟨-, hdone⟩ := (hcoherent.regular id (lt_size_of_copies hs)).copied s hs
  exact hcoherent.frozen.grouped hdone

/-- The remote calls of a module belong to it. -/
theorem moduleName_of_mem_rpcs (h : link sources = .ok model) :
    ∀ m ∈ model.modules, ∀ call ∈ m.rpcs, (model.node call).moduleName = m.name := by
  obtain ⟨_, _, forest, -, -, hsubstituted, hshows⟩ := Draft.passes_of_link h
  intro m hm call hcall
  obtain ⟨trees, htrees, hmodule⟩ :=
    forall₂_mem_left hshows m.outline (List.mem_map_of_mem hm)
  obtain ⟨s, hs, hcallShows⟩ := hmodule.rpcs.exists_shows call hcall
  exact (congrArg Label.moduleName hcallShows.label).trans
    ((hsubstituted.calls trees htrees s hs).trans hmodule.name)

end RestSpec.DataModel
