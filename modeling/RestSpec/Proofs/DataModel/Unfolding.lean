/-
Building statement by statement. Along the builders, each of which is known to fill a node and to
leave a coherent draft behind, the added children show what the written body stands for: the
declared nodes one after the other, then a block for every use.
-/
import RestSpec.Proofs.DataModel.Faithful

namespace RestSpec.DataModel.Draft

variable {d d' d'' : Draft} {changing : NodeId → Prop} {σ : Setting}

/-! ## Single nodes -/

/-- A node that was added and filled shows its label over the shapes that it `Gains`. -/
theorem Gains.shows {n : Node} {ss : List Shape} (h : Gains σ d.model.size ss (d.add n).1 d')
    (hg : Grows (· = d.model.size) (d.add n).1 d') (hempty : n.children = []) :
    d'.model.Shows d.model.size (.node n.label ss) := by
  have hlt : d.model.size < (d.add n).1.model.size := by
    rw [size_add]
    exact Nat.lt_succ_self _
  have hself : (d.add n).1.node d.model.size = d.completed n := node_add_self d n
  obtain ⟨ids, hids, -, hshows⟩ := h.children
  have hchildren : (d'.model.node d.model.size).children = ids := by
    show (d'.node d.model.size).children = ids
    rw [hids, hself]
    show n.children ++ ids = ids
    rw [hempty, List.nil_append]
  refine .node ?_ (hchildren ▸ hshows)
  show (d'.node d.model.size).label = n.label
  rw [hg.ages.label hlt, hself]
  rfl

/-- A new node that shows a shape becomes a child, so its parent `Gains` the shape. -/
theorem gains_appendChild {t : NodeId} {kind : Kind} {s : Shape}
    (hadds : AddsNode changing (some t) kind d d') (hc : d.Coherent changing)
    (ht : t < d.model.size) (htd : ¬ d.Done t) (hf : Faithful σ d')
    (hshows : d'.model.Shows d.model.size s) :
    Gains σ t [s] d (d'.appendChild t d.model.size) := by
  have ht' : t < d'.model.size := lt_of_lt_of_le ht hadds.grows.size
  have hkept : d'.node t = d.node t := hadds.kept t ht
  have hnew : d.model.size ∉ (d'.node t).children := by
    rw [hkept]
    intro hmem
    exact absurd ((hc.regular t ht).children _ hmem).2 (Nat.lt_irrefl _)
  have hg : Grows (· = t) d' (d'.appendChild t d.model.size) := grows_appendChild ht' (by rfl) _
  refine ⟨hf.appendChild hadds.coherent ht'
      (fun hd => htd (hadds.grows.done_of_lt hc.frozen hd ht)) hnew,
    [d.model.size], ?_, fun id hid => ?_, .cons ?_ .nil⟩
  · rw [node_appendChild ht', hkept]
  · rw [List.mem_singleton.1 hid]
    exact ⟨le_rfl, lt_of_lt_of_le hadds.filling.lt hg.size⟩
  · exact hshows.frame (hg.sameBelow hadds.coherent fun _ hx => hx ▸ ht) ⟨le_rfl, hadds.filling.lt⟩

/-! ## Uses -/

/-- What `provide` answers with is a grouping that is faithful to the sources of the `Setting`. -/
structure Serves (σ : Setting) (provide : Provide) : Prop where
  provides : Provides (σ.sources.map (·.name)) provide
  faithful : ∀ (name : GroupingName) (location : String) (d d' : Draft) (g : NodeId)
    (changing : NodeId → Prop), d.Coherent changing → Faithful σ d →
    provide name location d = .ok (d', g) → Faithful σ d'

/-- A use has been made, as `UsesGrouping` says, of a grouping that `Unfolds` its declaration. -/
structure Uses (σ : Setting) (changing : NodeId → Prop) (moduleName name : String)
    (target introducer : NodeId) (d d' : Draft) (ids : List NodeId) (ss : List Shape) : Prop where
  steps : ∃ d₁ key g, d₁.Coherent changing ∧ Grows (fun _ => False) d d₁ ∧ (key, g) ∈ d₁.built ∧
    UsesGrouping target introducer g d₁ d' ids
  faithful : Faithful σ d'
  shows : d'.model.ShowsAll ids ss
  expands : Expands σ.sources moduleName moduleName ⟨[], [name]⟩ ss

section Serves

variable {provide : Provide} (hs : Serves σ provide) {moduleName : String}
  (hm : moduleName ∈ σ.sources.map (·.name))

include hs hm

theorem applyUse_uses {name : String} {target introducer : NodeId} (hc : d.Coherent changing)
    (h : Faithful σ d) (ht : target < d.model.size) (htd : ¬ d.Done target)
    (hi : introducer < d.model.size) (hid : ¬ d.Done introducer)
    (hok : applyUse provide moduleName target introducer d name = .ok d') :
    ∃ ids ss, Uses σ changing moduleName name target introducer d d' ids ss := by
  unfold applyUse at hok
  obtain ⟨key, hname, hok⟩ := bind_eq_ok.1 hok
  obtain ⟨⟨d₁, g⟩, hprovided, hok⟩ := bind_eq_ok.1 hok
  cases hok
  rw [h.qualify] at hname
  obtain ⟨hc₁, hg, hb⟩ := hs.provides _ _ d d₁ g changing hc h.moduleNames hprovided
  have h₁ := hs.faithful _ _ d d₁ g changing hc h hprovided
  obtain ⟨decl, ss, hdecl, hexpands, hshows⟩ := (h₁.unfolds _ g hb).shapes
  obtain ⟨h₂, ids, hu, hshows'⟩ := h₁.use hc₁ hb (h₁.moduleNames ▸ hm)
    (lt_of_lt_of_le ht hg.size) (fun hd => htd (hg.done_of_lt hc.frozen hd ht))
    (lt_of_lt_of_le hi hg.size) (fun hd => hid (hg.done_of_lt hc.frozen hd hi)) hshows
  refine ⟨ids, _, ⟨⟨d₁, _, g, hc₁, hg, hb, hu⟩, h₂, hshows', ?_⟩⟩
  have hblock := Expands.use hname hdecl (hexpands.within moduleName) .nil
  rwa [List.append_nil] at hblock

theorem applyUse_gains {t : NodeId} {name : String} (ht : d.Filling t) (hc : d.Coherent changing)
    (h : Faithful σ d) (hok : applyUse provide moduleName t t d name = .ok d') :
    ∃ ss, Gains σ t ss d d' ∧ Expands σ.sources moduleName moduleName ⟨[], [name]⟩ ss := by
  obtain ⟨ids, ss, hu⟩ := applyUse_uses hs hm hc h ht.lt ht.undone ht.lt ht.undone hok
  obtain ⟨d₁, _, g, -, hg, -, huses⟩ := hu.steps
  refine ⟨ss, ⟨hu.faithful, ids, ?_, fun id hid => ?_, hu.shows⟩, hu.expands⟩
  · rw [huses.filled, hg.kept t ht.lt not_false]
  · obtain ⟨hle, hlt⟩ := huses.bounds id hid
    exact ⟨le_trans hg.size hle, hlt⟩

theorem foldlM_applyUse_gains {t : NodeId} :
    ∀ (uses : List String) (d d' : Draft), d.Filling t → d.Coherent changing → Faithful σ d →
      (d.node t).kind ≠ .rpc → uses.foldlM (applyUse provide moduleName t t) d = .ok d' →
      ∃ ss, Gains σ t ss d d' ∧ Expands σ.sources moduleName moduleName ⟨[], uses⟩ ss
  | [], d, d', _, _, h, _, hok => by
    cases hok
    exact ⟨[], .refl h t, .nil⟩
  | name :: uses, d, d', ht, hc, h, hk, hok => by
    rw [List.foldlM_cons] at hok
    obtain ⟨d₁, h₁, hok⟩ := bind_eq_ok.1 hok
    have hfills := applyUse_fills hs.provides hm ht hc h.moduleNames hk h₁
    obtain ⟨block, hgains, hblock⟩ := applyUse_gains hs hm ht hc h h₁
    have hk₁ : (d₁.node t).kind ≠ .rpc := by
      rw [hfills.grows.kind ht.lt]
      exact hk
    obtain ⟨ss, hgains', hrest⟩ := foldlM_applyUse_gains uses d₁ d' hfills.filling hfills.coherent
      hgains.faithful hk₁ hok
    have hfills' := foldlM_applyUse_fills hs.provides hm hfills.filling hfills.coherent
      hgains.faithful.moduleNames hk₁ hok
    exact ⟨block ++ ss, hgains.trans hgains' hfills.coherent hfills'.grows hfills.grows.size
      (fun _ hx => hx ▸ ht.lt), hblock.append hrest⟩

end Serves

/-! ## Statements -/

mutual

theorem addStatement_shows {provide : Provide} (hs : Serves σ provide) {moduleName : String}
    (hm : moduleName ∈ σ.sources.map (·.name)) {parent : Option NodeId} {id : NodeId} :
    ∀ (s : Source.Statement) (d d' : Draft), d.Coherent changing → Faithful σ d →
      (∀ p, parent = some p → p < d.model.size ∧ ¬ d.Done p) →
      addStatement provide moduleName parent s d = .ok (d', id) →
      Faithful σ d' ∧ ∃ shape, d'.model.Shows d.model.size shape ∧
        Expands σ.sources moduleName moduleName ⟨[s], []⟩ [shape]
  | ⟨kind, name, config, description, reference, children, uses⟩, d, d', hc, h, hp, hok => by
    rw [addStatement] at hok
    obtain ⟨d₂, h₂, hok⟩ := bind_eq_ok.1 hok
    obtain ⟨d₃, h₃, hok⟩ := bind_eq_ok.1 hok
    cases hok
    let n : Node := { kind := linkedKind kind, moduleName := moduleName, name := name,
                      parent := parent, configStatement := config, description := description,
                      reference := reference }
    have hn := h.moduleNames
    have hstart : Starts d n :=
      ⟨hn ▸ hm, hp, Kind.linkedKind_isAugment kind, rfl, rfl, rfl, rfl⟩
    have hfills := hstart.fills hc
    have hself : (d.add n).1.node d.model.size = d.completed n := node_add_self d n
    have hkind : ((d.add n).1.node d.model.size).kind ≠ .rpc := by
      rw [hself]
      exact Kind.linkedKind_ne_rpc kind
    have hunused : ((d.add n).1.node d.model.size).uses = [] := by
      rw [hself]
      rfl
    have hadded : Faithful σ (d.add n).1 := h.add hc (fun p hp' => (hp p hp').1) rfl rfl rfl rfl
    obtain ⟨hfills₂, -⟩ := addChildren_fills hs.provides hm children (d.add n).1 d₂ hfills.filling
      hfills.coherent hn hunused hkind h₂
    obtain ⟨own, hgains₂, hown⟩ := addChildren_gains hs hm children (d.add n).1 d₂ hfills.filling
      hfills.coherent hadded hunused hkind h₂
    have hkind₂ : (d₂.node d.model.size).kind ≠ .rpc := by
      rw [hfills₂.grows.kind hfills.filling.lt]
      exact hkind
    have hfills₃ := foldlM_applyUse_fills hs.provides hm hfills₂.filling hfills₂.coherent
      hgains₂.faithful.moduleNames hkind₂ h₃
    obtain ⟨used, hgains₃, hused⟩ := foldlM_applyUse_gains hs hm uses d₂ d' hfills₂.filling
      hfills₂.coherent hgains₂.faithful hkind₂ h₃
    have hgains := hgains₂.trans hgains₃ hfills₂.coherent hfills₃.grows hfills₂.grows.size
      fun _ hx => hx ▸ hfills.filling.lt
    exact ⟨hgains.faithful, .node n.label (own ++ used),
      hgains.shows (hfills₂.trans hfills₃).grows rfl, .child (hown.append hused) .nil⟩

theorem addChildren_gains {provide : Provide} (hs : Serves σ provide) {moduleName : String}
    (hm : moduleName ∈ σ.sources.map (·.name)) {t : NodeId} :
    ∀ (children : List Source.Statement) (d d' : Draft), d.Filling t → d.Coherent changing →
      Faithful σ d → (d.node t).uses = [] → (d.node t).kind ≠ .rpc →
      addChildren provide moduleName t children d = .ok d' →
      ∃ ss, Gains σ t ss d d' ∧ Expands σ.sources moduleName moduleName ⟨children, []⟩ ss
  | [], d, d', _, _, h, _, _, hok => by
    rw [addChildren] at hok
    cases hok
    exact ⟨[], .refl h t, .nil⟩
  | s :: rest, d, d', ht, hc, h, hu, hk, hok => by
    rw [addChildren] at hok
    obtain ⟨⟨d₁, id⟩, h₁, hok⟩ := bind_eq_ok.1 hok
    have hplace : ∀ p, some t = some p → p < d.model.size ∧ ¬ d.Done p := by
      rintro p ⟨⟩
      exact ⟨ht.lt, ht.undone⟩
    obtain ⟨rfl, hadds⟩ := addStatement_adds hs.provides hm s d d₁ hc h.moduleNames hplace h₁
    obtain ⟨hf₁, shape, hshows, hs₁⟩ := addStatement_shows hs hm s d d₁ hc h hplace h₁
    have hfills := hadds.declare ht hc hu (Kind.takes_linkedKind hk s.kind)
    have hgains := gains_appendChild hadds hc ht.lt ht.undone hf₁ hshows
    have hunused : ((d₁.appendChild t d.model.size).node t).uses = [] := by
      rw [node_appendChild (lt_of_lt_of_le ht.lt hadds.grows.size), hadds.kept t ht.lt]
      exact hu
    have hkind : ((d₁.appendChild t d.model.size).node t).kind ≠ .rpc := by
      rw [hfills.grows.kind ht.lt]
      exact hk
    obtain ⟨hfills', -⟩ := addChildren_fills hs.provides hm rest _ d' hfills.filling
      hfills.coherent hgains.faithful.moduleNames hunused hkind hok
    obtain ⟨ss, hgains', hrest⟩ := addChildren_gains hs hm rest _ d' hfills.filling
      hfills.coherent hgains.faithful hunused hkind hok
    refine ⟨shape :: ss, hgains.trans hgains' hfills.coherent hfills'.grows hfills.grows.size
      fun _ hx => hx ▸ ht.lt, ?_⟩
    cases hs₁ with
    | child hbelow _ => exact .child hbelow hrest

end

theorem addBody_gains {provide : Provide} (hs : Serves σ provide) {moduleName : String}
    (hm : moduleName ∈ σ.sources.map (·.name)) {t : NodeId} {body : Source.Body}
    (ht : d.Filling t) (hc : d.Coherent changing) (h : Faithful σ d) (hu : (d.node t).uses = [])
    (hk : (d.node t).kind ≠ .rpc) (hok : addBody provide moduleName t body d = .ok d') :
    ∃ ss, Gains σ t ss d d' ∧ Expands σ.sources moduleName moduleName body ss := by
  unfold addBody at hok
  obtain ⟨d₁, h₁, hok⟩ := bind_eq_ok.1 hok
  obtain ⟨hfills, -⟩ := addChildren_fills hs.provides hm body.children d d₁ ht hc h.moduleNames hu
    hk h₁
  obtain ⟨own, hgains, hown⟩ := addChildren_gains hs hm body.children d d₁ ht hc h hu hk h₁
  have hk₁ : (d₁.node t).kind ≠ .rpc := by
    rw [hfills.grows.kind ht.lt]
    exact hk
  have hfills' := foldlM_applyUse_fills hs.provides hm hfills.filling hfills.coherent
    hgains.faithful.moduleNames hk₁ hok
  obtain ⟨used, hgains', hused⟩ := foldlM_applyUse_gains hs hm body.uses d₁ d' hfills.filling
    hfills.coherent hgains.faithful hk₁ hok
  exact ⟨own ++ used, hgains.trans hgains' hfills.coherent hfills'.grows hfills.grows.size
    (fun _ hx => hx ▸ ht.lt), hown.append hused⟩

/-- A node that a body fills, from its making on. -/
theorem addBody_shows {provide : Provide} (hs : Serves σ provide) {moduleName : String}
    (hm : moduleName ∈ σ.sources.map (·.name)) {n : Node} {body : Source.Body}
    (hstart : Starts d n) (haug : n.augmentations = []) (hk : n.kind ≠ .rpc)
    (hc : d.Coherent changing) (h : Faithful σ d)
    (hok : addBody provide moduleName d.model.size body (d.add n).1 = .ok d') :
    AddsNode changing n.parent n.kind d d' ∧ Faithful σ d' ∧
      ∃ ss, d'.model.Shows d.model.size (.node n.label ss) ∧
        Expands σ.sources moduleName moduleName body ss := by
  have hself : (d.add n).1.node d.model.size = d.completed n := node_add_self d n
  have hfills := hstart.fills hc
  have hkind : ((d.add n).1.node d.model.size).kind ≠ .rpc := by
    rw [hself]
    exact hk
  have hunused : ((d.add n).1.node d.model.size).uses = [] := by
    rw [hself]
    exact hstart.uses
  have hadded : Faithful σ (d.add n).1 := h.add hc (fun p hp => (hstart.parent p hp).1)
    hstart.children hstart.copied hstart.introduced haug
  have hfills' := addBody_fills hs.provides hm hfills.filling hfills.coherent h.moduleNames hunused
    hkind hok
  obtain ⟨ss, hgains, hexpands⟩ := addBody_gains hs hm hfills.filling hfills.coherent hadded
    hunused hkind hok
  exact ⟨hstart.adds hfills', hgains.faithful, ss, hgains.shows hfills'.grows hstart.children,
    hexpands⟩

/-! ## Groupings -/

/-- A grouping counts as `built` once its tree shows what its declaration stands for. -/
theorem Faithful.finish (h : Faithful σ d) {name : GroupingName} {g : NodeId}
    (hg : Unfolds σ.sources d name g) : Faithful σ (d.finish name g) := by
  refine h.here rfl (h.ofNodes rfl rfl fun key x hmem => ?_)
  rcases List.mem_cons.1 hmem with heq | hmem
  · cases heq
    exact hg
  · exact h.unfolds key x hmem

theorem Faithful.updateModule (h : Faithful σ d) (name : String) {f : Module → Module}
    (hf : ∀ m, (f m).outline = m.outline) : Faithful σ (d.updateModule name f) :=
  h.here (outlines_updateModule d name hf)
    (h.ofNodes rfl (heads_of_outlines (outlines_updateModule d name hf)) h.unfolds)

theorem provideGrouping_serves (σ : Setting) (underWay : List GroupingName) :
    Serves σ (provideGrouping σ.sources underWay) := by
  refine ⟨provideGrouping_provides σ.sources underWay, fun name location d d' g changing hc h hok => ?_⟩
  rw [provideGrouping] at hok
  split at hok
  · cases hok
    exact h
  · split at hok
    · cases hok
    · rename_i hnew
      split at hok
      · cases hok
      · rename_i decl hdecl
        obtain ⟨d₂, hbody, hok⟩ := bind_eq_ok.1 hok
        cases hok
        let n : Node := { kind := .grouping, moduleName := name.moduleName, name := name.name,
                          description := decl.description, reference := decl.reference }
        have hm := moduleName_of_declaration? hdecl
        have hstart : Starts d n := ⟨h.moduleNames ▸ hm, by simp [n], rfl, rfl, rfl, rfl, rfl⟩
        obtain ⟨hadds, h₂, ss, hshows, hexpands⟩ := addBody_shows
          (provideGrouping_serves σ (underWay ++ [name])) hm hstart rfl (by simp [n]) hc h hbody
        have hunfolds : Unfolds σ.sources d₂ name d.model.size := by
          refine ⟨?_, decl, ss, hdecl, hexpands, ?_⟩
          · -- at the top nothing says otherwise, so the root of a grouping is configuration
            have hself : (d.add n).1.node d.model.size = d.completed n := node_add_self d n
            have hconf := (h₂.lawful d.model.size hadds.filling.lt).configured
            have hlabel : (d₂.node d.model.size).label = n.label := hshows.label
            have hstatement : (d₂.node d.model.size).configStatement = none :=
              congrArg Label.configStatement hlabel
            unfold Configured at hconf
            rw [hadds.place, hstatement] at hconf
            exact hconf
          · cases hshows with
            | node _ hbelow => exact hbelow
        exact (h₂.finish hunfolds).updateModule _ fun _ => rfl
termination_by remaining σ.sources underWay
decreasing_by exact remaining_append_lt (mem_declaredNames ‹_›) ‹_›

/-! ## Remote calls -/

section Messages

variable {provide : Provide} (hs : Serves σ provide) {moduleName : String}
  (hm : moduleName ∈ σ.sources.map (·.name))

include hs hm

theorem addMessage_gains {rpc : NodeId} {kind : Kind} {body : Option Source.Body}
    (ht : d.Filling rpc) (hc : d.Coherent changing) (h : Faithful σ d)
    (hkind : kind = .input ∨ kind = .output)
    (hok : addMessage provide moduleName rpc kind body d = .ok d') :
    ∃ ss, Gains σ rpc ss d d' ∧ ExpandsMessage σ.sources moduleName kind body ss := by
  unfold addMessage at hok
  cases body with
  | none =>
    cases hok
    exact ⟨[], .refl h rpc, .none⟩
  | some body =>
    obtain ⟨d₂, hbody, hok⟩ := bind_eq_ok.1 hok
    cases hok
    let n : Node := { kind := kind, moduleName := moduleName, name := kind.keyword,
                      parent := some rpc }
    have hkinds : kind.isAugment = false ∧ kind ≠ .rpc := by
      rcases hkind with rfl | rfl
      · exact ⟨rfl, nofun⟩
      · exact ⟨rfl, nofun⟩
    have hstart : Starts d n := by
      refine ⟨h.moduleNames ▸ hm, ?_, hkinds.1, rfl, rfl, rfl, rfl⟩
      rintro p ⟨⟩
      exact ⟨ht.lt, ht.undone⟩
    obtain ⟨hadds, h₂, ss, hshows, hexpands⟩ :=
      addBody_shows hs hm hstart rfl hkinds.2 hc h hbody
    exact ⟨_, gains_appendChild hadds hc ht.lt ht.undone h₂ hshows, .some hexpands⟩

theorem addRpc_shows {rpc : Source.Rpc} {id : NodeId} (hc : d.Coherent changing)
    (h : Faithful σ d) (hok : addRpc provide moduleName rpc d = .ok (d', id)) :
    Faithful σ d' ∧ ∃ shape, d'.model.Shows d.model.size shape ∧
      ExpandsRpc σ.sources moduleName rpc shape := by
  unfold addRpc at hok
  obtain ⟨d₁, hin, hok⟩ := bind_eq_ok.1 hok
  obtain ⟨d₂, hout, hok⟩ := bind_eq_ok.1 hok
  cases hok
  let n : Node := { kind := .rpc, moduleName := moduleName, name := rpc.name,
                    description := rpc.description, reference := rpc.reference }
  have hn := h.moduleNames
  have hstart : Starts d n := ⟨hn ▸ hm, nofun, rfl, rfl, rfl, rfl, rfl⟩
  have hfills := hstart.fills hc
  have hself : (d.add n).1.node d.model.size = d.completed n := node_add_self d n
  have hk : ((d.add n).1.node d.model.size).kind = .rpc := by
    rw [hself]
    rfl
  have hadded : Faithful σ (d.add n).1 := h.add hc nofun rfl rfl rfl rfl
  obtain ⟨hfills₁, hu₁⟩ := addMessage_fills hs.provides hm hfills.filling hfills.coherent hn
    (by rw [hself]; rfl) hk (.inl rfl) hin
  obtain ⟨input, hgains₁, hinput⟩ := addMessage_gains hs hm hfills.filling hfills.coherent hadded
    (.inl rfl) hin
  obtain ⟨hfills₂, -⟩ := addMessage_fills hs.provides hm hfills₁.filling hfills₁.coherent
    hgains₁.faithful.moduleNames hu₁ (by rw [hfills₁.grows.kind hfills.filling.lt]; exact hk)
    (.inr rfl) hout
  obtain ⟨output, hgains₂, houtput⟩ := addMessage_gains hs hm hfills₁.filling hfills₁.coherent
    hgains₁.faithful (.inr rfl) hout
  have hgains := hgains₁.trans hgains₂ hfills₁.coherent hfills₂.grows hfills₁.grows.size
    fun _ hx => hx ▸ hfills.filling.lt
  exact ⟨hgains.faithful, _, hgains.shows (hfills₁.trans hfills₂).grows rfl,
    .node hinput houtput⟩

end Messages

end RestSpec.DataModel.Draft
