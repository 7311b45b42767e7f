/-
What linking makes. In a linked model parents have smaller numbers than their children, a copy
mirrors what it copies, the children of a node fall into what it declares, a block for each
grouping that it uses and what augments added, and no way down, over to a grouping or back to what
was copied goes round in a circle.
-/
import RestSpec.Proofs.DataModel.Augment

namespace RestSpec.DataModel

/-! ## Linked models -/

/-- What holds of every linked model: parents and children are each other's, copies and uses lead to
smaller numbers, and `Edge` to nodes on which all is known. -/
structure Linked (model : DataModel) : Prop where
  up : ∀ id p, (model.node id).parent = some p → p < id
  children : ∀ id, ∀ c ∈ (model.node id).children, id < c ∧ c < model.size
  below : ∀ id, (model.node id).kind.isAugment = false → ∀ c ∈ (model.node id).children,
    (model.node c).parent = some id ∧ (model.node id).kind.takes (model.node c).kind = true
  uses : ∀ id, ∀ g ∈ (model.node id).uses, g < model.size ∧ (model.node g).kind = .grouping
  copied : ∀ id s, model.Copies id s → s < id ∧ (model.node s).kind.isAugment = false
  mirrors : ∀ id s, model.Copies id s → model.Mirrors id s
  parts : ∀ id, (model.node id).kind.isAugment = false →
    ∃ declared blocks added, model.Parts id declared blocks added
  founded : WellFounded fun b a => model.Edge a b
  home : ∀ id < model.size, (model.node id).moduleName ∈ model.moduleNames

theorem Draft.Coherent.linked {d : Draft} (hc : d.Coherent fun _ => False) : d.model.Linked := by
  have hf := hc.frozen
  have hblank : ∀ id, ¬ id < d.model.size → d.model.node id = Node.blank := fun id hid =>
    node_of_size_le (Nat.le_of_not_lt hid)
  refine ⟨hf.up, fun id c hchild => ?_, fun id hkind c hchild => ?_, fun id g hg => ?_,
    fun id s hs => ?_, fun id s => hc.mirrors id s not_false, fun id hkind => ?_,
    ⟨hc.founded⟩, fun id hid => (hc.regular id hid).home⟩
  · by_cases hid : id < d.model.size
    · exact (hc.regular id hid).children c hchild
    · rw [hblank id hid] at hchild
      cases hchild
  · by_cases hid : id < d.model.size
    · exact (hc.regular id hid).below hkind c hchild
    · rw [hblank id hid] at hchild
      cases hchild
  · by_cases hid : id < d.model.size
    · obtain ⟨name, hb⟩ := (hc.regular id hid).uses g hg
      obtain ⟨hlt, hroot, -⟩ := hf.root name g hb
      exact ⟨hlt, hroot⟩
    · rw [hblank id hid] at hg
      cases hg
  · obtain ⟨hlt, hdone⟩ := (hc.regular id (lt_size_of_copies hs)).copied s hs
    exact ⟨hlt, hf.not_augment hdone⟩
  · by_cases hid : id < d.model.size
    · exact (hc.regular id hid).parts hkind
    · refine ⟨[], [], [], ?_, ?_⟩
      · rw [hblank id hid]; rfl
      · rw [hblank id hid]
        exact ⟨by simp, .nil, by simp, fun _ => ⟨rfl, by simp⟩⟩

/-! ## Modules and augments -/

theorem grouped_of_nodes {model model' : DataModel}
    (h : ∀ x, model'.node x = model.node x) {id : NodeId} (hg : model'.Grouped id) :
    model.Grouped id := by
  induction hg with
  | root hk => rw [h] at hk; exact .root hk
  | child hp _ ih => rw [h] at hp; exact .child hp ih

namespace Draft

variable {d d' : Draft} {names : List String} {sources : List Source.Module}

/-- A draft between two statements at the top of a module: it is `Coherent` with nothing under
change, and all its `roots` are `Rooted`. -/
structure Sound (names : List String) (d : Draft) : Prop where
  coherent : d.Coherent fun _ => False
  modules : d.model.moduleNames = names
  rooted : ∀ r ∈ d.model.roots, d.model.Rooted r

theorem Sound.later (h : d.Sound names) (hc : d'.Coherent fun _ => False) (hl : Later d d') :
    d'.Sound names :=
  ⟨hc, hl.modules.trans h.modules, fun r hr =>
    hl.rooted h.coherent.frozen (h.rooted r (hl.roots ▸ hr))⟩

/-- `updateModule` keeps a draft `Sound` if it lists one more root that is `Rooted`, or something
that is no root. -/
theorem Sound.updateModule (h : d.Sound names) {name : String} {f : Module → Module} {id : NodeId}
    (hid : d.model.Rooted id)
    (hf : ∀ m, (f m).name = m.name ∧
      ∀ r ∈ (f m).data ++ (f m).rpcs, r ∈ m.data ++ m.rpcs ∨ r = id) :
    (d.updateModule name f).Sound names := by
  have hnodes : ∀ x, (d.updateModule name f).model.node x = d.model.node x := fun _ => rfl
  have hrooted : ∀ r, d.model.Rooted r → (d.updateModule name f).model.Rooted r := fun r hr =>
    ⟨hr.lt, fun hg => hr.free (grouped_of_nodes hnodes hg), hr.kind⟩
  refine ⟨h.coherent.updateModule name fun m => (hf m).1, Eq.trans ?_ h.modules, fun r hr => ?_⟩
  · unfold moduleNames Draft.updateModule
    rw [List.map_map]
    refine List.map_congr_left fun m _ => ?_
    rw [Function.comp_apply]
    split
    · exact (hf m).1
    · rfl
  · obtain ⟨m', hm', hr⟩ := List.mem_flatMap.1 hr
    obtain ⟨m, hm, rfl⟩ := List.mem_map.1 hm'
    have hmem : r ∈ m.data ++ m.rpcs ∨ r = id := by
      split at hr
      · exact (hf m).2 r hr
      · exact .inl hr
    rcases hmem with hmem | rfl
    · exact hrooted r (h.rooted r (List.mem_flatMap.2 ⟨m, hm, hmem⟩))
    · exact hrooted r hid

/-- The node that `AddsNode` tells of, at the top and no grouping, is `Rooted`. -/
theorem AddsNode.rooted {changing : NodeId → Prop} {kind : Kind}
    (h : AddsNode changing none kind d d') (hkind : kind ≠ .grouping) :
    d'.model.Rooted d.model.size := by
  refine ⟨h.filling.lt, fun hg => ?_, h.filling.kind⟩
  cases hg with
  | root hk => exact hkind (h.hasKind.symm.trans hk)
  | child hp _ => exact absurd (h.place.symm.trans hp) nofun

theorem linkedKind_ne_grouping (kind : Source.Kind) : linkedKind kind ≠ .grouping := by
  cases kind <;> exact nofun

theorem addModule_sound {m : Source.Module} (hm : m ∈ sources)
    (h : d.Sound (sources.map (·.name))) (hok : addModule sources d m = .ok d') :
    d'.Sound (sources.map (·.name)) := by
  have hname : m.name ∈ sources.map (·.name) := List.mem_map.2 ⟨m, hm, rfl⟩
  have hprovide := provideGrouping_provides sources []
  unfold addModule at hok
  obtain ⟨d₁, hgroupings, hok⟩ := bind_eq_ok.1 hok
  obtain ⟨d₂, hdata, hrpcs⟩ := bind_eq_ok.1 hok
  -- a grouping is no root, so the roots stay as they are
  have h₁ : d₁.Sound (sources.map (·.name)) := by
    refine foldlM_invariant (Sound (sources.map (·.name))) _ d d₁ (fun g _ b b' hb hstep => ?_) h
      hgroupings
    obtain ⟨⟨b₁, id⟩, hadd, hret⟩ := bind_eq_ok.1 hstep
    cases hret
    obtain ⟨hc, hg, -⟩ := hprovide _ _ b b' id _ hb.coherent hb.modules hadd
    exact hb.later hc hg.later
  have h₂ : d₂.Sound (sources.map (·.name)) := by
    refine foldlM_invariant (Sound (sources.map (·.name))) _ d₁ d₂ (fun s _ b b' hb hstep => ?_) h₁
      hdata
    obtain ⟨⟨b₁, id⟩, hadd, hret⟩ := bind_eq_ok.1 hstep
    cases hret
    have htop : ∀ p, (none : Option NodeId) = some p → p < b.model.size ∧ ¬ b.Done p := nofun
    obtain ⟨rfl, hadds⟩ := addStatement_adds hprovide hname s b b₁ hb.coherent hb.modules htop hadd
    refine (hb.later hadds.coherent hadds.grows.later).updateModule
      (hadds.rooted (linkedKind_ne_grouping s.kind)) fun x => ⟨rfl, fun r hr => ?_⟩
    simpa [or_assoc, or_comm (a := r = b.model.size)] using hr
  refine foldlM_invariant (Sound (sources.map (·.name))) _ d₂ d' (fun r _ b b' hb hstep => ?_) h₂
    hrpcs
  obtain ⟨⟨b₁, id⟩, hadd, hret⟩ := bind_eq_ok.1 hstep
  cases hret
  obtain ⟨rfl, hadds⟩ := addRpc_adds hprovide hname hb.coherent hb.modules hadd
  refine (hb.later hadds.coherent hadds.grows.later).updateModule (hadds.rooted nofun)
    fun x => ⟨rfl, fun r hr => ?_⟩
  simpa [or_assoc] using hr

theorem addAugments_sound {m : Source.Module} (hm : m ∈ sources)
    (h : d.Sound (sources.map (·.name))) (hok : addAugments sources d m = .ok d') :
    d'.Sound (sources.map (·.name)) := by
  have hname : m.name ∈ sources.map (·.name) := List.mem_map.2 ⟨m, hm, rfl⟩
  refine foldlM_invariant (Sound (sources.map (·.name))) m.augments d d'
    (fun a _ b b' hb hstep => ?_) h hok
  obtain ⟨⟨b₁, id⟩, hadd, hret⟩ := bind_eq_ok.1 hstep
  cases hret
  obtain ⟨hc, hl⟩ := addAugment_coherent (provideGrouping_provides sources []) hname hb.coherent
    hb.rooted hb.modules hadd
  have h₁ := hb.later hc hl
  let list (x : Module) : Module := { x with augments := x.augments ++ [id] }
  exact h₁.later (h₁.coherent.updateModule (f := list) m.name fun _ => rfl)
    (grows_updateModule (f := list) (fun _ => False) b₁ m.name fun _ => ⟨rfl, rfl, rfl⟩).later

/-! ## The whole -/

theorem sound_start (sources : List Source.Module) :
    Sound (sources.map (·.name)) { model := { modules := sources.map emptyModule } } := by
  have hnone : ∀ x, ¬ Draft.Done { model := { modules := sources.map emptyModule } } x := by
    intro x hx
    induction hx with
    | root hb => cases hb
    | child _ _ ih => exact ih
  have hblank : ∀ x, ({ modules := sources.map emptyModule } : DataModel).node x = Node.blank :=
    fun x => node_of_size_le (Nat.zero_le x)
  refine ⟨⟨⟨fun id p hp => absurd (lt_size_of_parent hp) (Nat.not_lt_zero id), nofun,
    fun x hx => absurd hx (hnone x), fun x hx => absurd hx (hnone x)⟩, nofun,
    fun x hx => absurd hx (Nat.not_lt_zero x), fun x s _ hs => ?_⟩, ?_, fun r hr => ?_⟩
  · exact absurd (lt_size_of_copies hs) (Nat.not_lt_zero x)
  · unfold moduleNames
    rw [List.map_map]
    rfl
  · obtain ⟨m', hm', hr⟩ := List.mem_flatMap.1 hr
    obtain ⟨m, -, rfl⟩ := List.mem_map.1 hm'
    cases hr

end Draft

/-- What `link` makes is a `Linked` model, whose modules go by the names of the sources. -/
theorem linked_of_link {sources : List Source.Module} {model : DataModel}
    (h : link sources = .ok model) :
    model.Linked ∧ model.moduleNames = sources.map (·.name) := by
  unfold link at h
  split at h
  · cases h
  · obtain ⟨d₁, hmodules, h⟩ := bind_eq_ok.1 h
    obtain ⟨d₂, haugments, h⟩ := bind_eq_ok.1 h
    cases h
    have h₁ := foldlM_invariant (Draft.Sound (sources.map (·.name))) sources _ d₁
      (fun m hm _ _ hb => Draft.addModule_sound hm hb) (Draft.sound_start sources) hmodules
    have h₂ := foldlM_invariant (Draft.Sound (sources.map (·.name))) sources d₁ d₂
      (fun m hm _ _ hb => Draft.addAugments_sound hm hb) h₁ haugments
    exact ⟨h₂.coherent.linked, h₂.modules⟩

/-! ## A grouping that is shared -/

/-- The statement of a leaf of a named type, for examples. -/
def leafOf (name type : String) : Source.Statement :=
  ⟨.leaf ⟨.named type, false, none⟩, name, none, none, none, [], []⟩

/-- The statement of a container with children and uses, for examples. -/
def containerOf (name : String) (children : List Source.Statement) (uses : List String) :
    Source.Statement :=
  ⟨.container false, name, none, none, none, children, uses⟩

/-- The grouping `endpoint`, which one container uses without adding to it, one adds to, and one has
changed by an augment. -/
def sharing : List Source.Module :=
  [{ name := "net", modulePrefix := none, namespaceUri := none, revision := none,
     description := none, typedefs := [], rpcs := []
     groupings := [⟨"endpoint", none, none,
       ⟨[leafOf "address" "string", containerOf "limits" [leafOf "rate" "uint32"] []], []⟩⟩]
     data := [containerOf "local" [] ["endpoint"],
       containerOf "remote" [leafOf "name" "string"] ["endpoint"],
       containerOf "spare" [] ["endpoint"]]
     augments := [⟨"/spare/limits", none, ⟨[leafOf "burst" "uint32"], []⟩⟩] }]

theorem link_sharing : ∃ model, link sharing = .ok model :=
  exists_ok_of_isSome (by decide +kernel)

end RestSpec.DataModel
