/-
Building shows what is written. Whatever a body stands for, the children that building adds to a
node show it: a statement the node it declares with what lies in it, a use the children of its
grouping as part of the module of the user. The carrying invariant is that the children of every
grouping that has been built show what its declaration stands for.
-/
import RestSpec.Proofs.DataModel.Nature
import RestSpec.Proofs.DataModel.Expansion

namespace RestSpec.DataModel

/-! ## What modules go by -/

/-- A module apart from what only its own nodes tell: name, prefix and roots. -/
structure Outline where
  name : String
  modulePrefix : String
  data : List NodeId
  rpcs : List NodeId

/-- The `Outline` of a module: what augments neither add nor take away. -/
def Module.outline (m : Module) : Outline where
  name := m.name
  modulePrefix := m.modulePrefix
  data := m.data
  rpcs := m.rpcs

/-- The `Outline` of each module, in their order. -/
def outlines (model : DataModel) : List Outline := model.modules.map Module.outline

/-- What a name is qualified with: a module's name and its prefix. -/
structure Head where
  name : String
  modulePrefix : String

/-- The name and the prefix of a module, which never change. -/
def Outline.head (o : Outline) : Head := ⟨o.name, o.modulePrefix⟩

/-- The `Head` of each module, in their order. -/
def heads (model : DataModel) : List Head := model.outlines.map Outline.head

theorem heads_of_outlines {model model' : DataModel} (h : model'.outlines = model.outlines) :
    model'.heads = model.heads :=
  congrArg (List.map Outline.head) h

/-- The names and the prefixes of modules decide what `qualify` answers. -/
theorem qualify_heads {modules modules' : List Module}
    (h : modules.map (fun m => m.outline.head) = modules'.map fun m => m.outline.head)
    (name home location : String) :
    qualify modules name home location = qualify modules' name home location := by
  unfold qualify
  split
  · rfl
  · rename_i before localName hsplit
    let test (head : Head) : Bool := head.modulePrefix == before || head.name == before
    have hfind : ∀ l : List Module, (l.find? fun m => m.modulePrefix == before || m.name == before).map
        (fun m => m.outline.head) = (l.map fun m => m.outline.head).find? test := fun l => by
      rw [List.find?_map]
      rfl
    have heq := (hfind modules).trans ((congrArg (List.find? test) h).trans (hfind modules').symm)
    generalize modules.find? (fun m => m.modulePrefix == before || m.name == before) = found at heq
    generalize modules'.find? (fun m => m.modulePrefix == before || m.name == before) = found' at heq
    cases found with
    | none =>
      cases found' with
      | none => rfl
      | some m' => cases heq
    | some m =>
      cases found' with
      | none => cases heq
      | some m' =>
        have hname : m.name = m'.name := congrArg Head.name (Option.some.inj heq)
        dsimp only
        rw [hname]

theorem qualify_of_heads {sources : List Source.Module} {model : DataModel}
    (h : model.heads = (sources.map emptyModule).map fun m => m.outline.head)
    (name home location : String) :
    qualify model.modules name home location =
      qualify (sources.map emptyModule) name home location := by
  refine qualify_heads (Eq.trans ?_ h) name home location
  unfold heads outlines
  rw [List.map_map]
  rfl

namespace Draft

variable {d d' d'' : Draft} {changing : NodeId → Prop}

/-! ## Drafts that are faithful to their sources -/

/-- What stays fixed while statements are added: the sources, the number from which on no augment
has touched a node, and what the modules go by. -/
structure Setting where
  sources : List Source.Module
  since : NodeId
  outlines : List Outline

/-- The tree of a grouping shows what its declaration `Expands` to. -/
structure Unfolds (sources : List Source.Module) (d : Draft) (name : GroupingName) (g : NodeId) :
    Prop where
  config : (d.node g).config = true
  shapes : ∃ decl ss, declaration? sources name = some decl ∧
    Expands sources name.moduleName name.moduleName decl.body ss ∧
    d.model.ShowsAll (d.node g).children ss

/-- A draft is faithful to its `Setting` if modules and nodes are what their statements say, up to
what augments have added, and what has been `built` shows the groupings. -/
structure Faithful (σ : Setting) (d : Draft) : Prop where
  outlines : d.model.outlines = σ.outlines
  heads : d.model.heads = (σ.sources.map emptyModule).map fun m => m.outline.head
  lawful : ∀ x < d.model.size, d.Lawful x
  asMade : ∀ x, σ.since ≤ x → x < d.model.size → d.AsMade x
  distinct : ∀ x, (d.node x).children.Nodup
  unfolds : ∀ name g, (name, g) ∈ d.built → Unfolds σ.sources d name g

variable {σ : Setting}

theorem Faithful.qualify (h : Faithful σ d) (name home location : String) :
    qualify d.model.modules name home location =
      qualify (σ.sources.map emptyModule) name home location :=
  qualify_of_heads h.heads name home location

theorem Faithful.moduleNames (h : Faithful σ d) :
    d.model.moduleNames = σ.sources.map (·.name) := by
  have hnames := congrArg (List.map Head.name) h.heads
  unfold DataModel.heads DataModel.outlines at hnames
  rw [List.map_map, List.map_map, List.map_map, List.map_map] at hnames
  exact hnames

/-- The nodes that are `Done` look as before if they have not changed. -/
theorem Frozen.sameBelow (hf : d.Frozen) (hkept : ∀ x, d.Done x → d'.node x = d.node x) :
    SameBelow d.model d'.model d.Done :=
  ⟨fun _ hx _ hc => hf.done_child hx hc, fun x hx => congrArg Node.label (hkept x hx),
    fun x hx => congrArg Node.children (hkept x hx)⟩

theorem Unfolds.kept {sources : List Source.Module} {name : GroupingName} {g : NodeId}
    (h : Unfolds sources d name g) (hf : d.Frozen) (hb : (name, g) ∈ d.built)
    (hkept : ∀ x, d.Done x → d'.node x = d.node x) : Unfolds sources d' name g := by
  obtain ⟨hconfig, decl, ss, hdecl, hexpands, hshows⟩ := h
  have hg : d.Done g := .root hb
  refine ⟨by rw [hkept g hg]; exact hconfig, decl, ss, hdecl, hexpands, ?_⟩
  rw [hkept g hg]
  exact hshows.frame (hf.sameBelow hkept) fun c hc => hf.done_child hg hc

/-- A draft stays `Faithful` if what is new is as it was made and what is `Done` has not changed. -/
theorem Faithful.step (h : Faithful σ d) (hc : d.Coherent changing) (ha : Ages d d')
    (hkept : ∀ x, d.Done x → d'.node x = d.node x)
    (houtlines : d'.model.outlines = d.model.outlines) (hb : d'.built = d.built)
    (hnew : ∀ x, d.model.size ≤ x → x < d'.model.size → d'.AsMade x)
    (hdistinct : ∀ x, (d'.node x).children = (d.node x).children ∨ (d'.node x).children.Nodup) :
    Faithful σ d' := by
  have hf := hc.frozen
  have hparent : ∀ x < d.model.size, ∀ p, (d.node x).parent = some p → p < d.model.size :=
    fun x hx p hp => lt_trans (hf.up x p hp) hx
  have hsource : ∀ x < d.model.size, ∀ s, d.model.Copies x s → s < d.model.size :=
    fun x hx s hs => lt_trans ((hc.regular x hx).copied s hs).1 hx
  refine ⟨houtlines.trans h.outlines, ?_, fun x hx => ?_, fun x hle hx => ?_, fun x => ?_,
    fun name g hmem => ?_⟩
  · exact (heads_of_outlines houtlines).trans h.heads
  · by_cases hlt : x < d.model.size
    · exact (h.lawful x hlt).ages ha hlt (hparent x hlt) (hsource x hlt)
    · exact (hnew x (Nat.le_of_not_lt hlt) hx).toLawful
  · by_cases hlt : x < d.model.size
    · exact (h.asMade x hle hlt).ages ha hlt (hparent x hlt) (hsource x hlt)
    · exact hnew x (Nat.le_of_not_lt hlt) hx
  · rcases hdistinct x with hsame | hnodup
    · rw [hsame]
      exact h.distinct x
    · exact hnodup
  · rw [hb] at hmem
    exact (h.unfolds name g hmem).kept hf hmem hkept

/-- A new node that is no copy and that nothing was added to leaves a draft `Faithful`. -/
theorem Faithful.add (h : Faithful σ d) (hc : d.Coherent changing) {n : Node}
    (hparent : ∀ p, n.parent = some p → p < d.model.size) (hchildren : n.children = [])
    (hcopied : n.copiedFrom = none) (hintro : n.introducedBy = none)
    (haug : n.augmentations = []) : Faithful σ (d.add n).1 := by
  have hg : Grows (fun p => n.parent = some p) d (d.add n).1 :=
    grows_add d fun p hp => ⟨hparent p hp, hp⟩
  have hself : (d.add n).1.node d.model.size = d.completed n := node_add_self d n
  refine h.step hc hg.ages (fun x hx => node_add_of_lt d n (hc.frozen.lt_size hx)) rfl rfl
    (fun x hx hx' => ?_) fun x => ?_
  · rw [size_add] at hx'
    obtain rfl : d.model.size = x := Nat.le_antisymm hx (Nat.le_of_lt_succ hx')
    have hnot : ∀ s, ¬ (d.add n).1.model.Copies d.model.size s := by
      intro s hs
      have hs : ((d.add n).1.node d.model.size).copiedFrom = some s := hs
      rw [hself] at hs
      exact absurd (hcopied.symm.trans hs) nofun
    refine ⟨⟨?_, fun s hs => absurd hs (hnot s), fun s hs => absurd hs (hnot s),
      fun s hs => absurd hs (hnot s)⟩, ?_, fun hne => ?_⟩
    · have hinherited : (n.parent.map fun p => ((d.add n).1.node p).config) =
          n.parent.map fun p => (d.node p).config := by
        cases hp : n.parent with
        | none => rfl
        | some p => exact congrArg (fun n => some n.config) (node_add_of_lt d n (hparent p hp))
      unfold Configured
      rw [hself]
      show _ = ((n.parent.map fun p => ((d.add n).1.node p).config).getD true && _)
      rw [hinherited]
      rfl
    · rw [hself]
      exact haug
    · rw [hself] at hne
      exact absurd hintro hne
  · rw [node_add]
    split
    · right
      show n.children.Nodup
      rw [hchildren]
      exact List.nodup_nil
    · exact .inl rfl

/-- A node that is not `Done` gets a child, and the draft stays `Faithful`. -/
theorem Faithful.appendChild (h : Faithful σ d) (hc : d.Coherent changing) {t c : NodeId}
    (ht : t < d.model.size) (htd : ¬ d.Done t) (hnew : c ∉ (d.node t).children) :
    Faithful σ (d.appendChild t c) := by
  have hg : Grows (· = t) d (d.appendChild t c) := grows_appendChild ht (by rfl) c
  refine h.step hc hg.ages (fun x => hg.kept_done hc.frozen fun _ hx => hx ▸ htd) rfl rfl
    (fun x hx hx' => absurd (size_update d t _ ▸ hx') (Nat.not_lt.2 hx)) fun x => ?_
  by_cases hx : x = t
  · rw [hx, node_appendChild ht]
    refine .inr (List.Nodup.append (h.distinct t) (List.nodup_singleton c) ?_)
    simpa using hnew
  · exact .inl (congrArg Node.children (node_update_of_ne d ht _ hx))

/-- A draft stays `Faithful` whatever is said of modules, as long as their `heads` stay. -/
theorem Faithful.ofNodes (h : Faithful σ d) (hnodes : d'.model.nodes = d.model.nodes)
    (hheads : d'.model.heads = d.model.heads)
    (hb : ∀ name g, (name, g) ∈ d'.built → Unfolds σ.sources d name g) :
    Faithful { σ with outlines := d'.model.outlines } d' := by
  obtain ⟨⟨nodes, modules⟩, built⟩ := d
  obtain ⟨⟨nodes', modules'⟩, built'⟩ := d'
  obtain rfl : nodes' = nodes := hnodes
  refine ⟨rfl, hheads.trans h.heads, fun x hx => ?_, fun x hle hx => ?_, h.distinct,
    fun name g hmem => ?_⟩
  · obtain ⟨h₁, h₂, h₃, h₄⟩ := h.lawful x hx
    exact ⟨h₁, h₂, h₃, h₄⟩
  · obtain ⟨⟨h₁, h₂, h₃, h₄⟩, h₅, h₆⟩ := h.asMade x hle hx
    exact ⟨⟨h₁, h₂, h₃, h₄⟩, h₅, h₆⟩
  · obtain ⟨hconfig, decl, ss, hdecl, hexpands, hshows⟩ := hb name g hmem
    have hsame : SameBelow ⟨nodes', modules⟩ ⟨nodes', modules'⟩ fun _ => True :=
      ⟨fun _ _ _ _ => trivial, fun _ _ => rfl, fun _ _ => rfl⟩
    exact ⟨hconfig, decl, ss, hdecl, hexpands, hshows.frame hsame fun _ _ => trivial⟩

/-- What a draft is faithful to may be told by its own modules. -/
theorem Faithful.here (h : Faithful σ d) (houtlines : d'.model.outlines = d.model.outlines)
    (h' : Faithful { σ with outlines := d'.model.outlines } d') : Faithful σ d' := by
  rw [houtlines, h.outlines] at h'
  exact h'

theorem outlines_updateModule (d : Draft) (name : String) {f : Module → Module}
    (hf : ∀ m, (f m).outline = m.outline) :
    (d.updateModule name f).model.outlines = d.model.outlines := by
  unfold outlines updateModule
  rw [List.map_map]
  refine List.map_congr_left fun m _ => ?_
  rw [Function.comp_apply]
  split
  · exact hf m
  · rfl

/-! ## Shapes of copies -/

/-- Nodes from a number on are settled copies, each `CopyMade` for a module. -/
def CopiedSince (d : Draft) (start : NodeId) (moduleName : String) : Prop :=
  ∀ x, start ≤ x → x < d.model.size → d.Settled x ∧ ∃ s, d.CopyMade moduleName x s

mutual

/-- A copy shows the shape of what it copies, put `within` the module it was made for. -/
theorem CopiedSince.shows {start : NodeId} {moduleName : String}
    (hnew : d.CopiedSince start moduleName) {t c : NodeId} (hstart : start ≤ c)
    (hlt : c < d.model.size) (hct : d.model.Copies c t) :
    ∀ {s : Shape}, d.model.Shows t s → d.model.Shows c (s.within moduleName)
  | .node label children, .node hlabel hbelow => by
    obtain ⟨hsettled, s, hmade⟩ := hnew c hstart hlt
    obtain rfl : s = t := Option.some.inj (hmade.copied.symm.trans hct)
    have hm := hsettled.mirrors s hct
    have hreference : (d.model.node c).reference = (d.model.node s).reference := hmade.reference
    have hhome : (d.model.node c).moduleName = moduleName := hmade.home
    refine .node ?_ (hnew.showsAll (fun x hx => ?_) (hm.children.imp fun _ _ h => h.copied) hbelow)
    · rw [← hlabel]
      unfold Node.label
      rw [hm.kind, hm.name, hhome, hm.configStatement, hm.description, hreference]
    · obtain ⟨hcx, hx⟩ := hsettled.regular.children x hx
      exact ⟨le_trans hstart (Nat.le_of_lt hcx), hx⟩

theorem CopiedSince.showsAll {start : NodeId} {moduleName : String}
    (hnew : d.CopiedSince start moduleName) {ts cs : List NodeId}
    (hcs : ∀ c ∈ cs, start ≤ c ∧ c < d.model.size) (hct : List.Forall₂ d.model.Copies cs ts) :
    ∀ {ss : List Shape}, d.model.ShowsAll ts ss →
      d.model.ShowsAll cs (Shape.allWithin moduleName ss)
  | [], .nil => by
    cases hct
    exact .nil
  | _ :: _, .cons h hs => by
    cases hct with
    | cons hc hrest =>
      obtain ⟨hstart, hlt⟩ := hcs _ List.mem_cons_self
      exact .cons (hnew.shows hstart hlt hc h)
        (hnew.showsAll (fun c hc => hcs c (List.mem_cons_of_mem _ hc)) hrest hs)

end

/-- Where the copied nodes are distinct, the copies are. -/
theorem nodup_of_copies {model : DataModel} :
    ∀ {cs ts : List NodeId}, List.Forall₂ model.Copies cs ts → ts.Nodup → cs.Nodup
  | [], [], _, _ => List.nodup_nil
  | c :: cs, t :: ts, .cons hct hrest, hnodup => by
    obtain ⟨ht, hts⟩ := List.nodup_cons.1 hnodup
    refine List.nodup_cons.2 ⟨fun hc => ht ?_, nodup_of_copies hrest hts⟩
    obtain ⟨u, hu, hcu⟩ := forall₂_mem_left hrest c hc
    obtain rfl : t = u := Option.some.inj (hct.symm.trans hcu)
    exact hu

section Use

variable {name : GroupingName} {moduleName : String} {g target introducer : NodeId}
  (h : Faithful σ d) (hc : d.Coherent changing)

include h hc

/-- A use `MakesCopies` of the children of its grouping. -/
theorem Faithful.use_makes (hb : (name, g) ∈ d.built) (ht : target < d.model.size)
    (hi : introducer < d.model.size) (hid : ¬ d.Done introducer) :
    MakesCopies moduleName target (d.recordUse introducer g)
      (copyGrouping moduleName target introducer g (d.recordUse introducer g)) := by
  have hf := hc.frozen
  have hg : d.Done g := .root hb
  have hrecord : Grows (· = introducer) d (d.recordUse introducer g) :=
    grows_update hi (by rfl) [] [g] (by simp)
  have hro : ∀ x, x = introducer → ¬ d.Done x := fun x hx => hx ▸ hid
  have hsize : (d.recordUse introducer g).model.size = d.model.size := size_update _ _ _
  refine copyGrouping_makes (hrecord.frozen hf hro rfl) (fun x hx => ?_) (hsize.symm ▸ ht)
    (hrecord.done hg) ?_
  · have hlt := hf.lt_size (hrecord.done_of_built hf hro rfl hx)
    exact (h.lawful x hlt).configured.ages hrecord.ages hlt
      fun p hp => lt_trans (hf.up x p hp) hlt
  · rw [hrecord.kept_done hf hro hg]
    exact (h.unfolds name g hb).config

/-- The `children` of a node are as before or without repetition once a grouping is used: the target
gets new ones, and a copy has as many as what it copies, which was `Done` before. -/
theorem UsesGrouping.distinct {ids : List NodeId} (hu : UsesGrouping target introducer g d d' ids)
    (ht : target < d.model.size) (ho : ∀ x, x = target ∨ x = introducer → ¬ d.Done x)
    (hnew : d'.CopiedSince d.model.size moduleName) (x : NodeId) :
    (d'.node x).children = (d.node x).children ∨ (d'.node x).children.Nodup := by
  have hf := hc.frozen
  by_cases hxt : x = target
  · have hfilled := hu.filled
    have hcopies : List.Forall₂ d'.model.Copies ids (d.node g).children :=
      hu.placed.imp fun _ _ hp => hp.copied.copied
    rw [hxt, hfilled]
    refine .inr (List.Nodup.append (h.distinct target) (nodup_of_copies hcopies (h.distinct g))
      fun c hold hadded => ?_)
    have hlt := ((hc.regular target ht).children c hold).2
    exact absurd (hu.bounds c hadded).1 (Nat.not_le.2 hlt)
  by_cases hxi : x = introducer
  · rw [hxi, hu.recorded (hxi ▸ hxt)]
    exact .inl rfl
  by_cases hlt : x < d.model.size
  · exact .inl (congrArg Node.children (hu.grows.kept x hlt (by simp [hxt, hxi])))
  by_cases hlt' : x < d'.model.size
  · right
    obtain ⟨hsettled, s, hs⟩ := hnew x (Nat.le_of_not_lt hlt) hlt'
    have hsd := hu.grows.done_of_built hf ho hu.built (hsettled.regular.copied s hs.copied).2
    have hchildren : (d'.model.node s).children = (d.node s).children :=
      congrArg Node.children (hu.grows.kept_done hf ho hsd)
    refine nodup_of_copies ((hsettled.mirrors s hs.copied).children.imp fun _ _ h => h.copied) ?_
    rw [hchildren]
    exact h.distinct s
  · have hblank : d'.node x = Node.blank := node_of_size_le (Nat.le_of_not_lt hlt')
    rw [hblank]
    exact .inr List.nodup_nil

/-- `copyGrouping` keeps a draft `Faithful`, and adds copies to the target that show the shapes `ss`
which the children of the grouping `g` show. -/
theorem Faithful.use (hb : (name, g) ∈ d.built) (hm : moduleName ∈ d.model.moduleNames)
    (ht : target < d.model.size) (htd : ¬ d.Done target) (hi : introducer < d.model.size)
    (hid : ¬ d.Done introducer) {ss : List Shape}
    (hshows : d.model.ShowsAll (d.node g).children ss) :
    Faithful σ (copyGrouping moduleName target introducer g (d.recordUse introducer g)) ∧
      ∃ ids, UsesGrouping target introducer g d
          (copyGrouping moduleName target introducer g (d.recordUse introducer g)) ids ∧
        (copyGrouping moduleName target introducer g (d.recordUse introducer g)).model.ShowsAll ids
          (Shape.allWithin moduleName ss) := by
  have hf := hc.frozen
  have hg : d.Done g := .root hb
  have hsize : (d.recordUse introducer g).model.size = d.model.size := size_update _ _ _
  obtain ⟨ids, hu⟩ := usesGrouping_copyGrouping introducer hf hm ht htd hi hid hg
  have hmakes : MakesCopies moduleName target _ _ := h.use_makes hc hb ht hi hid
  generalize copyGrouping moduleName target introducer g (d.recordUse introducer g) = d' at *
  have ho : ∀ x, x = target ∨ x = introducer → ¬ d.Done x := by
    rintro x (rfl | rfl)
    · exact htd
    · exact hid
  have hkept : ∀ x, d.Done x → d'.node x = d.node x := fun x => hu.grows.kept_done hf ho
  have hnew : d'.CopiedSince d.model.size moduleName := fun x hx hlt =>
    ⟨hu.settled x hx hlt, hmakes.made x (hsize.symm ▸ hx) hlt⟩
  refine ⟨h.step hc hu.grows.ages hkept (congrArg (List.map Module.outline) hmakes.modules) hu.built
    (fun x hx hlt => ?_) (hu.distinct h hc ht ho hnew), ids, hu, ?_⟩
  · obtain ⟨-, s, hs⟩ := hnew x hx hlt
    exact hs.asMade
  · exact hnew.showsAll hu.bounds (hu.placed.imp fun _ _ hp => hp.copied.copied)
      (hshows.frame (hf.sameBelow hkept) fun c hc => hf.done_child hg hc)

end Use

/-! ## What a step shows -/

/-- Nodes from a bound on are the `SameBelow` in two models if `Grows` has only opened nodes under
the bound. -/
theorem Grows.sameBelow {opened : NodeId → Prop} (hg : Grows opened d d')
    (hc : d.Coherent changing) {bound : NodeId} (hopened : ∀ x, opened x → x < bound) :
    SameBelow d.model d'.model fun x => bound ≤ x ∧ x < d.model.size := by
  have hkept : ∀ x, bound ≤ x ∧ x < d.model.size → d'.node x = d.node x := by
    rintro x ⟨hle, hlt⟩
    exact hg.kept x hlt fun h => absurd (hopened x h) (Nat.not_lt.2 hle)
  refine ⟨?_, fun x hx => congrArg Node.label (hkept x hx),
    fun x hx => congrArg Node.children (hkept x hx)⟩
  rintro x ⟨hle, hlt⟩ c hchild
  obtain ⟨hxc, hsize⟩ := (hc.regular x hlt).children c hchild
  exact ⟨le_trans hle (Nat.le_of_lt hxc), hsize⟩

/-- The node `t` has got further `children`, all of them new, that show the shapes `ss`; the draft
is `Faithful` all along. -/
structure Gains (σ : Setting) (t : NodeId) (ss : List Shape) (d d' : Draft) : Prop where
  faithful : Faithful σ d'
  children : ∃ ids, (d'.node t).children = (d.node t).children ++ ids ∧
    (∀ id ∈ ids, d.model.size ≤ id ∧ id < d'.model.size) ∧ d'.model.ShowsAll ids ss

theorem Gains.refl (h : Faithful σ d) (t : NodeId) : Gains σ t [] d d :=
  ⟨h, [], by simp, by simp, .nil⟩

/-- What `Gains` says of `ss` and then of `ss'` it says of `ss ++ ss'`, since what has been gained
stays while the draft `Grows`. -/
theorem Gains.trans {t : NodeId} {ss ss' : List Shape} {opened : NodeId → Prop}
    (h : Gains σ t ss d d') (h' : Gains σ t ss' d' d'') (hc : d'.Coherent changing)
    (hg : Grows opened d' d'') (hsize : d.model.size ≤ d'.model.size)
    (hopened : ∀ x, opened x → x < d.model.size) : Gains σ t (ss ++ ss') d d'' := by
  obtain ⟨ids, hids, hbounds, hshows⟩ := h.children
  obtain ⟨ids', hids', hbounds', hshows'⟩ := h'.children
  refine ⟨h'.faithful, ids ++ ids', by rw [hids', hids, List.append_assoc], fun id hid => ?_,
    (hshows.frame (hg.sameBelow hc hopened) hbounds).append hshows'⟩
  rcases List.mem_append.1 hid with hid | hid
  · obtain ⟨hle, hlt⟩ := hbounds id hid
    exact ⟨hle, lt_of_lt_of_le hlt hg.size⟩
  · obtain ⟨hle, hlt⟩ := hbounds' id hid
    exact ⟨le_trans hsize hle, hlt⟩

end Draft

end RestSpec.DataModel
