/-
Building trees from statements. Every statement adds a settled tree, every use a block of settled
copies, and a grouping that is needed on the way is built among the new nodes. When a grouping is
finished all its nodes are settled and lead nowhere but to what was done before and further down,
so they may be copied from then on.
-/
import RestSpec.Proofs.DataModel.Copy
import RestSpec.Proofs.Except

namespace RestSpec.DataModel

open Relation (TransGen ReflTransGen)

/-- What may stand in a grouping may stand anywhere but directly below a remote call. -/
theorem Kind.takes_of_grouping {k c : Kind} (hk : k ≠ .rpc) (h : Kind.grouping.takes c = true) :
    k.takes c = true := by
  cases k <;> cases c <;> simp_all [takes]

theorem Kind.takes_linkedKind {k : Kind} (hk : k ≠ .rpc) (kind : Source.Kind) :
    k.takes (linkedKind kind) = true := by
  refine takes_of_grouping hk ?_
  cases kind <;> rfl

theorem Kind.linkedKind_isAugment (kind : Source.Kind) : (linkedKind kind).isAugment = false := by
  cases kind <;> rfl

theorem Kind.linkedKind_ne_rpc (kind : Source.Kind) : linkedKind kind ≠ .rpc := by
  cases kind <;> exact nofun

namespace Draft

variable {d d' d'' : Draft} {changing : NodeId → Prop}

/-! ## Coherent drafts lead nowhere in a circle -/

/-- Every way along `Edge` ends: down the numbers grow, and over and back lead to what is `Done`. -/
theorem Coherent.founded (hc : d.Coherent changing) (x : NodeId) :
    Acc (fun b a => d.model.Edge a b) x := by
  -- by induction on the number of nodes from `x` on
  suffices ∀ (k : Nat) (x : NodeId), d.model.size ≤ x + k → Acc (fun b a => d.model.Edge a b) x from
    this d.model.size x (Nat.le_add_left _ _)
  intro k
  induction k with
  | zero =>
    intro x hx
    exact ⟨_, fun y hy => absurd (lt_size_of_edge hy) (Nat.not_lt.2 hx)⟩
  | succ k ih =>
    intro x hx
    refine ⟨_, fun y hy => ?_⟩
    have hr := hc.regular x (lt_size_of_edge hy)
    rcases hy with hy | hy | hy
    · have := Nat.succ_le_of_lt (hr.children y hy).1
      exact ih y (by omega)
    · obtain ⟨name, hb⟩ := hr.uses y hy
      exact hc.frozen.founded y (.root hb)
    · exact hc.frozen.founded y (hr.copied y hy).2

/-! ## New nodes -/

theorem parts_add (d : Draft) {n : Node} (hchildren : n.children = []) (huses : n.uses = []) :
    (d.add n).1.model.Parts d.model.size [] [] [] := by
  have hnode : (d.add n).1.model.node d.model.size = d.completed n := node_add_self d n
  have huses' : (d.completed n).uses = [] := huses
  refine ⟨by rw [hnode]; exact hchildren, ?_⟩
  rw [hnode, huses']
  exact ⟨by simp, .nil, by simp, fun _ => ⟨rfl, by simp⟩⟩

/-- A new node without children, uses and original is `Settled`. -/
theorem settled_add (d : Draft) {n : Node} (hhome : n.moduleName ∈ d.model.moduleNames)
    (hparent : ∀ p, n.parent = some p → n.kind.isAugment = false) (hchildren : n.children = [])
    (huses : n.uses = []) (hcopied : n.copiedFrom = none) :
    (d.add n).1.Settled d.model.size := by
  have hnode : (d.add n).1.node d.model.size = d.completed n := node_add_self d n
  have hempty : ((d.add n).1.node d.model.size).children = [] := by rw [hnode]; exact hchildren
  have hnone : ((d.add n).1.node d.model.size).uses = [] := by rw [hnode]; exact huses
  have hnot : ∀ s, ¬ (d.add n).1.model.Copies d.model.size s := by
    intro s hs
    have hs : ((d.add n).1.node d.model.size).copiedFrom = some s := hs
    rw [hnode] at hs
    exact absurd (hcopied.symm.trans hs) nofun
  refine ⟨⟨?_, ?_, ?_, ?_, ?_, fun s hs => absurd hs (hnot s),
    fun _ => ⟨[], [], [], parts_add d hchildren huses⟩⟩, fun s hs => absurd hs (hnot s)⟩
  · rw [hnode]; exact hhome
  · rw [hnode]; exact hparent
  · rw [hempty]; simp
  · rw [hempty]; simp
  · rw [hnone]; simp

/-- A new node is not done, as long as its parent is not. -/
theorem not_done_add (hf : d.Frozen) {n : Node}
    (hn : ∀ p, n.parent = some p → p < d.model.size ∧ ¬ d.Done p) :
    ¬ (d.add n).1.Done d.model.size := by
  have hg : Grows (fun p => n.parent = some p) d (d.add n).1 :=
    grows_add d fun p h => ⟨(hn p h).1, h⟩
  intro hdone
  cases hdone with
  | root hb => exact absurd (hf.root _ _ hb).1 (Nat.lt_irrefl _)
  | child hparent hdone =>
    rw [node_add_self] at hparent
    obtain ⟨hlt, hpd⟩ := hn _ hparent
    exact hpd (hg.done_of_lt hf hdone hlt)

theorem Coherent.add (hc : d.Coherent changing) {n : Node}
    (hn : ∀ p, n.parent = some p → p < d.model.size ∧ ¬ d.Done p ∧ n.kind.isAugment = false)
    (hhome : n.moduleName ∈ d.model.moduleNames) (hchildren : n.children = [])
    (huses : n.uses = []) (hcopied : n.copiedFrom = none) : (d.add n).1.Coherent changing := by
  have hg : Grows (fun p => n.parent = some p) d (d.add n).1 :=
    grows_add d fun p h => ⟨(hn p h).1, h⟩
  have ho : ∀ p, n.parent = some p → ¬ d.Done p := fun p h => (hn p h).2.1
  refine hg.coherent hc.frozen ho hc (hg.frozen hc.frozen ho rfl) (fun x hx hx' => ?_)
    fun x hx _ => ?_
  · rw [size_add] at hx'
    obtain rfl : d.model.size = x := Nat.le_antisymm hx (Nat.le_of_lt_succ hx')
    exact settled_add d hhome (fun p h => (hn p h).2.2) hchildren huses hcopied
  · exact .inl (node_add_of_lt d n hx)

/-! ## A node that is being filled -/

/-- A node that is no copy and not `Done`, to which children and uses are being added. -/
structure Filling (d : Draft) (t : NodeId) : Prop where
  lt : t < d.model.size
  undone : ¬ d.Done t
  kind : (d.node t).kind.isAugment = false
  copied : (d.node t).copiedFrom = none
  parts : ∃ declared blocks, d.model.Parts t declared blocks []

/-- A step that fills a node: the node goes on to be `Filling`, and no old node but it changes. -/
structure Fills (changing : NodeId → Prop) (t : NodeId) (d d' : Draft) : Prop where
  coherent : d'.Coherent changing
  grows : Grows (· = t) d d'
  filling : d'.Filling t

theorem Fills.trans {t : NodeId} (h : Fills changing t d d') (h' : Fills changing t d' d'') :
    Fills changing t d d'' :=
  ⟨h'.coherent, h.grows.trans h'.grows fun _ _ hx => hx, h'.filling⟩

theorem Fills.refl {t : NodeId} (hc : d.Coherent changing) (ht : d.Filling t) :
    Fills changing t d d :=
  ⟨hc, .refl _ d, ht⟩

theorem Filling.add (hf : d.Frozen) {n : Node}
    (hn : ∀ p, n.parent = some p → p < d.model.size ∧ ¬ d.Done p)
    (hkind : n.kind.isAugment = false) (hchildren : n.children = []) (huses : n.uses = [])
    (hcopied : n.copiedFrom = none) : (d.add n).1.Filling d.model.size := by
  have hnode : (d.add n).1.node d.model.size = d.completed n := node_add_self d n
  exact ⟨by rw [size_add]; exact Nat.lt_succ_self _, not_done_add hf hn,
    by rw [hnode]; exact hkind, by rw [hnode]; exact hcopied, [], [],
    parts_add d hchildren huses⟩

/-- `Filling` goes on after a step that leaves the node alone. -/
theorem Filling.grows {opened : NodeId → Prop} {t : NodeId} (h : d.Filling t)
    (hc : d.Coherent changing) (hg : Grows opened d d') (ho : ∀ x, opened x → ¬ d.Done x)
    (hnode : d'.node t = d.node t) : d'.Filling t := by
  obtain ⟨declared, blocks, hp⟩ := h.parts
  have hr := hc.regular t h.lt
  have hchildren : (d.node t).children = declared ++ blocks.flatten ++ [] := hp.children
  refine ⟨lt_of_lt_of_le h.lt hg.size, fun hd => h.undone (hg.done_of_lt hc.frozen hd h.lt),
    by rw [hnode]; exact h.kind, by rw [hnode]; exact h.copied, declared, blocks, ?_, ?_⟩
  · show (d'.node t).children = _
    rw [hnode]; exact hp.children
  · show d'.model.Made t (d'.node t).uses declared blocks []
    rw [hnode]
    refine hg.made hc.frozen ho (fun g hgu => ?_) h.lt (fun c hc => ?_) hp.made
    · obtain ⟨name, hb⟩ := hr.uses g hgu
      exact .root hb
    · rw [← hchildren] at hc
      exact (hr.children c hc).2

/-- A node that nothing has been used in yet gets a child that it declares. -/
theorem Filling.declare {t c : NodeId} (h : d.Filling t) (hc : d.Coherent changing)
    (huses : (d.node t).uses = []) (hlt : t < c ∧ c < d.model.size)
    (hparent : (d.node c).parent = some t)
    (htakes : (d.node t).kind.takes (d.node c).kind = true)
    (hintro : (d.node c).introducedBy = none) : Fills changing t d (d.appendChild t c) := by
  have hg : Grows (· = t) d (d.appendChild t c) := grows_appendChild h.lt (by rfl) c
  have ho : ∀ x, x = t → ¬ d.Done x := fun x hx => hx ▸ h.undone
  have hnode := node_appendChild h.lt c
  have hf' := hg.frozen hc.frozen ho rfl
  obtain ⟨declared, blocks, hp⟩ := h.parts
  have hr := hc.regular t h.lt
  have hparts : (d.appendChild t c).model.Parts t (declared ++ [c]) [] [] := by
    have hmade : d.model.Made t (d.node t).uses declared blocks [] := hp.made
    rw [huses] at hmade
    have hblocks : blocks = [] := by
      cases hmade.stands
      rfl
    subst hblocks
    have hchildren : (d.node t).children = declared := by
      have hall : (d.node t).children = declared ++ [].flatten ++ [] := hp.children
      simpa using hall
    refine ⟨?_, ?_⟩
    · show ((d.appendChild t c).node t).children = _
      rw [hnode, hchildren]; simp
    · show (d.appendChild t c).model.Made t ((d.appendChild t c).node t).uses _ _ _
      rw [hnode]
      show (d.appendChild t c).model.Made t (d.node t).uses _ _ _
      rw [huses]
      refine ⟨fun x hx => ?_, .nil, by simp, fun _ => ⟨rfl, by simp⟩⟩
      show ((d.appendChild t c).node x).introducedBy = none
      rcases List.mem_append.1 hx with hx | hx
      · rw [hg.introducedBy (hr.children x (hchildren ▸ hx)).2]
        exact hmade.declares x hx
      · rw [List.mem_singleton.1 hx, hg.introducedBy hlt.2]
        exact hintro
  have hregular : (d.appendChild t c).Regular t := by
    refine hg.regular_opened hr h.lt [c] [] (by rw [hnode]; simp) ?_ (by simp)
      fun _ => ⟨_, _, _, hparts⟩
    intro x hx
    rw [List.mem_singleton.1 hx]
    refine ⟨hlt.1, lt_of_lt_of_le hlt.2 hg.size, fun _ => ?_⟩
    rw [hg.parent hlt.2, hg.kind hlt.2]
    exact ⟨hparent, htakes⟩
  have hcopied : ((d.appendChild t c).node t).copiedFrom = none := by
    rw [hnode]; exact h.copied
  refine ⟨hg.coherent hc.frozen ho hc hf' (fun x hx hx' => ?_) fun x _ hx => ?_, hg,
    lt_of_lt_of_le h.lt hg.size, fun hd => h.undone (hg.done_of_lt hc.frozen hd h.lt),
    by rw [hnode]; exact h.kind, hcopied, _, _, hparts⟩
  · exact absurd (size_update d t _ ▸ hx') (Nat.not_lt.2 hx)
  · subst hx
    refine .inr ⟨hregular, fun _ s hs => ?_⟩
    have hs : ((d.appendChild x c).node x).copiedFrom = some s := hs
    rw [hcopied] at hs
    cases hs

/-! ## Uses -/

/-- A grouping has been recorded as used by an introducer, and copies of its children `ids` stand
below a target. -/
structure UsesGrouping (target introducer g : NodeId) (d d' : Draft) (ids : List NodeId) :
    Prop where
  grows : Grows (fun x => x = target ∨ x = introducer) d d'
  built : d'.built = d.built
  settled : ∀ x, d.model.size ≤ x → x < d'.model.size → d'.Settled x
  filled : d'.node target = { d.node target with
    children := (d.node target).children ++ ids
    uses := (d.node target).uses ++ if target = introducer then [g] else [] }
  recorded : introducer ≠ target → d'.node introducer =
    { d.node introducer with uses := (d.node introducer).uses ++ [g] }
  bounds : ∀ id ∈ ids, d.model.size ≤ id ∧ id < d'.model.size
  placed : List.Forall₂ (Placed d' target introducer g) ids (d.node g).children

/-- Records a grouping among the `uses` of a node. -/
def recordUse (d : Draft) (introducer g : NodeId) : Draft :=
  d.update introducer fun n => { n with uses := n.uses ++ [g] }

theorem usesGrouping_copyGrouping {moduleName : String} {target g : NodeId} (introducer : NodeId)
    (hf : d.Frozen) (hm : moduleName ∈ d.model.moduleNames) (ht : target < d.model.size)
    (htd : ¬ d.Done target) (hi : introducer < d.model.size) (hid : ¬ d.Done introducer)
    (hg : d.Done g) :
    ∃ ids, UsesGrouping target introducer g d
      (copyGrouping moduleName target introducer g (d.recordUse introducer g)) ids := by
  have hrecord : Grows (· = introducer) d (d.recordUse introducer g) :=
    grows_update hi (by rfl) [] [g] (by simp)
  have hnode := node_update d hi fun n => { n with uses := n.uses ++ [g] }
  have hsize : (d.recordUse introducer g).model.size = d.model.size := size_update _ _ _
  have ho : ∀ x, x = introducer → ¬ d.Done x := fun x hx => hx ▸ hid
  have hf' := hrecord.frozen hf ho rfl
  obtain ⟨hadds, ids, htarget, hbounds, hplaced⟩ := copyGrouping_spec
    hf'
    (by rw [hrecord.modules]; exact hm) (hsize.symm ▸ ht)
    (fun h => htd (hrecord.done_of_lt hf h ht)) (hrecord.done hg)
  refine ⟨ids, ⟨?_, hadds.built, fun x hx => hadds.settled x (hsize.symm ▸ hx), ?_, fun hne => ?_,
    fun id hid => ?_, ?_⟩⟩
  · exact (hrecord.weaken fun x _ hx => .inr hx).trans hadds.grows fun x _ hx => .inl hx
  · rw [htarget]
    show { (d.recordUse introducer g).node target with
      children := ((d.recordUse introducer g).node target).children ++ ids } = _
    unfold recordUse
    rw [hnode]
    by_cases hti : target = introducer
    · subst hti; simp
    · simp [hti]
  · rw [hadds.grows.kept introducer (hsize.symm ▸ hi) hne]
    unfold recordUse
    rw [hnode, if_pos rfl]
  · rw [← hsize]
    exact hbounds id hid
  · rw [← hrecord.kept_done hf ho hg]
    exact hplaced

/-- What is known of copies that have just been placed below a node. -/
theorem UsesGrouping.below {target introducer g : NodeId} {ids : List NodeId}
    (h : UsesGrouping target introducer g d d' ids) (hf : d.Frozen) (ht : target < d.model.size)
    (hg : d.Done g) (hgk : (d.node g).kind = .grouping) (hk : (d.node target).kind ≠ .rpc)
    (ho : ∀ x, x = target ∨ x = introducer → ¬ d.Done x) :
    ∀ c ∈ ids, target < c ∧ c < d'.model.size ∧ (d'.node c).parent = some target ∧
      (d.node target).kind.takes (d'.node c).kind = true ∧
      (d'.node c).introducedBy = some introducer ∧ (d'.node c).copiedFrom ≠ none := by
  intro c hc
  obtain ⟨hle, hlt⟩ := h.bounds c hc
  obtain ⟨t, htg, hplaced⟩ := forall₂_mem_left h.placed c hc
  have htakes := ((hf.settled g hg).regular.below (hf.not_augment hg) t htg).2
  rw [hgk, ← h.grows.kept_done hf ho (hf.done_child hg htg), ← hplaced.kind] at htakes
  refine ⟨lt_of_lt_of_le ht hle, hlt, hplaced.place, Kind.takes_of_grouping hk htakes,
    hplaced.introduced, ?_⟩
  have hcopied : (d'.node c).copiedFrom = some t := hplaced.copied.copied
  rw [hcopied]
  exact Option.some_ne_none t

/-- The copies that `UsesGrouping` has made are a block that `StandsFor` the children of the
grouping. -/
theorem UsesGrouping.stands {target introducer g : NodeId} {ids : List NodeId}
    (h : UsesGrouping target introducer g d d' ids) (hf : d.Frozen) (hg : d.Done g)
    (ho : ∀ x, x = target ∨ x = introducer → ¬ d.Done x) :
    List.Forall₂ (d'.model.StandsFor introducer g) ids (d'.node g).children := by
  rw [h.grows.kept_done hf ho hg]
  refine h.placed.imp fun c t hp => ⟨hp.introduced, hp.via, .inr ⟨.single hp.copied.copied, ?_⟩⟩
  exact hp.copied.augmented

/-- A use fills a node with a block of copies, as `applyUse` does it. -/
theorem Filling.use {t g : NodeId} {name : GroupingName} {moduleName : String} (h : d.Filling t)
    (hc : d.Coherent changing) (hk : (d.node t).kind ≠ .rpc)
    (hm : moduleName ∈ d.model.moduleNames) (hb : (name, g) ∈ d.built) :
    Fills changing t d (copyGrouping moduleName t t g (d.recordUse t g)) := by
  have hf := hc.frozen
  have hgd : d.Done g := .root hb
  obtain ⟨ids, hu⟩ := usesGrouping_copyGrouping t hf hm h.lt h.undone h.lt
    h.undone hgd
  generalize copyGrouping moduleName t t g (d.recordUse t g) = d' at hu
  have hor : ∀ x, x = t ∨ x = t → x = t := fun x hx => hx.elim id id
  have ho : ∀ x, x = t ∨ x = t → ¬ d.Done x := fun x hx => hor x hx ▸ h.undone
  have hg := hu.grows
  have hnode := hu.filled
  rw [if_pos rfl] at hnode
  have hbelow := hu.below hf h.lt hgd (hf.root name g hb).2.1 hk ho
  have hr := hc.regular t h.lt
  obtain ⟨declared, blocks, hp⟩ := h.parts
  have hchildren : (d.node t).children = declared ++ blocks.flatten ++ [] := hp.children
  have hmade := hg.made hf ho (fun g hgu => by
    obtain ⟨name, hb⟩ := hr.uses g hgu
    exact .root hb) h.lt (fun c hc => (hr.children c (hchildren ▸ hc)).2) hp.made
  have hparts : d'.model.Parts t declared (blocks ++ [ids]) [] := by
    refine ⟨?_, hmade.declares, ?_, by simp, fun hgrouped => ⟨rfl, fun c hc => ?_⟩⟩
    · show (d'.node t).children = _
      rw [hnode, hchildren]; simp
    · show List.Forall₂ _ (d'.node t).uses (blocks ++ [ids])
      rw [hnode]
      exact List.rel_append hmade.stands (.cons (hu.stands hf hgd ho) .nil)
    · rw [List.flatten_append, List.mem_append] at hc
      rcases hc with hc | hc
      · exact (hmade.whole hgrouped).2 c hc
      · exact (hbelow c (by simpa using hc)).2.2.2.2.2
  have hcopied : (d'.node t).copiedFrom = none := by rw [hnode]; exact h.copied
  refine ⟨hg.coherent hf ho hc (hg.frozen hf ho hu.built) hu.settled fun x _ hx => .inr ?_,
    hg.weaken fun x _ hx => hor x hx, lt_of_lt_of_le h.lt hg.size,
    fun hd => h.undone (hg.done_of_lt hf hd h.lt), by rw [hnode]; exact h.kind, hcopied, _, _,
    hparts⟩
  rw [hor x hx]
  refine ⟨hg.regular_opened hr h.lt _ _ hnode (fun c hc => ?_) (fun u hu' => ?_)
    fun _ => ⟨_, _, _, hparts⟩, fun _ s hs => ?_⟩
  · obtain ⟨hlt, hsize, hparent, htakes, -⟩ := hbelow c hc
    exact ⟨hlt, hsize, fun _ => ⟨hparent, htakes⟩⟩
  · rw [List.mem_singleton.1 hu']
    exact ⟨name, hg.mem_built hb⟩
  · have hs : (d'.node t).copiedFrom = some s := hs
    rw [hcopied] at hs
    cases hs

/-! ## Statements -/

/-- What `provide` answers with is a built grouping, and nothing that was there before has
changed. -/
def Provides (names : List String) (provide : Provide) : Prop :=
  ∀ (name : GroupingName) (location : String) (d d' : Draft) (g : NodeId)
    (changing : NodeId → Prop), d.Coherent changing → d.model.moduleNames = names →
    provide name location d = .ok (d', g) →
      d'.Coherent changing ∧ Grows (fun _ => False) d d' ∧ (name, g) ∈ d'.built

/-- A new node has been added below `parent` and filled, and no other node has changed but what is
`changing`. -/
structure AddsNode (changing : NodeId → Prop) (parent : Option NodeId) (kind : Kind)
    (d d' : Draft) : Prop where
  coherent : d'.Coherent changing
  grows : Grows (fun x => parent = some x) d d'
  kept : ∀ x < d.model.size, d'.node x = d.node x
  filling : d'.Filling d.model.size
  place : (d'.node d.model.size).parent = parent
  hasKind : (d'.node d.model.size).kind = kind
  introduced : (d'.node d.model.size).introducedBy = none

/-- A node that starts without children and uses, in a module of the draft. -/
structure Starts (d : Draft) (n : Node) : Prop where
  home : n.moduleName ∈ d.model.moduleNames
  parent : ∀ p, n.parent = some p → p < d.model.size ∧ ¬ d.Done p
  kind : n.kind.isAugment = false
  children : n.children = []
  uses : n.uses = []
  copied : n.copiedFrom = none
  introduced : n.introducedBy = none

theorem Starts.fills {n : Node} (h : Starts d n) (hc : d.Coherent changing) :
    Fills changing d.model.size (d.add n).1 (d.add n).1 :=
  .refl (hc.add (fun p hp => ⟨(h.parent p hp).1, (h.parent p hp).2, h.kind⟩) h.home h.children
    h.uses h.copied) (.add hc.frozen h.parent h.kind h.children h.uses h.copied)

theorem Starts.adds {n : Node} (h : Starts d n)
    (hfills : Fills changing d.model.size (d.add n).1 d') :
    AddsNode changing n.parent n.kind d d' := by
  have hadd : Grows (fun x => n.parent = some x) d (d.add n).1 :=
    grows_add d fun p hp => ⟨(h.parent p hp).1, hp⟩
  have hlt : d.model.size < (d.add n).1.model.size := by
    rw [size_add]; exact Nat.lt_succ_self _
  have hnode : (d.add n).1.node d.model.size = d.completed n := node_add_self d n
  refine ⟨hfills.coherent, hadd.trans hfills.grows fun x hx hx' => absurd hx' (Nat.ne_of_lt hx),
    fun x hx => ?_, hfills.filling, ?_, ?_, ?_⟩
  · rw [hfills.grows.kept x (lt_trans hx hlt) (Nat.ne_of_lt hx), node_add_of_lt d n hx]
  · rw [hfills.grows.parent hlt, hnode]; rfl
  · rw [hfills.grows.kind hlt, hnode]; rfl
  · rw [hfills.grows.introducedBy hlt, hnode]; exact h.introduced

/-- A node that `AddsNode` makes becomes a child that its parent declares. -/
theorem AddsNode.declare {t : NodeId} {kind : Kind} (h : AddsNode changing (some t) kind d d')
    (ht : d.Filling t) (hc : d.Coherent changing) (huses : (d.node t).uses = [])
    (htakes : (d.node t).kind.takes kind = true) :
    Fills changing t d (d'.appendChild t d.model.size) := by
  have hkept := h.kept t ht.lt
  have ho : ∀ x, some t = some x → ¬ d.Done x := fun x hx => Option.some.inj hx ▸ ht.undone
  have ht' := ht.grows hc h.grows ho hkept
  have hfills := ht'.declare h.coherent (by rw [hkept]; exact huses) ⟨ht.lt, h.filling.lt⟩ h.place
    (by rw [hkept, h.hasKind]; exact htakes) h.introduced
  exact .trans ⟨h.coherent, h.grows.weaken fun x _ hx => (Option.some.inj hx).symm, ht'⟩ hfills

section Provided

variable {names : List String} {provide : Provide} (hprovide : Provides names provide)
  {moduleName : String} (hm : moduleName ∈ names)

include hprovide hm

/-- What `applyUse` does: the grouping is provided, recorded as used, and its children are
copied. -/
theorem applyUse_ok {target introducer : NodeId} {name : String} (hc : d.Coherent changing)
    (hn : d.model.moduleNames = names)
    (h : applyUse provide moduleName target introducer d name = .ok d') :
    ∃ d₁ g key, d₁.Coherent changing ∧ Grows (fun _ => False) d d₁ ∧ (key, g) ∈ d₁.built ∧
      moduleName ∈ d₁.model.moduleNames ∧
      d' = copyGrouping moduleName target introducer g (d₁.recordUse introducer g) := by
  unfold applyUse at h
  obtain ⟨⟨groupingModule, groupingName⟩, -, h⟩ := bind_eq_ok.1 h
  obtain ⟨⟨d₁, g⟩, hp, h⟩ := bind_eq_ok.1 h
  obtain ⟨hc₁, hg, hb⟩ := hprovide _ _ d d₁ g changing hc hn hp
  cases h
  exact ⟨d₁, g, _, hc₁, hg, hb, by rw [hg.modules, hn]; exact hm, rfl⟩

theorem applyUse_fills {t : NodeId} {name : String} (ht : d.Filling t) (hc : d.Coherent changing)
    (hn : d.model.moduleNames = names) (hk : (d.node t).kind ≠ .rpc)
    (h : applyUse provide moduleName t t d name = .ok d') : Fills changing t d d' := by
  obtain ⟨d₁, g, key, hc₁, hg, hb, hm₁, rfl⟩ := applyUse_ok hprovide hm hc hn h
  have ht₁ := ht.grows hc hg (fun _ h => h.elim) (hg.kept t ht.lt not_false)
  refine Fills.trans ⟨hc₁, hg.weaken fun _ _ h => h.elim, ht₁⟩ (ht₁.use hc₁ ?_ hm₁ hb)
  rw [hg.kind ht.lt]
  exact hk

theorem foldlM_applyUse_fills {t : NodeId} {uses : List String} (ht : d.Filling t)
    (hc : d.Coherent changing) (hn : d.model.moduleNames = names) (hk : (d.node t).kind ≠ .rpc)
    (h : uses.foldlM (applyUse provide moduleName t t) d = .ok d') : Fills changing t d d' := by
  refine foldlM_invariant (Fills changing t d) uses d d' (fun name _ b b' hb h => ?_)
    (Fills.refl hc ht) h
  refine hb.trans (applyUse_fills hprovide hm hb.filling hb.coherent ?_ ?_ h)
  · rw [hb.grows.modules]; exact hn
  · rw [hb.grows.kind ht.lt]; exact hk

end Provided

mutual

theorem addStatement_adds {names : List String} {provide : Provide}
    (hprovide : Provides names provide) {moduleName : String} (hm : moduleName ∈ names)
    {parent : Option NodeId} {id : NodeId} :
    ∀ (s : Source.Statement) (d d' : Draft), d.Coherent changing → d.model.moduleNames = names →
      (∀ p, parent = some p → p < d.model.size ∧ ¬ d.Done p) →
      addStatement provide moduleName parent s d = .ok (d', id) →
        id = d.model.size ∧ AddsNode changing parent (linkedKind s.kind) d d'
  | ⟨kind, name, config, description, reference, children, uses⟩, d, d', hc, hn, hp, h => by
    rw [addStatement] at h
    obtain ⟨d₂, h₂, h⟩ := bind_eq_ok.1 h
    obtain ⟨d₃, h₃, h⟩ := bind_eq_ok.1 h
    cases h
    refine ⟨rfl, ?_⟩
    let n : Node := { kind := linkedKind kind, moduleName := moduleName, name := name,
                      parent := parent, configStatement := config, description := description,
                      reference := reference }
    have hstart : Starts d n :=
      ⟨hn ▸ hm, hp, Kind.linkedKind_isAugment kind, rfl, rfl, rfl, rfl⟩
    have hfills := hstart.fills hc
    have hnode : (d.add n).1.node d.model.size = d.completed n := node_add_self d n
    have hkind : ((d.add n).1.node d.model.size).kind ≠ .rpc := by
      rw [hnode]; exact Kind.linkedKind_ne_rpc kind
    obtain ⟨hfills₂, -⟩ := addChildren_fills hprovide hm children (d.add n).1 d₂ hfills.filling
      hfills.coherent hn (by rw [hnode]; rfl) hkind h₂
    have hfills₃ := foldlM_applyUse_fills hprovide hm hfills₂.filling hfills₂.coherent
      (hfills₂.grows.modules.trans hn) (by rw [hfills₂.grows.kind hfills.filling.lt]; exact hkind) h₃
    exact hstart.adds (hfills₂.trans hfills₃)

theorem addChildren_fills {names : List String} {provide : Provide}
    (hprovide : Provides names provide) {moduleName : String} (hm : moduleName ∈ names)
    {t : NodeId} :
    ∀ (children : List Source.Statement) (d d' : Draft), d.Filling t → d.Coherent changing →
      d.model.moduleNames = names → (d.node t).uses = [] → (d.node t).kind ≠ .rpc →
      addChildren provide moduleName t children d = .ok d' →
        Fills changing t d d' ∧ (d'.node t).uses = []
  | [], d, d', ht, hc, _, hu, _, h => by
    rw [addChildren] at h
    cases h
    exact ⟨.refl hc ht, hu⟩
  | s :: rest, d, d', ht, hc, hn, hu, hk, h => by
    rw [addChildren] at h
    obtain ⟨⟨d₁, id⟩, h₁, h⟩ := bind_eq_ok.1 h
    obtain ⟨rfl, hadds⟩ := addStatement_adds hprovide hm s d d₁ hc hn
      (fun p hp => by
        obtain rfl : t = p := Option.some.inj hp
        exact ⟨ht.lt, ht.undone⟩) h₁
    have hfills := hadds.declare ht hc hu (Kind.takes_linkedKind hk s.kind)
    have hnode := node_appendChild (lt_of_lt_of_le ht.lt hadds.grows.size) d.model.size
    obtain ⟨hfills', hu'⟩ := addChildren_fills hprovide hm rest _ d' hfills.filling hfills.coherent
      (hfills.grows.modules.trans hn) (by rw [hnode, hadds.kept t ht.lt]; exact hu)
      (by rw [hfills.grows.kind ht.lt]; exact hk) h
    exact ⟨hfills.trans hfills', hu'⟩

end

theorem addBody_fills {names : List String} {provide : Provide} (hprovide : Provides names provide)
    {moduleName : String} (hm : moduleName ∈ names) {t : NodeId} {body : Source.Body}
    (ht : d.Filling t) (hc : d.Coherent changing) (hn : d.model.moduleNames = names) (hu : (d.node t).uses = [])
    (hk : (d.node t).kind ≠ .rpc) (h : addBody provide moduleName t body d = .ok d') :
    Fills changing t d d' := by
  unfold addBody at h
  obtain ⟨d₁, h₁, h⟩ := bind_eq_ok.1 h
  obtain ⟨hfills, -⟩ := addChildren_fills hprovide hm body.children d d₁ ht hc hn hu hk h₁
  exact hfills.trans (foldlM_applyUse_fills hprovide hm hfills.filling hfills.coherent
    (hfills.grows.modules.trans hn) (by rw [hfills.grows.kind ht.lt]; exact hk) h)

/-! ## Groupings -/

/-- A draft is `Coherent` whatever is said of its modules apart from their names. -/
theorem Coherent.updateModule (hc : d.Coherent changing) (name : String) {f : Module → Module}
    (hf : ∀ m, (f m).name = m.name) : (d.updateModule name f).Coherent changing := by
  have hmodules : (d.updateModule name f).model.moduleNames = d.model.moduleNames := by
    unfold moduleNames Draft.updateModule
    rw [List.map_map]
    refine List.map_congr_left fun m _ => ?_
    rw [Function.comp_apply]
    split
    · exact hf m
    · rfl
  have hdone : ∀ x, (d.updateModule name f).Done x ↔ d.Done x := by
    intro x
    constructor
    · intro hx
      induction hx with
      | root hb => exact .root hb
      | child hp _ ih => exact .child hp ih
    · intro hx
      induction hx with
      | root hb => exact .root hb
      | child hp _ ih => exact .child hp ih
  have hgrouped : ∀ x, (d.updateModule name f).model.Grouped x → d.model.Grouped x := by
    intro x hx
    induction hx with
    | root hk => exact .root hk
    | child hp _ ih => exact .child hp ih
  have hkeeps : Keeps d (d.updateModule name f) :=
    ⟨le_rfl, fun _ _ => rfl, fun x => (hdone x).2, fun _ h => h, hmodules,
      fun _ _ _ => TransGen.mono (fun _ _ h => h) _ _, fun x _ => hgrouped x⟩
  refine ⟨hkeeps.frozen hc.frozen (fun x => (hdone x).1) rfl hc.frozen.up, fun x hx => ?_,
    fun x hx => ?_, fun x s hn hs => ?_⟩
  · exact ⟨(hc.undone x hx).1, fun h => (hc.undone x hx).2 ((hdone x).1 h)⟩
  · exact hkeeps.regular hc.frozen (hc.regular x hx) hx rfl (.refl _) (.inl rfl)
      fun _ _ _ => ⟨⟨rfl, rfl, rfl⟩, fun _ => ⟨.refl _, .inl rfl⟩⟩
  · exact hkeeps.mirrors hc.frozen ((hc.regular x (lt_size_of_copies hs)).copied s hs).2
      (.refl _) (fun _ _ => ⟨.refl _, rfl⟩) (hc.mirrors x s hn hs)

theorem grows_updateModule (opened : NodeId → Prop) (d : Draft) (name : String)
    {f : Module → Module}
    (hf : ∀ m, (f m).name = m.name ∧ (f m).data = m.data ∧ (f m).rpcs = m.rpcs) :
    Grows opened d (d.updateModule name f) := by
  refine ⟨le_rfl, fun _ _ _ => rfl, fun x _ => ⟨[], [], by simp; rfl⟩, fun x p hx hp => ?_,
    ⟨[], rfl, by simp⟩, ?_, ?_⟩
  · exact absurd (lt_size_of_parent hp) (Nat.not_lt.2 hx)
  · unfold moduleNames Draft.updateModule
    rw [List.map_map]
    refine List.map_congr_left fun m _ => ?_
    rw [Function.comp_apply]
    split
    · exact (hf m).1
    · rfl
  · unfold roots Draft.updateModule
    rw [List.flatMap_map]
    refine List.flatMap_congr fun m _ => ?_
    split
    · rw [(hf m).2.1, (hf m).2.2]
    · rfl

/-- Counts a grouping as `built`, under its name. -/
def finish (d : Draft) (name : GroupingName) (g : NodeId) : Draft :=
  { d with built := (name, g) :: d.built }

/-- A grouping that has been filled is `Done` once `finish` has counted it. -/
theorem AddsNode.finish (name : GroupingName) (h : AddsNode changing none .grouping d d')
    (hc : d.Coherent changing) :
    (d'.finish name d.model.size).Coherent changing ∧
      Grows (fun _ => False) d (d'.finish name d.model.size) := by
  have hg : Grows (fun _ => False) d (d'.finish name d.model.size) := by
    obtain ⟨new, hb, hnew⟩ := h.grows.built
    refine ⟨h.grows.size, fun x hx _ => h.kept x hx, h.grows.grown, fun x p hx hp => ?_,
      ⟨(name, d.model.size) :: new, congrArg ((name, d.model.size) :: ·) hb, fun e he => ?_⟩,
      h.grows.modules, h.grows.roots⟩
    · obtain ⟨hpx, hle | hnone⟩ := h.grows.fresh x p hx hp
      · exact ⟨hpx, .inl hle⟩
      · cases hnone
    · rcases List.mem_cons.1 he with rfl | he
      · exact le_rfl
      · exact hnew e he
  have hkeeps : Keeps d' (d'.finish name d.model.size) := by
    refine ⟨le_rfl, fun _ _ => rfl, fun x hx => ?_, fun _ hb => List.mem_cons_of_mem _ hb, rfl,
      fun _ _ _ h => h, fun _ _ h => h⟩
    induction hx with
    | root hb => exact .root (List.mem_cons_of_mem _ hb)
    | child hp _ ih => exact .child hp ih
  -- what became done is new, and what is changing was there before
  have hundone : ∀ x, changing x → ¬ (d'.finish name d.model.size).Done x := fun x hx hd =>
    (hc.undone x hx).2 (hg.done_of_lt hc.frozen hd (hc.undone x hx).1)
  have hregular : ∀ x < d'.model.size, (d'.finish name d.model.size).Regular x := fun x hx =>
    hkeeps.regular h.coherent.frozen (h.coherent.regular x hx) hx rfl (.refl _) (.inl rfl)
      fun _ _ _ => ⟨⟨rfl, rfl, rfl⟩, fun _ => ⟨.refl _, .inl rfl⟩⟩
  have hmirrors : ∀ x s, ¬ changing x → d'.model.Copies x s →
      (d'.finish name d.model.size).model.Mirrors x s := fun x s hn hs =>
    hkeeps.mirrors h.coherent.frozen ((h.coherent.regular x (lt_size_of_copies hs)).copied s hs).2
      (.refl _) (fun _ _ => ⟨.refl _, rfl⟩) (h.coherent.mirrors x s hn hs)
  refine ⟨⟨⟨h.coherent.frozen.up, fun key g hb => ?_, fun x hx => ?_, fun x _ => ?_⟩,
    fun x hx => ⟨lt_of_lt_of_le (hc.undone x hx).1 h.grows.size, hundone x hx⟩, hregular,
    hmirrors⟩, hg⟩
  · rcases List.mem_cons.1 hb with hb | hb
    · cases hb
      exact ⟨h.filling.lt, h.hasKind, h.place⟩
    · exact h.coherent.frozen.root key g hb
  · have hlt : x < d'.model.size := by
      cases hx with
      | root hb =>
        rcases List.mem_cons.1 hb with hb | hb
        · cases hb; exact h.filling.lt
        · exact (h.coherent.frozen.root _ _ hb).1
      | child hp _ => exact lt_size_of_parent hp
    exact ⟨hregular x hlt, fun s hs => hmirrors x s (fun hch => hundone x hch hx) hs⟩
  · exact h.coherent.founded x

theorem moduleName_of_declaration? {sources : List Source.Module} {name : GroupingName}
    {g : Source.Grouping} (h : declaration? sources name = some g) :
    name.moduleName ∈ sources.map (·.name) := by
  obtain ⟨m, hm, -⟩ := Option.bind_eq_some_iff.1 h
  have hname : m.name = name.moduleName := by simpa using List.find?_some hm
  exact List.mem_map.2 ⟨m, List.mem_of_find?_eq_some hm, hname⟩

/-- What `provideGrouping` answers with `Provides` its groupings, whatever others are under way. -/
theorem provideGrouping_provides (sources : List Source.Module) (underWay : List GroupingName) :
    Provides (sources.map (·.name)) (provideGrouping sources underWay) := by
  intro name location d d' g changing hc hn h
  rw [provideGrouping] at h
  split at h
  · rename_i id hb
    cases h
    obtain ⟨l₁, l₂, hbuilt, -⟩ := List.lookup_eq_some_iff.1 hb
    exact ⟨hc, .refl _ d, by rw [hbuilt]; simp⟩
  · split at h
    · cases h
    · rename_i hnew
      split at h
      · cases h
      · rename_i decl hdecl
        obtain ⟨d₂, hbody, h⟩ := bind_eq_ok.1 h
        cases h
        let n : Node := { kind := .grouping, moduleName := name.moduleName, name := name.name,
                          description := decl.description, reference := decl.reference }
        have hm := moduleName_of_declaration? hdecl
        have hstart : Starts d n := ⟨hn ▸ hm, by simp [n], rfl, rfl, rfl, rfl, rfl⟩
        have hfills := hstart.fills hc
        have hnode : (d.add n).1.node d.model.size = d.completed n := node_add_self d n
        have hadds := hstart.adds (hfills.trans (addBody_fills
          (provideGrouping_provides sources (underWay ++ [name])) hm hfills.filling
          hfills.coherent hn (by rw [hnode]; rfl) (by rw [hnode]; simp [n, completed]) hbody))
        obtain ⟨hfinished, hgrows⟩ := hadds.finish name hc
        refine ⟨hfinished.updateModule _ fun _ => rfl,
          hgrows.trans (grows_updateModule _ _ _ fun _ => ⟨rfl, rfl, rfl⟩) fun _ _ h => h, ?_⟩
        exact List.mem_cons_self
termination_by remaining sources underWay
decreasing_by exact remaining_append_lt (mem_declaredNames ‹_›) ‹_›

/-! ## Remote calls -/

section Messages

variable {names : List String} {provide : Provide} (hprovide : Provides names provide)
  {moduleName : String} (hm : moduleName ∈ names)

include hprovide hm

theorem addMessage_fills {rpc : NodeId} {kind : Kind} {body : Option Source.Body}
    (ht : d.Filling rpc) (hc : d.Coherent changing) (hn : d.model.moduleNames = names)
    (hu : (d.node rpc).uses = []) (hk : (d.node rpc).kind = .rpc)
    (hkind : kind = .input ∨ kind = .output)
    (h : addMessage provide moduleName rpc kind body d = .ok d') :
    Fills changing rpc d d' ∧ (d'.node rpc).uses = [] := by
  unfold addMessage at h
  cases body with
  | none => cases h; exact ⟨.refl hc ht, hu⟩
  | some body =>
    obtain ⟨d₂, hbody, h⟩ := bind_eq_ok.1 h
    cases h
    let n : Node := { kind := kind, moduleName := moduleName, name := kind.keyword,
                      parent := some rpc }
    have hkinds : kind.isAugment = false ∧ kind ≠ .rpc ∧ Kind.rpc.takes kind = true := by
      rcases hkind with rfl | rfl
      · exact ⟨rfl, nofun, rfl⟩
      · exact ⟨rfl, nofun, rfl⟩
    have hstart : Starts d n := by
      refine ⟨hn ▸ hm, fun p hp => ?_, hkinds.1, rfl, rfl, rfl, rfl⟩
      obtain rfl : rpc = p := Option.some.inj hp
      exact ⟨ht.lt, ht.undone⟩
    have hfills := hstart.fills hc
    have hnode : (d.add n).1.node d.model.size = d.completed n := node_add_self d n
    have hadds := hstart.adds (hfills.trans (addBody_fills hprovide hm hfills.filling
      hfills.coherent hn (by rw [hnode]; rfl) (by rw [hnode]; exact hkinds.2.1) hbody))
    refine ⟨hadds.declare ht hc hu (by rw [hk]; exact hkinds.2.2), ?_⟩
    rw [node_appendChild (lt_of_lt_of_le ht.lt hadds.grows.size), hadds.kept rpc ht.lt]
    exact hu

theorem addRpc_adds {rpc : Source.Rpc} {id : NodeId} (hc : d.Coherent changing)
    (hn : d.model.moduleNames = names) (h : addRpc provide moduleName rpc d = .ok (d', id)) :
    id = d.model.size ∧ AddsNode changing none .rpc d d' := by
  unfold addRpc at h
  obtain ⟨d₁, hin, h⟩ := bind_eq_ok.1 h
  obtain ⟨d₂, hout, h⟩ := bind_eq_ok.1 h
  cases h
  let n : Node := { kind := .rpc, moduleName := moduleName, name := rpc.name,
                    description := rpc.description, reference := rpc.reference }
  have hstart : Starts d n := ⟨hn ▸ hm, nofun, rfl, rfl, rfl, rfl, rfl⟩
  have hfills := hstart.fills hc
  have hnode : (d.add n).1.node d.model.size = d.completed n := node_add_self d n
  have hk : ((d.add n).1.node d.model.size).kind = .rpc := by rw [hnode]; rfl
  obtain ⟨hfills₁, hu₁⟩ := addMessage_fills hprovide hm hfills.filling hfills.coherent hn
    (by rw [hnode]; rfl) hk (.inl rfl) hin
  obtain ⟨hfills₂, -⟩ := addMessage_fills hprovide hm hfills₁.filling hfills₁.coherent
    (hfills₁.grows.modules.trans hn) hu₁ (by rw [hfills₁.grows.kind hfills.filling.lt]; exact hk)
    (.inr rfl) hout
  exact ⟨rfl, hstart.adds (hfills₁.trans hfills₂)⟩

end Messages

end Draft

end RestSpec.DataModel
