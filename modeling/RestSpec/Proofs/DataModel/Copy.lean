/-
Copying a tree that is done. The copies are new nodes, each settled when the copying ends: it
mirrors what it copies, and its children fall into the same parts, brought in by the copy of what
brought them in before. The look-up of that copy cannot go wrong, since everything below a node has
a larger number.
-/
import RestSpec.Proofs.DataModel.Growth

namespace RestSpec.DataModel

open Relation (TransGen ReflTransGen)

/-! ## Trees -/

/-- A tree of a model: at each node it holds just the node's `children`. -/
inductive TreeOf (model : DataModel) : Tree → Prop
  | node {id : NodeId} {children : List Tree} :
      children.map Tree.id = (model.node id).children → (∀ t ∈ children, TreeOf model t) →
      TreeOf model (.node id children)

/-- Where children have larger numbers, `treeWithin` as many levels as the table has nodes is a
whole tree. -/
theorem treeOf_treeWithin {model : DataModel} (among : NodeId → Prop)
    (hdown : ∀ id, among id → ∀ c ∈ (model.node id).children, id < c ∧ among c) :
    ∀ (levels : Nat) (id : NodeId), among id → model.size ≤ id + levels →
      TreeOf model (model.treeWithin levels id)
  | 0, id, _, hle => by
    unfold treeWithin
    refine .node ?_ (by simp)
    have hblank : model.node id = Node.blank := node_of_size_le hle
    rw [hblank]; rfl
  | levels + 1, id, hid, hle => by
    unfold treeWithin
    refine .node ?_ ?_
    · rw [List.map_map]
      refine (List.map_congr_left fun c _ => ?_).trans (List.map_id _)
      cases levels <;> rfl
    · intro t ht
      obtain ⟨c, hc, rfl⟩ := List.mem_map.1 ht
      obtain ⟨hlt, hamong⟩ := hdown id hid c hc
      have := Nat.succ_le_of_lt hlt
      exact treeOf_treeWithin among hdown levels c hamong (by omega)

namespace Draft

variable {d d' d'' : Draft}

theorem Frozen.treeOf (h : d.Frozen) {id : NodeId} (hd : d.Done id) :
    TreeOf d.model (d.model.tree id) :=
  treeOf_treeWithin d.Done
    (fun id hd c hc => ⟨((h.settled id hd).regular.children c hc).1, h.done_child hd hc⟩)
    _ id hd (Nat.le_add_left _ _)

theorem Grows.treeOf {opened : NodeId → Prop} (hg : Grows opened d d') (hf : d.Frozen)
    (ho : ∀ x, opened x → ¬ d.Done x) {t : Tree} (h : TreeOf d.model t) (hd : d.Done t.id) :
    TreeOf d'.model t := by
  induction h with
  | @node id children hids _ ih =>
    have hkept : d'.node id = d.node id := hg.kept_done hf ho hd
    refine .node (hids.trans (congrArg Node.children hkept.symm)) fun t ht => ih t ht ?_
    exact hf.done_child hd (hids ▸ List.mem_map.2 ⟨t, ht, rfl⟩)

/-! ## Single steps -/

theorem grows_add {opened : NodeId → Prop} (d : Draft) {n : Node}
    (h : ∀ p, n.parent = some p → p < d.model.size ∧ opened p) : Grows opened d (d.add n).1 := by
  refine ⟨by rw [size_add]; omega, fun x hx _ => node_add_of_lt d n hx, fun x hx => ⟨[], [], ?_⟩,
    fun x p hx hp => ?_, ⟨[], rfl, by simp⟩, rfl, rfl⟩
  · rw [node_add_of_lt d n hx]; simp
  · have hlt := lt_size_of_parent hp
    rw [size_add] at hlt
    obtain rfl : x = d.model.size := Nat.le_antisymm (Nat.le_of_lt_succ hlt) hx
    rw [node_add_self] at hp
    obtain ⟨hpx, hop⟩ := h p hp
    exact ⟨hpx, .inr hop⟩

/-- Changing an opened node by further children and uses is a step that `Grows`. -/
theorem grows_update {opened : NodeId → Prop} {id : NodeId} {f : Node → Node}
    (hid : id < d.model.size) (ho : opened id) (cs us : List NodeId)
    (hf : f (d.node id) = { d.node id with
      children := (d.node id).children ++ cs, uses := (d.node id).uses ++ us }) :
    Grows opened d (d.update id f) := by
  have hnode := node_update d hid f
  have hparent : ∀ x, ((d.update id f).node x).parent = (d.node x).parent := by
    intro x
    rw [hnode]
    split
    · rename_i hx; rw [hf, hx]
    · rfl
  refine ⟨by rw [size_update], fun x _ hx => ?_, fun x _ => ?_, fun x p hx hp => ?_,
    ⟨[], rfl, by simp⟩, rfl, rfl⟩
  · exact node_update_of_ne d hid f fun h => hx (h ▸ ho)
  · rw [hnode]
    split
    · rename_i hx; exact ⟨cs, us, by rw [hf, hx]⟩
    · exact ⟨[], [], by simp⟩
  · rw [hparent] at hp
    exact absurd (lt_size_of_parent hp) (Nat.not_lt.2 hx)

theorem grows_appendChild {opened : NodeId → Prop} {parent : NodeId}
    (hp : parent < d.model.size) (ho : opened parent) (c : NodeId) :
    Grows opened d (d.appendChild parent c) :=
  grows_update hp ho [c] [] (by simp)

theorem node_appendChild {parent : NodeId} (hp : parent < d.model.size) (c : NodeId) :
    (d.appendChild parent c).node parent =
      { d.node parent with children := (d.node parent).children ++ [c] } :=
  node_update_self d hp _

/-- Nodes that are `Settled` are added below one node, while no grouping is built. -/
structure Adds (parent : NodeId) (d d' : Draft) : Prop where
  grows : Grows (· = parent) d d'
  built : d'.built = d.built
  settled : ∀ x, d.model.size ≤ x → x < d'.model.size → d'.Settled x

theorem Adds.frozen {parent : NodeId} (h : Adds parent d d') (hf : d.Frozen)
    (hp : ¬ d.Done parent) : d'.Frozen :=
  h.grows.frozen hf (fun _ hx => hx ▸ hp) h.built

theorem Adds.refl (parent : NodeId) (d : Draft) : Adds parent d d :=
  ⟨.refl _ d, rfl, fun _ hx hlt => absurd hlt (Nat.not_lt.2 hx)⟩

theorem Adds.trans {parent : NodeId} (h : Adds parent d d') (h' : Adds parent d' d'')
    (hf : d.Frozen) (hp : ¬ d.Done parent) (hlt : parent < d.model.size) :
    Adds parent d d'' := by
  refine ⟨h.grows.trans h'.grows fun _ _ hx => hx, h'.built.trans h.built, fun x hx hx' => ?_⟩
  by_cases hxd : x < d'.model.size
  · have hne : x ≠ parent := Nat.ne_of_gt (lt_of_lt_of_le hlt hx)
    have hpd : ¬ d'.Done parent := fun hd => hp (h.grows.done_of_lt hf hd hlt)
    exact h'.grows.settled (h.frozen hf hp) (fun _ hx => hx ▸ hpd) (h.settled x hx hxd) hxd
      (h'.grows.kept x hxd hne)
  · exact h'.settled x (Nat.le_of_not_lt hxd) hx'

theorem adds_appendChild {parent : NodeId} (hp : parent < d.model.size) (c : NodeId) :
    Adds parent d (d.appendChild parent c) :=
  ⟨grows_appendChild hp (by rfl) c, rfl, fun x hx hlt =>
    absurd (size_update d parent _ ▸ hlt) (Nat.not_lt.2 hx)⟩

/-! ## A copy of one node -/

/-- What a copy says of itself, seen from its parent. -/
structure CopyAt (d : Draft) (parent c t : NodeId) : Prop where
  place : (d.node c).parent = some parent
  kind : (d.node c).kind = (d.node t).kind
  via : (d.node c).viaGrouping = (d.node t).viaGrouping
  copied : d.model.CopiesChild c t

/-- A child of a copy, as `CopyAt` says: it was brought in by the copy if its original was by the
original. -/
structure CopyBelow (d : Draft) (parent source c t : NodeId) : Prop extends CopyAt d parent c t where
  introduced : (d.node c).introducedBy = none ∧ (d.node t).introducedBy = none ∨
    (d.node c).introducedBy = some parent ∧ (d.node t).introducedBy = some source

theorem Grows.copiesChild {opened : NodeId → Prop} (hg : Grows opened d d') (hf : d.Frozen)
    {c t : NodeId} (hc : c < d.model.size) (ht : d.Done t) (h : d.model.CopiesChild c t) :
    d'.model.CopiesChild c t := by
  refine ⟨hg.copies h.copied, ?_⟩
  show (d'.node c).augmentedBy = (d'.node t).augmentedBy
  rw [hg.augmentedBy hc, hg.augmentedBy (hf.lt_size ht)]
  exact h.augmented

theorem Grows.copyAt {opened : NodeId → Prop} (hg : Grows opened d d') (hf : d.Frozen)
    {parent c t : NodeId} (hc : c < d.model.size) (ht : d.Done t) (h : CopyAt d parent c t) :
    CopyAt d' parent c t := by
  have htl := hf.lt_size ht
  refine ⟨(hg.parent hc).trans h.place, ?_, ?_, hg.copiesChild hf hc ht h.copied⟩
  · rw [hg.kind hc, hg.kind htl]; exact h.kind
  · rw [hg.viaGrouping hc, hg.viaGrouping htl]; exact h.via

theorem Grows.copyBelow {opened : NodeId → Prop} (hg : Grows opened d d') (hf : d.Frozen)
    {parent source c t : NodeId} (hc : c < d.model.size) (ht : d.Done t)
    (h : CopyBelow d parent source c t) : CopyBelow d' parent source c t := by
  refine ⟨hg.copyAt hf hc ht h.toCopyAt, ?_⟩
  rw [hg.introducedBy hc, hg.introducedBy (hf.lt_size ht)]
  exact h.introduced

/-- Below a node that is `Done` nothing stands but what it declares and what it uses. -/
theorem Frozen.introduced (h : d.Frozen) {s : NodeId} (hs : d.Done s) {t : NodeId}
    (ht : t ∈ (d.node s).children) :
    (d.node t).introducedBy = none ∨ (d.node t).introducedBy = some s := by
  obtain ⟨declared, blocks, added, hp⟩ := (h.settled s hs).regular.parts (h.not_augment hs)
  have hchildren : (d.node s).children = declared ++ blocks.flatten ++ added := hp.children
  rw [hchildren, (hp.made.whole (h.grouped hs)).1, List.append_nil] at ht
  rcases List.mem_append.1 ht with ht | ht
  · exact .inl (hp.made.declares t ht)
  · obtain ⟨block, hblock, ht⟩ := List.mem_flatten.1 ht
    obtain ⟨g, -, hstands⟩ := forall₂_mem_left hp.made.stands.flip block hblock
    obtain ⟨u, -, hstand⟩ := forall₂_mem_left hstands t ht
    exact .inr hstand.introduced

/-- The copies of the children of a node that is `Done` fall into `Parts` as these do. -/
theorem parts_of_copy (hf : d.Frozen) {id s : NodeId} (hs : d.Done s)
    (huses : (d.node id).uses = (d.node s).uses)
    (hbelow : List.Forall₂ (CopyBelow d id s) (d.node id).children (d.node s).children) :
    ∃ declared blocks added, d.model.Parts id declared blocks added := by
  obtain ⟨declared, blocks, added, hp⟩ := (hf.settled s hs).regular.parts (hf.not_augment hs)
  obtain ⟨rfl, hwhole⟩ := hp.made.whole (hf.grouped hs)
  have hchildren : (d.node s).children = declared ++ blocks.flatten := by
    have := hp.children
    rwa [List.append_nil] at this
  rw [hchildren] at hbelow
  obtain ⟨declared', rest, hids, hdeclared, hrest⟩ := forall₂_append_right hbelow
  obtain ⟨blocks', rfl, hblocks⟩ := forall₂_flatten_right hrest
  refine ⟨declared', blocks', [], by rw [List.append_nil]; exact hids,
    fun c hc => ?_, ?_, by simp, fun _ => ⟨rfl, fun c hc => ?_⟩⟩
  · obtain ⟨t, ht, hct⟩ := forall₂_mem_left hdeclared c hc
    rcases hct.introduced with ⟨h, -⟩ | ⟨-, h⟩
    · exact h
    · have hnone : (d.node t).introducedBy = none := hp.made.declares t ht
      rw [hnone] at h
      cases h
  · show List.Forall₂ _ (d.node id).uses blocks'
    rw [huses]
    refine forall₂_trans (fun g hg block hblock block' _ hstands hcopy => ?_)
      hp.made.stands hblocks.flip
    refine forall₂_trans (fun c _ t ht u _ hct hstand => ?_) hcopy hstands
    refine ⟨?_, hct.via.trans hstand.via, .inr ?_⟩
    · rcases hct.introduced with ⟨-, h⟩ | ⟨h, -⟩
      · exact absurd (hstand.introduced.symm.trans h) (by simp)
      · exact h
    · rcases hstand.copied with hnone | ⟨htrans, haug⟩
      · exact absurd hnone (hwhole t (List.mem_flatten.2 ⟨block, hblock, ht⟩))
      · exact ⟨.head hct.copied.copied htrans, hct.copied.augmented.trans haug⟩
  · obtain ⟨t, -, hct⟩ := forall₂_mem_left hrest c hc
    show (d.node c).copiedFrom ≠ none
    have hcopied : (d.node c).copiedFrom = some t := hct.copied.copied
    rw [hcopied]
    exact Option.some_ne_none t

/-- A node made as a copy, with copies of the children below it, is `Settled`. -/
theorem settled_of_copy (hf : d.Frozen) {id s : NodeId} (hs : d.Done s) (hlt : s < id)
    (hhome : (d.node id).moduleName ∈ d.model.moduleNames)
    (hcopies : d.model.Copies id s)
    (hkind : (d.node id).kind = (d.node s).kind) (hname : (d.node id).name = (d.node s).name)
    (hconfig : (d.node id).configStatement = (d.node s).configStatement)
    (hdesc : (d.node id).description = (d.node s).description)
    (huses : (d.node id).uses = (d.node s).uses)
    (hbound : ∀ c ∈ (d.node id).children, id < c ∧ c < d.model.size)
    (hbelow : List.Forall₂ (CopyBelow d id s) (d.node id).children (d.node s).children) :
    d.Settled id := by
  have haug := hf.not_augment hs
  refine ⟨⟨hhome, fun _ _ => hkind ▸ haug, hbound, fun _ c hc => ?_, fun g hg => ?_,
    fun t ht => ?_, fun _ => ?_⟩, fun t ht => ?_⟩
  · obtain ⟨t, ht, hct⟩ := forall₂_mem_left hbelow c hc
    refine ⟨hct.place, ?_⟩
    rw [hkind, hct.kind]
    exact ((hf.settled s hs).regular.below haug t ht).2
  · exact (hf.settled s hs).regular.uses g (huses ▸ hg)
  · obtain rfl : s = t := Option.some.inj (hcopies.symm.trans ht)
    exact ⟨hlt, hs⟩
  · exact parts_of_copy hf hs huses hbelow
  · obtain rfl : s = t := Option.some.inj (hcopies.symm.trans ht)
    exact ⟨hkind, hname, hconfig, hdesc, huses, hbelow.imp fun _ _ h => h.copied⟩

/-! ## Trees and lists of trees -/

/-- Later entries of larger numbers do not hide an entry. -/
theorem lookup_append_of_lt {new old : List (NodeId × NodeId)} {s : NodeId}
    (h : ∀ e ∈ new, s < e.1) : (new ++ old).lookup s = old.lookup s := by
  induction new with
  | nil => rfl
  | cons e new ih =>
    have hne : (s == e.1) = false := by
      rw [beq_eq_false_iff_ne]
      exact Nat.ne_of_lt (h e List.mem_cons_self)
    rw [List.cons_append]
    obtain ⟨k, v⟩ := e
    rw [List.lookup_cons, hne]
    exact ih fun e he => h e (List.mem_cons_of_mem _ he)

/-- A tree has been copied below the node `parent`, which does not list the copy among its children
yet. -/
structure CopiesTree (parent : NodeId) (introducer : Option NodeId) (c : Copying) (t : Tree)
    (r : Copying × NodeId) : Prop where
  adds : Adds parent c.draft r.1.draft
  kept : r.1.draft.node parent = c.draft.node parent
  id : r.2 = c.draft.model.size
  lt : r.2 < r.1.draft.model.size
  top : CopyAt r.1.draft parent r.2 t.id
  introduced : (r.1.draft.node r.2).introducedBy = introducer
  copies : ∃ new, r.1.copies = new ++ c.copies ∧ ∀ e ∈ new, t.id ≤ e.1

/-- Trees have been copied below a copy, which now has the copies as its last `children`. -/
structure CopiesBelow (parent source : NodeId) (c : Copying) (ts : List Tree) (c' : Copying) :
    Prop where
  adds : Adds parent c.draft c'.draft
  children : ∃ ids, c'.draft.node parent =
      { c.draft.node parent with children := (c.draft.node parent).children ++ ids } ∧
    (∀ id ∈ ids, c.draft.model.size ≤ id ∧ id < c'.draft.model.size) ∧
    List.Forall₂ (CopyBelow c'.draft parent source) ids (ts.map Tree.id)
  copies : ∃ new, c'.copies = new ++ c.copies ∧ ∀ e ∈ new, source < e.1

/-- The node that a copy starts as. -/
def copiedNode (moduleName : String) (parent : NodeId) (introducer : Option NodeId)
    (source : NodeId) (s : Node) : Node where
  kind := s.kind
  moduleName := moduleName
  name := s.name
  parent := some parent
  configStatement := s.configStatement
  description := s.description
  reference := s.reference
  uses := s.uses
  introducedBy := introducer
  copiedFrom := some source
  viaGrouping := s.viaGrouping
  augmentedBy := s.augmentedBy

/-- With the children copied, as `CopiesBelow` says, the copy of the whole tree is there. -/
theorem CopiesTree.of_below {moduleName : String} {parent source : NodeId}
    {introducer : Option NodeId} {c c' : Copying} {children : List Tree} (hf : c.draft.Frozen)
    (hm : moduleName ∈ c.draft.model.moduleNames) (hp : parent < c.draft.model.size)
    (hpd : ¬ c.draft.Done parent) (hs : c.draft.Done source)
    (hids : children.map Tree.id = (c.draft.node source).children)
    (hg : Grows (· = parent) c.draft
      (c.draft.add (copiedNode moduleName parent introducer source (c.draft.node source))).1)
    (h : CopiesBelow c.draft.model.size source
      { draft := (c.draft.add
          (copiedNode moduleName parent introducer source (c.draft.node source))).1
        copies := (source, c.draft.model.size) :: c.copies } children c') :
    CopiesTree parent introducer c (.node source children) (c', c.draft.model.size) := by
  obtain ⟨d, copies⟩ := c
  dsimp only at *
  generalize hn : copiedNode moduleName parent introducer source (d.node source) = n at *
  have hslt := hf.lt_size hs
  have hgrows : Grows (· = parent) d c'.draft := hg.trans h.adds.grows fun x hx hx' =>
    absurd hx' (Nat.ne_of_lt hx)
  have ho : ∀ x, x = parent → ¬ d.Done x := fun x hx => hx ▸ hpd
  have hbuilt : c'.draft.built = d.built := h.adds.built
  have hf' : c'.draft.Frozen := hgrows.frozen hf ho hbuilt
  have hsource : c'.draft.node source = d.node source := hgrows.kept_done hf ho hs
  obtain ⟨ids, hnode, hbounds, hbelow⟩ := h.children
  rw [node_add_self] at hnode
  rw [size_add] at hbounds
  have hlt : d.model.size < c'.draft.model.size := by
    have hle : (d.add n).1.model.size ≤ c'.draft.model.size := h.adds.grows.size
    rwa [size_add] at hle
  have hchildren : (c'.draft.node d.model.size).children = ids := by
    rw [hnode, ← hn]; rfl
  have hcopies : c'.draft.model.Copies d.model.size source := by
    show (c'.draft.node d.model.size).copiedFrom = _
    rw [hnode, ← hn]; rfl
  -- the new node has got its children since it was made, and nothing else
  have hsettled : c'.draft.Settled d.model.size := by
    refine settled_of_copy hf' (hgrows.done hs) hslt ?_ hcopies ?_ ?_ ?_ ?_ ?_ ?_ ?_
    · rw [hgrows.modules, hnode, ← hn]; exact hm
    · rw [hsource, hnode, ← hn]; rfl
    · rw [hsource, hnode, ← hn]; rfl
    · rw [hsource, hnode, ← hn]; rfl
    · rw [hsource, hnode, ← hn]; rfl
    · rw [hsource, hnode, ← hn]; rfl
    · rw [hchildren]
      exact fun x hx => hbounds x hx
    · rw [hchildren, hsource, ← hids]
      exact hbelow
  refine ⟨⟨hgrows, hbuilt, fun x hx hx' => ?_⟩, ?_, rfl, hlt, ⟨?_, ?_, ?_, hcopies, ?_⟩, ?_, ?_⟩
  · rcases Nat.eq_or_lt_of_le hx with rfl | hlt
    · exact hsettled
    · exact h.adds.settled x (by rw [size_add]; exact hlt) hx'
  · have hne : parent ≠ d.model.size := Nat.ne_of_lt hp
    rw [h.adds.grows.kept parent (lt_of_lt_of_le hp hg.size) hne, node_add_of_lt d n hp]
  · rw [hnode, ← hn]; rfl
  · show _ = (c'.draft.node source).kind
    rw [hsource, hnode, ← hn]; rfl
  · show _ = (c'.draft.node source).viaGrouping
    rw [hsource, hnode, ← hn]; rfl
  · show (c'.draft.node d.model.size).augmentedBy = (c'.draft.node source).augmentedBy
    rw [hsource, hnode, ← hn]; rfl
  · rw [hnode, ← hn]; rfl
  · obtain ⟨new, hnew, hlarge⟩ := h.copies
    refine ⟨new ++ [(source, d.model.size)], by rw [hnew]; simp, fun e he => ?_⟩
    rcases List.mem_append.1 he with he | he
    · exact Nat.le_of_lt (hlarge e he)
    · rw [List.mem_singleton.1 he]; exact Nat.le_refl source

mutual

theorem copyTree_spec {moduleName : String} {parent : NodeId} (introducer : Option NodeId) :
    ∀ (t : Tree) (c : Copying), c.draft.Frozen → moduleName ∈ c.draft.model.moduleNames →
      parent < c.draft.model.size → ¬ c.draft.Done parent → TreeOf c.draft.model t →
      c.draft.Done t.id →
      CopiesTree parent introducer c t (copyTree moduleName parent introducer c t)
  | .node source children, c, hf, hm, hp, hpd, ht, hd => by
    have hs : c.draft.Done source := hd
    obtain ⟨hids, htrees⟩ : children.map Tree.id = (c.draft.node source).children ∧
        ∀ t ∈ children, TreeOf c.draft.model t := by
      cases ht with
      | node hids htrees => exact ⟨hids, htrees⟩
    rw [copyTree]
    show CopiesTree parent introducer c _ (copyBelow moduleName c.draft.model.size
      { draft := (c.draft.add
          (copiedNode moduleName parent introducer source (c.draft.node source))).1
        copies := (source, c.draft.model.size) :: c.copies } children, c.draft.model.size)
    have hg : Grows (· = parent) c.draft
        (c.draft.add (copiedNode moduleName parent introducer source (c.draft.node source))).1 :=
      grows_add c.draft fun p h => by
        obtain rfl : parent = p := Option.some.inj h
        exact ⟨hp, rfl⟩
    have ho : ∀ x, x = parent → ¬ c.draft.Done x := fun x hx => hx ▸ hpd
    have hf' := hg.frozen hf ho rfl
    refine .of_below hf hm hp hpd hs hids hg (copyBelow_spec children _ hf' ?_ ?_ ?_ ?_ ?_)
    · rw [hg.modules]; exact hm
    · rw [size_add]; exact Nat.lt_succ_self _
    -- a new node below one that is not done is not done either
    · intro hdone
      cases hdone with
      | root hb => exact absurd (hf.root _ _ hb).1 (Nat.lt_irrefl _)
      | child hparent hdone =>
        rw [node_add_self] at hparent
        obtain rfl := Option.some.inj hparent
        exact hpd (hg.done_of_lt hf hdone hp)
    · rw [List.lookup_cons, beq_self_eq_true]
    · intro t ht
      have hmem : t.id ∈ (c.draft.node source).children := hids ▸ List.mem_map.2 ⟨t, ht, rfl⟩
      have hdone := hf.done_child hs hmem
      refine ⟨hg.treeOf hf ho (htrees t ht) hdone, hg.done hdone,
        ((hf.settled source hs).regular.children _ hmem).1, ?_⟩
      rw [hg.introducedBy (hf.lt_size hdone)]
      exact hf.introduced hs hmem

theorem copyBelow_spec {moduleName : String} {parent source : NodeId} :
    ∀ (ts : List Tree) (c : Copying), c.draft.Frozen → moduleName ∈ c.draft.model.moduleNames →
      parent < c.draft.model.size → ¬ c.draft.Done parent →
      c.copies.lookup source = some parent →
      (∀ t ∈ ts, TreeOf c.draft.model t ∧ c.draft.Done t.id ∧ source < t.id ∧
        ((c.draft.node t.id).introducedBy = none ∨
          (c.draft.node t.id).introducedBy = some source)) →
      CopiesBelow parent source c ts (copyBelow moduleName parent c ts)
  | [], c, _, _, _, _, _, _ => by
    rw [copyBelow]
    exact ⟨.refl parent c.draft, ⟨[], by simp, by simp, .nil⟩, [], rfl, by simp⟩
  | t :: ts, c, hf, hm, hp, hpd, hl, hts => by
    rw [copyBelow]
    obtain ⟨ht, hd, hlt, hin⟩ := hts t List.mem_cons_self
    have htree := copyTree_spec ((c.draft.node t.id).introducedBy.bind fun i => c.copies.lookup i)
      t c hf hm hp hpd ht hd
    generalize copyTree moduleName parent
      ((c.draft.node t.id).introducedBy.bind fun i => c.copies.lookup i) c t = r at htree
    obtain ⟨c₁, id⟩ := r
    dsimp only at htree ⊢
    have hf₁ := htree.adds.frozen hf hpd
    have hp₁ : parent < c₁.draft.model.size := lt_of_lt_of_le hp htree.adds.grows.size
    have hpd₁ : ¬ c₁.draft.Done parent := fun h => hpd (htree.adds.grows.done_of_lt hf h hp)
    have happend : Adds parent c₁.draft (c₁.draft.appendChild parent id) :=
      adds_appendChild hp₁ id
    have hadds := htree.adds.trans happend hf hpd hp
    have ho : ∀ x, x = parent → ¬ c.draft.Done x := fun x hx => hx ▸ hpd
    have hrest := copyBelow_spec ts { c₁ with draft := c₁.draft.appendChild parent id }
      (hadds.frozen hf hpd) (by rw [hadds.grows.modules]; exact hm)
      (lt_of_lt_of_le hp hadds.grows.size) (fun h => hpd (hadds.grows.done_of_lt hf h hp))
      (by
        obtain ⟨new, hnew, hlarge⟩ := htree.copies
        show c₁.copies.lookup source = _
        -- entries for the tree have larger numbers than `source`, so they do not hide its entry
        rw [hnew, lookup_append_of_lt fun e he => lt_of_lt_of_le hlt (hlarge e he)]
        exact hl)
      (fun u hu => by
        obtain ⟨hu, hud, hult, huin⟩ := hts u (List.mem_cons_of_mem _ hu)
        refine ⟨hadds.grows.treeOf hf ho hu hud, hadds.grows.done hud, hult, ?_⟩
        rw [hadds.grows.introducedBy (hf.lt_size hud)]
        exact huin)
    -- what has been copied first stays as it is while the rest is copied
    have hlate := happend.grows.trans hrest.adds.grows fun _ _ hx => hx
    refine ⟨hadds.trans hrest.adds hf hpd hp, ?_, ?_⟩
    · obtain ⟨ids, hnode, hbounds, hbelow⟩ := hrest.children
      refine ⟨id :: ids, ?_, fun x hx => ?_, .cons ?_ hbelow⟩
      · rw [hnode, node_appendChild hp₁, htree.kept]
        simp
      · rcases List.mem_cons.1 hx with rfl | hx
        · exact ⟨Nat.le_of_eq htree.id.symm, lt_of_lt_of_le htree.lt hlate.size⟩
        · obtain ⟨hle, hlt⟩ := hbounds x hx
          exact ⟨le_trans hadds.grows.size hle, hlt⟩
      · refine hlate.copyBelow hf₁ htree.lt (htree.adds.grows.done hd) ⟨htree.top, ?_⟩
        rw [htree.introduced, htree.adds.grows.introducedBy (hf.lt_size hd)]
        rcases hin with hin | hin
        · exact .inl ⟨by rw [hin]; rfl, hin⟩
        · exact .inr ⟨by rw [hin]; exact hl, hin⟩
    · obtain ⟨new, hnew, hlarge⟩ := htree.copies
      obtain ⟨new', hnew', hlarge'⟩ := hrest.copies
      refine ⟨new' ++ new, ?_, fun e he => ?_⟩
      · rw [hnew', List.append_assoc]
        exact congrArg (new' ++ ·) hnew
      · rcases List.mem_append.1 he with he | he
        · exact hlarge' e he
        · exact lt_of_lt_of_le hlt (hlarge e he)

end

/-! ## Groupings -/

/-- A child of a grouping has been copied below the node `target`, brought in by `introducer`. -/
structure Placed (d : Draft) (target introducer grouping c t : NodeId) : Prop where
  place : (d.node c).parent = some target
  kind : (d.node c).kind = (d.node t).kind
  introduced : (d.node c).introducedBy = some introducer
  via : (d.node c).viaGrouping = some grouping
  copied : d.model.CopiesChild c t

theorem Grows.placed {opened : NodeId → Prop} (hg : Grows opened d d') (hf : d.Frozen)
    {target introducer grouping c t : NodeId} (hc : c < d.model.size) (ht : d.Done t)
    (h : Placed d target introducer grouping c t) : Placed d' target introducer grouping c t := by
  refine ⟨(hg.parent hc).trans h.place, ?_, (hg.introducedBy hc).trans h.introduced,
    (hg.viaGrouping hc).trans h.via, hg.copiesChild hf hc ht h.copied⟩
  rw [hg.kind hc, hg.kind (hf.lt_size ht)]
  exact h.kind

/-- The children of a grouping have been copied below the node `target` for an `introducer`, in
their order. -/
structure CopiesChildren (target introducer grouping : NodeId) (d : Draft) (ts : List Tree)
    (d' : Draft) : Prop where
  adds : Adds target d d'
  children : ∃ ids, d'.node target =
      { d.node target with children := (d.node target).children ++ ids } ∧
    (∀ id ∈ ids, d.model.size ≤ id ∧ id < d'.model.size) ∧
    List.Forall₂ (Placed d' target introducer grouping) ids (ts.map Tree.id)

theorem Grows.update_new {opened : NodeId → Prop} (hg : Grows opened d d') {id : NodeId}
    {f : Node → Node} (hle : d.model.size ≤ id) (hlt : id < d'.model.size)
    (hparent : (f (d'.node id)).parent = (d'.node id).parent) :
    Grows opened d (d'.update id f) := by
  have hne : ∀ x < d.model.size, x ≠ id := fun x hx => Nat.ne_of_lt (lt_of_lt_of_le hx hle)
  refine ⟨by rw [size_update]; exact hg.size, fun x hx hn => ?_, fun x hx => ?_,
    fun x p hx hp => ?_, hg.built, hg.modules, hg.roots⟩
  · rw [node_update_of_ne d' hlt f (hne x hx)]
    exact hg.kept x hx hn
  · rw [node_update_of_ne d' hlt f (hne x hx)]
    exact hg.grown x hx
  · rw [parent_update hlt hparent] at hp
    exact hg.fresh x p hx hp

/-- Notes at a copy which grouping it came from, in `viaGrouping`. -/
def via (grouping : NodeId) (n : Node) : Node := { n with viaGrouping := some grouping }

/-- A step of `copyGrouping`. -/
def placeCopy (moduleName : String) (target introducer grouping : NodeId) (c : Copying)
    (t : Tree) : Copying :=
  let (c, id) := copyTree moduleName target (some introducer) c t
  let draft := c.draft.update id (via grouping)
  { c with draft := draft.appendChild target id }

section Via

variable {target introducer grouping : NodeId} {c : Copying} {t : Tree} {r : Copying × NodeId}
  (h : CopiesTree target (some introducer) c t r) (hf : c.draft.Frozen)
  (hp : target < c.draft.model.size) (hpd : ¬ c.draft.Done target)

include h

theorem CopiesTree.node_via : (r.1.draft.update r.2 (via grouping)).node r.2 =
    { r.1.draft.node r.2 with viaGrouping := some grouping } :=
  node_update_self _ h.lt _

include hf hp hpd

/-- A copy outside of a grouping is no node of one. -/
theorem CopiesTree.not_done : ¬ r.1.draft.Done r.2 := by
  intro hdone
  cases hdone with
  | root hb =>
    rw [h.adds.built] at hb
    exact absurd (hf.root _ _ hb).1 (Nat.not_lt.2 (Nat.le_of_eq h.id.symm))
  | child hparent hdone =>
    rw [h.top.place] at hparent
    obtain rfl := Option.some.inj hparent
    exact hpd (h.adds.grows.done_of_lt hf hdone hp)

theorem CopiesTree.keeps_via : Keeps r.1.draft (r.1.draft.update r.2 (via grouping)) :=
  keeps_update h.lt (h.not_done hf hp hpd) rfl rfl rfl

/-- Noting the grouping at the copy with `via` leaves all that has been added settled. -/
theorem CopiesTree.adds_via : Adds target c.draft (r.1.draft.update r.2 (via grouping)) := by
  have hle : c.draft.model.size ≤ r.2 := Nat.le_of_eq h.id.symm
  have hf' := h.adds.frozen hf hpd
  have hother : ∀ x, x ≠ r.2 → (r.1.draft.update r.2 (via grouping)).node x = r.1.draft.node x :=
    fun x hx => node_update_of_ne _ h.lt _ hx
  refine ⟨h.adds.grows.update_new hle h.lt rfl, h.adds.built, fun x hx hx' => ?_⟩
  rw [size_update] at hx'
  have hs := h.adds.settled x hx hx'
  refine (h.keeps_via hf hp hpd).settled hf' hs hx' (parent_update h.lt rfl x) ?_ ?_
    fun haug c hc => ?_
  · by_cases hxi : x = r.2
    · rw [hxi, h.node_via]; exact ⟨rfl, rfl, rfl, rfl, rfl, rfl, rfl⟩
    · rw [hother x hxi]; exact .refl _
  · by_cases hxi : x = r.2
    · rw [hxi, h.node_via]
    · rw [hother x hxi]
  · -- the copy is a child of the target alone, which is none of the new nodes
    have hci : c ≠ r.2 := by
      rintro rfl
      have hparent := (hs.regular.below haug _ hc).1
      rw [h.top.place] at hparent
      exact absurd hp (Nat.not_lt.2 (Option.some.inj hparent ▸ hx))
    rw [hother c hci]
    exact ⟨.refl _, rfl⟩

theorem CopiesTree.placed_via (hd : c.draft.Done t.id) :
    Placed (r.1.draft.update r.2 (via grouping)) target introducer grouping r.2 t.id := by
  have hnode : (r.1.draft.update r.2 (via grouping)).node r.2 =
      { r.1.draft.node r.2 with viaGrouping := some grouping } := h.node_via
  have hkeeps : Keeps r.1.draft (r.1.draft.update r.2 (via grouping)) := h.keeps_via hf hp hpd
  have hsource := hkeeps.node _ (h.adds.grows.done hd)
  refine ⟨?_, ?_, ?_, ?_, ?_, ?_⟩
  · rw [hnode]; exact h.top.place
  · rw [hnode, hsource]; exact h.top.kind
  · rw [hnode]; exact h.introduced
  · rw [hnode]
  · show ((r.1.draft.update r.2 (via grouping)).node r.2).copiedFrom = _
    rw [hnode]; exact h.top.copied.copied
  · show ((r.1.draft.update r.2 (via grouping)).node r.2).augmentedBy =
      ((r.1.draft.update r.2 (via grouping)).node t.id).augmentedBy
    rw [hnode, hsource]; exact h.top.copied.augmented

end Via

theorem placeCopy_spec {moduleName : String} {target introducer grouping : NodeId} {c : Copying}
    {t : Tree} (hf : c.draft.Frozen) (hm : moduleName ∈ c.draft.model.moduleNames)
    (hp : target < c.draft.model.size) (hpd : ¬ c.draft.Done target)
    (ht : TreeOf c.draft.model t) (hd : c.draft.Done t.id) :
    CopiesChildren target introducer grouping c.draft [t]
      (placeCopy moduleName target introducer grouping c t).draft := by
  have htree := copyTree_spec (some introducer) t c hf hm hp hpd ht hd
  unfold placeCopy
  generalize copyTree moduleName target (some introducer) c t = r at htree
  dsimp only
  have hle : c.draft.model.size ≤ r.2 := Nat.le_of_eq htree.id.symm
  have hne : target ≠ r.2 := Nat.ne_of_lt (lt_of_lt_of_le hp hle)
  have hupdated : Adds target c.draft (r.1.draft.update r.2 (via grouping)) :=
    htree.adds_via hf hp hpd
  have hsize : target < (r.1.draft.update r.2 (via grouping)).model.size :=
    lt_of_lt_of_le hp hupdated.grows.size
  have hlt : r.2 < (r.1.draft.update r.2 (via grouping)).model.size := by
    rw [size_update]; exact htree.lt
  have happend := adds_appendChild hsize r.2
  refine ⟨hupdated.trans happend hf hpd hp, [r.2], ?_, fun x hx => ?_, .cons ?_ .nil⟩
  · rw [← htree.kept, ← node_update_of_ne r.1.draft htree.lt (via grouping) hne]
    exact node_appendChild hsize r.2
  · rw [List.mem_singleton.1 hx]
    exact ⟨hle, lt_of_lt_of_le hlt happend.grows.size⟩
  · exact happend.grows.placed (hupdated.frozen hf hpd) hlt (hupdated.grows.done hd)
      (htree.placed_via hf hp hpd hd)

theorem foldl_placeCopy_spec (moduleName : String) (target introducer grouping : NodeId) :
    ∀ (ts : List Tree) (c : Copying), c.draft.Frozen → moduleName ∈ c.draft.model.moduleNames →
      target < c.draft.model.size → ¬ c.draft.Done target →
      (∀ t ∈ ts, TreeOf c.draft.model t ∧ c.draft.Done t.id) →
      CopiesChildren target introducer grouping c.draft ts
        (ts.foldl (placeCopy moduleName target introducer grouping) c).draft
  | [], c, _, _, _, _, _ => ⟨.refl target c.draft, [], by simp, by simp, .nil⟩
  | t :: ts, c, hf, hm, hp, hpd, hts => by
    obtain ⟨ht, hd⟩ := hts t List.mem_cons_self
    have hfirst : CopiesChildren target introducer grouping c.draft [t] _ :=
      placeCopy_spec hf hm hp hpd ht hd
    rw [List.foldl_cons]
    generalize placeCopy moduleName target introducer grouping c t = c₁ at hfirst
    have hg := hfirst.adds.grows
    have ho : ∀ x, x = target → ¬ c.draft.Done x := fun x hx => hx ▸ hpd
    have hf₁ := hfirst.adds.frozen hf hpd
    have hrest := foldl_placeCopy_spec moduleName target introducer grouping ts c₁ hf₁
      (by rw [hg.modules]; exact hm) (lt_of_lt_of_le hp hg.size)
      (fun h => hpd (hg.done_of_lt hf h hp)) fun u hu => by
        obtain ⟨hu, hud⟩ := hts u (List.mem_cons_of_mem _ hu)
        exact ⟨hg.treeOf hf ho hu hud, hg.done hud⟩
    obtain ⟨ids, hnode, hbounds, hplaced⟩ := hfirst.children
    obtain ⟨ids', hnode', hbounds', hplaced'⟩ := hrest.children
    refine ⟨hfirst.adds.trans hrest.adds hf hpd hp, ids ++ ids', ?_, fun x hx => ?_, ?_⟩
    · rw [hnode', hnode]; simp
    · rcases List.mem_append.1 hx with hx | hx
      · obtain ⟨hle, hlt⟩ := hbounds x hx
        exact ⟨hle, lt_of_lt_of_le hlt hrest.adds.grows.size⟩
      · obtain ⟨hle, hlt⟩ := hbounds' x hx
        exact ⟨le_trans hg.size hle, hlt⟩
    · rw [List.map_cons, ← List.singleton_append]
      refine List.rel_append (forall₂_imp_mem hplaced fun x hx u hu h => ?_) hplaced'
      rw [List.mem_singleton.1 hu] at h ⊢
      exact hrest.adds.grows.placed hf₁ (hbounds x hx).2 (hg.done hd) h

/-- What `copyGrouping` does: it `CopiesChildren` of the grouping, in order. -/
theorem copyGrouping_spec {moduleName : String} {target introducer grouping : NodeId}
    (hf : d.Frozen) (hm : moduleName ∈ d.model.moduleNames) (hp : target < d.model.size)
    (hpd : ¬ d.Done target) (hg : d.Done grouping) :
    Adds target d (copyGrouping moduleName target introducer grouping d) ∧
      ∃ ids, (copyGrouping moduleName target introducer grouping d).node target =
          { d.node target with children := (d.node target).children ++ ids } ∧
        (∀ id ∈ ids, d.model.size ≤ id ∧
          id < (copyGrouping moduleName target introducer grouping d).model.size) ∧
        List.Forall₂ (Placed (copyGrouping moduleName target introducer grouping d) target
          introducer grouping) ids (d.node grouping).children := by
  have htree := hf.treeOf hg
  have hid : (d.model.tree grouping).id = grouping := by
    unfold tree; cases d.model.size <;> rfl
  generalize ht : d.model.tree grouping = t at htree hid
  cases htree with
  | @node id children hids htrees =>
    obtain rfl : id = grouping := hid
    have hcopy : copyGrouping moduleName target introducer id d =
        (children.foldl (placeCopy moduleName target introducer id) { draft := d }).draft := by
      unfold copyGrouping
      rw [ht]
      rfl
    have hspec := foldl_placeCopy_spec moduleName target introducer id children { draft := d }
      hf hm hp hpd fun t ht => ⟨htrees t ht, hf.done_child hg (by
        show t.id ∈ (d.model.node id).children
        rw [← hids]
        exact List.mem_map.2 ⟨t, ht, rfl⟩)⟩
    rw [hcopy]
    obtain ⟨ids, hnode, hbounds, hplaced⟩ := hspec.children
    refine ⟨hspec.adds, ids, hnode, hbounds, ?_⟩
    show List.Forall₂ _ ids (d.model.node id).children
    rw [← hids]
    exact hplaced

end Draft

end RestSpec.DataModel
