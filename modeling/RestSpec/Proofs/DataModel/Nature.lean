/-
What a node is made with and keeps. Whatever a draft goes through, apart from augments, a node
changes in nothing but its children, its uses and who brought it in. So what is known of a node when
it is made goes on to hold: it is configuration if its parent is and it does not say otherwise, and
a copy says what its original says, belongs to the module it was copied for, and is read-only if its
original is.
-/
import RestSpec.Proofs.DataModel.Shape

namespace RestSpec.DataModel.Draft

variable {d d' d'' : Draft}

/-! ## Nodes that get older -/

/-- Nodes are added, and an old node changes at most in its `children`, its `uses`, and the marks
that tell who brought it in. -/
structure Ages (d d' : Draft) : Prop where
  size : d.model.size ≤ d'.model.size
  node : ∀ x < d.model.size, d'.node x = { d.node x with
    children := (d'.node x).children
    uses := (d'.node x).uses
    viaGrouping := (d'.node x).viaGrouping
    augmentedBy := (d'.node x).augmentedBy }

theorem Grows.ages {opened : NodeId → Prop} (h : Grows opened d d') : Ages d d' := by
  refine ⟨h.size, fun x hx => ?_⟩
  obtain ⟨cs, us, hnode⟩ := h.grown x hx
  rw [hnode]

theorem ages_update {id : NodeId} {f : Node → Node} (hid : id < d.model.size)
    (hf : f (d.node id) = { d.node id with
      children := (f (d.node id)).children
      uses := (f (d.node id)).uses
      viaGrouping := (f (d.node id)).viaGrouping
      augmentedBy := (f (d.node id)).augmentedBy }) : Ages d (d.update id f) := by
  refine ⟨(size_update d id f).ge, fun x _ => ?_⟩
  rw [node_update d hid]
  by_cases hx : x = id
  · rw [if_pos hx, hx]
    exact hf
  · rw [if_neg hx]

section Ages

variable (h : Ages d d') {x : NodeId} (hx : x < d.model.size)

include h hx

theorem Ages.label : (d'.node x).label = (d.node x).label := by
  rw [h.node x hx]
  rfl

theorem Ages.moduleName : (d'.node x).moduleName = (d.node x).moduleName :=
  congrArg Label.moduleName (h.label hx)

theorem Ages.reference : (d'.node x).reference = (d.node x).reference :=
  congrArg Label.reference (h.label hx)

theorem Ages.parent : (d'.node x).parent = (d.node x).parent := by rw [h.node x hx]

theorem Ages.config : (d'.node x).config = (d.node x).config := by rw [h.node x hx]

theorem Ages.copiedFrom : (d'.node x).copiedFrom = (d.node x).copiedFrom := by rw [h.node x hx]

theorem Ages.introducedBy : (d'.node x).introducedBy = (d.node x).introducedBy := by
  rw [h.node x hx]

theorem Ages.augmentations : (d'.node x).augmentations = (d.node x).augmentations := by
  rw [h.node x hx]

end Ages

/-! ## Laws -/

/-- A node is `config` if its parent is and its `configStatement` does not say otherwise. -/
def Configured (d : Draft) (x : NodeId) : Prop :=
  (d.node x).config = (((d.node x).parent.map fun p => (d.node p).config).getD true &&
    (d.node x).configStatement.getD true)

/-- What holds of a node from the moment it is made: it is `Configured`, and a copy has the
`reference` of its original, is read-only where that is, and has no `augmentations`. -/
structure Lawful (d : Draft) (x : NodeId) : Prop where
  configured : d.Configured x
  reference : ∀ s, d.model.Copies x s → (d.node x).reference = (d.node s).reference
  readOnly : ∀ s, d.model.Copies x s → (d.node s).config = false → (d.node x).config = false
  untouched : ∀ s, d.model.Copies x s → (d.node x).augmentations = []

/-- A node that no augment has touched: nothing was added to it, and if a `uses` brought it in, it
is a copy. -/
structure AsMade (d : Draft) (x : NodeId) : Prop extends Lawful d x where
  augmentations : (d.node x).augmentations = []
  introduced : (d.node x).introducedBy ≠ none → (d.node x).copiedFrom ≠ none

section Laws

variable (h : Ages d d') {x : NodeId} (hx : x < d.model.size)
  (hparent : ∀ p, (d.node x).parent = some p → p < d.model.size)

include h hx hparent

theorem Configured.ages (hc : d.Configured x) : d'.Configured x := by
  unfold Configured at hc ⊢
  have hstatement : (d'.node x).configStatement = (d.node x).configStatement := by
    rw [h.node x hx]
  have hinherited : ((d'.node x).parent.map fun p => (d'.node p).config) =
      (d.node x).parent.map fun p => (d.node p).config := by
    rw [h.parent hx]
    cases hp : (d.node x).parent with
    | none => rfl
    | some p => exact congrArg some (h.config (hparent p hp))
  rw [h.config hx, hstatement, hinherited]
  exact hc

variable (hsource : ∀ s, d.model.Copies x s → s < d.model.size)

include hsource

theorem Lawful.ages (hl : d.Lawful x) : d'.Lawful x := by
  have hcopies : ∀ s, d'.model.Copies x s → d.model.Copies x s := fun s hs =>
    (h.copiedFrom hx).symm.trans hs
  refine ⟨hl.configured.ages h hx hparent, fun s hs => ?_, fun s hs hro => ?_, fun s hs => ?_⟩
  · rw [h.reference hx, h.reference (hsource s (hcopies s hs))]
    exact hl.reference s (hcopies s hs)
  · rw [h.config (hsource s (hcopies s hs))] at hro
    rw [h.config hx]
    exact hl.readOnly s (hcopies s hs) hro
  · rw [h.augmentations hx]
    exact hl.untouched s (hcopies s hs)

theorem AsMade.ages (hm : d.AsMade x) : d'.AsMade x := by
  refine ⟨hm.toLawful.ages h hx hparent hsource, ?_, ?_⟩
  · rw [h.augmentations hx]
    exact hm.augmentations
  · rw [h.introducedBy hx, h.copiedFrom hx]
    exact hm.introduced

end Laws

/-! ## Copies as they are made -/

/-- A copy `x` of `s` that has been made for a tree of the module `moduleName`. -/
structure CopyMade (d : Draft) (moduleName : String) (x s : NodeId) : Prop where
  lt : s < x
  above : ∀ p, (d.node x).parent = some p → p < x
  copied : d.model.Copies x s
  home : (d.node x).moduleName = moduleName
  reference : (d.node x).reference = (d.node s).reference
  configured : d.Configured x
  readOnly : (d.node s).config = false → (d.node x).config = false
  augmentations : (d.node x).augmentations = []

theorem CopyMade.asMade {moduleName : String} {x s : NodeId} (h : d.CopyMade moduleName x s) :
    d.AsMade x := by
  have hs : ∀ u, d.model.Copies x u → s = u := fun u hu => Option.some.inj (h.copied.symm.trans hu)
  refine ⟨⟨h.configured, ?_, ?_, fun _ _ => h.augmentations⟩, h.augmentations, fun _ hnone => ?_⟩
  · rintro u hu
    rw [← hs u hu]
    exact h.reference
  · rintro u hu
    rw [← hs u hu]
    exact h.readOnly
  · have hcopied : (d.node x).copiedFrom = some s := h.copied
    rw [hnone] at hcopied
    cases hcopied

theorem CopyMade.ages {moduleName : String} {x s : NodeId} (hm : d.CopyMade moduleName x s)
    (h : Ages d d') (hx : x < d.model.size) : d'.CopyMade moduleName x s := by
  have hs := lt_trans hm.lt hx
  refine ⟨hm.lt, fun p hp => hm.above p ((h.parent hx).symm.trans hp),
    (h.copiedFrom hx).trans hm.copied, (h.moduleName hx).trans hm.home, ?_,
    hm.configured.ages h hx fun p hp => lt_trans (hm.above p hp) hx, fun hro => ?_,
    (h.augmentations hx).trans hm.augmentations⟩
  · rw [h.reference hx, h.reference hs]
    exact hm.reference
  · rw [h.config hs] at hro
    rw [h.config hx]
    exact hm.readOnly hro

/-- A `Tree` of nodes that are there and `Configured`, each below the one before. -/
inductive Standing (d : Draft) : Tree → Prop
  | node {id : NodeId} {children : List Tree} : id < d.model.size → d.Configured id →
      (∀ p, (d.node id).parent = some p → p < d.model.size) →
      (∀ t ∈ children, (d.node t.id).parent = some id) → (∀ t ∈ children, Standing d t) →
      Standing d (.node id children)

theorem Standing.lt {t : Tree} (h : d.Standing t) : t.id < d.model.size := by
  cases h with
  | node hlt _ _ _ _ => exact hlt

theorem Standing.ages {t : Tree} (hs : d.Standing t) (h : Ages d d') : d'.Standing t := by
  induction hs with
  | @node id children hlt hconf hparent hbelow hstanding ih =>
    refine .node (lt_of_lt_of_le hlt h.size) (hconf.ages h hlt hparent)
      (fun p hp => lt_of_lt_of_le (hparent p ((h.parent hlt).symm.trans hp)) h.size)
      (fun t ht => ?_) ih
    rw [h.parent (hstanding t ht).lt]
    exact hbelow t ht

theorem Frozen.standing (hf : d.Frozen) (hlaw : ∀ x, d.Done x → d.Configured x) {t : Tree}
    (ht : TreeOf d.model t) (hd : d.Done t.id) : d.Standing t := by
  induction ht with
  | @node id children hids _ ih =>
    have hchild : ∀ t ∈ children, t.id ∈ (d.node id).children := fun t ht => by
      show t.id ∈ (d.model.node id).children
      rw [← hids]
      exact List.mem_map.2 ⟨t, ht, rfl⟩
    exact .node (hf.lt_size hd) (hlaw id hd)
      (fun p hp => lt_trans (hf.up id p hp) (hf.lt_size hd))
      (fun t ht => ((hf.settled id hd).regular.below (hf.not_augment hd) t.id (hchild t ht)).1)
      fun t ht => ih t ht (hf.done_child hd (hchild t ht))

/-- Copies have been made below the node `parent`, and nothing else: every new node is
`CopyMade`. -/
structure MakesCopies (moduleName : String) (parent : NodeId) (d d' : Draft) : Prop where
  grows : Grows (· = parent) d d'
  modules : d'.model.modules = d.model.modules
  made : ∀ x, d.model.size ≤ x → x < d'.model.size → ∃ s, d'.CopyMade moduleName x s

theorem MakesCopies.refl (moduleName : String) (parent : NodeId) (d : Draft) :
    MakesCopies moduleName parent d d :=
  ⟨.refl _ d, rfl, fun _ hx hlt => absurd hlt (Nat.not_lt.2 hx)⟩

theorem MakesCopies.trans {moduleName : String} {parent : NodeId}
    (h : MakesCopies moduleName parent d d') (h' : MakesCopies moduleName parent d' d'') :
    MakesCopies moduleName parent d d'' := by
  refine ⟨h.grows.trans h'.grows fun _ _ hx => hx, h'.modules.trans h.modules, fun x hx hlt => ?_⟩
  by_cases hxd : x < d'.model.size
  · obtain ⟨s, hs⟩ := h.made x hx hxd
    exact ⟨s, hs.ages h'.grows.ages hxd⟩
  · exact h'.made x (Nat.le_of_not_lt hxd) hlt

theorem makesCopies_appendChild {moduleName : String} {parent : NodeId}
    (hp : parent < d.model.size) (c : NodeId) :
    MakesCopies moduleName parent d (d.appendChild parent c) :=
  ⟨grows_appendChild hp (by rfl) c, rfl, fun x hx hlt =>
    absurd (size_update d parent _ ▸ hlt) (Nat.not_lt.2 hx)⟩

/-- `Draft.add` of the first node of a copied tree is `CopyMade`. -/
theorem copyMade_add {moduleName : String} {parent source : NodeId} (introducer : Option NodeId)
    (hp : parent < d.model.size) (hs : source < d.model.size) (hconf : d.Configured source)
    (hover : ∀ p, (d.node source).parent = some p → (d.node p).config = false →
      (d.node parent).config = false) :
    (d.add (copiedNode moduleName parent introducer source (d.node source))).1.CopyMade moduleName
      d.model.size source := by
  generalize hn : copiedNode moduleName parent introducer source (d.node source) = n
  have hself : (d.add n).1.node d.model.size = d.completed n := node_add_self d n
  have hsource : (d.add n).1.node source = d.node source := node_add_of_lt d n hs
  have hparent : (d.add n).1.node parent = d.node parent := node_add_of_lt d n hp
  have hconfig : (d.completed n).config =
      ((d.node parent).config && (d.node source).configStatement.getD true) := by
    rw [← hn]
    rfl
  refine ⟨hs, ?_, ?_, ?_, ?_, ?_, ?_, ?_⟩
  · rw [hself, ← hn]
    rintro p ⟨⟩
    exact hp
  · show ((d.add n).1.node d.model.size).copiedFrom = some source
    rw [hself, ← hn]
    rfl
  · rw [hself, ← hn]
    rfl
  · rw [hself, hsource, ← hn]
    rfl
  · have hplace : (d.completed n).parent = some parent := by rw [← hn]; rfl
    have hstatement : (d.completed n).configStatement = (d.node source).configStatement := by
      rw [← hn]; rfl
    unfold Configured
    rw [hself, hconfig, hplace, hstatement, Option.map_some, hparent]
    rfl
  · rw [hsource, hself, hconfig]
    intro hro
    unfold Configured at hconf
    rw [hro] at hconf
    -- either the original says so, or its parent is read-only, and then the parent here is
    cases hstatement : (d.node source).configStatement.getD true with
    | false => simp
    | true =>
      rw [hstatement, Bool.and_true] at hconf
      cases hplace : (d.node source).parent with
      | none => rw [hplace] at hconf; cases hconf
      | some p =>
        rw [hplace] at hconf
        rw [hover p hplace hconf.symm]
        rfl
  · rw [hself, ← hn]
    rfl

mutual

theorem copyTree_makes (moduleName : String) {parent : NodeId} (introducer : Option NodeId) :
    ∀ (t : Tree) (c : Copying), parent < c.draft.model.size → c.draft.Standing t →
      (∀ p, (c.draft.node t.id).parent = some p → (c.draft.node p).config = false →
        (c.draft.node parent).config = false) →
      MakesCopies moduleName parent c.draft
          (copyTree moduleName parent introducer c t).1.draft ∧
        (copyTree moduleName parent introducer c t).2 <
          (copyTree moduleName parent introducer c t).1.draft.model.size
  | .node source children, c, hp, hstanding, hover => by
    obtain ⟨hlt, hconf, hbelow, hall⟩ : source < c.draft.model.size ∧ c.draft.Configured source ∧
        (∀ t ∈ children, (c.draft.node t.id).parent = some source) ∧
        ∀ t ∈ children, c.draft.Standing t := by
      cases hstanding with
      | node hlt hconf _ hbelow hall => exact ⟨hlt, hconf, hbelow, hall⟩
    rw [copyTree]
    generalize hn : copiedNode moduleName parent introducer source (c.draft.node source) = n
    have hg : Grows (· = parent) c.draft (c.draft.add n).1 := grows_add c.draft fun p h => by
      rw [← hn] at h
      exact ⟨Option.some.inj h ▸ hp, (Option.some.inj h).symm⟩
    have hmade : (c.draft.add n).1.CopyMade moduleName c.draft.model.size source :=
      hn ▸ copyMade_add introducer hp hlt hconf hover
    have hsize : c.draft.model.size < (c.draft.add n).1.model.size := by
      rw [size_add]
      exact Nat.lt_succ_self _
    have hrest := copyBelow_makes moduleName c.draft.model.size source children
      { draft := (c.draft.add n).1, copies := (source, c.draft.model.size) :: c.copies } hsize
      (fun t ht => ⟨(hall t ht).ages hg.ages, by
        rw [hg.parent (hall t ht).lt]
        exact hbelow t ht⟩)
      (fun hro => hmade.readOnly hro)
    subst hn
    refine ⟨⟨hg.trans hrest.grows fun x hx hx' => absurd hx' (Nat.ne_of_lt hx), hrest.modules,
      fun x hx hx' => ?_⟩, lt_of_lt_of_le hsize hrest.grows.size⟩
    rcases Nat.eq_or_lt_of_le hx with rfl | hnew
    · exact ⟨source, hmade.ages hrest.grows.ages hsize⟩
    · exact hrest.made x (by rw [size_add]; exact hnew) hx'

theorem copyBelow_makes (moduleName : String) (parent source : NodeId) :
    ∀ (ts : List Tree) (c : Copying), parent < c.draft.model.size →
      (∀ t ∈ ts, c.draft.Standing t ∧ (c.draft.node t.id).parent = some source) →
      ((c.draft.node source).config = false → (c.draft.node parent).config = false) →
      MakesCopies moduleName parent c.draft (copyBelow moduleName parent c ts).draft
  | [], c, _, _, _ => by
    rw [copyBelow]
    exact .refl _ _ _
  | t :: ts, c, hp, hts, hover => by
    obtain ⟨ht, hplace⟩ := hts t List.mem_cons_self
    have hsource : source < c.draft.model.size := by
      cases ht with
      | node _ _ hparent _ _ => exact hparent source hplace
    obtain ⟨hfirst, -⟩ := copyTree_makes moduleName
      ((c.draft.node t.id).introducedBy.bind fun i => c.copies.lookup i) t c hp ht (by
        rw [hplace]
        rintro p ⟨⟩
        exact hover)
    rw [copyBelow]
    generalize copyTree moduleName parent
      ((c.draft.node t.id).introducedBy.bind fun i => c.copies.lookup i) c t = r at hfirst
    obtain ⟨c₁, id⟩ := r
    dsimp only at hfirst ⊢
    have hall := hfirst.trans
      (makesCopies_appendChild (lt_of_lt_of_le hp hfirst.grows.size) id)
    refine hall.trans (copyBelow_makes moduleName parent source ts
      { c₁ with draft := c₁.draft.appendChild parent id } (lt_of_lt_of_le hp hall.grows.size) (fun u hu => ?_) ?_)
    · obtain ⟨hu, hup⟩ := hts u (List.mem_cons_of_mem _ hu)
      exact ⟨hu.ages hall.grows.ages, (hall.grows.parent hu.lt).trans hup⟩
    · rw [hall.grows.ages.config hsource, hall.grows.ages.config hp]
      exact hover

end

theorem placeCopy_makes {moduleName : String} {target introducer grouping : NodeId} {c : Copying}
    {t : Tree} (hp : target < c.draft.model.size) (ht : c.draft.Standing t)
    (hplace : (c.draft.node t.id).parent = some grouping)
    (hover : (c.draft.node grouping).config = false → (c.draft.node target).config = false) :
    MakesCopies moduleName target c.draft
      (placeCopy moduleName target introducer grouping c t).draft := by
  obtain ⟨hcopies, hlt⟩ := copyTree_makes moduleName (some introducer) t c hp ht (by
    rw [hplace]
    rintro p ⟨⟩
    exact hover)
  have hid : (copyTree moduleName target (some introducer) c t).2 = c.draft.model.size := by
    cases t
    rw [copyTree]
    rfl
  unfold placeCopy
  generalize copyTree moduleName target (some introducer) c t = r at hcopies hlt hid
  dsimp only
  have hages : Ages r.1.draft (r.1.draft.update r.2 (via grouping)) := ages_update hlt rfl
  have hvia : MakesCopies moduleName target c.draft (r.1.draft.update r.2 (via grouping)) := by
    refine ⟨hcopies.grows.update_new hid.ge hlt rfl, hcopies.modules, fun x hx hx' => ?_⟩
    rw [size_update] at hx'
    obtain ⟨s, hs⟩ := hcopies.made x hx hx'
    exact ⟨s, hs.ages hages hx'⟩
  exact hvia.trans (makesCopies_appendChild (lt_of_lt_of_le hp hvia.grows.size) r.2)

theorem foldl_placeCopy_makes (moduleName : String) (target introducer grouping : NodeId) :
    ∀ (ts : List Tree) (c : Copying), target < c.draft.model.size →
      (∀ t ∈ ts, c.draft.Standing t ∧ (c.draft.node t.id).parent = some grouping) →
      (grouping < c.draft.model.size ∧
        ((c.draft.node grouping).config = false → (c.draft.node target).config = false)) →
      MakesCopies moduleName target c.draft
        (ts.foldl (placeCopy moduleName target introducer grouping) c).draft
  | [], c, _, _, _ => .refl _ _ _
  | t :: ts, c, hp, hts, hover => by
    obtain ⟨ht, hplace⟩ := hts t List.mem_cons_self
    have hfirst : MakesCopies moduleName target c.draft
        (placeCopy moduleName target introducer grouping c t).draft :=
      placeCopy_makes hp ht hplace hover.2
    rw [List.foldl_cons]
    refine hfirst.trans (foldl_placeCopy_makes moduleName target introducer grouping ts _
      (lt_of_lt_of_le hp hfirst.grows.size) (fun u hu => ?_) ⟨?_, ?_⟩)
    · obtain ⟨hu, hup⟩ := hts u (List.mem_cons_of_mem _ hu)
      exact ⟨hu.ages hfirst.grows.ages, (hfirst.grows.parent hu.lt).trans hup⟩
    · exact lt_of_lt_of_le hover.1 hfirst.grows.size
    · rw [hfirst.grows.ages.config hover.1, hfirst.grows.ages.config hp]
      exact hover.2

/-- `copyGrouping` makes nothing but copies for the module. -/
theorem copyGrouping_makes {moduleName : String} {target introducer grouping : NodeId}
    (hf : d.Frozen) (hlaw : ∀ x, d.Done x → d.Configured x) (hp : target < d.model.size)
    (hg : d.Done grouping) (hconfig : (d.node grouping).config = true) :
    MakesCopies moduleName target d (copyGrouping moduleName target introducer grouping d) := by
  have htree := hf.treeOf hg
  have hid : (d.model.tree grouping).id = grouping := by
    unfold tree; cases d.model.size <;> rfl
  generalize ht : d.model.tree grouping = t at htree hid
  have hstanding := hf.standing hlaw htree (hid.symm ▸ hg)
  cases hstanding with
  | @node id children _ _ _ hbelow hall =>
    obtain rfl : id = grouping := hid
    have hcopy : copyGrouping moduleName target introducer id d =
        (children.foldl (placeCopy moduleName target introducer id) { draft := d }).draft := by
      unfold copyGrouping
      rw [ht]
      rfl
    rw [hcopy]
    exact foldl_placeCopy_makes moduleName target introducer id children { draft := d } hp
      (fun t ht => ⟨hall t ht, hbelow t ht⟩)
      ⟨hf.lt_size hg, fun hro => absurd (hconfig.symm.trans hro) nofun⟩

end RestSpec.DataModel.Draft
