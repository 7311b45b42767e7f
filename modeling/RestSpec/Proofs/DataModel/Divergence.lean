/-
Copies and what becomes of them. As long as a node is a copy it equals what it copies, down to the
last node, and no augment has touched it or anything in it. A node that a `uses` brought in stops
being a copy for one reason only: an augment added to it, or to something in it. The carrying
invariant is that every node that was brought in either is a copy or holds a target. So a node has
the property names of its canonical node, in the same order.
-/
import RestSpec.Proofs.DataModel.Substitution
import RestSpec.Proofs.Definitions.Strategies

namespace RestSpec.DataModel

open Relation (ReflTransGen)

/-! ## Nodes that were brought in -/

/-- The `children` of a node lead to another one, over as many levels as it takes. -/
def Holds (model : DataModel) (x y : NodeId) : Prop :=
  ReflTransGen (fun a b => b ∈ (model.node a).children) x y

/-- An augment has added to a node or to one that it `Holds`. -/
def Touched (model : DataModel) (x : NodeId) : Prop :=
  ∃ y, model.Holds x y ∧ (model.node y).augmentations ≠ []

/-- An augment lists the node among its `children`, so it has added it to its target. -/
def Listed (model : DataModel) (x : NodeId) : Prop :=
  ∃ a, (model.node a).kind.isAugment = true ∧ x ∈ (model.node a).children

/-- A node that a `uses` made: it still is a copy, or it tells who brought it in, or it lies below
such a node and no augment has put it there. -/
inductive Brought (model : DataModel) : NodeId → Prop
  | copy {x : NodeId} : (model.node x).copiedFrom ≠ none → Brought model x
  | introduced {x : NodeId} : (model.node x).introducedBy ≠ none → Brought model x
  | inside {p x : NodeId} : Brought model p → x ∈ (model.node p).children → ¬ model.Listed x →
      Brought model x

/-- A node of a grouping that a copy equals in all that it says and in what it holds, copy by
copy. -/
structure Intact (model : DataModel) (id source : NodeId) : Prop where
  grouped : model.Grouped source
  kind : (model.node id).kind = (model.node source).kind
  name : (model.node id).name = (model.node source).name
  configStatement : (model.node id).configStatement = (model.node source).configStatement
  uses : (model.node id).uses = (model.node source).uses
  children : List.Forall₂ model.Copies (model.node id).children (model.node source).children
  untouched : ¬ model.Touched id

theorem Leads.holds {model : DataModel} {x t : NodeId} {names : List String}
    (h : model.Leads x names t) : model.Holds x t := by
  induction h with
  | here => exact .refl
  | down hchild _ ih => exact .head (List.mem_of_find?_eq_some hchild) ih

/-- What lies above the end of a path that `Leads` lies on it, or above its beginning. -/
theorem Leads.holds_of_beneath {model : DataModel} {r t x : NodeId} {names : List String}
    (h : model.Leads r names t) (hbelow : ∀ a c, model.Holds r a → c ∈ (model.node a).children →
      (model.node c).parent = some a) (hx : model.Beneath t x) :
    model.Holds x t ∨ model.Beneath r x := by
  induction h with
  | here => exact .inr hx
  | @down r c t name rest hchild hrest ih =>
    have hmem : c ∈ (model.node r).children := List.mem_of_find?_eq_some hchild
    rcases ih (fun a b ha => hbelow a b (.head hmem ha)) hx with hholds | hbeneath
    · exact .inl hholds
    · rcases ReflTransGen.cases_head hbeneath with rfl | ⟨p, hp, hrp⟩
      · exact .inl hrest.holds
      · obtain rfl := Option.some.inj ((hbelow r c .refl hmem).symm.trans hp)
        exact .inr hrp

namespace Draft

variable {d d' : Draft} {sources : List Source.Module} {changing : NodeId → Prop}

/-! ## Copies -/

/-- What a copy `Holds` is a copy. -/
theorem Coherent.copy_holds (hc : d.Coherent fun _ => False) {x y : NodeId}
    (hx : (d.node x).copiedFrom ≠ none) (h : d.model.Holds x y) : (d.node y).copiedFrom ≠ none := by
  induction h with
  | refl => exact hx
  | @tail y z _ hz ih =>
    obtain ⟨s, hs⟩ := Option.ne_none_iff_exists'.1 ih
    obtain ⟨u, -, hzu⟩ := forall₂_mem_left (hc.mirrors y s not_false hs).children z hz
    exact fun hnone => absurd (hnone.symm.trans hzu.copied) nofun

theorem Staged.intact {since : NodeId} (h : Staged sources since d) {id source : NodeId}
    (hcopy : d.model.Copies id source) : d.model.Intact id source := by
  have hc := h.sound.coherent
  have hm := hc.mirrors id source not_false hcopy
  refine ⟨hc.frozen.grouped ((hc.regular id (lt_size_of_copies hcopy)).copied source hcopy).2,
    hm.kind, hm.name, hm.configStatement, hm.uses, hm.children.imp fun _ _ h => h.copied, ?_⟩
  rintro ⟨y, hy, htouched⟩
  have hcopied : (d.node id).copiedFrom ≠ none := fun hnone =>
    absurd (hnone.symm.trans hcopy) nofun
  obtain ⟨s, hs⟩ := Option.ne_none_iff_exists'.1 (hc.copy_holds hcopied hy)
  exact htouched ((h.faithful.lawful y (lt_size_of_copies hs)).untouched s hs)

/-! ## Nodes that are copies no more -/

/-- Every node that was `Brought` in is a copy, or it is `Touched` by an augment. -/
def Accounted (d : Draft) : Prop :=
  ∀ x, d.model.Brought x → (d.node x).copiedFrom ≠ none ∨ d.model.Touched x

theorem node_ne_blank_lt {x : NodeId} (h : (d.node x).introducedBy ≠ none) : x < d.model.size := by
  by_contra hlt
  have hblank : d.node x = Node.blank := node_of_size_le (Nat.le_of_not_lt hlt)
  rw [hblank] at h
  exact h rfl

/-- Before the first augment all nodes that were `Brought` in are copies. -/
theorem Staged.accounted (h : Staged sources 0 d) : Accounted d := by
  intro x hx
  refine .inl ?_
  induction hx with
  | copy hcopied => exact hcopied
  | @introduced x hintroduced =>
    exact (h.faithful.asMade x (Nat.zero_le x) (node_ne_blank_lt hintroduced)).introduced
      hintroduced
  | @inside p x _ hmem _ ih => exact h.sound.coherent.copy_holds ih (.single hmem)

section Augmented

variable {σ : Setting} {t : NodeId} {ss : List Shape}

theorem Grafted.children_subset (hg : Grafted σ t ss d d') {x : NodeId} (hx : x < d.model.size)
    {c : NodeId} (hmem : c ∈ (d.node x).children) : c ∈ (d'.node x).children := by
  by_cases hxt : x = t
  · obtain ⟨ids, hids, -⟩ := hg.grown
    rw [hxt, hids]
    exact List.mem_append_left _ (hxt ▸ hmem)
  · rw [(hg.kept x hx hxt).1]
    exact hmem

theorem Grafted.holds (hg : Grafted σ t ss d d') (hc : d.Coherent changing) {x y : NodeId}
    (hx : x < d.model.size) (h : d.model.Holds x y) : y < d.model.size ∧ d'.model.Holds x y := by
  induction h with
  | refl => exact ⟨hx, .refl⟩
  | @tail y z _ hz ih =>
    obtain ⟨hlt, hholds⟩ := ih
    exact ⟨((hc.regular y hlt).children z hz).2, hholds.tail (hg.children_subset hlt hz)⟩

/-- What an augment has `Touched` stays touched. -/
theorem Grafted.keeps_touched (hg : Grafted σ t ss d d') (hc : d.Coherent changing) {x : NodeId}
    (hx : x < d.model.size) (h : d.model.Touched x) : d'.model.Touched x := by
  obtain ⟨y, hy, htouched⟩ := h
  obtain ⟨hlt, hholds⟩ := hg.holds hc hx hy
  refine ⟨y, hholds, ?_⟩
  by_cases hyt : y = t
  · rw [hyt]
    exact hg.touched
  · have hsame : (d'.model.node y).augmentations = (d.model.node y).augmentations :=
      (hg.kept y hlt hyt).2
    rw [hsame]
    exact htouched

/-- A node that is `Listed` at an augment stays so. -/
theorem Grafted.keeps_listed (hg : Grafted σ t ss d d') {x : NodeId} (h : d.model.Listed x) :
    d'.model.Listed x := by
  obtain ⟨a, hkind, hmem⟩ := h
  have ha : a < d.model.size := by
    by_contra hlt
    rw [node_of_size_le (Nat.le_of_not_lt hlt)] at hkind
    cases hkind
  refine ⟨a, ?_, hg.children_subset ha hmem⟩
  have hsame : (d'.model.node a).kind = (d.model.node a).kind :=
    congrArg Label.kind (hg.label a ha)
  rw [hsame]
  exact hkind

/-- What an augment brings in are copies; all else that is `Brought` in was so before. -/
theorem Grafted.brought (hg : Grafted { σ with since := d.model.size } t ss d d')
    (hc : d.Coherent changing) (hc' : d'.Coherent fun _ => False) {x : NodeId}
    (h : d'.model.Brought x) : if x < d.model.size then d.model.Brought x else
      (d'.node x).copiedFrom ≠ none := by
  induction h with
  | @copy x hcopied =>
    split
    · rename_i hx
      refine .copy ?_
      rcases hg.copied x hx with hsame | ⟨hnone, -⟩
      · exact hsame ▸ hcopied
      · exact absurd hnone hcopied
    · exact hcopied
  | @introduced x hintroduced =>
    split
    · rename_i hx
      exact .introduced (hg.introduced x hx ▸ hintroduced)
    · rename_i hx
      exact (hg.faithful.asMade x (Nat.le_of_not_lt hx) (node_ne_blank_lt hintroduced)).introduced
        hintroduced
  | @inside p x _ hmem hlisted ih =>
    split at ih
    · rename_i hp
      -- an old node holds nothing new but what the augment lists
      have hold : x ∈ (d.node p).children := by
        by_cases hpt : p = t
        · rcases hg.listed x (hpt ▸ hmem) with hmem | hmem
          · exact hpt ▸ hmem
          · exact absurd ⟨d.model.size, hg.augment, hmem⟩ hlisted
        · exact (hg.kept p hp hpt).1 ▸ hmem
      rw [if_pos ((hc.regular p hp).children x hold).2]
      exact .inside ih hold fun h => hlisted (hg.keeps_listed h)
    · rename_i hp
      have hlt : ¬ x < d.model.size := fun hx => by
        by_cases hpd' : p < d'.model.size
        · exact hp (lt_trans ((hc'.regular p hpd').children x hmem).1 hx)
        · have hblank : d'.model.node p = Node.blank := node_of_size_le (Nat.le_of_not_lt hpd')
          rw [hblank] at hmem
          cases hmem
      rw [if_neg hlt]
      exact hc'.copy_holds ih (.single hmem)

/-- Nodes that the target lies `Beneath` after an augment were so before it. -/
theorem Grafted.beneath (hg : Grafted σ t ss d d') (hf : d.Frozen) (ht : t < d.model.size)
    {x : NodeId} (h : d'.model.Beneath t x) : d.model.Beneath t x := by
  induction h with
  | refl => exact .refl
  | @tail y p _ hp ih =>
    have hy : y < d.model.size := lt_of_le_of_lt (ih.le hf.up) ht
    exact ih.tail ((hg.parent y hy).symm.trans hp)

end Augmented

/-- Whatever a target lies `Beneath` also `Holds` it, for a path of children leads there from a
root. -/
theorem Staged.holds_target {since : NodeId} (h : Staged sources since d) {r t x : NodeId}
    {names : List String} (hr : r ∈ d.model.roots) (hleads : d.model.Leads r names t)
    (hx : d.model.Beneath t x) : d.model.Holds x t := by
  have hc := h.sound.coherent
  have hrooted : ∀ a, d.model.Holds r a → d.model.Rooted a := by
    intro a ha
    induction ha with
    | refl => exact h.sound.rooted r hr
    | tail _ hchild ih => exact hc.rooted_child ih hchild
  rcases hleads.holds_of_beneath (fun a c ha hchild =>
    ((hc.regular a (hrooted a ha).lt).below (hrooted a ha).kind c hchild).1) hx with hholds | htop
  · exact hholds
  · obtain rfl := htop.eq_of_parentless (h.parentless r hr)
    exact hleads.holds

/-- An augment leaves every node `Accounted` for: nothing diverges but what holds its target. -/
theorem Augmented.accounted (h : Augmented sources d d') (hd : Accounted d) : Accounted d' := by
  obtain ⟨t, ss, hg, r, hr, names, hleads⟩ := h.grafted
  have hc := h.before.sound.coherent
  have ht : t < d.model.size :=
    (hg.holds hc (h.before.sound.rooted r hr).lt hleads.holds).1
  intro x hx
  have hbrought := hg.brought (σ := ⟨sources, d.model.size, d.model.outlines⟩) hc
    h.after.sound.coherent hx
  split at hbrought
  · rename_i hlt
    rcases hd x hbrought with hcopied | htouched
    · rcases hg.copied x hlt with hsame | ⟨-, hbeneath⟩
      · exact .inl (hsame.symm ▸ hcopied)
      · have hholds := h.before.holds_target hr hleads (hg.beneath hc.frozen ht hbeneath)
        exact .inr ⟨t, (hg.holds hc hlt hholds).2, hg.touched⟩
    · exact .inr (hg.keeps_touched hc hlt htouched)
  · exact .inl hbrought

theorem accounted_of_augmented (h : ReflTransGen (Augmented sources) d d') (hd : Accounted d) :
    Accounted d' := by
  induction h with
  | refl => exact hd
  | tail _ hstep ih => exact hstep.accounted ih

end Draft

variable {sources : List Source.Module} {model : DataModel}

/-! ## Linked models -/

theorem Linked.isStructural_canonical (hm : model.Linked) (id : NodeId) :
    (model.node (model.canonical id)).kind.isStructural = (model.node id).kind.isStructural := by
  have hpath : ReflTransGen (fun a b => model.standsFor? a = some b) id (model.canonical id) :=
    canonical_path id
  generalize model.canonical id = owner at hpath
  induction hpath with
  | refl => rfl
  | @tail a b _ hstep ih =>
    rw [← ih]
    rcases standsFor?_eq_some hstep with hcopies | ⟨-, halias⟩
    · rw [(hm.mirrors a b hcopies).kind]
    · have ha := aliases_of_aliasTarget? halias
      rw [ha.structural, (hm.uses a b (ha.uses ▸ List.mem_singleton_self b)).2]
      rfl

/-- A structural node has the `propertyNames` of its `canonical` node. -/
theorem Linked.propertyNames_canonical (hm : model.Linked) {id : NodeId}
    (h : (model.node id).kind.isStructural = true) :
    model.propertyNames (model.canonical id) = model.propertyNames id := by
  rw [← hm.names_shows h, ← hm.names_shows ((hm.isStructural_canonical id).trans h),
    hm.shows_canonical]

/-- A copy equals what it copies, a node that a `uses` brought in stops being a copy only if an
augment adds to it or to something that it holds, and so each structural node has the property
names of its canonical node. -/
theorem link_copies (h : link sources = .ok model) :
    (∀ id source, model.Copies id source → model.Intact id source) ∧
      (∀ id, model.Brought id → (model.node id).copiedFrom = none → model.Touched id) ∧
      ∀ id, (model.node id).kind.isStructural = true →
        model.propertyNames id = model.propertyNames (model.canonical id) := by
  have hm := (linked_of_link h).1
  obtain ⟨d, d', forest, hpasses, rfl, -, -⟩ := Draft.passes_of_link h
  refine ⟨fun id source hcopy => hpasses.linked.intact hcopy, fun id hbrought hnone => ?_,
    fun id hkind => (hm.propertyNames_canonical hkind).symm⟩
  exact (Draft.accounted_of_augmented hpasses.augmented hpasses.built.accounted id hbrought).resolve_left
    fun hne => hne hnone

/-- In `sharing` the limits of the first container are a copy, and those of the last one hold what
an augment added. -/
theorem link_copies_sharing : ∃ model, link sharing = .ok model ∧ model.Intact 6 2 ∧
    model.Touched 15 ∧ model.propertyNames 4 = model.propertyNames (model.canonical 4) := by
  obtain ⟨model, h⟩ := link_sharing
  have hnode := map_of_ok h (f := fun model => ((model.node 6).copiedFrom,
      (model.node 15).introducedBy, (model.node 15).copiedFrom, (model.node 4).kind.isStructural))
    (b := (some 2, some 13, none, true)) (by decide +kernel)
  simp only [Prod.mk.injEq] at hnode
  obtain ⟨hcopy, hintroduced, hnone, hkind⟩ := hnode
  obtain ⟨hintact, htouched, hnames⟩ := link_copies h
  exact ⟨model, h, hintact 6 2 hcopy,
    htouched 15 (.introduced (by rw [hintroduced]; nofun)) hnone, hnames 4 hkind⟩

end RestSpec.DataModel
