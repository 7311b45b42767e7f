/-
How drafts grow. A draft grows from another if nodes are added and nothing but the opened nodes
changes, and those only by further children and uses. What is done stays as it is, so everything
that a regular node says of itself, of its children and of what is done goes on to hold.
-/
import RestSpec.Proofs.DataModel.Frame

namespace RestSpec.DataModel.Draft

open Relation (TransGen ReflTransGen)

variable {d d' d'' : Draft}

/-! ## Later drafts -/

/-- Nodes are added and groupings are built among the new nodes; no old node gets another `parent`
or `kind`. -/
structure Later (d d' : Draft) : Prop where
  size : d.model.size ≤ d'.model.size
  parent : ∀ x < d.model.size, (d'.node x).parent = (d.node x).parent
  kind : ∀ x < d.model.size, (d'.node x).kind = (d.node x).kind
  built : ∃ new, d'.built = new ++ d.built ∧ ∀ e ∈ new, d.model.size ≤ e.2
  modules : d'.model.moduleNames = d.model.moduleNames
  roots : d'.model.roots = d.model.roots

theorem Later.trans (h : Later d d') (h' : Later d' d'') : Later d d'' := by
  refine ⟨le_trans h.size h'.size, fun x hx => ?_, fun x hx => ?_, ?_,
    h'.modules.trans h.modules, h'.roots.trans h.roots⟩
  · rw [h'.parent x (lt_of_lt_of_le hx h.size), h.parent x hx]
  · rw [h'.kind x (lt_of_lt_of_le hx h.size), h.kind x hx]
  · obtain ⟨new, hb, hnew⟩ := h.built
    obtain ⟨new', hb', hnew'⟩ := h'.built
    refine ⟨new' ++ new, by rw [hb', hb, List.append_assoc], fun e he => ?_⟩
    rcases List.mem_append.1 he with he | he
    · exact le_trans h.size (hnew' e he)
    · exact hnew e he

section Later

variable (hl : Later d d')

include hl

theorem Later.mem_built {e : GroupingName × NodeId} (h : e ∈ d.built) : e ∈ d'.built := by
  obtain ⟨new, hb, -⟩ := hl.built
  rw [hb]
  exact List.mem_append_right _ h

theorem Later.done {x : NodeId} (h : d.Done x) : d'.Done x := by
  induction h with
  | root hb => exact .root (hl.mem_built hb)
  | child hp _ ih => exact .child ((hl.parent _ (lt_size_of_parent hp)).trans hp) ih

/-- An old node is `Done` only if it was so before: what is built `Later` consists of new nodes. -/
theorem Later.done_of_lt (hf : d.Frozen) {x : NodeId} (h : d'.Done x) (hx : x < d.model.size) :
    d.Done x := by
  induction h with
  | root hb =>
    obtain ⟨new, hbuilt, hnew⟩ := hl.built
    rw [hbuilt] at hb
    rcases List.mem_append.1 hb with hb | hb
    · exact absurd (hnew _ hb) (Nat.not_le.2 hx)
    · exact .root hb
  | child hp _ ih =>
    rw [hl.parent _ hx] at hp
    exact .child hp (ih (lt_trans (hf.up _ _ hp) hx))

theorem Later.grouped_iff (hf : d.Frozen) {x : NodeId} (hx : x < d.model.size) :
    d'.model.Grouped x ↔ d.model.Grouped x := by
  constructor
  · intro h
    induction h with
    | root hk => exact .root ((hl.kind _ hx).symm.trans hk)
    | child hp _ ih =>
      have hp := (hl.parent _ hx).symm.trans hp
      exact .child hp (ih (lt_trans (hf.up _ _ hp) hx))
  · intro h
    induction h with
    | root hk => exact .root ((hl.kind _ hx).trans hk)
    | child hp _ ih =>
      exact .child ((hl.parent _ hx).trans hp) (ih (lt_trans (hf.up _ _ hp) hx))

end Later

/-! ## Growth -/

/-- Nodes are added, groupings are built among the new ones, and of the old nodes only those that
are `opened` change, by further `children` and `uses`. -/
structure Grows (opened : NodeId → Prop) (d d' : Draft) : Prop where
  size : d.model.size ≤ d'.model.size
  kept : ∀ x < d.model.size, ¬ opened x → d'.node x = d.node x
  grown : ∀ x < d.model.size, ∃ cs us, d'.node x =
    { d.node x with children := (d.node x).children ++ cs, uses := (d.node x).uses ++ us }
  fresh : ∀ x p, d.model.size ≤ x → (d'.node x).parent = some p →
    p < x ∧ (d.model.size ≤ p ∨ opened p)
  built : ∃ new, d'.built = new ++ d.built ∧ ∀ e ∈ new, d.model.size ≤ e.2
  modules : d'.model.moduleNames = d.model.moduleNames
  roots : d'.model.roots = d.model.roots

theorem Grows.later {opened : NodeId → Prop} (h : Grows opened d d') : Later d d' := by
  refine ⟨h.size, fun x hx => ?_, fun x hx => ?_, h.built, h.modules, h.roots⟩
  · obtain ⟨cs, us, hx'⟩ := h.grown x hx
    rw [hx']
  · obtain ⟨cs, us, hx'⟩ := h.grown x hx
    rw [hx']

theorem Grows.refl (opened : NodeId → Prop) (d : Draft) : Grows opened d d := by
  refine ⟨le_rfl, fun _ _ _ => rfl, fun x _ => ⟨[], [], by simp⟩, fun x p hx hp => ?_,
    ⟨[], rfl, by simp⟩, rfl, rfl⟩
  exact absurd (lt_size_of_parent hp) (Nat.not_lt.2 hx)

theorem Grows.trans {opened opened' : NodeId → Prop} (h : Grows opened d d')
    (h' : Grows opened' d' d'') (ho : ∀ x < d.model.size, opened' x → opened x) :
    Grows opened d d'' := by
  have hl := h.later.trans h'.later
  refine ⟨hl.size, fun x hx hn => ?_, fun x hx => ?_, fun x p hx hp => ?_, hl.built, hl.modules,
    hl.roots⟩
  · rw [h'.kept x (lt_of_lt_of_le hx h.size) fun hx' => hn (ho x hx hx'), h.kept x hx hn]
  · obtain ⟨cs, us, hx'⟩ := h.grown x hx
    obtain ⟨cs', us', hx''⟩ := h'.grown x (lt_of_lt_of_le hx h.size)
    exact ⟨cs ++ cs', us ++ us', by rw [hx'', hx']; simp⟩
  · by_cases hlt : x < d'.model.size
    · obtain ⟨cs, us, hx'⟩ := h'.grown x hlt
      rw [hx'] at hp
      exact h.fresh x p hx hp
    · obtain ⟨hpx, hp⟩ := h'.fresh x p (Nat.le_of_not_lt hlt) hp
      refine ⟨hpx, ?_⟩
      rcases hp with hp | hp
      · exact .inl (le_trans h.size hp)
      · by_cases hpd : p < d.model.size
        · exact .inr (ho p hpd hp)
        · exact .inl (Nat.le_of_not_lt hpd)

theorem Grows.weaken {opened opened' : NodeId → Prop} (h : Grows opened d d')
    (ho : ∀ x < d.model.size, opened x → opened' x) : Grows opened' d d' :=
  (Grows.refl opened' d).trans h ho

section Grows

variable {opened : NodeId → Prop} (hg : Grows opened d d')

include hg

theorem Grows.parent {x : NodeId} (hx : x < d.model.size) :
    (d'.node x).parent = (d.node x).parent :=
  hg.later.parent x hx

theorem Grows.kind {x : NodeId} (hx : x < d.model.size) : (d'.node x).kind = (d.node x).kind :=
  hg.later.kind x hx

theorem Grows.introducedBy {x : NodeId} (hx : x < d.model.size) :
    (d'.node x).introducedBy = (d.node x).introducedBy := by
  obtain ⟨cs, us, h⟩ := hg.grown x hx
  rw [h]

theorem Grows.augmentedBy {x : NodeId} (hx : x < d.model.size) :
    (d'.node x).augmentedBy = (d.node x).augmentedBy := by
  obtain ⟨cs, us, h⟩ := hg.grown x hx
  rw [h]

theorem Grows.copiedFrom {x : NodeId} (hx : x < d.model.size) :
    (d'.node x).copiedFrom = (d.node x).copiedFrom := by
  obtain ⟨cs, us, h⟩ := hg.grown x hx
  rw [h]

theorem Grows.viaGrouping {x : NodeId} (hx : x < d.model.size) :
    (d'.node x).viaGrouping = (d.node x).viaGrouping := by
  obtain ⟨cs, us, h⟩ := hg.grown x hx
  rw [h]

theorem Grows.mem_built {e : GroupingName × NodeId} (h : e ∈ d.built) : e ∈ d'.built :=
  hg.later.mem_built h

theorem Grows.copies {a b : NodeId} (h : d.model.Copies a b) : d'.model.Copies a b :=
  (hg.copiedFrom (lt_size_of_copies h)).trans h

theorem Grows.copies_iff {a b : NodeId} (ha : a < d.model.size) :
    d'.model.Copies a b ↔ d.model.Copies a b := by
  unfold Copies
  rw [← Draft.node, ← Draft.node, hg.copiedFrom ha]

theorem Grows.up (hup : ∀ id p, (d.node id).parent = some p → p < id) :
    ∀ id p, (d'.node id).parent = some p → p < id := by
  intro id p hp
  by_cases hid : id < d.model.size
  · exact hup id p (hg.parent hid ▸ hp)
  · exact (hg.fresh id p (Nat.le_of_not_lt hid) hp).1

theorem Grows.done {x : NodeId} (h : d.Done x) : d'.Done x := hg.later.done h

theorem Grows.done_of_lt (hf : d.Frozen) {x : NodeId} (h : d'.Done x) (hx : x < d.model.size) :
    d.Done x :=
  hg.later.done_of_lt hf h hx

theorem Grows.grouped_iff (hf : d.Frozen) {x : NodeId} (hx : x < d.model.size) :
    d'.model.Grouped x ↔ d.model.Grouped x :=
  hg.later.grouped_iff hf hx

/-! ## What goes on to hold -/

theorem Grows.sameFace {x : NodeId} (hx : x < d.model.size) :
    (d.node x).SameFace (d'.node x) ∧ (d'.node x).copiedFrom = (d.node x).copiedFrom :=
  ⟨⟨⟨hg.parent hx, hg.kind hx, hg.introducedBy hx⟩, hg.viaGrouping hx, hg.augmentedBy hx⟩,
    hg.copiedFrom hx⟩

/-- An `opened` node is `Regular` again if the children `cs` and the uses `us` that it has got are
in order. -/
theorem Grows.regular_opened {x : NodeId} (hr : d.Regular x) (hlt : x < d.model.size)
    (cs us : List NodeId) (hnode : d'.node x =
      { d.node x with children := (d.node x).children ++ cs, uses := (d.node x).uses ++ us })
    (hcs : ∀ c ∈ cs, x < c ∧ c < d'.model.size ∧ ((d.node x).kind.isAugment = false →
      (d'.node c).parent = some x ∧ (d.node x).kind.takes (d'.node c).kind = true))
    (hus : ∀ g ∈ us, ∃ name, (name, g) ∈ d'.built)
    (hparts : (d.node x).kind.isAugment = false →
      ∃ declared blocks added, d'.model.Parts x declared blocks added) : d'.Regular x := by
  refine ⟨?_, ?_, fun c hc => ?_, fun haug c hc => ?_, fun g hgu => ?_, fun s hs => ?_, ?_⟩
  · rw [hnode, hg.modules]; exact hr.home
  · rw [hnode]; exact hr.parent
  · rw [hnode] at hc
    rcases List.mem_append.1 hc with hc | hc
    · obtain ⟨hxc, hsize⟩ := hr.children c hc
      exact ⟨hxc, lt_of_lt_of_le hsize hg.size⟩
    · exact ⟨(hcs c hc).1, (hcs c hc).2.1⟩
  · rw [hnode] at haug hc ⊢
    rcases List.mem_append.1 hc with hc | hc
    · have hsize := (hr.children c hc).2
      rw [hg.parent hsize, hg.kind hsize]
      exact hr.below haug c hc
    · exact (hcs c hc).2.2 haug
  · rw [hnode] at hgu
    rcases List.mem_append.1 hgu with hgu | hgu
    · obtain ⟨name, hb⟩ := hr.uses g hgu
      exact ⟨name, hg.mem_built hb⟩
    · exact hus g hgu
  · obtain ⟨hsx, hdone⟩ := hr.copied s ((hg.copies_iff hlt).1 hs)
    exact ⟨hsx, hg.done hdone⟩
  · rw [hnode]; exact hparts

variable (hf : d.Frozen) (ho : ∀ x, opened x → ¬ d.Done x)

include hf ho

theorem Grows.keeps : Keeps d d' :=
  ⟨hg.size, fun x hx => hg.kept x (hf.lt_size hx) fun h => ho x h hx, fun _ => hg.done,
    fun _ => hg.mem_built, hg.modules, fun _ _ _ => TransGen.mono (fun _ _ => hg.copies) _ _,
    fun _ hx => (hg.grouped_iff hf hx).1⟩

theorem Grows.kept_done {x : NodeId} (h : d.Done x) : d'.node x = d.node x :=
  (hg.keeps hf ho).node x h

theorem Grows.regular {x : NodeId} (hr : d.Regular x) (hlt : x < d.model.size)
    (hx : d'.node x = d.node x) : d'.Regular x := by
  refine (hg.keeps hf ho).regular hf hr hlt (by rw [hx]) (by rw [hx]; exact .refl _)
    (.inl (by rw [hx])) fun _ c hc => ?_
  have hface := hg.sameFace (hr.children c hc).2
  exact ⟨hface.1.toSamePlace, fun _ => hface.imp_right .inl⟩

theorem Grows.settled {x : NodeId} (h : d.Settled x) (hlt : x < d.model.size)
    (hx : d'.node x = d.node x) : d'.Settled x :=
  (hg.keeps hf ho).settled hf h hlt (by rw [hx]) (by rw [hx]; exact .refl _) (by rw [hx])
    fun _ c hc => hg.sameFace (h.regular.children c hc).2

theorem Grows.made {x : NodeId} {uses declared added : List NodeId} {blocks : List (List NodeId)}
    (huses : ∀ g ∈ uses, d.Done g) (hlt : x < d.model.size)
    (hsize : ∀ c ∈ declared ++ blocks.flatten ++ added, c < d.model.size)
    (h : d.model.Made x uses declared blocks added) :
    d'.model.Made x uses declared blocks added := by
  refine (hg.keeps hf ho).made hf huses hlt (fun c hc => ?_) h
  have hface := hg.sameFace (hsize c hc)
  exact ⟨hface.1.toSamePlace, fun _ => hface.imp_right .inl⟩

theorem Grows.mirrors {x s : NodeId} (hr : d.Regular x) (hx : d'.node x = d.node x)
    (hs : d.Done s) (h : d.model.Mirrors x s) : d'.model.Mirrors x s :=
  (hg.keeps hf ho).mirrors hf hs (by rw [hx]; exact .refl _)
    (fun c hc => hg.sameFace (hr.children c hc).2) h

/-- As long as nothing is `built`, no node becomes `Done` while the draft `Grows`. -/
theorem Grows.done_of_built (hb : d'.built = d.built) {x : NodeId} (h : d'.Done x) : d.Done x := by
  induction h with
  | root h => exact .root (hb ▸ h)
  | @child x p hp hpd ih =>
    by_cases hlt : x < d.model.size
    · exact .child ((hg.parent hlt).symm.trans hp) ih
    · rcases (hg.fresh x p (Nat.le_of_not_lt hlt) hp).2 with hle | hop
      -- a new node stands below a new or an opened one, and neither is done
      · exact absurd (hf.lt_size ih) (Nat.not_lt.2 hle)
      · exact absurd ih (ho p hop)

theorem Grows.frozen (hb : d'.built = d.built) : d'.Frozen :=
  (hg.keeps hf ho).frozen hf (fun _ => hg.done_of_built hf ho hb) hb (hg.up hf.up)

/-- A draft that `Grows` stays `Coherent` if its new nodes are `Settled` and the opened ones are
`Regular` again. -/
theorem Grows.coherent {changing : NodeId → Prop} (hc : d.Coherent changing) (hf' : d'.Frozen)
    (hnew : ∀ x, d.model.size ≤ x → x < d'.model.size → d'.Settled x)
    (hopened : ∀ x < d.model.size, opened x → d'.node x = d.node x ∨ d'.Regular x ∧
      (¬ changing x → ∀ s, d'.model.Copies x s → d'.model.Mirrors x s)) :
    d'.Coherent changing := by
  have hold : ∀ x < d.model.size, d'.node x = d.node x ∨ d'.Regular x ∧
      (¬ changing x → ∀ s, d'.model.Copies x s → d'.model.Mirrors x s) := by
    intro x hx
    by_cases hop : opened x
    · exact hopened x hx hop
    · exact .inl (hg.kept x hx hop)
  refine ⟨hf', fun x hx => ?_, fun x hx => ?_, fun x s hn hs => ?_⟩
  · obtain ⟨hlt, hdone⟩ := hc.undone x hx
    exact ⟨lt_of_lt_of_le hlt hg.size, fun h => hdone (hg.done_of_lt hf h hlt)⟩
  · by_cases hlt : x < d.model.size
    · rcases hold x hlt with hkept | hr
      · exact hg.regular hf ho (hc.regular x hlt) hlt hkept
      · exact hr.1
    · exact (hnew x (Nat.le_of_not_lt hlt) hx).regular
  · by_cases hlt : x < d.model.size
    · rcases hold x hlt with hkept | hr
      · have hs := (hg.copies_iff hlt).1 hs
        have hr := hc.regular x hlt
        exact hg.mirrors hf ho hr hkept (hr.copied s hs).2 (hc.mirrors x s hn hs)
      · exact hr.2 hn s hs
    · exact (hnew x (Nat.le_of_not_lt hlt) (lt_size_of_copies hs)).mirrors s hs

end Grows

end RestSpec.DataModel.Draft
