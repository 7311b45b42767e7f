/-
What a change of a draft leaves alone. As long as what is done is kept, a node goes on to be
regular if its own body stays, and if its children show it the same face; of a child of no
grouping, the link to what it copies may be lost.
-/
import RestSpec.Proofs.DataModel.Draft
import RestSpec.Proofs.List

namespace RestSpec.DataModel

open Relation (TransGen ReflTransGen)

/-- Where a node stands: its `parent`, its `kind` and what it is `introducedBy`. -/
structure Node.SamePlace (n n' : Node) : Prop where
  parent : n'.parent = n.parent
  kind : n'.kind = n.kind
  introducedBy : n'.introducedBy = n.introducedBy

/-- What a node says of itself to its parent: its place, and the `viaGrouping` and `augmentedBy`
that tell where it comes from. -/
structure Node.SameFace (n n' : Node) : Prop extends n.SamePlace n' where
  viaGrouping : n'.viaGrouping = n.viaGrouping
  augmentedBy : n'.augmentedBy = n.augmentedBy

/-- What a node is made of, its place, `children`, `uses` and origin apart. -/
structure Node.SameBody (n n' : Node) : Prop where
  moduleName : n'.moduleName = n.moduleName
  kind : n'.kind = n.kind
  name : n'.name = n.name
  configStatement : n'.configStatement = n.configStatement
  description : n'.description = n.description
  children : n'.children = n.children
  uses : n'.uses = n.uses

theorem Node.SameFace.refl (n : Node) : n.SameFace n := ⟨⟨rfl, rfl, rfl⟩, rfl, rfl⟩

theorem Node.SameBody.refl (n : Node) : n.SameBody n := ⟨rfl, rfl, rfl, rfl, rfl, rfl, rfl⟩

namespace Draft

/-- A change that keeps what is `Done`, and the way back to its original from every node that still
is `copiedFrom` one. -/
structure Keeps (d d' : Draft) : Prop where
  size : d.model.size ≤ d'.model.size
  node : ∀ x, d.Done x → d'.node x = d.node x
  done : ∀ x, d.Done x → d'.Done x
  built : ∀ e ∈ d.built, e ∈ d'.built
  modules : d'.model.moduleNames = d.model.moduleNames
  chain : ∀ c t, (d'.node c).copiedFrom = (d.node c).copiedFrom →
    TransGen d.model.Copies c t → TransGen d'.model.Copies c t
  grouped : ∀ x < d.model.size, d'.model.Grouped x → d.model.Grouped x

section Keeps

variable {d d' : Draft} (hk : Keeps d d') (hf : d.Frozen)

include hk

theorem Keeps.standsFor {id g c t : NodeId} (ht : d.Done t)
    (hface : (d.node c).SameFace (d'.node c))
    (hcopied : (d'.node c).copiedFrom = (d.node c).copiedFrom ∨ (d'.node c).copiedFrom = none)
    (h : d.model.StandsFor id g c t) : d'.model.StandsFor id g c t := by
  refine ⟨hface.introducedBy.trans h.introduced, hface.viaGrouping.trans h.via, ?_⟩
  rcases hcopied with hcopied | hnone
  · rcases h.copied with hnone | ⟨hcopies, haug⟩
    · exact .inl (hcopied.trans hnone)
    · refine .inr ⟨hk.chain c t hcopied hcopies, ?_⟩
      show (d'.node c).augmentedBy = (d'.node t).augmentedBy
      rw [hface.augmentedBy, hk.node t ht]
      exact haug
  · exact .inl hnone

include hf

theorem Keeps.made {x : NodeId} {uses declared added : List NodeId} {blocks : List (List NodeId)}
    (huses : ∀ g ∈ uses, d.Done g) (hlt : x < d.model.size)
    (hfaces : ∀ c ∈ declared ++ blocks.flatten ++ added, (d.node c).SamePlace (d'.node c) ∧
      ((d.node c).introducedBy = some x → (d.node c).SameFace (d'.node c) ∧
        ((d'.node c).copiedFrom = (d.node c).copiedFrom ∨
          (d'.node c).copiedFrom = none ∧ ¬ d.model.Grouped x)))
    (h : d.model.Made x uses declared blocks added) :
    d'.model.Made x uses declared blocks added := by
  have hblock : ∀ c ∈ blocks.flatten, c ∈ declared ++ blocks.flatten ++ added := fun c hc =>
    List.mem_append_left _ (List.mem_append_right _ hc)
  refine ⟨fun c hc => ?_, ?_, fun c hc => ?_, fun hg => ?_⟩
  · show (d'.node c).introducedBy = none
    rw [(hfaces c (by simp [hc])).1.introducedBy]
    exact h.declares c hc
  · refine forall₂_imp_mem h.stands fun g hg block hb hstands => ?_
    have hgd := huses g hg
    show List.Forall₂ (d'.model.StandsFor x g) block (d'.node g).children
    rw [hk.node g hgd]
    refine forall₂_imp_mem hstands fun c hc t ht hstand => ?_
    obtain ⟨hface, hcopied⟩ :=
      (hfaces c (hblock c (List.mem_flatten.2 ⟨block, hb, hc⟩))).2 hstand.introduced
    exact hk.standsFor (hf.done_child hgd ht) hface (hcopied.imp_right fun h => h.1) hstand
  · show (d'.node c).introducedBy ≠ some x
    rw [(hfaces c (by simp [hc])).1.introducedBy]
    exact h.adds c hc
  · obtain ⟨hadded, hwhole⟩ := h.whole (hk.grouped x hlt hg)
    refine ⟨hadded, fun c hc => ?_⟩
    obtain ⟨block, hb, hcb⟩ := List.mem_flatten.1 hc
    obtain ⟨g, -, hstands⟩ := forall₂_mem_left h.stands.flip block hb
    obtain ⟨t, -, hstand⟩ := forall₂_mem_left hstands c hcb
    -- only what stands outside groupings stops being a copy
    rcases ((hfaces c (hblock c hc)).2 hstand.introduced).2 with hcopied | ⟨-, hnot⟩
    · show (d'.node c).copiedFrom ≠ none
      rw [hcopied]
      exact hwhole c hc
    · exact absurd (hk.grouped x hlt hg) hnot

theorem Keeps.regular {x : NodeId} (hr : d.Regular x) (hlt : x < d.model.size)
    (hparent : (d'.node x).parent = (d.node x).parent)
    (hbody : (d.node x).SameBody (d'.node x))
    (hcopied : (d'.node x).copiedFrom = (d.node x).copiedFrom ∨ (d'.node x).copiedFrom = none)
    (hfaces : (d.node x).kind.isAugment = false → ∀ c ∈ (d.node x).children,
      (d.node c).SamePlace (d'.node c) ∧
        ((d.node c).introducedBy = some x → (d.node c).SameFace (d'.node c) ∧
          ((d'.node c).copiedFrom = (d.node c).copiedFrom ∨
            (d'.node c).copiedFrom = none ∧ ¬ d.model.Grouped x))) : d'.Regular x := by
  refine ⟨?_, ?_, fun c hc => ?_, fun haug c hc => ?_, fun g hg => ?_, fun s hs => ?_,
    fun haug => ?_⟩
  · rw [hbody.moduleName, hk.modules]; exact hr.home
  · rw [hparent, hbody.kind]; exact hr.parent
  · rw [hbody.children] at hc
    obtain ⟨hxc, hsize⟩ := hr.children c hc
    exact ⟨hxc, lt_of_lt_of_le hsize hk.size⟩
  · rw [hbody.kind] at haug ⊢
    rw [hbody.children] at hc
    have hface := (hfaces haug c hc).1
    rw [hface.parent, hface.kind]
    exact hr.below haug c hc
  · rw [hbody.uses] at hg
    obtain ⟨name, hb⟩ := hr.uses g hg
    exact ⟨name, hk.built _ hb⟩
  · rcases hcopied with hcopied | hnone
    · obtain ⟨hsx, hdone⟩ := hr.copied s (hcopied.symm.trans hs)
      exact ⟨hsx, hk.done s hdone⟩
    · have hs : (d'.node x).copiedFrom = some s := hs
      rw [hnone] at hs
      cases hs
  · rw [hbody.kind] at haug
    obtain ⟨declared, blocks, added, hp⟩ := hr.parts haug
    refine ⟨declared, blocks, added, hbody.children.trans hp.children, ?_⟩
    show d'.model.Made x (d'.node x).uses declared blocks added
    rw [hbody.uses]
    refine hk.made hf (fun g hg => ?_) hlt (fun c hc => hfaces haug c ?_) hp.made
    · obtain ⟨name, hb⟩ := hr.uses g hg
      exact .root hb
    · have hchildren : (d.node x).children = declared ++ blocks.flatten ++ added := hp.children
      rw [hchildren]
      exact hc

theorem Keeps.mirrors {x s : NodeId} (hs : d.Done s) (hbody : (d.node x).SameBody (d'.node x))
    (hfaces : ∀ c ∈ (d.node x).children, (d.node c).SameFace (d'.node c) ∧
      (d'.node c).copiedFrom = (d.node c).copiedFrom)
    (h : d.model.Mirrors x s) : d'.model.Mirrors x s := by
  have hns := hk.node s hs
  refine ⟨?_, ?_, ?_, ?_, ?_, ?_⟩
  · show (d'.node x).kind = (d'.node s).kind
    rw [hbody.kind, hns]; exact h.kind
  · show (d'.node x).name = (d'.node s).name
    rw [hbody.name, hns]; exact h.name
  · show (d'.node x).configStatement = (d'.node s).configStatement
    rw [hbody.configStatement, hns]; exact h.configStatement
  · show (d'.node x).description = (d'.node s).description
    rw [hbody.description, hns]; exact h.description
  · show (d'.node x).uses = (d'.node s).uses
    rw [hbody.uses, hns]; exact h.uses
  · show List.Forall₂ d'.model.CopiesChild (d'.node x).children (d'.node s).children
    rw [hbody.children, hns]
    refine forall₂_imp_mem h.children fun c hc t ht hct => ?_
    obtain ⟨hface, hcopied⟩ := hfaces c hc
    refine ⟨hcopied.trans hct.copied, ?_⟩
    show (d'.node c).augmentedBy = (d'.node t).augmentedBy
    rw [hface.augmentedBy, hk.node t (hf.done_child hs ht)]
    exact hct.augmented

theorem Keeps.settled {x : NodeId} (h : d.Settled x) (hlt : x < d.model.size)
    (hparent : (d'.node x).parent = (d.node x).parent)
    (hbody : (d.node x).SameBody (d'.node x))
    (hcopied : (d'.node x).copiedFrom = (d.node x).copiedFrom)
    (hfaces : (d.node x).kind.isAugment = false → ∀ c ∈ (d.node x).children,
      (d.node c).SameFace (d'.node c) ∧ (d'.node c).copiedFrom = (d.node c).copiedFrom) :
    d'.Settled x := by
  refine ⟨hk.regular hf h.regular hlt hparent hbody (.inl hcopied) fun haug c hc =>
    ⟨(hfaces haug c hc).1.toSamePlace, fun _ => (hfaces haug c hc).imp_right .inl⟩, fun s hs => ?_⟩
  have hs : d.model.Copies x s := hcopied.symm.trans hs
  have hsd := (h.regular.copied s hs).2
  have hm := h.mirrors s hs
  have haug : (d.node x).kind.isAugment = false := by
    have hkind : (d.node x).kind = (d.node s).kind := hm.kind
    rw [hkind]
    exact hf.not_augment hsd
  exact hk.mirrors hf hsd hbody (hfaces haug) hm

theorem Keeps.acc {x : NodeId} (hd : d.Done x) (h : Acc (fun b a => d.model.Edge a b) x) :
    Acc (fun b a => d'.model.Edge a b) x := by
  induction h with
  | intro x _ ih =>
    refine ⟨_, fun y hy => ?_⟩
    have hedge : d.model.Edge x y := by
      unfold Edge at hy ⊢
      rw [← Draft.node, ← hk.node x hd]
      exact hy
    refine ih y hedge ?_
    rcases hedge with hc | hu | hs
    · exact hf.done_child hd hc
    · exact hf.done_use hd hu
    · exact hf.done_copied hd hs

/-- A `Frozen` draft stays so under `Keeps`, as long as nothing is built and no further node becomes
`Done`. -/
theorem Keeps.frozen (hdone : ∀ x, d'.Done x → d.Done x) (hb : d'.built = d.built)
    (hup : ∀ id p, (d'.node id).parent = some p → p < id) : d'.Frozen := by
  refine ⟨hup, fun name g hmem => ?_, fun x hx => ?_, fun x hx => ?_⟩
  · rw [hb] at hmem
    obtain ⟨hlt, hkind, hparent⟩ := hf.root name g hmem
    rw [hk.node g (.root hmem)]
    exact ⟨lt_of_lt_of_le hlt hk.size, hkind, hparent⟩
  · have hx := hdone x hx
    have hnode := hk.node x hx
    refine hk.settled hf (hf.settled x hx) (hf.lt_size hx) (by rw [hnode])
      (by rw [hnode]; exact .refl _) (by rw [hnode]) fun _ c hc => ?_
    have hc := hk.node c (hf.done_child hx hc)
    rw [hc]
    exact ⟨.refl _, rfl⟩
  · have hx := hdone x hx
    exact hk.acc hf hx (hf.founded x hx)

end Keeps

/-! ## Changing one node -/

section Update

variable {d : Draft} {id : NodeId} {f : Node → Node} (hid : id < d.model.size)

include hid

theorem parent_update (hparent : (f (d.node id)).parent = (d.node id).parent) (x : NodeId) :
    ((d.update id f).node x).parent = (d.node x).parent := by
  rw [node_update d hid]
  split
  · rename_i hx; rw [hparent, hx]
  · rfl

theorem done_update (hparent : (f (d.node id)).parent = (d.node id).parent) {x : NodeId} :
    (d.update id f).Done x ↔ d.Done x := by
  have h := parent_update hid hparent
  constructor
  · intro hx
    induction hx with
    | root hb => exact .root hb
    | child hp _ ih => exact .child ((h _).symm.trans hp) ih
  · intro hx
    induction hx with
    | root hb => exact .root hb
    | child hp _ ih => exact .child ((h _).trans hp) ih

theorem grouped_update (hparent : (f (d.node id)).parent = (d.node id).parent)
    (hkind : (f (d.node id)).kind = (d.node id).kind) {x : NodeId} :
    (d.update id f).model.Grouped x ↔ d.model.Grouped x := by
  have h := parent_update hid hparent
  have hk : ∀ x, ((d.update id f).node x).kind = (d.node x).kind := by
    intro x
    rw [node_update d hid]
    split
    · rename_i hx; rw [hkind, hx]
    · rfl
  constructor
  · intro hx
    induction hx with
    | root hroot => exact .root ((hk _).symm.trans hroot)
    | child hp _ ih => exact .child ((h _).symm.trans hp) ih
  · intro hx
    induction hx with
    | root hroot => exact .root ((hk _).trans hroot)
    | child hp _ ih => exact .child ((h _).trans hp) ih

/-- To change what a node that is not `Done` says of itself alone, with its `parent`, `kind` and
`copiedFrom` left as they are, `Keeps` the draft. -/
theorem keeps_update (hdone : ¬ d.Done id)
    (hparent : (f (d.node id)).parent = (d.node id).parent)
    (hkind : (f (d.node id)).kind = (d.node id).kind)
    (hcopied : (f (d.node id)).copiedFrom = (d.node id).copiedFrom) :
    Keeps d (d.update id f) := by
  refine ⟨by rw [size_update], fun x hx => ?_, fun x => (done_update hid hparent).2, fun _ h => h,
    rfl, fun c t _ hchain => ?_, fun x _ => (grouped_update hid hparent hkind).1⟩
  · exact node_update_of_ne d hid f fun h => hdone (h ▸ hx)
  · refine TransGen.mono (fun a b hab => ?_) _ _ hchain
    show ((d.update id f).node a).copiedFrom = some b
    rw [node_update d hid]
    split
    · rename_i ha
      rw [hcopied, ← ha]
      exact hab
    · exact hab

end Update

end Draft

end RestSpec.DataModel
