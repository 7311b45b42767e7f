/-
Canonical nodes of linked models. A node stands for what it copies or for a grouping that it uses,
so what it stands for is further on a way that never comes back; the canonical node is the end of
that way, and is its own canonical node.
-/
import RestSpec.Proofs.Chase
import RestSpec.Proofs.DataModel.Linked
import RestSpec.Naming.Registry
import RestSpec.LeafType.Convert

namespace RestSpec.DataModel

open Relation (TransGen ReflTransGen)

variable {model : DataModel}

/-! ## What a node stands for -/

theorem standsFor?_eq_some {id s : NodeId} (h : model.standsFor? id = some s) :
    model.Copies id s ∨ (model.node id).copiedFrom = none ∧ model.aliasTarget? id = some s := by
  unfold standsFor? at h
  cases hc : (model.node id).copiedFrom with
  | some t =>
    rw [hc] at h
    obtain rfl := Option.some.inj h
    exact .inl hc
  | none =>
    rw [hc] at h
    exact .inr ⟨rfl, h⟩

theorem standsFor?_of_copies {id s : NodeId} (h : model.Copies id s) :
    model.standsFor? id = some s := by
  unfold Copies at h
  unfold standsFor?
  rw [h]
  rfl

/-- The node `id` adds nothing to the grouping `g` that it uses, which is what `standsFor?` asks
for. -/
structure Aliases (model : DataModel) (id g : NodeId) : Prop where
  uses : (model.node id).uses = [g]
  structural : (model.node id).kind.isStructural = true
  inherited : ∀ c ∈ (model.node id).children,
    (model.node c).introducedBy = some id ∧ (model.node c).copiedFrom ≠ none

theorem aliases_of_aliasTarget? {id g : NodeId} (h : model.aliasTarget? id = some g) :
    model.Aliases id g := by
  unfold aliasTarget? at h
  dsimp only at h
  split at h
  · rename_i grouping huses
    split at h
    · rename_i hall
      obtain rfl := Option.some.inj h
      simp only [Bool.and_eq_true, List.all_eq_true] at hall
      refine ⟨huses, hall.1.1, fun c hc => ?_⟩
      have hinherited := hall.2 c hc
      unfold isInheritedThrough at hinherited
      simp only [Bool.and_eq_true, beq_iff_eq, Option.isSome_iff_ne_none] at hinherited
      exact hinherited
    · cases h
  · cases h

theorem edge_of_standsFor? {id s : NodeId} (h : model.standsFor? id = some s) :
    model.Edge id s := by
  rcases standsFor?_eq_some h with hc | ⟨-, ha⟩
  · exact .inr (.inr hc)
  · refine .inr (.inl ?_)
    rw [(aliases_of_aliasTarget? ha).uses]
    exact List.mem_singleton_self s

/-! ## The ends of the ways -/

section Linked

variable (hm : model.Linked)

include hm

theorem Linked.standsFor_founded : WellFounded fun b a => model.standsFor? a = some b :=
  Subrelation.wf (fun h => edge_of_standsFor? h) hm.founded

theorem Linked.standsFor?_canonical (id : NodeId) :
    model.standsFor? (model.canonical id) = none :=
  chase_end (fun _ _ h => lt_size_of_edge (edge_of_standsFor? h)) hm.standsFor_founded id

theorem Linked.canonical_of_standsFor {id s : NodeId} (h : model.standsFor? id = some s) :
    model.canonical id = model.canonical s :=
  chase_of_next (fun _ _ h => lt_size_of_edge (edge_of_standsFor? h)) hm.standsFor_founded h

theorem Linked.canonical_of_end {id : NodeId} (h : model.standsFor? id = none) :
    model.canonical id = id :=
  chase_of_end (fun _ _ h => lt_size_of_edge (edge_of_standsFor? h)) hm.standsFor_founded h

theorem Linked.canonical_canonical (id : NodeId) :
    model.canonical (model.canonical id) = model.canonical id :=
  hm.canonical_of_end (hm.standsFor?_canonical id)

theorem Linked.copies_founded : WellFounded fun b a => (model.node a).copiedFrom = some b :=
  Subrelation.wf (fun h => .inr (.inr h)) hm.founded

theorem Linked.origin_of_copies {id s : NodeId} (h : model.Copies id s) :
    model.origin id = model.origin s :=
  chase_of_next (fun _ _ h => lt_size_of_copies h) hm.copies_founded h

end Linked

/-- A node stands for its `canonical` node, over as many others by `standsFor?` as it takes. -/
theorem canonical_path (id : NodeId) :
    ReflTransGen (fun a b => model.standsFor? a = some b) id (model.canonical id) :=
  chase_path _ _ _

end RestSpec.DataModel
