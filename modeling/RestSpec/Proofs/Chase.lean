/-
Following links. Where links lead away from the nodes of a table and never in a circle, no way is
longer than the table, so a bounded search comes to the end of it.
-/
import Mathlib.Tactic
import Mathlib.Logic.Relation
import RestSpec.DataModel.Basic

namespace RestSpec

open Relation (TransGen ReflTransGen)

/-! ## Ways without circles -/

theorem not_transGen_of_wellFounded {α : Type} {R : α → α → Prop}
    (hwf : WellFounded fun b a => R a b) (a : α) : ¬ TransGen R a a := by
  induction a using hwf.induction with
  | _ a ih =>
    intro h
    obtain ⟨b, hab, hba⟩ := TransGen.head'_iff.1 h
    exact ih b hab (TransGen.tail' hba hab)

/-- The nodes `passed` on a way by `R` to the node `id`: they differ, and all are numbers under
`size`. -/
structure Passed (R : NodeId → NodeId → Prop) (size : Nat) (passed : List NodeId) (id : NodeId) :
    Prop where
  nodup : passed.Nodup
  bound : ∀ x ∈ passed, x < size
  above : ∀ x ∈ passed, TransGen R x id

section Passed

variable {R : NodeId → NodeId → Prop} {size : Nat} {passed : List NodeId} {a b : NodeId}

theorem Passed.nil : Passed R size [] a := ⟨List.nodup_nil, by simp, by simp⟩

theorem Passed.length_le (h : Passed R size passed a) : passed.length ≤ size := by
  have hsub : passed ⊆ List.range size := fun x hx => List.mem_range.2 (h.bound x hx)
  simpa using h.nodup.length_le_of_subset hsub

theorem Passed.not_mem (h : Passed R size passed a) (hwf : WellFounded fun b a => R a b) :
    a ∉ passed :=
  fun ha => not_transGen_of_wellFounded hwf a (h.above a ha)

theorem Passed.cons (h : Passed R size passed a) (hwf : WellFounded fun b a => R a b)
    (hlt : a < size) (hab : TransGen R a b) : Passed R size (a :: passed) b := by
  refine ⟨List.nodup_cons.2 ⟨h.not_mem hwf, h.nodup⟩, fun x hx => ?_, fun x hx => ?_⟩
  · rcases List.mem_cons.1 hx with rfl | hx
    · exact hlt
    · exact h.bound x hx
  · rcases List.mem_cons.1 hx with rfl | hx
    · exact hab
    · exact (h.above x hx).trans hab

end Passed

/-! ## The end of a way -/

section Chase

variable {next : NodeId → Option NodeId}

/-- `next` tells one way on from each node, so two ways to nodes that have none end in the same
one. -/
theorem end_unique {a c d : NodeId} (hac : ReflTransGen (fun a b => next a = some b) a c)
    (hc : next c = none) (had : ReflTransGen (fun a b => next a = some b) a d)
    (hd : next d = none) : c = d := by
  induction hac using ReflTransGen.head_induction_on with
  | refl =>
    rcases ReflTransGen.cases_head had with rfl | ⟨b, hb, -⟩
    · rfl
    · exact absurd (hc.symm.trans hb) nofun
  | head hab _ ih =>
    rcases ReflTransGen.cases_head had with rfl | ⟨b, hb, hbd⟩
    · exact absurd (hd.symm.trans hab) nofun
    · obtain rfl := Option.some.inj (hab.symm.trans hb)
      exact ih hbd

theorem chase_path (next : NodeId → Option NodeId) : ∀ (steps : Nat) (a : NodeId),
    ReflTransGen (fun a b => next a = some b) a (chase next steps a)
  | 0, _ => .refl
  | steps + 1, a => by
    unfold chase
    split
    · exact .head ‹_› (chase_path next steps _)
    · exact .refl

variable {size : Nat} (hlt : ∀ a b, next a = some b → a < size)
  (hwf : WellFounded fun b a => next a = some b)

include hlt hwf

theorem chase_end (a : NodeId) : next (chase next size a) = none := by
  -- the steps that are left are enough for the nodes that have not been passed
  suffices ∀ (steps : Nat) (passed : List NodeId) (a : NodeId),
      Passed (fun a b => next a = some b) size passed a → size ≤ passed.length + steps →
      next (chase next steps a) = none from this size [] a .nil (by simp)
  intro steps
  induction steps with
  | zero =>
    intro passed a hp hle
    unfold chase
    by_contra hne
    obtain ⟨b, hb⟩ := Option.ne_none_iff_exists'.1 hne
    have := (hp.cons hwf (hlt a b hb) (.single hb)).length_le
    simp only [List.length_cons] at this
    omega
  | succ steps ih =>
    intro passed a hp hle
    unfold chase
    split
    · rename_i b hb
      refine ih (a :: passed) b (hp.cons hwf (hlt a b hb) (.single hb)) ?_
      simp only [List.length_cons]
      omega
    · assumption

theorem chase_eq {a c : NodeId} (hac : ReflTransGen (fun a b => next a = some b) a c)
    (hc : next c = none) : chase next size a = c :=
  end_unique (chase_path next size a) (chase_end hlt hwf a) hac hc

theorem chase_of_next {a b : NodeId} (h : next a = some b) :
    chase next size a = chase next size b :=
  chase_eq hlt hwf (.head h (chase_path next size b)) (chase_end hlt hwf b)

theorem chase_of_end {a : NodeId} (h : next a = none) : chase next size a = a :=
  chase_eq hlt hwf .refl h

end Chase

/-- `chase` with as many steps as the table has nodes comes to a node without `next`, if `next`
always leads to a smaller number. -/
theorem chase_ends (next : NodeId → Option NodeId) {size : Nat}
    (hlt : ∀ a b, next a = some b → b < a ∧ a < size) (id : NodeId) :
    next (chase next size id) = none :=
  chase_end (fun a b h => (hlt a b h).2)
    (Subrelation.wf (fun {b a} h => (hlt a b h).1) Nat.lt_wfRel.wf) id

end RestSpec
