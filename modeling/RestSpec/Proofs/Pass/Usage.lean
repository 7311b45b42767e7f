/-
Removing what no operation reaches. The live names are those that a chain of references leads to
from an operation; a queue of names finds the same ones. What a live definition refers to is live, so
removing the others changes no definition that is left, and a live definition stays what it is.
-/
import Mathlib.Tactic
import RestSpec.Proofs.Search
import RestSpec.Proofs.Document.Carries

namespace RestSpec.Document

open Relation (TransGen ReflTransGen)

variable {doc : Document}

/-! ## Live names -/

theorem mem_successors {n m : String} :
    m ∈ doc.successors n ↔
      ∃ d, doc.definitions.find? n = some d ∧ m ∈ d.references.map (·.2) := by
  unfold successors
  cases doc.definitions.find? n with
  | none => simp
  | some d =>
    have hkind : ∀ kind, m ∈ nameSet ((d.references.filter (·.1 == kind)).map (·.2)) ↔
        (kind, m) ∈ d.references := by
      intro kind
      simp [mem_nameSet]
    have hall : m ∈ d.edges.all ↔
        (EdgeKind.uses, m) ∈ d.references ∨ (.inherits, m) ∈ d.references := by
      rw [Definition.edges, Edges.all, List.mem_append, hkind, hkind]
    simp only [hall, Option.some.injEq, exists_eq_left', List.mem_map, Prod.exists,
      exists_eq_right]
    constructor
    · rintro (h | h)
      · exact ⟨_, h⟩
      · exact ⟨_, h⟩
    · rintro ⟨kind, h⟩
      cases kind with
      | uses => exact .inl h
      | inherits => exact .inr h

/-- The names that lead on by `successors` are defined, so the depth of the search is enough for it
to be `Covers`. -/
theorem covers_searchDepth (next : String → List String)
    (hnext : ∀ n, n ∉ doc.definitions.names → next n = []) (s : Search) (names : List String) :
    Search.Covers next s (names.foldl (Search.visit next doc.searchDepth) s) names := by
  refine Search.covers_foldl (Search.covers_visit hnext doc.searchDepth) names s ?_
  have hle : Search.unmet doc.definitions.names s.met ≤ doc.definitions.names.length :=
    List.length_filter_le _ _
  have hlen : doc.definitions.names.length = doc.definitions.entries.length := List.length_map _
  unfold searchDepth
  omega

theorem successors_eq_nil {n : String} (hn : n ∉ doc.definitions.names) : doc.successors n = [] := by
  rw [List.eq_nil_iff_forall_not_mem]
  intro m hm
  obtain ⟨d, hd, -⟩ := mem_successors.1 hm
  exact hn (Table.mem_names_iff.2 (Table.contains_of_find? hd))

/-- A name is live if `successors` lead to it from one of the `roots`. -/
theorem mem_live_iff_roots {n : String} :
    n ∈ doc.live ↔ ∃ root ∈ doc.roots, ReflTransGen (Search.Leads doc.successors) root n := by
  unfold live
  rw [mem_nameSet,
    (covers_searchDepth doc.successors (fun _ => successors_eq_nil) {} doc.roots).mem_iff]

/-- A name is `live` if references lead to it from an operation by `successors`. -/
theorem mem_live_iff {n : String} :
    n ∈ doc.live ↔
      ∃ root ∈ doc.pathReferences, ReflTransGen (Search.Leads doc.successors) root n := by
  rw [mem_live_iff_roots]
  simp only [roots, mem_nameSet]

/-- A queue that starts with the `roots` of a document comes to an end, and what it has met by then
are the `live` names. -/
theorem queue_live (doc : Document) :
    (∃ met, ReflTransGen (Search.Turn doc.successors) ⟨[], doc.roots⟩ ⟨met, []⟩) ∧
    ∀ met, ReflTransGen (Search.Turn doc.successors) ⟨[], doc.roots⟩ ⟨met, []⟩ →
      nameSet met = doc.live := by
  refine ⟨Search.exists_emptied (fun _ => successors_eq_nil) [] doc.roots, fun met hrun => ?_⟩
  refine nameSet_ext fun n => ?_
  rw [Search.mem_emptied_iff hrun,
    (covers_searchDepth doc.successors (fun _ => successors_eq_nil) {} doc.roots).mem_iff]

/-- The `successors` of a definition are its parents and what its own schema refers to. -/
theorem mem_successors_iff {n m : String} :
    m ∈ doc.successors n ↔ doc.Inherits n m ∨ ∃ s, doc.ownOf n = some s ∧ m ∈ s.references := by
  rw [mem_successors]
  unfold Inherits parentsOf ownOf
  cases doc.definitions.find? n with
  | none => simp
  | some d =>
    simp only [Option.some.injEq, exists_eq_left', Option.map_some, Option.getD_some,
      Option.bind_some]
    exact Definition.mem_references

theorem live_of_successor {n m : String} (h : n ∈ doc.live) (hm : m ∈ doc.successors n) :
    m ∈ doc.live := by
  obtain ⟨root, hroot, hr⟩ := mem_live_iff.1 h
  exact mem_live_iff.2 ⟨root, hroot, hr.tail hm⟩

theorem live_of_inherits {n a : String} (h : n ∈ doc.live) (ha : doc.Inherits n a) :
    a ∈ doc.live :=
  live_of_successor h (mem_successors_iff.2 (.inl ha))

theorem live_of_mentioned {n k m : String} (hn : n ∈ doc.live) (h : doc.Mentioned n k m) :
    m ∈ doc.live := by
  obtain ⟨p, hp, hm⟩ := h
  induction hp with
  | own hs hk =>
    exact live_of_successor hn
      (mem_successors_iff.2 (.inr ⟨_, hs, Schema.references_of_property hk hm⟩))
  | inherited hstep _ ih => exact ih (live_of_inherits hn hstep) hm

theorem Reached.live {n : String} (h : Reached doc.Mentioned doc n) : n ∈ doc.live := by
  induction h with
  | payload hn => exact mem_live_iff.2 ⟨_, hn, .refl⟩
  | property _ hmentioned ih => exact live_of_mentioned ih hmentioned

/-! ## The pass -/

theorem find?_removeUnused (n : String) :
    doc.removeUnused.definitions.find? n =
      if n ∈ doc.live then doc.definitions.find? n else none := by
  unfold removeUnused without
  show (doc.definitions.filter fun name _ => !doc.unused.contains name).find? n = _
  rw [Table.find?_filter]
  by_cases hn : n ∈ doc.live
  · have : doc.unused.contains n = false := by
      simp [unused, hn]
    rw [this, if_pos hn]; rfl
  · rw [if_neg hn]
    cases hd : doc.definitions.find? n with
    | none => exact ite_self none
    | some d =>
      have : doc.unused.contains n = true := by
        simp [unused, hn, Table.mem_names_iff, Table.contains_of_find? hd]
      rw [this]; rfl

theorem contains_removeUnused {n : String} :
    doc.removeUnused.definitions.contains n = true ↔
      n ∈ doc.live ∧ doc.definitions.contains n = true := by
  unfold Table.contains
  rw [find?_removeUnused]
  split <;> simp_all

theorem inherits_removeUnused {n a : String} :
    doc.removeUnused.Inherits n a ↔ n ∈ doc.live ∧ doc.Inherits n a := by
  unfold Inherits parentsOf
  rw [find?_removeUnused]
  split <;> simp_all

theorem ownOf_removeUnused {n : String} {s : Schema} :
    doc.removeUnused.ownOf n = some s ↔ n ∈ doc.live ∧ doc.ownOf n = some s := by
  unfold ownOf
  rw [find?_removeUnused]
  split <;> simp_all

/-- `removeUnused` leaves live names `Unchanged`: an ancestor of a live name is live. -/
theorem unchanged_removeUnused (doc : Document) : Unchanged (· ∈ doc.live) doc doc.removeUnused where
  closed _ _ hn ha := live_of_inherits hn ha
  own n hn := by
    unfold ownOf
    rw [find?_removeUnused, if_pos hn]
  inherits n hn a := inherits_removeUnused.trans (and_iff_right hn)

/-- A name stays `live` if the names before it lead on as they did. -/
theorem live_mono {doc' : Document} (hrefs : doc'.pathReferences = doc.pathReferences)
    (hsucc : ∀ n ∈ doc.live, ∀ m ∈ doc.successors n, m ∈ doc'.successors n) {n : String}
    (h : n ∈ doc.live) : n ∈ doc'.live := by
  obtain ⟨root, hroot, hreached⟩ := mem_live_iff.1 h
  refine mem_live_iff.2 ⟨root, hrefs ▸ hroot, ?_⟩
  clear h
  induction hreached with
  | refl => exact .refl
  | tail hreached hstep ih =>
    exact ih.tail (hsucc _ (mem_live_iff.2 ⟨root, hroot, hreached⟩) _ hstep)

/-- Every definition is `live`, reached from an operation. -/
def AllLive (doc : Document) : Prop := ∀ n, doc.definitions.contains n = true → n ∈ doc.live

theorem allLive_removeUnused (doc : Document) : doc.removeUnused.AllLive := by
  intro n hn
  have hrefs : doc.removeUnused.pathReferences = doc.pathReferences := rfl
  refine live_mono hrefs (fun m hm x hx => ?_) (contains_removeUnused.1 hn).1
  obtain ⟨d, hd, hx⟩ := mem_successors.1 hx
  exact mem_successors.2 ⟨d, by rw [find?_removeUnused, if_pos hm]; exact hd, hx⟩

theorem unused_eq_nil_iff : doc.unused = [] ↔ doc.AllLive := by
  simp [unused, List.filter_eq_nil_iff, AllLive, Table.mem_names_iff]

theorem AllLive.removeUnused (h : doc.AllLive) : doc.removeUnused = doc := by
  unfold Document.removeUnused without
  rw [unused_eq_nil_iff.2 h]
  refine congrArg (fun t => { doc with definitions := t }) (Table.ext ?_)
  exact List.filter_eq_self.2 fun _ _ => rfl

theorem removeUnused_wellFormed (h : doc.WellFormed) : doc.removeUnused.WellFormed := by
  refine ⟨⟨fun n d hd m hm => ?_, fun m hm => ?_⟩,
    h.acyclic.mono fun _ _ hstep => (inherits_removeUnused.1 hstep).2, fun n hn => ?_⟩
  · rw [find?_removeUnused] at hd
    split at hd
    · rename_i hn
      exact contains_removeUnused.2 ⟨live_of_successor hn (mem_successors.2 ⟨d, hd, hm⟩),
        h.closed.definitions n d hd m hm⟩
    · cases hd
  · exact contains_removeUnused.2 ⟨mem_live_iff.2 ⟨m, hm, .refl⟩, h.closed.operations m hm⟩
  · exact h.nulFree n
      (Table.mem_names_iff.2 (contains_removeUnused.1 (Table.mem_names_iff.1 hn)).2)

theorem removeUnused_carries (h : doc.WellFormed) :
    Carries doc.Mentioned doc.removeUnused.Mentioned doc doc.removeUnused ∅ := by
  have hsame := unchanged_removeUnused doc
  have hlive : ∀ {n}, doc.removeUnused.definitions.contains n = true → n ∈ doc.live :=
    fun hn => (contains_removeUnused.1 hn).1
  refine ⟨(paths_rename_empty doc.paths).symm, fun n hn => ?_, fun n hn => ?_,
    fun n hn => ⟨fun k => ?_, fun k p hp => ?_⟩, fun n hn k m hcounts => ?_,
    fun n hn k m hshared => ?_⟩
  · exact contains_removeUnused.2 ⟨hn.live, hn.defined h.closed⟩
  · exact (contains_removeUnused.1 hn).2
  · rw [Renaming.apply_empty] at hn ⊢
    simp only [hsame.effective_iff (hlive hn)]
  · rw [Renaming.apply_empty] at hn hp
    exact ⟨p, (hsame.effective_iff (hlive hn)).1 hp, (Schema.rename_empty p).symm⟩
  · rw [Renaming.apply_empty] at hn ⊢
    rw [Renaming.apply_empty]
    exact hsame.mentioned (hlive hn) hcounts
  · rw [Renaming.apply_empty] at hn ⊢
    rw [Renaming.apply_empty]
    exact hsame.shared (hlive hn) hshared

end RestSpec.Document
