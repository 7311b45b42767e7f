/-
Removing what is unused, on any document. A name is live exactly if definitions lead to it, over
what their schemas mention and over their parents, from a name that an operation mentions. One
sweep keeps exactly the definitions that are live, and leaves nothing for another.
-/
import RestSpec.Proofs.Pass.Usage

namespace RestSpec.Document

open Relation (ReflTransGen)

variable {doc : Document}

/-! ## What a schema mentions -/

/-- The schema mentions the name as its `reference`, or somewhere in its `items` and
`properties`. -/
inductive Schema.Mentions : Schema → String → Prop
  | reference {s : Schema} {r : String} : s.reference = some r → Mentions s (referenceTarget r)
  | items {s i : Schema} {m : String} : s.items = some i → Mentions i m → Mentions s m
  | property {s p : Schema} {k m : String} : (k, p) ∈ s.properties → Mentions p m → Mentions s m

mutual

theorem Schema.mentions_of_mem {m : String} : ∀ s : Schema, m ∈ s.references → s.Mentions m
  | ⟨reference, _, _, _, _, _, _, _, items, properties, _, _⟩, h => by
    simp only [references, List.mem_append] at h
    rcases h with (h | h) | h
    · obtain ⟨r, hr, rfl⟩ := Option.map_eq_some_iff.1 (Option.mem_toList.1 h)
      exact .reference hr
    · obtain ⟨i, hi, hm⟩ := mentions_of_mem_items items h
      exact .items hi hm
    · obtain ⟨k, p, hp, hm⟩ := mentions_of_mem_properties properties h
      exact .property hp hm

theorem Schema.mentions_of_mem_items {m : String} : ∀ items : Option Schema,
    m ∈ itemReferences items → ∃ i, items = some i ∧ i.Mentions m
  | none, h => nomatch h
  | some i, h => ⟨i, rfl, mentions_of_mem i h⟩

theorem Schema.mentions_of_mem_properties {m : String} : ∀ properties : List (String × Schema),
    m ∈ propertyReferences properties → ∃ k p, (k, p) ∈ properties ∧ p.Mentions m
  | [], h => nomatch h
  | (k, p) :: rest, h => by
    rcases List.mem_append.1 h with h | h
    · exact ⟨k, p, List.mem_cons_self, mentions_of_mem p h⟩
    · obtain ⟨k', p', hp, hm⟩ := mentions_of_mem_properties rest h
      exact ⟨k', p', List.mem_cons_of_mem _ hp, hm⟩

end

theorem Schema.mem_references_iff_mentions {s : Schema} {m : String} :
    m ∈ s.references ↔ s.Mentions m := by
  refine ⟨mentions_of_mem s, fun h => ?_⟩
  induction h with
  | reference hr => exact mem_references.2 (.inl ⟨_, hr, rfl⟩)
  | items hi _ ih => exact mem_references.2 (.inr (.inl ⟨_, hi, ih⟩))
  | property hp _ ih => exact references_of_property hp ih

/-! ## What is reached -/

/-- An operation has a payload that `Mentions` the name. -/
def Requests (doc : Document) (m : String) : Prop :=
  ∃ path method op s, doc.operation? path method = some op ∧ s ∈ op.payloads ∧ s.Mentions m

/-- One definition leads to another as a parent, or by what its own schema `Mentions`. -/
def LeadsTo (doc : Document) (a b : String) : Prop :=
  doc.Inherits a b ∨ ∃ s, doc.ownOf a = some s ∧ s.Mentions b

theorem mem_pathReferences_iff {m : String} : m ∈ doc.pathReferences ↔ doc.Requests m := by
  unfold pathReferences
  rw [List.mem_flatMap]
  constructor
  · rintro ⟨⟨path, method, op⟩, hop, hm⟩
    obtain ⟨s, hs, hm⟩ := List.mem_flatMap.1 hm
    exact ⟨path, method, op, s, mem_operations_iff.1 hop, hs,
      Schema.mem_references_iff_mentions.1 hm⟩
  · rintro ⟨path, method, op, s, hop, hs, hm⟩
    exact ⟨(path, method, op), mem_operations_iff.2 hop,
      List.mem_flatMap.2 ⟨s, hs, Schema.mem_references_iff_mentions.2 hm⟩⟩

theorem leads_successors : Search.Leads doc.successors = doc.LeadsTo := by
  funext a b
  refine propext (mem_successors_iff.trans ?_)
  simp only [LeadsTo, Schema.mem_references_iff_mentions]

/-! ## Sweeps -/

/-- One sweep: there are `unused` definitions, and they are taken out. -/
def Sweep (doc doc' : Document) : Prop := doc.unused ≠ [] ∧ doc' = doc.without doc.unused

/-- To `Sweep` again and again ends after the first time, with `removeUnused`, or does not begin. -/
theorem sweeps_iff {doc' : Document} :
    ReflTransGen Sweep doc doc' ↔ doc' = doc ∨ doc' = doc.removeUnused := by
  have hlast : doc.removeUnused.unused = [] := unused_eq_nil_iff.2 (allLive_removeUnused doc)
  constructor
  · intro h
    induction h with
    | refl => exact .inl rfl
    | tail _ hsweep ih =>
      obtain ⟨hne, rfl⟩ := hsweep
      rcases ih with rfl | rfl
      · exact .inr rfl
      · exact absurd hlast hne
  · rintro (rfl | rfl)
    · exact .refl
    · by_cases hunused : doc.unused = []
      · rw [(unused_eq_nil_iff.1 hunused).removeUnused]
      · exact .single ⟨hunused, rfl⟩

/-- `removeUnused` on every document. The `live` names are those that operations lead to, by
`Requests` and `LeadsTo`; exactly their definitions are kept, each as it is, with all the rest of
the document; and each `Sweep` is the only one. -/
theorem removeUnused_keeps (doc : Document) :
    (∀ n, n ∈ doc.live ↔ ∃ root, doc.Requests root ∧ ReflTransGen doc.LeadsTo root n) ∧
    (∀ n d, doc.removeUnused.definitions.find? n = some d ↔
      doc.definitions.find? n = some d ∧
        ∃ root, doc.Requests root ∧ ReflTransGen doc.LeadsTo root n) ∧
    doc.removeUnused = { doc with definitions := doc.removeUnused.definitions } ∧
    (∀ doc', ReflTransGen Sweep doc doc' ↔ doc' = doc ∨ doc' = doc.removeUnused) ∧
    doc.removeUnused.unused = [] := by
  have hlive : ∀ n, n ∈ doc.live ↔ ∃ root, doc.Requests root ∧ ReflTransGen doc.LeadsTo root n := by
    intro n
    rw [mem_live_iff, leads_successors]
    simp only [mem_pathReferences_iff]
  refine ⟨hlive, fun n d => ?_, rfl, fun doc' => sweeps_iff,
    unused_eq_nil_iff.2 (allLive_removeUnused doc)⟩
  rw [find?_removeUnused, ← hlive]
  split <;> simp_all

end RestSpec.Document
