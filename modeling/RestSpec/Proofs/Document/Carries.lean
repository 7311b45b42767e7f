/-
What a rewritten document has in common with the one that it was made of. `Carries` says that it
means the same up to new names for the definitions: the operations are the old ones with the new
names, and each definition that is left has under its new name properties of the same names, with
schemas that the old one had. Which definitions are left for sure depends on the references of
properties that count. Rewriting in two steps carries if both steps do.
-/
import RestSpec.Proofs.Document.Effective

namespace RestSpec.Document

variable {doc doc' doc'' : Document} {r : Renaming}
  {counts counts' counts'' : String → String → String → Prop}

/-! ## What operations reach -/

/-- The definitions that operations reach through payloads and through those references of effective
properties that count: `counts n k m` if the reference from the property `k` of `n` to `m` does. -/
inductive Reached (counts : String → String → String → Prop) (doc : Document) : String → Prop
  | payload {n : String} : n ∈ doc.pathReferences → Reached counts doc n
  | property {n k m : String} : Reached counts doc n → counts n k m → Reached counts doc m

theorem Reached.mono (hsub : ∀ n k m, counts n k m → counts' n k m) {n : String}
    (h : Reached counts doc n) : Reached counts' doc n := by
  induction h with
  | payload hn => exact .payload hn
  | property _ hcounts ih => exact .property ih (hsub _ _ _ hcounts)

/-- In a document that is `Closed` all definitions that are `Reached` are there. -/
theorem Reached.defined (hc : doc.Closed) {n : String} (h : Reached doc.Mentioned doc n) :
    doc.definitions.contains n = true := by
  cases h with
  | payload hn => exact hc.operations n hn
  | property _ hmentioned =>
    obtain ⟨p, hp, hm⟩ := hmentioned
    obtain ⟨a, s, -, hs, hk⟩ := hp.source
    exact hc.contains_of_own hs (Schema.references_of_property hk hm)

/-! ## The same meaning up to names -/

/-- The definition `n` has under its new name the `Effective` property names that it had, with
schemas that are renamed schemas of the same name. -/
structure SameProperties (doc doc' : Document) (r : Renaming) (n : String) : Prop where
  names : ∀ k, (∃ p, Effective doc' (r.apply n) k p) ↔ ∃ p, Effective doc n k p
  schemas : ∀ k p', Effective doc' (r.apply n) k p' → ∃ p, Effective doc n k p ∧ p' = p.rename r

/-- The second document has the operations of the first under the new names, and each definition
that is `Reached` in the first is defined in the second with the `SameProperties`. -/
structure Preserves (counts : String → String → String → Prop) (doc doc' : Document)
    (r : Renaming) : Prop where
  operations : doc'.paths = doc.paths.mapValues (PathItem.map (Operation.rename r))
  reached : ∀ n, Reached counts doc n →
    doc'.definitions.contains (r.apply n) = true ∧ SameProperties doc doc' r n

/-- The step form of `Preserves`: all that is left has the `SameProperties`, be it reached or not, and
goes on to share what it has `Shared`; what counts before the step counts by `counts'` after it. -/
structure Carries (counts counts' : String → String → String → Prop) (doc doc' : Document)
    (r : Renaming) : Prop where
  operations : doc'.paths = doc.paths.mapValues (PathItem.map (Operation.rename r))
  defined : ∀ n, Reached counts doc n → doc'.definitions.contains (r.apply n) = true
  comes : ∀ n, doc'.definitions.contains (r.apply n) = true → doc.definitions.contains n = true
  properties : ∀ n, doc'.definitions.contains (r.apply n) = true → SameProperties doc doc' r n
  counts : ∀ n, doc'.definitions.contains (r.apply n) = true → ∀ k m,
    counts n k m → counts' (r.apply n) k (r.apply m)
  shared : ∀ n, doc'.definitions.contains (r.apply n) = true → ∀ k m,
    doc.Shared n k m → doc'.Shared (r.apply n) k (r.apply m)

theorem pathReferences_of_paths
    (h : doc'.paths = doc.paths.mapValues (PathItem.map (Operation.rename r))) :
    doc'.pathReferences = doc.pathReferences.map r.apply := by
  rw [← pathReferences_mapOperations_rename]
  unfold pathReferences Document.operations mapOperations
  rw [h]

theorem paths_rename_andThen (paths : Table PathItem) (first second : Renaming) :
    paths.mapValues (PathItem.map (Operation.rename (first.andThen second))) =
      (paths.mapValues (PathItem.map (Operation.rename first))).mapValues
        (PathItem.map (Operation.rename second)) := by
  have h : Operation.rename (first.andThen second) =
      Operation.rename second ∘ Operation.rename first :=
    funext (Operation.rename_andThen first second)
  apply Table.ext
  simp [Table.mapValues, Table.map, PathItem.map, h]

theorem paths_rename_empty (paths : Table PathItem) :
    paths.mapValues (PathItem.map (Operation.rename ∅)) = paths := by
  have h : Operation.rename ∅ = id := funext Operation.rename_empty
  apply Table.ext
  simp [Table.mapValues, Table.map, PathItem.map, h]

theorem Carries.preserves (h : Carries counts counts' doc doc' r) : Preserves counts doc doc' r where
  operations := h.operations
  reached n hn := ⟨h.defined n hn, h.properties n (h.defined n hn)⟩

/-- What is `Reached` stays so under its new name, if the rewriting `Carries` the references that
count. -/
theorem Carries.reached (h : Carries counts counts' doc doc' r) {n : String}
    (hn : Reached counts doc n) : Reached counts' doc' (r.apply n) := by
  induction hn with
  | payload hn =>
    refine .payload ?_
    rw [pathReferences_of_paths h.operations]
    exact List.mem_map.2 ⟨_, hn, rfl⟩
  | property hn hcounts ih => exact .property ih (h.counts _ (h.defined _ hn) _ _ hcounts)

/-- What keeps the `SameProperties` in two rewritings keeps them in one after the other. -/
theorem SameProperties.trans {first second : Renaming} {n : String}
    (h : SameProperties doc doc' first n)
    (h' : SameProperties doc' doc'' second (first.apply n)) :
    SameProperties doc doc'' (first.andThen second) n := by
  refine ⟨fun k => ?_, fun k p'' hp => ?_⟩
  · rw [Renaming.apply_andThen, h'.names, h.names]
  · rw [Renaming.apply_andThen] at hp
    obtain ⟨p', hp', rfl⟩ := h'.schemas k p'' hp
    obtain ⟨p, hfirst, rfl⟩ := h.schemas k p' hp'
    exact ⟨p, hfirst, (Schema.rename_andThen first second p).symm⟩

/-- Two rewritings one after the other carry under `andThen` of their renamings. -/
theorem Carries.trans {first second : Renaming} (h : Carries counts counts' doc doc' first)
    (h' : Carries counts' counts'' doc' doc'' second) :
    Carries counts counts'' doc doc'' (first.andThen second) := by
  refine ⟨?_, fun n hn => ?_, fun n hn => ?_, fun n hn => ?_, fun n hn k m hcounts => ?_,
    fun n hn k m hshared => ?_⟩
  · rw [h'.operations, h.operations, paths_rename_andThen]
  · rw [Renaming.apply_andThen]
    exact h'.defined _ (h.reached hn)
  · rw [Renaming.apply_andThen] at hn
    exact h.comes n (h'.comes _ hn)
  · rw [Renaming.apply_andThen] at hn
    exact (h.properties n (h'.comes _ hn)).trans (h'.properties _ hn)
  · rw [Renaming.apply_andThen] at hn
    rw [Renaming.apply_andThen, Renaming.apply_andThen]
    exact h'.counts _ hn k _ (h.counts n (h'.comes _ hn) k m hcounts)
  · rw [Renaming.apply_andThen] at hn
    rw [Renaming.apply_andThen, Renaming.apply_andThen]
    exact h'.shared _ hn k _ (h.shared n (h'.comes _ hn) k m hshared)

theorem Carries.refl (hc : doc.Closed) : Carries doc.Mentioned doc.Mentioned doc doc ∅ := by
  refine ⟨(paths_rename_empty doc.paths).symm, fun n hn => hn.defined hc, fun n hn => hn,
    fun n _ => ⟨fun k => Iff.rfl, fun k p hp => ⟨p, hp, (Schema.rename_empty p).symm⟩⟩,
    fun n _ k m hcounts => ?_, fun n _ k m hshared => ?_⟩
  · rw [Renaming.apply_empty, Renaming.apply_empty]
    exact hcounts
  · rw [Renaming.apply_empty, Renaming.apply_empty]
    exact hshared

/-- A step that `Carries` some references carries fewer, if those that are left before it count
after it as well. -/
theorem Carries.narrow {less less' : String → String → String → Prop}
    (h : Carries counts counts' doc doc' r) (hsub : ∀ n k m, less n k m → counts n k m)
    (hstep : ∀ n k m, less n k m → less' (r.apply n) k (r.apply m)) :
    Carries less less' doc doc' r :=
  { h with
    defined := fun n hn => h.defined n (hn.mono hsub)
    counts := fun n _ k m hcounts => hstep n k m hcounts }

end RestSpec.Document
