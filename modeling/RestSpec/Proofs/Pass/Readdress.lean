/-
Documents with the same operations under other paths. A pass reads the operations and, for the key
of a payload, their paths; so where both paths of an operation give the same keys, passes leave the
documents the same but for the paths, and one of them is closed if the other one is.
-/
import Mathlib.Data.Set.Function
import RestSpec.Proofs.Pass.Pipeline

namespace RestSpec.Document

/-! ## Other paths -/

/-- The document with other `paths` in the place of its own. -/
def withPaths (doc : Document) (paths : Table PathItem) : Document := { doc with paths := paths }

/-- Two documents are the same but for their paths, which are paths in `S` and what `f` makes of
them. -/
structure Readdressed (S : Set String) (f : String → String) (doc doc' : Document) : Prop where
  rest : doc = doc'.withPaths doc.paths
  within : ∀ path, doc.paths.contains path = true → path ∈ S
  onto : ∀ path', doc'.paths.contains path' = true → ∃ path ∈ S, f path = path'
  items : ∀ path ∈ S, doc'.paths.find? (f path) = doc.paths.find? path

section Readdressed

variable {S : Set String} {f : String → String} {doc doc' : Document}

theorem Readdressed.contains (h : Readdressed S f doc doc') {path : String} (hpath : path ∈ S) :
    doc'.paths.contains (f path) = doc.paths.contains path := by
  unfold Table.contains
  rw [h.items path hpath]

/-- Where `f` tells the paths of `S` apart, each path of one document has its own in the other. -/
theorem Readdressed.bijOn (h : Readdressed S f doc doc') (hf : S.InjOn f) :
    Set.BijOn f {path | doc.paths.contains path = true}
      {path | doc'.paths.contains path = true} := by
  refine ⟨fun path hpath => ?_, fun path hpath path' hpath' heq => ?_, fun path' hpath' => ?_⟩
  · exact (h.contains (h.within path hpath)).trans hpath
  · exact hf (h.within path hpath) (h.within path' hpath') heq
  · obtain ⟨path, hpath, rfl⟩ := h.onto path' hpath'
    exact ⟨path, (h.contains hpath).symm.trans hpath', rfl⟩

theorem Readdressed.definitions (h : Readdressed S f doc doc') :
    doc.definitions = doc'.definitions := by
  rw [h.rest]
  rfl

theorem readdressed_of_empty (hpaths : doc.paths = ∅) : Readdressed S f doc doc := by
  refine ⟨rfl, fun path hpath => ?_, fun path hpath => ?_, fun path _ => ?_⟩
  · rw [hpaths] at hpath
    cases hpath
  · rw [hpaths] at hpath
    cases hpath
  · rw [hpaths]
    rfl

theorem Readdressed.addOperation (h : Readdressed S f doc doc') (hf : S.InjOn f) {path : String}
    (hpath : path ∈ S) (m : Method) (op : Operation) :
    Readdressed S f (doc.addOperation path m op) (doc'.addOperation (f path) m op) := by
  refine ⟨?_, fun path' hpath' => ?_, fun path' hpath' => ?_, fun path' hpath' => ?_⟩
  · conv_lhs => rw [h.rest]
    unfold Document.addOperation withPaths
    rfl
  · rcases Table.contains_insert.1 hpath' with rfl | hpath'
    · exact hpath
    · exact h.within path' hpath'
  · rcases Table.contains_insert.1 hpath' with rfl | hpath'
    · exact ⟨path, hpath, rfl⟩
    · exact h.onto path' hpath'
  · unfold Document.addOperation
    dsimp only
    rw [Table.find?_insert, Table.find?_insert, h.items path hpath, h.items path' hpath']
    simp only [hf.eq_iff hpath hpath']

theorem Readdressed.mem_pathReferences (h : Readdressed S f doc doc') {n : String} :
    n ∈ doc.pathReferences ↔ n ∈ doc'.pathReferences := by
  have hmem : ∀ doc : Document, n ∈ doc.pathReferences ↔
      ∃ path item, doc.paths.find? path = some item ∧ ∃ m op, item.find? m = some op ∧
        n ∈ op.references := by
    intro doc
    simp only [pathReferences, List.mem_flatMap, Prod.exists, mem_operations_iff, operation?,
      Option.bind_eq_some_iff]
    grind
  rw [hmem, hmem]
  constructor
  · rintro ⟨path, item, hitem, hn⟩
    exact ⟨f path, item,
      by rw [h.items path (h.within path (Table.contains_of_find? hitem)), hitem],
      hn⟩
  · rintro ⟨path', item, hitem, hn⟩
    obtain ⟨path, hpath, rfl⟩ := h.onto path' (Table.contains_of_find? hitem)
    exact ⟨path, item, by rw [← h.items path hpath, hitem], hn⟩

/-- Of two documents that are the same but for their paths, one is `Closed` if the other one is. -/
theorem Readdressed.dangling?_eq_none_iff (h : Readdressed S f doc doc') :
    doc.dangling? = none ↔ doc'.dangling? = none := by
  have hclosed : ∀ doc : Document, doc.Closed ↔
      (∀ n d, doc.definitions.find? n = some d → ∀ m ∈ d.references.map (·.2),
        doc.definitions.contains m = true) ∧
      ∀ m ∈ doc.pathReferences, doc.definitions.contains m = true :=
    fun doc => ⟨fun h => ⟨h.definitions, h.operations⟩, fun h => ⟨h.1, h.2⟩⟩
  rw [Document.dangling?_eq_none_iff, Document.dangling?_eq_none_iff, hclosed, hclosed,
    h.definitions]
  simp only [h.mem_pathReferences]

end Readdressed

/-! ## Passes -/

/-- A pass does the same to all but the paths, whatever these are; what it does to operations
depends on nothing but the paths, and not on whether `f` has been there. -/
def Uniform (S : Set String) (f : String → String) (pass : Document → Document) : Prop :=
  ∀ doc : Document, ∃ (base : Document) (g : String → Operation → Operation),
    (∀ path ∈ S, g (f path) = g path) ∧ ∀ paths, pass (doc.withPaths paths) =
      base.withPaths (paths.map fun path item => item.map (g path))

section Passes

variable {S : Set String} {f : String → String} {doc doc' : Document}
  {pass pass' : Document → Document}

theorem Readdressed.uniform (h : Readdressed S f doc doc') (hpass : Uniform S f pass) :
    Readdressed S f (pass doc) (pass doc') := by
  obtain ⟨base, g, hg, hbase⟩ := hpass doc'
  rw [h.rest, hbase, show pass doc' = pass (doc'.withPaths doc'.paths) from rfl, hbase]
  have hcontains : ∀ (paths : Table PathItem) path,
      (paths.map fun path item => item.map (g path)).contains path = paths.contains path := by
    intro paths path
    unfold Table.contains
    rw [Table.find?_map, Option.isSome_map]
  refine ⟨rfl, fun path hpath => ?_, fun path' hpath' => ?_, fun path hpath => ?_⟩
  · exact h.within path ((hcontains _ _).symm.trans hpath)
  · exact h.onto path' ((hcontains _ _).symm.trans hpath')
  · show Table.find? (doc'.paths.map _) _ = Table.find? (doc.paths.map _) _
    rw [Table.find?_map, Table.find?_map, h.items path hpath, hg path hpath]

theorem PathItem.map_id (item : PathItem) : item.map (fun op => op) = item := by
  simp [PathItem.map]

theorem uniform_of_same (h : ∀ (doc : Document) paths,
    pass (doc.withPaths paths) = (pass doc).withPaths paths) : Uniform S f pass := by
  refine fun doc => ⟨pass doc, fun _ op => op, fun _ _ => rfl, fun paths => ?_⟩
  have hpaths : (paths.map fun _ item => item.map fun op => op) = paths := by
    apply Table.ext
    simp [Table.map, PathItem.map_id]
  rw [h, hpaths]

theorem uniform_same : Uniform S f fun doc => doc := uniform_of_same fun _ _ => rfl

theorem Uniform.comp (h : Uniform S f pass) (h' : Uniform S f pass') :
    Uniform S f fun doc => pass' (pass doc) := by
  intro doc
  obtain ⟨base, g, hg, hbase⟩ := h doc
  obtain ⟨base', g', hg', hbase'⟩ := h' base
  refine ⟨base', fun path op => g' path (g path op), fun path hpath => ?_, fun paths => ?_⟩
  · dsimp only
    rw [hg path hpath, hg' path hpath]
  · dsimp only
    rw [hbase, hbase']
    refine congrArg _ (Table.ext ?_)
    simp [Table.map, PathItem.map, Function.comp_def]

theorem uniform_substitute (newNames : Renaming) : Uniform S f (substitute newNames) := by
  intro doc
  cases hne : newNames.isEmpty with
  | true =>
    have hwithout : substitute newNames = without newNames.names := by
      funext doc
      unfold substitute rename
      rw [if_pos hne]
    rw [hwithout]
    exact uniform_of_same (fun _ _ => rfl) doc
  | false =>
    refine ⟨substitute newNames doc, fun _ => Operation.rename newNames, fun _ _ => rfl,
      fun paths => ?_⟩
    unfold substitute rename
    rw [hne]
    rfl

/-- `substituteAll` treats such documents alike if what it chooses does not depend on the
`paths`. -/
theorem uniform_substituteAll {choose : Document → Renaming}
    (h : ∀ (doc : Document) paths, choose (doc.withPaths paths) = choose doc) :
    Uniform S f (substituteAll choose) := by
  have hrounds : ∀ rounds, Uniform S f (substituteRepeatedly choose rounds) := by
    intro rounds
    induction rounds with
    | zero => exact uniform_of_same fun _ _ => rfl
    | succ rounds ih =>
      intro doc
      unfold substituteRepeatedly
      dsimp only
      simp only [h]
      cases (choose doc).isEmpty with
      | true => exact uniform_same doc
      | false => exact (uniform_substitute (choose doc)).comp ih doc
  exact fun doc => hrounds doc.definitions.entries.length doc

theorem uniform_singleParent : Uniform S f singleParent := by
  have hflatten : ∀ (doc : Document) paths name,
      flattenAt (doc.withPaths paths) name = (flattenAt doc name).withPaths paths := by
    intro doc paths name
    have hfind : (doc.withPaths paths).definitions.find? name = doc.definitions.find? name := rfl
    unfold flattenAt
    rw [hfind]
    cases doc.definitions.find? name with
    | none => rfl
    | some d =>
      cases d with
      | simple s => rfl
      | composed c =>
        dsimp only
        split <;> rfl
  refine uniform_of_same fun doc paths => ?_
  unfold singleParent
  show doc.definitions.names.foldl flattenAt _ = _
  generalize doc.definitions.names = names
  induction names generalizing doc with
  | nil => rfl
  | cons name names ih => rw [List.foldl_cons, List.foldl_cons, hflatten, ih]

/-- `removeUnused` treats such documents alike: what is `live` depends on the operations and not on
where they stand. -/
theorem Readdressed.removeUnused (h : Readdressed S f doc doc') :
    Readdressed S f doc.removeUnused doc'.removeUnused := by
  have hroots : doc.roots = doc'.roots := nameSet_ext fun _ => h.mem_pathReferences
  have hunused : doc.unused = doc'.unused := by
    unfold unused live
    rw [hroots, h.rest]
    rfl
  refine ⟨?_, h.within, h.onto, h.items⟩
  unfold Document.removeUnused
  rw [hunused]
  conv_lhs => rw [h.rest]
  rfl

theorem Readdressed.run (h : Readdressed S f doc doc')
    (hkeys : ∀ path ∈ S, payloadKeys (f path) = payloadKeys path) (asked : Option Security)
    (pass : Pass) : Readdressed S f (Pass.run asked doc pass) (Pass.run asked doc' pass) := by
  cases pass with
  | removeUnused => exact h.removeUnused
  | collapseDuplicates => exact h.uniform (uniform_substituteAll fun _ _ => rfl)
  | singleParent => exact h.uniform uniform_singleParent
  | replaceEmpty => exact h.uniform (uniform_substituteAll fun _ _ => rfl)
  | wrapPayload =>
    have hpass : Uniform S f wrapPayloads := fun doc => ⟨doc, fun path =>
      Operation.wrap (payloadKeys path).1 (payloadKeys path).2,
      fun path hpath => by dsimp only; rw [hkeys path hpath], fun _ => rfl⟩
    exact h.uniform hpass
  | sortModels =>
    have hpass : Uniform S f sortParents := uniform_of_same fun _ _ => rfl
    exact h.uniform hpass
  | security =>
    have hpass : Uniform S f (requireSecurity (asked.getD .basic)) := fun doc =>
      ⟨doc.requireSecurity (asked.getD .basic), fun _ =>
        Operation.secure (asked.getD .basic).definitionName, fun _ _ => rfl, fun _ => rfl⟩
    exact h.uniform hpass

/-- `runAll` keeps documents the same but for their paths, if `wrapPayload` finds the same
`payloadKeys` at both. -/
theorem Readdressed.runAll (h : Readdressed S f doc doc')
    (hkeys : ∀ path ∈ S, payloadKeys (f path) = payloadKeys path) (asked : Option Security)
    (passes : List Pass) :
    Readdressed S f (Pass.runAll asked passes doc) (Pass.runAll asked passes doc') := by
  unfold Pass.runAll
  induction passes generalizing doc doc' with
  | nil => exact h
  | cons pass passes ih => exact ih (h.run hkeys asked pass)

end Passes

end RestSpec.Document
