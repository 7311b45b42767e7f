/-
Any list of passes keeps a well-formed document well formed, and leaves all operations where they
are with the parameters in their paths.
-/
import Mathlib.Tactic
import RestSpec.Pass.Pipeline
import RestSpec.Proofs.Pass.Inheritance
import RestSpec.Proofs.Pass.Merge
import RestSpec.Proofs.Pass.Payload

namespace RestSpec.Document

open Relation (TransGen)

theorem run_wellFormed {doc : Document} (h : doc.WellFormed) (asked : Option Security)
    (pass : Pass) : (Pass.run asked doc pass).WellFormed := by
  cases pass with
  | removeUnused => exact removeUnused_wellFormed h
  | collapseDuplicates => exact (collapseDuplicates_carries h).1
  | singleParent => exact singleParent_wellFormed h
  | replaceEmpty => exact (replaceEmpty_carries h).1
  | wrapPayload => exact wrapPayloads_wellFormed h
  | sortModels => exact sortParents_wellFormed h
  | security => exact requireSecurity_wellFormed h _

/-- `runAll` with any list of passes keeps a document `WellFormed`. -/
theorem runAll_wellFormed {doc : Document} (h : doc.WellFormed) (asked : Option Security)
    (passes : List Pass) : (Pass.runAll asked passes doc).WellFormed := by
  unfold Pass.runAll
  induction passes generalizing doc with
  | nil => exact h
  | cons pass passes ih => exact ih (run_wellFormed h asked pass)

/-! ## Operations stay where they are -/

/-- A document with the operations of another, each under its path and method, but rewritten by some
`f`. -/
def Reworks (doc doc' : Document) : Prop :=
  ∃ f : String → Operation → Operation, ∀ path m,
    doc'.operation? path m = (doc.operation? path m).map (f path)

/-- A document that `Reworks` another with the same `pathParameterNames` in each operation. -/
def Retains (doc doc' : Document) : Prop :=
  ∃ f : String → Operation → Operation,
    (∀ path op, (f path op).pathParameterNames = op.pathParameterNames) ∧
    ∀ path m, doc'.operation? path m = (doc.operation? path m).map (f path)

theorem Retains.reworks {doc doc' : Document} (h : doc.Retains doc') : doc.Reworks doc' :=
  h.imp fun _ hf => hf.2

theorem Retains.refl (doc : Document) : doc.Retains doc :=
  ⟨fun _ op => op, fun _ _ => rfl, fun _ _ => Option.map_id'.symm⟩

theorem Retains.trans {doc doc' doc'' : Document} (h : doc.Retains doc')
    (h' : doc'.Retains doc'') : doc.Retains doc'' := by
  obtain ⟨f, hnames, hf⟩ := h
  obtain ⟨g, hnames', hg⟩ := h'
  refine ⟨fun path op => g path (f path op), fun path op => ?_, fun path m => ?_⟩
  · rw [hnames', hnames]
  · rw [hg, hf, Option.map_map]
    rfl

theorem Retains.of_paths {doc doc' : Document} {f : String → Operation → Operation}
    (hnames : ∀ path op, (f path op).pathParameterNames = op.pathParameterNames)
    (h : doc'.paths = doc.paths.map fun path item => item.map (f path)) : doc.Retains doc' := by
  refine ⟨f, hnames, fun path m => ?_⟩
  unfold operation?
  rw [h, Table.find?_map]
  cases doc.paths.find? path with
  | none => rfl
  | some item => exact PathItem.find?_map (f path) item m

theorem Retains.of_same_paths {doc doc' : Document} (h : doc'.paths = doc.paths) :
    doc.Retains doc' :=
  ⟨fun _ op => op, fun _ _ => rfl, fun path m => by unfold operation?; rw [h, Option.map_id']⟩

theorem substituteAll_retains (choose : Document → Renaming) (doc : Document) :
    doc.Retains (doc.substituteAll choose) := by
  unfold substituteAll
  generalize doc.definitions.entries.length = rounds
  induction rounds generalizing doc with
  | zero => exact .refl doc
  | succ rounds ih =>
    unfold substituteRepeatedly
    dsimp only
    split
    · exact .refl doc
    · rename_i hne
      refine .trans (.of_paths (fun _ op => ?_) (paths_substitute (by simpa using hne))) (ih _)
      exact op.pathParameterNames_rename _

theorem singleParent_retains (doc : Document) : doc.Retains doc.singleParent := by
  refine .of_same_paths ?_
  unfold singleParent
  generalize doc.definitions.names = names
  induction names generalizing doc with
  | nil => rfl
  | cons n names ih =>
    rw [List.foldl_cons, ih]
    unfold flattenAt
    split
    · split <;> rfl
    · rfl

theorem run_retains (asked : Option Security) (doc : Document) (pass : Pass) :
    doc.Retains (Pass.run asked doc pass) := by
  cases pass with
  | removeUnused => exact .of_same_paths rfl
  | collapseDuplicates => exact substituteAll_retains duplicates doc
  | singleParent => exact singleParent_retains doc
  | replaceEmpty => exact substituteAll_retains emptyCompositions doc
  | wrapPayload =>
    exact .of_paths
      (f := fun path => Operation.wrap (payloadKeys path).1 (payloadKeys path).2)
      (fun _ op => op.pathParameterNames_wrap _ _) rfl
  | sortModels => exact .of_same_paths rfl
  | security =>
    exact .of_paths (f := fun _ => Operation.secure (asked.getD .basic).definitionName)
      (fun _ op => op.pathParameterNames_secure _) rfl

/-- `runAll` with any list of passes adds, removes or moves no operation, and leaves its path
parameters as they are. -/
theorem runAll_retains (asked : Option Security) (passes : List Pass) (doc : Document) :
    doc.Retains (Pass.runAll asked passes doc) := by
  unfold Pass.runAll
  induction passes generalizing doc with
  | nil => exact .refl doc
  | cons pass passes ih => exact (run_retains asked doc pass).trans (ih _)

theorem runAll_reworks (asked : Option Security) (passes : List Pass) (doc : Document) :
    doc.Reworks (Pass.runAll asked passes doc) :=
  (runAll_retains asked passes doc).reworks

/-! ## Documents to look at -/

/-- An operation that answers with a schema. -/
def Operation.answering (schema : Schema) : Operation where
  responses := Table.ofList [("200", { description := "", schema := some schema })]

/-- Where no parent has `parentsOf` itself, the document is `Acyclic`. -/
theorem acyclic_of_shallow {doc : Document}
    (h : ∀ e ∈ doc.definitions.entries, ∀ b ∈ e.2.parents, doc.parentsOf b = []) : doc.Acyclic := by
  intro n hn
  obtain ⟨a, -, hlast⟩ := TransGen.tail'_iff.1 hn
  obtain ⟨b, hfirst, -⟩ := TransGen.head'_iff.1 hn
  obtain ⟨d, hd, hmem⟩ := inherits_iff.1 hlast
  unfold Inherits at hfirst
  rw [h _ (Table.mem_entries_iff.2 hd) n hmem] at hfirst
  cases hfirst

end RestSpec.Document
