/-
References and their renaming. Renaming a schema, a definition or an operation replaces each name
that it refers to and leaves the order as it is; renaming twice is renaming once by `andThen`. A
document is closed when all that it refers to is defined, which is what its check looks for.
-/
import RestSpec.Document.Basic
import RestSpec.Proofs.Table

namespace RestSpec.Document

/-! ## Names in references -/

@[simp]
theorem referenceTarget_definitionReference (name : String) :
    referenceTarget (definitionReference name) = name := by
  have h : (definitionReference name).toList = definitionsPath.toList ++ name.toList := by
    simp [definitionReference]
  unfold referenceTarget
  rw [h, if_pos (List.isPrefixOf_iff_prefix.2 (List.prefix_append _ _)),
    show definitionsPath.length = definitionsPath.toList.length from rfl, List.drop_left]
  exact String.ofList_toList

namespace Renaming

/-- First one `Renaming`, then the other. -/
def andThen (first second : Renaming) : Renaming :=
  Table.ofList (second.entries ++ (first.mapValues second.apply).entries)

theorem find?_andThen (first second : Renaming) (n : String) :
    (first.andThen second).find? n =
      ((first.find? n).map second.apply).or (second.find? n) := by
  rw [andThen, Table.find?_ofList_append, Table.find?_ofList_entries, Table.find?_ofList_entries,
    Table.find?_mapValues]

theorem apply_of_find? {r : Renaming} {n m : String} (h : r.find? n = some m) : r.apply n = m := by
  rw [apply, h]; rfl

theorem apply_of_none {r : Renaming} {n : String} (h : r.find? n = none) : r.apply n = n := by
  rw [apply, h]; rfl

@[simp]
theorem apply_empty (n : String) : Renaming.apply ∅ n = n := rfl

@[simp]
theorem apply_andThen (first second : Renaming) (n : String) :
    (first.andThen second).apply n = second.apply (first.apply n) := by
  rw [apply, find?_andThen]
  cases h : first.find? n with
  | none => rw [apply_of_none h]; rfl
  | some m => rw [apply_of_find? h]; rfl

end Renaming

/-! ## Schemas -/

namespace Schema

@[simp]
theorem referenceTarget_renameReference (r : Renaming) (reference : String) :
    referenceTarget (renameReference r reference) = r.apply (referenceTarget reference) := by
  unfold renameReference Renaming.apply
  cases r.find? (referenceTarget reference) <;> simp

theorem renameReference_andThen (first second : Renaming) (reference : String) :
    renameReference (first.andThen second) reference =
      renameReference second (renameReference first reference) := by
  have h := Renaming.find?_andThen first second (referenceTarget reference)
  cases hf : first.find? (referenceTarget reference) with
  | none =>
    have hfirst : renameReference first reference = reference := by unfold renameReference; rw [hf]
    rw [hf] at h
    rw [hfirst]
    unfold renameReference
    rw [h]; rfl
  | some m =>
    have hfirst : renameReference first reference = definitionReference m := by
      unfold renameReference; rw [hf]
    have hsecond : (first.andThen second).find? (referenceTarget reference) =
        some (second.apply m) := by rw [h, hf]; rfl
    rw [hfirst]
    unfold renameReference
    rw [hsecond, referenceTarget_definitionReference]
    unfold Renaming.apply
    cases second.find? m <;> rfl

mutual

/-- The `references` of a renamed schema are the new names, in the same order. -/
theorem references_rename (r : Renaming) :
    ∀ s : Schema, (s.rename r).references = s.references.map r.apply
  | ⟨reference, _, _, _, _, _, _, _, items, properties, _, _⟩ => by
    simp only [rename, references, List.map_append]
    rw [itemReferences_rename r items, propertyReferences_rename r properties]
    cases reference <;> simp

theorem itemReferences_rename (r : Renaming) :
    ∀ s : Option Schema, itemReferences (renameItems r s) = (itemReferences s).map r.apply
  | none => rfl
  | some s => references_rename r s

theorem propertyReferences_rename (r : Renaming) : ∀ properties : List (String × Schema),
    propertyReferences (renameProperties r properties) =
      (propertyReferences properties).map r.apply
  | [] => rfl
  | (_, s) :: rest => by
    simp only [renameProperties, propertyReferences, List.map_append]
    rw [references_rename r s, propertyReferences_rename r rest]

end

theorem mem_references_rename {r : Renaming} {s : Schema} {m : String} (h : m ∈ s.references) :
    r.apply m ∈ (s.rename r).references := by
  rw [references_rename]
  exact List.mem_map_of_mem h

mutual

theorem rename_andThen (first second : Renaming) :
    ∀ s : Schema, s.rename (first.andThen second) = (s.rename first).rename second
  | ⟨reference, _, _, _, _, _, _, _, items, properties, _, _⟩ => by
    simp only [rename]
    rw [renameItems_andThen first second items, renameProperties_andThen first second properties]
    cases reference <;> simp [renameReference_andThen]

theorem renameItems_andThen (first second : Renaming) : ∀ s : Option Schema,
    renameItems (first.andThen second) s = renameItems second (renameItems first s)
  | none => rfl
  | some s => congrArg some (rename_andThen first second s)

theorem renameProperties_andThen (first second : Renaming) :
    ∀ properties : List (String × Schema),
      renameProperties (first.andThen second) properties =
        renameProperties second (renameProperties first properties)
  | [] => rfl
  | (name, s) :: rest => by
    simp only [renameProperties]
    rw [rename_andThen first second s, renameProperties_andThen first second rest]

end

mutual

/-- `Schema.rename` leaves a schema as it is if nothing that it refers to has a new name. -/
theorem rename_of_none (r : Renaming) :
    ∀ s : Schema, (∀ n ∈ s.references, r.find? n = none) → s.rename r = s
  | ⟨reference, _, _, _, _, _, _, _, items, properties, _, _⟩, h => by
    simp only [references, List.mem_append] at h
    simp only [rename]
    rw [renameItems_of_none r items fun n hn => h n (.inl (.inr hn)),
      renameProperties_of_none r properties fun n hn => h n (.inr hn)]
    cases reference with
    | none => rfl
    | some reference =>
      have hnone : r.find? (referenceTarget reference) = none := h _ (.inl (.inl (by simp)))
      simp only [Option.map_some, renameReference, hnone]

theorem renameItems_of_none (r : Renaming) : ∀ s : Option Schema,
    (∀ n ∈ itemReferences s, r.find? n = none) → renameItems r s = s
  | none, _ => rfl
  | some s, h => congrArg some (rename_of_none r s h)

theorem renameProperties_of_none (r : Renaming) : ∀ properties : List (String × Schema),
    (∀ n ∈ propertyReferences properties, r.find? n = none) →
      renameProperties r properties = properties
  | [], _ => rfl
  | (name, s) :: rest, h => by
    simp only [propertyReferences, List.mem_append] at h
    simp only [renameProperties]
    rw [rename_of_none r s fun n hn => h n (.inl hn),
      renameProperties_of_none r rest fun n hn => h n (.inr hn)]

end

theorem rename_empty (s : Schema) : s.rename ∅ = s := rename_of_none ∅ s fun _ _ => rfl

theorem renameProperties_eq_map (r : Renaming) (properties : List (String × Schema)) :
    renameProperties r properties = properties.map fun e => (e.1, e.2.rename r) := by
  induction properties with
  | nil => rfl
  | cons e rest ih => obtain ⟨k, s⟩ := e; simp only [renameProperties, List.map_cons, ih]

@[simp]
theorem properties_rename (r : Renaming) (s : Schema) :
    (s.rename r).properties = s.properties.map fun e => (e.1, e.2.rename r) := by
  cases s; simp only [rename]; exact renameProperties_eq_map r _

theorem mem_propertyReferences {properties : List (String × Schema)} {m : String} :
    m ∈ propertyReferences properties ↔ ∃ e ∈ properties, m ∈ e.2.references := by
  induction properties with
  | nil => simp [propertyReferences]
  | cons e rest ih =>
    obtain ⟨k, s⟩ := e
    simp [propertyReferences, ih]

/-- A schema refers to its `referenceTarget`, to what its `items` refer to and to what its
`properties` do. -/
theorem mem_references {s : Schema} {m : String} :
    m ∈ s.references ↔ (∃ r, s.reference = some r ∧ referenceTarget r = m) ∨
      (∃ i, s.items = some i ∧ m ∈ i.references) ∨ ∃ e ∈ s.properties, m ∈ e.2.references := by
  obtain ⟨reference, _, _, _, _, _, _, _, items, properties, _, _⟩ := s
  simp only [references, List.mem_append, mem_propertyReferences, or_assoc, Option.mem_toList,
    Option.map_eq_some_iff]
  cases items <;> simp [itemReferences]

/-- A schema refers to all that its `properties` refer to. -/
theorem references_of_property {s p : Schema} {k m : String} (hk : (k, p) ∈ s.properties)
    (hm : m ∈ p.references) : m ∈ s.references :=
  mem_references.2 (.inr (.inr ⟨_, hk, hm⟩))

@[simp]
theorem references_referenceTo (n : String) : (Schema.referenceTo n).references = [n] := by
  simp [referenceTo, references, itemReferences, propertyReferences]

@[simp]
theorem references_arrayOf (s : Schema) : (Schema.arrayOf s).references = s.references := by
  simp [arrayOf, references, itemReferences, propertyReferences]

theorem references_object (properties : List (String × Schema)) :
    (Schema.object properties).references = propertyReferences properties := by
  simp [object, references, itemReferences]

end Schema

/-! ## Definitions -/

/-- Adding names that are not there yet adds all of them. -/
theorem mem_foldl_distinct {names seen : List String} {n : String} :
    n ∈ names.foldl (fun seen n => if seen.contains n then seen else seen ++ [n]) seen ↔
      n ∈ seen ∨ n ∈ names := by
  induction names generalizing seen with
  | nil => simp
  | cons a names ih =>
    rw [List.foldl_cons, ih]
    split
    · rename_i ha
      have ha : a ∈ seen := List.contains_iff_mem.1 ha
      constructor
      · rintro (h | h)
        · exact .inl h
        · exact .inr (List.mem_cons_of_mem _ h)
      · rintro (h | h)
        · exact .inl h
        · rcases List.mem_cons.1 h with rfl | h
          · exact .inl ha
          · exact .inr h
    · simp [or_assoc]

theorem mem_distinct {names : List String} {n : String} : n ∈ distinct names ↔ n ∈ names :=
  mem_foldl_distinct.trans (by simp)

theorem foldl_distinct_eq (names seen : List String) :
    names.foldl (fun seen n => if seen.contains n then seen else seen ++ [n]) seen =
      seen ++ (names.filter fun n => !seen.contains n).eraseDups := by
  induction names generalizing seen with
  | nil => simp
  | cons a names ih =>
    rw [List.foldl_cons, ih]
    by_cases ha : seen.contains a = true
    · rw [if_pos ha, List.filter_cons_of_neg (by simpa using ha)]
    · have hfilter : (names.filter fun n => !(seen ++ [a]).contains n) =
          (names.filter fun n => !seen.contains n).filter fun n => !n == a := by
        rw [List.filter_filter]
        refine List.filter_congr fun n _ => ?_
        by_cases hn : n = a <;> simp [hn]
      -- what is seen from now on is what `eraseDups` takes out of the rest
      rw [if_neg ha, List.filter_cons_of_pos (by simpa using ha), List.eraseDups_cons, hfilter,
        List.append_assoc]
      rfl

theorem distinct_eq_eraseDups (names : List String) : distinct names = names.eraseDups := by
  have hkeep : (names.filter fun n => !([] : List String).contains n) = names := by simp
  exact (foldl_distinct_eq names []).trans (by rw [hkeep]; rfl)

namespace Definition

/-- A definition refers to its `parents` and to what its `own` attributes refer to. -/
theorem mem_references {d : Definition} {m : String} :
    m ∈ d.references.map (·.2) ↔ m ∈ d.parents ∨ ∃ s, d.own = some s ∧ m ∈ s.references := by
  cases d with
  | simple s => simp [references, parents, own, Function.comp_def]
  | composed c =>
    simp only [references, parents, own, List.map_append, List.map_map, List.mem_append,
      Function.comp_def, List.map_id']
    cases c.child <;> simp [Schema.itemReferences]

theorem own_rename (r : Renaming) (d : Definition) :
    (d.rename r).own = d.own.map (Schema.rename r) := by
  cases d <;> rfl

theorem mem_parents_rename {r : Renaming} {d : Definition} {m : String} :
    m ∈ (d.rename r).parents ↔ ∃ p ∈ d.parents, r.apply p = m := by
  cases d with
  | simple s => simp [rename, parents]
  | composed c => simp [rename, parents, mem_distinct]

theorem mem_references_rename {r : Renaming} {d : Definition} {m : String} :
    m ∈ (d.rename r).references.map (·.2) ↔ ∃ n ∈ d.references.map (·.2), r.apply n = m := by
  simp only [mem_references, mem_parents_rename, own_rename, Option.map_eq_some_iff]
  constructor
  · rintro (⟨p, hp, rfl⟩ | ⟨_, ⟨s, hs, rfl⟩, hm⟩)
    · exact ⟨p, .inl hp, rfl⟩
    · rw [Schema.references_rename] at hm
      obtain ⟨n, hn, rfl⟩ := List.mem_map.1 hm
      exact ⟨n, .inr ⟨s, hs, hn⟩, rfl⟩
  · rintro ⟨n, hp | ⟨s, hs, hn⟩, rfl⟩
    · exact .inl ⟨n, hp, rfl⟩
    · refine .inr ⟨_, ⟨s, hs, rfl⟩, ?_⟩
      rw [Schema.references_rename]
      exact List.mem_map.2 ⟨n, hn, rfl⟩

end Definition

/-! ## Operations -/

namespace Operation

theorem payloads_mapPayloads (f : Schema → Schema) (op : Operation) :
    (op.mapPayloads f).payloads = op.payloads.map f := by
  have h : ∀ {α : Type} (l : List α) (g : α → Option Schema),
      l.filterMap (fun a => (g a).map f) = (l.filterMap g).map f := by
    intro α l g
    rw [List.map_filterMap]
  simp only [payloads, mapPayloads, List.map_append, List.filterMap_map, Function.comp_def, h,
    Table.values, Table.mapValues, Table.map, List.map_map]

@[simp]
theorem references_rename (r : Renaming) (op : Operation) :
    (op.rename r).references = op.references.map r.apply := by
  simp only [references, rename, payloads_mapPayloads, List.flatMap_map, List.map_flatMap,
    Schema.references_rename]

theorem mapPayloads_mapPayloads (f g : Schema → Schema) (op : Operation) :
    (op.mapPayloads f).mapPayloads g = op.mapPayloads (g ∘ f) := by
  simp only [mapPayloads, List.map_map, Function.comp_def, Option.map_map,
    Table.mapValues_mapValues]

theorem rename_andThen (first second : Renaming) (op : Operation) :
    op.rename (first.andThen second) = (op.rename first).rename second := by
  simp only [rename, mapPayloads_mapPayloads]
  exact congrArg (op.mapPayloads ·) (funext (Schema.rename_andThen first second))

theorem rename_empty (op : Operation) : op.rename ∅ = op := by
  have h : Schema.rename ∅ = id := funext Schema.rename_empty
  have ht : ∀ t : Table Response, t.mapValues (fun r => r) = t := fun t => by
    apply Table.ext
    simp [Table.mapValues, Table.map]
  simp [rename, mapPayloads, h, ht]

end Operation

/-! ## Documents -/

/-- All references of a document, in its definitions and its operations, have a definition. -/
structure Closed (doc : Document) : Prop where
  definitions : ∀ n d, doc.definitions.find? n = some d → ∀ m ∈ d.references.map (·.2),
    doc.definitions.contains m = true
  operations : ∀ m ∈ doc.pathReferences, doc.definitions.contains m = true

theorem dangling?_eq_none_iff {doc : Document} : doc.dangling? = none ↔ doc.Closed := by
  unfold dangling? locatedReferences
  rw [List.find?_eq_none]
  constructor
  · intro h
    refine ⟨fun n d hd m hm => ?_, fun m hm => ?_⟩
    · obtain ⟨⟨kind, m⟩, he, rfl⟩ := List.mem_map.1 hm
      simpa using h ⟨m, n⟩ (List.mem_append_left _ (List.mem_flatMap.2
        ⟨(n, d), Table.mem_entries_iff.2 hd, List.mem_map.2 ⟨_, he, rfl⟩⟩))
    · obtain ⟨⟨path, method, op⟩, hop, hm⟩ := List.mem_flatMap.1 hm
      simpa using h ⟨m, method.name ++ " " ++ path⟩ (List.mem_append_right _ (List.mem_flatMap.2
        ⟨(path, method, op), hop, List.mem_map.2 ⟨_, hm, rfl⟩⟩))
  · intro h r hr
    rcases List.mem_append.1 hr with hr | hr
    · obtain ⟨⟨n, d⟩, hd, hr⟩ := List.mem_flatMap.1 hr
      obtain ⟨e, he, rfl⟩ := List.mem_map.1 hr
      simpa using h.definitions n d (Table.mem_entries_iff.1 hd) _ (List.mem_map.2 ⟨e, he, rfl⟩)
    · obtain ⟨⟨path, method, op⟩, hop, hr⟩ := List.mem_flatMap.1 hr
      obtain ⟨m, hm, rfl⟩ := List.mem_map.1 hr
      simpa using h.operations m (List.mem_flatMap.2 ⟨_, hop, hm⟩)

theorem PathItem.operations_map (f : Operation → Operation) (item : PathItem) :
    (item.map f).operations = item.operations.map fun e => (e.1, f e.2) := by
  simp only [PathItem.operations, PathItem.find?_map, List.map_filterMap, Option.map_map,
    Function.comp_def]

theorem operations_mapOperations (f : Operation → Operation) (doc : Document) :
    (doc.mapOperations f).operations = doc.operations.map fun e => (e.1, e.2.1, f e.2.2) := by
  simp only [operations, mapOperations, Table.mapValues, Table.map, List.flatMap_map,
    PathItem.operations_map, List.map_flatMap, List.map_map, Function.comp_def]

theorem pathReferences_mapOperations_rename (r : Renaming) (doc : Document) :
    (doc.mapOperations (Operation.rename r)).pathReferences =
      doc.pathReferences.map r.apply := by
  simp only [pathReferences, operations_mapOperations, List.flatMap_map, List.map_flatMap,
    Operation.references_rename]

/-! ## Operations by path and method -/

theorem PathItem.map_map (f g : Operation → Operation) (item : PathItem) :
    (item.map f).map g = item.map (g ∘ f) := by
  simp only [map, Option.map_map]

theorem PathItem.mem_operations_iff {item : PathItem} {m : Method} {op : Operation} :
    (m, op) ∈ item.operations ↔ item.find? m = some op := by
  have hall : m ∈ Method.all := by cases m <;> decide
  unfold PathItem.operations
  rw [List.mem_filterMap]
  constructor
  · rintro ⟨m', -, hmap⟩
    obtain ⟨op', hop, heq⟩ := Option.map_eq_some_iff.1 hmap
    obtain ⟨rfl, rfl⟩ := Prod.mk.inj heq
    exact hop
  · intro hop
    exact ⟨m, hall, by rw [hop]; rfl⟩

theorem mem_operations_iff {doc : Document} {path : String} {m : Method} {op : Operation} :
    (path, m, op) ∈ doc.operations ↔ doc.operation? path m = some op := by
  unfold operations operation?
  rw [List.mem_flatMap, Option.bind_eq_some_iff]
  constructor
  · rintro ⟨⟨path', item⟩, hitem, hop⟩
    obtain ⟨⟨m', op'⟩, hop', heq⟩ := List.mem_map.1 hop
    cases heq
    exact ⟨item, Table.mem_entries_iff.1 hitem, PathItem.mem_operations_iff.1 hop'⟩
  · rintro ⟨item, hitem, hop⟩
    exact ⟨(path, item), Table.mem_entries_iff.2 hitem,
      List.mem_map.2 ⟨(m, op), PathItem.mem_operations_iff.2 hop, rfl⟩⟩

theorem operation?_mapOperations (f : Operation → Operation) (doc : Document) (path : String)
    (m : Method) : (doc.mapOperations f).operation? path m = (doc.operation? path m).map f := by
  unfold operation? mapOperations
  rw [Table.find?_mapValues]
  cases doc.paths.find? path with
  | none => rfl
  | some item => exact PathItem.find?_map f item m

theorem operation?_addOperation (doc : Document) (path path' : String) (m m' : Method)
    (op : Operation) : (doc.addOperation path m op).operation? path' m' =
      if path = path' ∧ m = m' then some op else doc.operation? path' m' := by
  unfold addOperation operation?
  dsimp only
  rw [Table.find?_insert]
  by_cases hpath : path = path'
  · subst hpath
    rw [if_pos rfl, Option.bind_some, PathItem.find?_insert]
    by_cases hm : m = m'
    · rw [if_pos hm, if_pos ⟨rfl, hm⟩]
    · rw [if_neg hm, if_neg fun h => hm h.2]
      cases doc.paths.find? path with
      | none => cases m' <;> rfl
      | some item => rfl
  · rw [if_neg hpath, if_neg fun h => hpath h.1]

end RestSpec.Document
