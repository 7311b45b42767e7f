/-
Requirements and properties. A schema is consistent if each name that it requires is the name of one
of its properties and is required once, and if that holds of all schemas that lie in it. Passes keep
the schemas of a document consistent, in any order: renaming changes no name of a property, a
payload is wrapped in an object that requires nothing, and a flattened definition takes over
requirements together with the properties that they are about.
-/
import RestSpec.Proofs.Document.Renaming
import RestSpec.Proofs.Pass.Inheritance
import RestSpec.Proofs.Pass.Payload
import RestSpec.Pass.Pipeline

namespace RestSpec.Document

/-! ## Schemas -/

namespace Schema

/-- The schema `t` is the other one, or lies in its `items` or in one of its `properties`. -/
inductive Within (t : Schema) : Schema → Prop
  | self : Within t t
  | items {s i : Schema} : s.items = some i → Within t i → Within t s
  | property {s p : Schema} {k : String} : (k, p) ∈ s.properties → Within t p → Within t s

/-- What a schema and those in it list as `required` are names of their own `properties`, each
once. -/
inductive Consistent : Schema → Prop
  | intro {s : Schema} : s.required.Nodup → (∀ k ∈ s.required, k ∈ s.propertyNames) →
      (∀ i, s.items = some i → Consistent i) → (∀ e ∈ s.properties, Consistent e.2) → Consistent s

variable {s t : Schema}

theorem Consistent.nodup (h : s.Consistent) : s.required.Nodup := by
  cases h with
  | intro hnodup => exact hnodup

theorem Consistent.named (h : s.Consistent) : ∀ k ∈ s.required, k ∈ s.propertyNames := by
  cases h with
  | intro _ hnamed => exact hnamed

theorem Consistent.items (h : s.Consistent) : ∀ i, s.items = some i → i.Consistent := by
  cases h with
  | intro _ _ hitems => exact hitems

theorem Consistent.properties (h : s.Consistent) : ∀ e ∈ s.properties, e.2.Consistent := by
  cases h with
  | intro _ _ _ hproperties => exact hproperties

theorem Consistent.within (h : s.Consistent) (ht : t.Within s) : t.Consistent := by
  induction ht with
  | self => exact h
  | items hi _ ih => exact ih (h.items _ hi)
  | property hp _ ih => exact ih (h.properties _ hp)

/-- Whether a schema is `Consistent` depends on its `required` names, its `items` and its
`properties` alone. -/
theorem Consistent.congr (h : s.Consistent) (hrequired : t.required = s.required)
    (hitems : t.items = s.items) (hproperties : t.properties = s.properties) : t.Consistent := by
  refine .intro ?_ ?_ ?_ ?_
  · rw [hrequired]
    exact h.nodup
  · rw [hrequired, propertyNames, hproperties]
    exact h.named
  · rw [hitems]
    exact h.items
  · rw [hproperties]
    exact h.properties

/-- An `object` of `Consistent` properties that requires nothing is `Consistent`. -/
theorem consistent_object {properties : List (String × Schema)}
    (h : ∀ e ∈ properties, e.2.Consistent) : (Schema.object properties).Consistent :=
  .intro List.nodup_nil nofun nofun h

theorem consistent_referenceTo (n : String) : (referenceTo n).Consistent :=
  .intro List.nodup_nil nofun nofun nofun

theorem Consistent.arrayOf (h : s.Consistent) : (Schema.arrayOf s).Consistent :=
  .intro List.nodup_nil nofun (fun _ hi => Option.some.inj hi ▸ h) nofun

theorem Consistent.wrap (h : s.Consistent) (key : String) : (s.wrap key).Consistent := by
  unfold Schema.wrap
  split
  · exact consistent_object fun e he => List.mem_singleton.1 he ▸ h
  · exact h

theorem Consistent.rename (h : s.Consistent) (r : Renaming) : (s.rename r).Consistent := by
  induction h with
  | @intro s hnodup hnamed _ _ ihitems ihproperties =>
    have hrequired : (s.rename r).required = s.required := by
      cases s
      rfl
    have hitems : (s.rename r).items = s.items.map (Schema.rename r) := by
      obtain ⟨_, _, _, _, _, _, _, _, items, _, _, _⟩ := s
      cases items <;> rfl
    have hnames : (s.rename r).propertyNames = s.propertyNames := by
      simp only [propertyNames, Entries.names, properties_rename, List.map_map, Function.comp_def]
    refine .intro (hrequired ▸ hnodup) (hrequired ▸ hnames ▸ hnamed) (fun i hi => ?_)
      fun e he => ?_
    · obtain ⟨i', hi', rfl⟩ := Option.map_eq_some_iff.1 (hitems ▸ hi)
      exact ihitems i' hi'
    · rw [properties_rename] at he
      obtain ⟨e', he', rfl⟩ := List.mem_map.1 he
      exact ihproperties e' he'

theorem nodup_foldl_distinct {names seen : List String} (h : seen.Nodup) :
    (names.foldl (fun seen n => if seen.contains n then seen else seen ++ [n]) seen).Nodup := by
  induction names generalizing seen with
  | nil => exact h
  | cons n names ih =>
    refine ih ?_
    dsimp only
    split
    · exact h
    · rename_i hn
      rw [← List.concat_eq_append]
      exact h.concat fun hmem => hn (List.contains_iff_mem.2 hmem)

/-- A schema that is `Consistent` stays so when it takes over requirements with the properties that
they are about. -/
theorem Consistent.extend (h : s.Consistent) {properties : List (String × Schema)}
    {required : List String} (hnamed : ∀ k ∈ required, k ∈ Entries.names properties)
    (hall : ∀ e ∈ properties, e.2.Consistent) : (s.extend properties required).Consistent := by
  refine .intro (nodup_foldl_distinct h.nodup) (fun k hk => ?_) h.items fun e he => ?_
  · rw [mem_names_extend]
    exact (mem_required_extend.1 hk).imp (h.named k) (hnamed k)
  · exact (mem_extend he).elim (h.properties e) fun hnew => hall e hnew.1

end Schema

/-! ## Documents -/

/-- A schema stands somewhere in the document: in what a definition states by `ownOf`, which for a
composition is its `child`, or in a payload. -/
inductive Holds (doc : Document) (t : Schema) : Prop
  | own {n : String} {s : Schema} : doc.ownOf n = some s → t.Within s → Holds doc t
  | payload {path : String} {m : Method} {op : Operation} {s : Schema} :
      doc.operation? path m = some op → s ∈ op.payloads → t.Within s → Holds doc t

/-- All that definitions state of their own and all `payloads` are `Consistent`. -/
structure Consistent (doc : Document) : Prop where
  own : ∀ n s, doc.ownOf n = some s → s.Consistent
  payloads : ∀ path m op, doc.operation? path m = some op → ∀ s ∈ op.payloads, s.Consistent

theorem Consistent.of_holds {doc : Document} (h : doc.Consistent) {t : Schema} (ht : doc.Holds t) :
    t.Consistent := by
  cases ht with
  | own hs ht => exact (h.own _ _ hs).within ht
  | payload hop hs ht => exact (h.payloads _ _ _ hop _ hs).within ht

/-! ## Passes -/

section Passes

variable {doc doc' : Document} (h : doc.Consistent)

include h

theorem Consistent.of_own (hown : ∀ n s, doc'.ownOf n = some s → s.Consistent)
    (hpaths : doc'.paths = doc.paths) : doc'.Consistent := by
  refine ⟨hown, fun path m op hop => h.payloads path m op ?_⟩
  unfold operation? at hop ⊢
  rw [← hpaths]
  exact hop

/-- A document stays `Consistent` if operations are rewritten in a way that makes consistent
payloads of consistent ones. -/
theorem Consistent.of_operations {f : String → Operation → Operation}
    (hown : ∀ n s, doc'.ownOf n = some s → s.Consistent)
    (hop : ∀ path m, doc'.operation? path m = (doc.operation? path m).map (f path))
    (hf : ∀ path op, (∀ s ∈ op.payloads, s.Consistent) →
      ∀ s ∈ (f path op).payloads, s.Consistent) : doc'.Consistent := by
  refine ⟨hown, fun path m op hmade => ?_⟩
  rw [hop] at hmade
  obtain ⟨op, hbefore, rfl⟩ := Option.map_eq_some_iff.1 hmade
  exact hf path op (h.payloads path m op hbefore)

theorem Consistent.without (names : List String) : (doc.without names).Consistent := by
  refine h.of_own (fun n s hs => h.own n s ?_) rfl
  obtain ⟨d, hd, hs⟩ := Option.bind_eq_some_iff.1 hs
  have hd : (doc.definitions.filter fun name _ => !names.contains name).find? n = some d := hd
  rw [Table.find?_filter] at hd
  split at hd
  · exact Option.bind_eq_some_iff.2 ⟨d, hd, hs⟩
  · cases hd

theorem Consistent.rename (r : Renaming) : (doc.rename r).Consistent := by
  refine h.of_operations (fun n s hs => ?_) (operation?_rename r doc) fun _ op hop s hs => ?_
  · cases hempty : r.isEmpty with
    | true =>
      rw [rename_of_isEmpty hempty] at hs
      exact h.own n s hs
    | false =>
      unfold ownOf at hs
      rw [definitions_rename hempty, Table.find?_mapValues, Option.bind_map] at hs
      obtain ⟨d, hd, hs⟩ := Option.bind_eq_some_iff.1 hs
      rw [Function.comp_apply, Definition.own_rename] at hs
      obtain ⟨s, hown, rfl⟩ := Option.map_eq_some_iff.1 hs
      exact (h.own n s (Option.bind_eq_some_iff.2 ⟨d, hd, hown⟩)).rename r
  · rw [Operation.rename, Operation.payloads_mapPayloads] at hs
    obtain ⟨t, ht, rfl⟩ := List.mem_map.1 hs
    exact (hop t ht).rename r

theorem Consistent.substituteAll (choose : Document → Renaming) :
    (doc.substituteAll choose).Consistent := by
  unfold Document.substituteAll
  generalize doc.definitions.entries.length = rounds
  -- a round takes definitions away and then renames what referred to them
  induction rounds generalizing doc with
  | zero => exact h
  | succ rounds ih =>
    unfold substituteRepeatedly
    dsimp only
    split
    · exact h
    · exact ih ((h.without _).rename _)

/-- `flattenParents` makes a `Consistent` child: all that ancestors require is among the properties
that they have. -/
theorem Consistent.flattenParents {name : String} {c : Composition}
    (hd : doc.definitions.find? name = some (.composed c)) :
    ∀ s, (doc.flattenParents name c).child = some s → s.Consistent := by
  intro s hs
  have hchild : ∀ s, c.child = some s → s.Consistent := fun s hs =>
    h.own name s (Option.bind_eq_some_iff.2 ⟨_, hd, hs⟩)
  unfold Document.flattenParents at hs
  split at hs
  · obtain rfl := Option.some.inj hs
    have hbase : (c.child.getD (Schema.object [])).Consistent := by
      cases hc : c.child with
      | none => exact Schema.consistent_object nofun
      | some s => exact hchild s hc
    refine hbase.extend (fun k hk => ?_) fun e he => ?_
    · obtain ⟨a, ha, s, hown, hk⟩ := mem_collectRequired.1 hk
      exact mem_names_collectProperties.2 ⟨a, ha, s, hown, (h.own a s hown).named k hk⟩
    · obtain ⟨a, -, s, hown, he⟩ := (latest_of_collectProperties he).mem
      exact (h.own a s hown).properties e he
  · exact hchild s hs

theorem Consistent.flattenAt (name : String) : (doc.flattenAt name).Consistent := by
  unfold Document.flattenAt
  split
  · rename_i c hd
    split
    · refine h.of_own (fun n s hs => ?_) rfl
      have hs : (doc.withComposition name (doc.flattenParents name c)).ownOf n = some s := hs
      rw [ownOf_withComposition] at hs
      split at hs
      · exact h.flattenParents hd s hs
      · exact h.own n s hs
    · exact h
  · exact h

theorem Consistent.singleParent : doc.singleParent.Consistent := by
  unfold Document.singleParent
  generalize doc.definitions.names = names
  induction names generalizing doc with
  | nil => exact h
  | cons n names ih => exact ih (h.flattenAt n)

theorem Consistent.sortParents : doc.sortParents.Consistent := by
  refine h.of_own (fun n s hs => h.own n s ?_) rfl
  unfold ownOf Document.sortParents at hs
  rw [Table.find?_mapValues, Option.bind_map] at hs
  obtain ⟨d, hd, hs⟩ := Option.bind_eq_some_iff.1 hs
  refine Option.bind_eq_some_iff.2 ⟨d, hd, ?_⟩
  cases d <;> exact hs

omit h in
/-- Every payload after `Operation.wrap` was there before, and may have been wrapped. -/
theorem mem_payloads_wrap {request response : String} {op : Operation} {s : Schema}
    (hs : s ∈ (op.wrap request response).payloads) : ∃ key, ∃ t ∈ op.payloads, s = t.wrap key := by
  rcases List.mem_append.1 hs with hs | hs
  · obtain ⟨_, hmem, hs⟩ := List.mem_filterMap.1 hs
    obtain ⟨p, hp, rfl⟩ := List.mem_map.1 hmem
    obtain ⟨t, ht, rfl⟩ := Option.map_eq_some_iff.1 hs
    exact ⟨request, t, List.mem_append_left _ (List.mem_filterMap.2 ⟨p, hp, ht⟩), rfl⟩
  · obtain ⟨_, hmem, hs⟩ := List.mem_filterMap.1 hs
    obtain ⟨_, hentry, rfl⟩ := List.mem_map.1 hmem
    obtain ⟨e, he, rfl⟩ := List.mem_map.1 hentry
    obtain ⟨t, ht, rfl⟩ := Option.map_eq_some_iff.1 hs
    exact ⟨response, t, List.mem_append_right _
      (List.mem_filterMap.2 ⟨e.2, List.mem_map.2 ⟨e, he, rfl⟩, ht⟩), rfl⟩

theorem Consistent.wrapPayloads : doc.wrapPayloads.Consistent := by
  refine h.of_operations h.own (operation?_wrapPayloads doc) fun path op hop s hs => ?_
  obtain ⟨key, t, ht, rfl⟩ := mem_payloads_wrap hs
  exact (hop t ht).wrap key

theorem Consistent.requireSecurity (security : Security) :
    (doc.requireSecurity security).Consistent := by
  refine h.of_operations (f := fun _ => Operation.secure security.definitionName) h.own
    (operation?_mapOperations _ _) fun _ op hop s hs => hop s ?_
  unfold Operation.secure at hs
  split at hs <;> exact hs

theorem Consistent.run (asked : Option Security) (pass : Pass) :
    (Pass.run asked doc pass).Consistent := by
  cases pass with
  | removeUnused => exact h.without _
  | collapseDuplicates => exact h.substituteAll duplicates
  | singleParent => exact h.singleParent
  | replaceEmpty => exact h.substituteAll emptyCompositions
  | wrapPayload => exact h.wrapPayloads
  | sortModels => exact h.sortParents
  | security => exact h.requireSecurity _

/-- `runAll` with any list of passes keeps a document `Consistent`: no schema comes to require what
it has no property of, or one name twice. -/
theorem Consistent.runAll (asked : Option Security) (passes : List Pass) :
    (Pass.runAll asked passes doc).Consistent := by
  unfold Pass.runAll
  induction passes generalizing doc with
  | nil => exact h
  | cons pass passes ih => exact ih (h.run asked pass)

end Passes

end RestSpec.Document
