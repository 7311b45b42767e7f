/-
Emitting always succeeds, and what has been emitted refers to nothing but definitions that are
there: an operation carries the schemas that it is given, and these are references to definitions
that have just been built.
-/
import RestSpec.Proofs.Definitions.Closed
import RestSpec.Resource.Emit

namespace RestSpec

open Document DataModel
open Definitions (RefersInto)

/-! ## What an operation carries -/

/-- All schemas that travel with an operation, in its `parameters` and `responses`, have the
property `P`. -/
structure Document.Operation.Carries (P : Schema → Prop) (op : Operation) : Prop where
  parameters : ∀ p ∈ op.parameters, ∀ s, p.schema = some s → P s
  responses : ∀ status r, op.responses.find? status = some r → ∀ s, r.schema = some s → P s

section Carries

variable {P Q : Schema → Prop} {op : Operation}

theorem Document.Operation.Carries.payloads (h : op.Carries P) : ∀ s ∈ op.payloads, P s := by
  intro s hs
  rcases List.mem_append.1 hs with hs | hs
  · obtain ⟨p, hp, hschema⟩ := List.mem_filterMap.1 hs
    exact h.parameters p hp s hschema
  · obtain ⟨r, hr, hschema⟩ := List.mem_filterMap.1 hs
    obtain ⟨⟨status, r⟩, he, rfl⟩ := List.mem_map.1 hr
    exact h.responses status r (Table.mem_entries_iff.1 he) s hschema

theorem Document.Operation.Carries.mono (h : op.Carries P) (hle : ∀ s, P s → Q s) : op.Carries Q :=
  ⟨fun p hp s hs => hle s (h.parameters p hp s hs),
    fun status r hr s hs => hle s (h.responses status r hr s hs)⟩

theorem Document.Operation.Carries.withResponse (h : op.Carries P) (status : String)
    {r : Response} (hr : ∀ s, r.schema = some s → P s) : (op.withResponse status r).Carries P := by
  refine ⟨h.parameters, fun status' r' hr' => ?_⟩
  have hfind : (op.responses.insert status r).find? status' = some r' := hr'
  rw [Table.find?_insert] at hfind
  split at hfind
  · cases hfind
    exact hr
  · exact h.responses status' r' hfind

theorem Document.Operation.Carries.withParameter (h : op.Carries P) {p : Parameter}
    (hp : ∀ s, p.schema = some s → P s) :
    Operation.Carries P { op with parameters := op.parameters ++ [p] } := by
  refine ⟨fun p' hp' => ?_, h.responses⟩
  rcases List.mem_append.1 hp' with hp' | hp'
  · exact h.parameters p' hp'
  · obtain rfl := List.mem_singleton.1 hp'
    exact hp

end Carries

namespace Subject

variable {P : Schema → Prop} {subject : Subject} {schema : Schema}

/-- The parameters of a `Subject` have no schema of their own. -/
def Bare (subject : Subject) : Prop := ∀ p ∈ subject.parameters, p.schema = none

theorem operation_carries (h : subject.Bare) (summary : String) :
    (subject.operation summary).Carries P := by
  refine ⟨fun p hp s hs => ?_, fun status r hr s hs => ?_⟩
  · have hp : p ∈ subject.parameters := hp
    rw [h p hp] at hs
    cases hs
  · have hr : (Table.ofList [("400", { description := "Bad request" })]).find? status = some r := hr
    have hmem := Table.mem_of_find?_ofList hr
    obtain ⟨rfl, rfl⟩ := Prod.mk.inj (List.mem_singleton.1 hmem)
    cases hs

theorem withBody_carries {op : Operation} (h : op.Carries P) (hschema : P schema) :
    (subject.withBody schema op).Carries P :=
  h.withParameter fun _ hs => Option.some.inj hs ▸ hschema

theorem get_carries (h : subject.Bare) (hschema : P schema) : (subject.get schema).Carries P :=
  (operation_carries h _).withResponse _ fun _ hs => Option.some.inj hs ▸ hschema

theorem put_carries (h : subject.Bare) (hschema : P schema) : (subject.put schema).Carries P := by
  refine .withResponse (.withResponse ?_ _ ?_) _ ?_
  · exact withBody_carries (operation_carries h _) hschema
  · exact nofun
  · exact nofun

theorem post_carries (h : subject.Bare) (hschema : P schema) :
    (subject.post schema).Carries P := by
  refine .withResponse (.withResponse ?_ _ ?_) _ ?_
  · exact withBody_carries (operation_carries h _) hschema
  · exact nofun
  · exact nofun

theorem delete_carries (h : subject.Bare) : subject.delete.Carries P :=
  (operation_carries h _).withResponse _ nofun

theorem patch_carries (h : subject.Bare) (hschema : P schema) : (subject.patch schema).Carries P :=
  (withBody_carries (operation_carries h _) hschema).withResponse _ nofun

theorem call_carries (h : subject.Bare) {input output : Option Schema}
    (hinput : ∀ s, input = some s → P s) (houtput : ∀ s, output = some s → P s) :
    (subject.call input output).Carries P := by
  have hop := operation_carries (P := P) h ("invokes rpc " ++ subject.name)
  unfold call
  cases input with
  | none =>
    cases output with
    | none => exact hop.withResponse _ nofun
    | some out => exact hop.withResponse _ houtput
  | some body =>
    have hbody := hop.withParameter (p := Parameter.inBody (subject.name ++ parameterSuffix) body
      (some (subject.name ++ " input"))) hinput
    cases output with
    | none => exact hbody.withResponse _ nofun
    | some out => exact hbody.withResponse _ houtput

end Subject

theorem subjectOf_bare (model : DataModel) (id : NodeId) (ps : List KeyParameter) :
    (subjectOf model id (pathParameters model ps)).Bare := by
  intro p hp
  obtain ⟨q, -, rfl⟩ := List.mem_map.1 hp
  rfl

theorem readSchema_refersInto {defs : Definitions} (kind : Kind) {schema : Schema}
    (h : RefersInto defs schema) : RefersInto defs (readSchema kind schema) := by
  unfold readSchema
  split
  · unfold RefersInto
    rw [Schema.references_arrayOf]
    exact h
  · exact h

/-! ## What has been emitted -/

/-- All schemas that travel with what has been `emitted` have the property `P`. -/
def Progress.Sends (P : Schema → Prop) (p : Progress) : Prop :=
  ∀ e ∈ p.emitted, e.operation.Carries P

section Sends

variable {P : Schema → Prop} {p : Progress}

theorem Progress.Sends.emit (h : p.Sends P) (path : String) (method : Method) (names : List String)
    {op : Operation} (hop : op.Carries P) : (p.emit path method names op).Sends P := by
  intro e he
  rcases List.mem_append.1 he with he | he
  · exact h e he
  · obtain rfl := List.mem_singleton.1 he
    exact ⟨hop.parameters, hop.responses⟩

variable (s : Settings) {model : DataModel} (route : Route) (id : NodeId) {schema : Schema}

theorem emitRead_sends (h : p.Sends P) (hr : P (readSchema (model.node id).kind schema)) :
    (emitRead s model route id schema p).Sends P :=
  h.emit _ _ _ (Subject.get_carries (subjectOf_bare model id _) hr)

theorem emitWrites_sends (h : p.Sends P) (hr : P schema) :
    (emitWrites s model route id schema p).Sends P := by
  have hbare : (subjectAt model route id).Bare := subjectOf_bare model id _
  have hput := h.emit (s.dataPath route) .put (route.map (·.name)) (Subject.put_carries hbare hr)
  have hpost := hput.emit (s.dataPath route) .post (route.map (·.name))
    (Subject.post_carries hbare hr)
  have hdelete := hpost.emit (s.dataPath route) .delete (route.map (·.name))
    (Subject.delete_carries hbare)
  unfold emitWrites
  dsimp only
  split
  · exact hdelete.emit _ _ _ (Subject.patch_carries hbare hr)
  · exact hdelete

/-- `emitWrites` builds no definitions. -/
theorem emitWrites_definitions :
    (emitWrites s model route id schema p).definitions = p.definitions := by
  unfold emitWrites
  dsimp only
  split <;> rfl

theorem emitEntry_sends (h : p.Sends P) (hr : P schema) :
    (emitEntry s model route id schema p).Sends P :=
  h.emit _ _ _ (Subject.post_carries (subjectOf_bare model id _) hr)

end Sends

/-- Definitions are `Sound`, and operations refer to nothing else. -/
structure Progress.Sound (strategy : Strategy) (model : DataModel) (p : Progress) : Prop where
  definitions : Definitions.Sound strategy model p.definitions
  emitted : p.Sends (RefersInto p.definitions)

section Progress

variable {strategy : Strategy} {model : DataModel} {p : Progress}

theorem Progress.sound_empty (strategy : Strategy) (model : DataModel) :
    Progress.Sound strategy model {} :=
  ⟨Definitions.sound_empty strategy model, nofun⟩

/-- What has been emitted stays sound when definitions are added, by `Definitions.Grows`. -/
theorem Progress.Sound.withDefinitions {below : NodeId → Prop} {defs : Definitions}
    (h : p.Sound strategy model) (hs : Definitions.Sound strategy model defs)
    (hg : Definitions.Grows below p.definitions defs) :
    Progress.Sound strategy model { p with definitions := defs } :=
  ⟨hs, fun e he => (h.emitted e he).mono fun _ hr => hg.refersInto hr⟩

end Progress

/-! ## Emitting -/

section Pure

variable (s : Settings) {model : DataModel} {p : Progress}

theorem emitRead_sound (h : p.Sound s.strategy model) (route : Route) (id : NodeId)
    {schema : Schema} (hr : RefersInto p.definitions schema) :
    (emitRead s model route id schema p).Sound s.strategy model :=
  ⟨h.definitions, emitRead_sends s route id h.emitted (readSchema_refersInto _ hr)⟩

theorem emitWrites_sound (h : p.Sound s.strategy model) (route : Route) (id : NodeId)
    {schema : Schema} (hr : RefersInto p.definitions schema) :
    (emitWrites s model route id schema p).Sound s.strategy model := by
  refine ⟨?_, ?_⟩
  · rw [emitWrites_definitions]
    exact h.definitions
  · rw [emitWrites_definitions]
    exact emitWrites_sends s route id h.emitted hr

theorem emitEntry_sound (h : p.Sound s.strategy model) (route : Route) (id : NodeId)
    {schema : Schema} (hr : RefersInto p.definitions schema) :
    (emitEntry s model route id schema p).Sound s.strategy model :=
  ⟨h.definitions, emitEntry_sends s route id h.emitted hr⟩

end Pure

section Emit

variable {model : DataModel} (s : Settings) (hm : model.Linked)

include hm

/-- `schemaFor` makes a schema on `Sound` definitions, and what it refers to is there. -/
theorem schemaFor_ok {strategy : Strategy} {defs : Definitions}
    (h : Definitions.Sound strategy model defs) (id : NodeId) :
    ∃ defs' schema, defs.schemaFor strategy model id = .ok (defs', schema) ∧
      Definitions.Sound strategy model defs' ∧ Definitions.Grows (fun _ => True) defs defs' ∧
      RefersInto defs' schema := by
  obtain ⟨defs', n, hn, hb⟩ := Definitions.build_ok hm h id
  refine ⟨defs', Schema.referenceTo n, ?_, hb.sound, hb.grows,
    Definitions.Refers.refersInto ⟨n, rfl, hb.named⟩⟩
  unfold Definitions.schemaFor
  rw [hn]
  rfl

theorem emitData_ok {p : Progress} (h : p.Sound s.strategy model) (route : Route) (id : NodeId) :
    ∃ p', emitData s model route id p = .ok p' ∧ p'.Sound s.strategy model := by
  obtain ⟨defs, schema, hschema, hs, hg, hr⟩ := schemaFor_ok hm h.definitions id
  have hread := emitRead_sound s (h.withDefinitions hs hg) route id hr
  unfold emitData
  rw [hschema]
  dsimp only [bind, Except.bind, pure, Except.pure]
  split
  · exact ⟨_, rfl, hread⟩
  · have hwrites := emitWrites_sound s hread route id hr
    refine ⟨_, rfl, ?_⟩
    split
    · refine emitEntry_sound s hwrites route id ?_
      rw [emitWrites_definitions]
      exact hr
    · exact hwrites

/-- `messageSchemas` makes the schemas of what goes into an rpc and what comes out, on `Sound`
definitions. -/
theorem messageSchemas_ok : ∀ (ids : List NodeId) (defs : Definitions)
    (input output : Option Schema), Definitions.Sound s.strategy model defs →
    (∀ schema, input = some schema → RefersInto defs schema) →
    (∀ schema, output = some schema → RefersInto defs schema) →
    ∃ defs' input' output',
      messageSchemas s model ids defs input output = .ok (defs', input', output') ∧
      Definitions.Sound s.strategy model defs' ∧ Definitions.Grows (fun _ => True) defs defs' ∧
      (∀ schema, input' = some schema → RefersInto defs' schema) ∧
      ∀ schema, output' = some schema → RefersInto defs' schema
  | [], defs, input, output, hs, hinput, houtput =>
    ⟨defs, input, output, rfl, hs, .refl _ _, hinput, houtput⟩
  | id :: ids, defs, input, output, hs, hinput, houtput => by
    obtain ⟨defs₁, schema, hschema, hs₁, hg₁, hr⟩ := schemaFor_ok hm hs id
    have hmade : ∀ s', some schema = some s' → RefersInto defs₁ s' :=
      fun s' heq => Option.some.inj heq ▸ hr
    unfold messageSchemas
    split
    · obtain ⟨defs', input', output', hrest, hs', hg, hmessages⟩ := messageSchemas_ok ids defs₁
        (some schema) output hs₁ hmade fun s' heq => hg₁.refersInto (houtput s' heq)
      refine ⟨defs', input', output', ?_, hs', hg₁.trans hg fun _ h => h, hmessages⟩
      rw [hschema]
      exact hrest
    · obtain ⟨defs', input', output', hrest, hs', hg, hmessages⟩ := messageSchemas_ok ids defs₁
        input (some schema) hs₁ (fun s' heq => hg₁.refersInto (hinput s' heq)) hmade
      refine ⟨defs', input', output', ?_, hs', hg₁.trans hg fun _ h => h, hmessages⟩
      rw [hschema]
      exact hrest
    · exact messageSchemas_ok ids defs input output hs hinput houtput

theorem emitCall_ok {p : Progress} (h : p.Sound s.strategy model) (call : NodeId) :
    ∃ p', emitCall s model call p = .ok p' ∧ p'.Sound s.strategy model := by
  obtain ⟨defs, input, output, hmessages, hs, hg, hinput, houtput⟩ := messageSchemas_ok s hm
    (model.node call).children p.definitions none none h.definitions nofun nofun
  unfold emitCall
  dsimp only
  rw [hmessages]
  refine ⟨_, rfl, hs, (h.withDefinitions hs hg).emitted.emit _ _ _ ?_⟩
  exact Subject.call_carries (subjectOf_bare model call []) hinput houtput

end Emit

/-! ## The document of what has been emitted -/

/-- The `document` of what has been `emitted` has no other operations, and each where it belongs. -/
theorem Progress.emitted_of_operation? (p : Progress) {start : Document}
    (hstart : ∀ path m, start.operation? path m = none) {path : String} {m : Method}
    {op : Operation} (h : (p.document start).operation? path m = some op) :
    ⟨path, m, op⟩ ∈ p.emitted := by
  have hfold : ∀ (es : List Emission) (doc : Document),
      (es.foldl (fun doc e => doc.addOperation e.path e.method e.operation) doc).operation? path m =
        some op → ⟨path, m, op⟩ ∈ es ∨ doc.operation? path m = some op := by
    intro es
    induction es with
    | nil => exact fun doc hop => .inr hop
    | cons e es ih =>
      intro doc h
      rcases ih _ h with he | hop
      · exact .inl (List.mem_cons_of_mem _ he)
      · rw [operation?_addOperation] at hop
        split at hop
        · rename_i hsame
          obtain ⟨rfl, rfl⟩ := hsame
          exact .inl (Option.some.inj hop ▸ List.mem_cons_self)
        · exact .inr hop
  -- the document starts without operations, so each one has been emitted
  refine (hfold p.emitted start h).resolve_right fun hop => ?_
  rw [hstart] at hop
  cases hop

/-- The `document` of what has been emitted soundly is `WellFormed`. -/
theorem Progress.Sound.wellFormed {strategy : Strategy} {model : DataModel} {p : Progress}
    (h : p.Sound strategy model) (hm : model.Linked)
    (hmodules : ∀ m ∈ model.moduleNames, NulFree m.toList) {start : Document}
    (hstart : ∀ path m, start.operation? path m = none) : (p.document start).WellFormed := by
  refine h.definitions.wellFormed hm hmodules rfl fun r hr => ?_
  obtain ⟨⟨path, m, op⟩, hop, hr⟩ := List.mem_flatMap.1 hr
  have he := p.emitted_of_operation? hstart (mem_operations_iff.1 hop)
  obtain ⟨schema, hschema, hr⟩ := List.mem_flatMap.1 hr
  exact (h.emitted _ he).payloads schema hschema r hr

end RestSpec
