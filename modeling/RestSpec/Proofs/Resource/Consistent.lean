/-
Documents that require no more than they have. What operations carry are references to definitions,
alone or in lists, so all that is required is required by definitions; these are consistent when
they are built, and no list of passes changes that.
-/
import RestSpec.Proofs.Definitions.Consistent
import RestSpec.Proofs.Generate
import RestSpec.Proofs.Resource.Offered

namespace RestSpec

open Document DataModel
open Definitions (Tidy schemaFor_tidy tidy_empty)

/-! ## What is emitted -/

/-- Definitions are `Tidy`, and operations carry `Consistent` schemas. -/
structure Progress.Tidy (model : DataModel) (p : Progress) : Prop where
  definitions : Definitions.Tidy model p.definitions
  emitted : p.Sends Schema.Consistent

section Emit

variable {s : Settings} {model : DataModel} (hm : model.Linked)
  (hnd : ∀ id, (model.node id).kind.isStructural = true → (model.propertyNames id).Nodup)

theorem consistent_readSchema (kind : Kind) {schema : Schema} (h : schema.Consistent) :
    (readSchema kind schema).Consistent := by
  unfold readSchema
  split
  · exact h.arrayOf
  · exact h

include hm hnd

theorem emitData_tidy {route : Route} {id : NodeId}
    (hkind : (model.node id).kind.isResource = true) {p p' : Progress} (hp : p.Tidy model)
    (h : emitData s model route id p = .ok p') : p'.Tidy model := by
  unfold emitData at h
  obtain ⟨⟨defs, schema⟩, hschema, h⟩ := bind_eq_ok.1 h
  obtain ⟨hdefs, hconsistent⟩ :=
    schemaFor_tidy hm hnd (Kind.isStructural_of_isResource hkind) hschema hp.definitions
  have hread : (emitRead s model route id schema { p with definitions := defs }).Sends
      Schema.Consistent :=
    emitRead_sends s route id hp.emitted (consistent_readSchema _ hconsistent)
  have hwrites : (emitWrites s model route id schema
      (emitRead s model route id schema { p with definitions := defs })).Tidy model :=
    ⟨by rw [emitWrites_definitions]; exact hdefs, emitWrites_sends s route id hread hconsistent⟩
  dsimp only at h
  split at h
  · cases h
    exact ⟨hdefs, hread⟩
  · cases h
    split
    · exact ⟨hwrites.definitions, emitEntry_sends s route id hwrites.emitted hconsistent⟩
    · exact hwrites

/-- The schemas that `messageSchemas` makes for an rpc are `Consistent`. -/
theorem messageSchemas_tidy : ∀ (ids : List NodeId) (defs defs' : Definitions)
    (input output input' output' : Option Schema),
    messageSchemas s model ids defs input output = .ok (defs', input', output') →
    Definitions.Tidy model defs → (∀ t, input = some t → t.Consistent) →
    (∀ t, output = some t → t.Consistent) →
    Definitions.Tidy model defs' ∧ (∀ t, input' = some t → t.Consistent) ∧
      ∀ t, output' = some t → t.Consistent
  | [], _, _, _, _, _, _, h, hdefs, hinput, houtput => by
    cases h
    exact ⟨hdefs, hinput, houtput⟩
  | id :: ids, defs, defs', input, output, input', output', h, hdefs, hinput, houtput => by
    unfold messageSchemas at h
    split at h
    · rename_i hkind
      obtain ⟨⟨defs₁, schema⟩, hschema, h⟩ := bind_eq_ok.1 h
      obtain ⟨hdefs₁, hconsistent⟩ := schemaFor_tidy hm hnd (by rw [hkind]; rfl) hschema hdefs
      exact messageSchemas_tidy ids defs₁ defs' _ _ _ _ h hdefs₁
        (fun t ht => Option.some.inj ht ▸ hconsistent) houtput
    · rename_i hkind
      obtain ⟨⟨defs₁, schema⟩, hschema, h⟩ := bind_eq_ok.1 h
      obtain ⟨hdefs₁, hconsistent⟩ := schemaFor_tidy hm hnd (by rw [hkind]; rfl) hschema hdefs
      exact messageSchemas_tidy ids defs₁ defs' _ _ _ _ h hdefs₁ hinput
        fun t ht => Option.some.inj ht ▸ hconsistent
    · exact messageSchemas_tidy ids defs defs' _ _ _ _ h hdefs hinput houtput

theorem emitCall_tidy {call : NodeId} {p p' : Progress} (hp : p.Tidy model)
    (h : emitCall s model call p = .ok p') : p'.Tidy model := by
  unfold emitCall at h
  obtain ⟨⟨defs, input, output⟩, hmessages, h⟩ := bind_eq_ok.1 h
  cases h
  obtain ⟨hdefs, hinput, houtput⟩ :=
    messageSchemas_tidy hm hnd _ _ _ _ _ _ _ hmessages hp.definitions nofun nofun
  exact ⟨hdefs, Progress.Sends.emit (p := { p with definitions := defs }) hp.emitted _ _ _
    (Subject.call_carries (subjectOf_bare model call []) hinput houtput)⟩

/-- All that `emitModule` emits for modules carries `Consistent` schemas. -/
theorem tidy_of_selected {selected : List Module} {p : Progress}
    (h : selected.foldlM (emitModule s model) {} = .ok p) : p.Tidy model := by
  have hkeeps : s.Keeps model (fun _ => True) (Progress.Tidy model) :=
    ⟨fun _ _ _ _ => trivial, fun _ _ _ _ _ hkind hp hok => emitData_tidy hm hnd hkind hp hok⟩
  exact foldlM_invariant (Progress.Tidy model) selected {} p
    (fun _ _ _ _ hb hstep => emitModule_invariant hkeeps trivial
      (fun _ _ _ _ hq hok => emitCall_tidy hm hnd hq hok) hb hstep)
    ⟨tidy_empty model, nofun⟩ h

end Emit

theorem Progress.Tidy.consistent {model : DataModel} {p : Progress} (h : p.Tidy model)
    (start : Document) (hstart : ∀ path m, start.operation? path m = none) :
    (p.document start).Consistent := by
  refine ⟨fun n s hs => ?_, fun path m op hop => ?_⟩
  · obtain ⟨d, hd, hs⟩ := Option.bind_eq_some_iff.1 hs
    exact h.definitions.own n d hd s hs
  · exact (h.emitted _ (p.emitted_of_operation? hstart hop)).payloads

/-! ## Documents -/

/-- A document that `generate` makes is `Consistent` where the `propertyNames` of each node differ:
whatever an object requires is one of its own properties and is required once, in a definition, in a
payload or in what lies in them, after any passes. -/
theorem generate_consistent {sources : List Source.Module} {model : DataModel}
    (h : link sources = .ok model)
    (hnd : ∀ id, (model.node id).kind.isStructural = true → (model.propertyNames id).Nodup)
    (s : Settings) {selected : List Module} (hselected : selectedModules s model = .ok selected) :
    ((∀ m ∈ sources, Char.ofNat 0 ∉ m.name.toList) → ∃ doc, generate s model = .ok doc) ∧
    ∀ doc, generate s model = .ok doc → ∀ t : Schema, doc.Holds t →
      t.required.Nodup ∧ ∀ k ∈ t.required, k ∈ t.propertyNames := by
  obtain ⟨hm, -⟩ := linked_of_link h
  refine ⟨fun hnul => ?_, fun doc hdoc t ht => ?_⟩
  · obtain ⟨doc, hdoc, -⟩ := generateSelected_ok s hm (nulFree_moduleNames h hnul) selected
    exact ⟨doc, (generate_eq hselected).trans hdoc⟩
  · rw [generate_eq hselected] at hdoc
    obtain ⟨p, hp, rfl, -⟩ := generateSelected_eq_ok.1 hdoc
    have hraw := (tidy_of_selected hm hnd hp).consistent (heading s selected) fun _ _ => rfl
    have hconsistent := (hraw.runAll s.security s.passes).of_holds ht
    exact ⟨hconsistent.nodup, hconsistent.named⟩

/-! ## Servers in zones -/

/-- A list of servers that takes an address from one grouping and a zone from another, both
mandatory. -/
def zoned : List Source.Module :=
  [{ name := "net", modulePrefix := none, namespaceUri := none, revision := none,
     description := none, typedefs := [], rpcs := [], augments := []
     groupings := [
       ⟨"endpoint", none, none,
        ⟨[⟨.leaf ⟨.named "string", true, none⟩, "address", none, none, none, [], []⟩], []⟩⟩,
       ⟨"spot", none, none,
        ⟨[⟨.leaf ⟨.named "string", true, none⟩, "zone", none, none, none, [], []⟩], []⟩⟩]
     data := [⟨.list ["name"], "server", none, none, none,
       [leafOf "name" "string"], ["spot", "endpoint"]⟩] }]

/-- In `zoned` the pass `singleParent` lets a server require the address together with its name. -/
theorem generate_consistent_zoned : ∃ model doc t, link zoned = .ok model ∧
    (∀ id, (model.node id).kind.isStructural = true → (model.propertyNames id).Nodup) ∧
    generate { postprocess := [.singleParent, .wrapPayload] } model = .ok doc ∧
    doc.Holds t ∧ t.required = ["name", "address"] ∧
    t.required.Nodup ∧ ∀ k ∈ t.required, k ∈ t.propertyNames := by
  let s : Settings := { postprocess := [.singleParent, .wrapPayload] }
  obtain ⟨model, h⟩ := exists_ok_of_isSome (x := link zoned) (by decide +kernel)
  have hsize : model.size = 8 := map_of_ok h (by decide +kernel)
  have hnd := nodup_propertyNames hsize
    (map_of_ok h (f := fun model => (List.range 8).all fun id =>
      decide (model.propertyNames id).Nodup) (by decide +kernel))
  obtain ⟨selected, hselected⟩ := exists_ok_of_isSome (x := selectedModules s model)
    (map_of_ok h (f := fun model => (selectedModules s model).toOption.isSome) (by decide +kernel))
  obtain ⟨hexists, hconsistent⟩ := generate_consistent h hnd s hselected
  obtain ⟨doc, hdoc⟩ := hexists (by decide)
  have hrequired : ((generate s model).toOption.bind fun doc =>
      (doc.ownOf "net.Server").map (·.required)) = some ["name", "address"] :=
    map_of_ok h (f := fun model => (generate s model).toOption.bind fun doc =>
      (doc.ownOf "net.Server").map (·.required)) (by decide +kernel)
  rw [hdoc] at hrequired
  obtain ⟨t, ht, hrequired⟩ := Option.map_eq_some_iff.1 hrequired
  have hholds : doc.Holds t := .own ht .self
  exact ⟨model, doc, t, h, hnd, hdoc, hholds, hrequired, hconsistent doc hdoc t hholds⟩

end RestSpec
