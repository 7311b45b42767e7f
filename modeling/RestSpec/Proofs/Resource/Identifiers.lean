/-
Ids of operations. An id is put together from words of lower-case letters and digits, and the first
of them says the method; one that is taken gets a number, which is a word as well. So whatever is
emitted, in whatever order, every operation of the document has an id of that form and shares it
with no other one; the id of an operation that has been replaced is not given out again.
-/
import RestSpec.Proofs.Resource.Address
import RestSpec.Proofs.Resource.Replaced

namespace RestSpec

open Document DataModel

/-! ## The form of an id -/

namespace Naming

open Text

/-- A run of lower-case letters and digits of ASCII that is not empty. -/
def IsWord (w : String) : Prop :=
  w ≠ "" ∧ ∀ c ∈ w.toList, 'a' ≤ c ∧ c ≤ 'z' ∨ '0' ≤ c ∧ c ≤ '9'

/-- The name of the `Method` in lower case. -/
def methodWord : Method → String
  | .get => "get"
  | .put => "put"
  | .post => "post"
  | .delete => "delete"
  | .patch => "patch"

/-- The `methodWord` and words after it, with a single underscore between each two. -/
def IsOperationId (m : Method) (id : String) : Prop :=
  ∃ ws : List String, (∀ w ∈ ws, IsWord w) ∧ id = "_".intercalate (methodWord m :: ws)

/-- The characters that an `IsWord` is a run of. -/
def isWordChar (c : Char) : Bool := c.isLower || c.isDigit

theorem isWordChar_iff {c : Char} :
    isWordChar c = true ↔ 'a' ≤ c ∧ c ≤ 'z' ∨ '0' ≤ c ∧ c ≤ '9' := by
  unfold isWordChar Char.isLower Char.isDigit
  rw [Bool.or_eq_true]
  simp only [Bool.and_eq_true, decide_eq_true_eq, ge_iff_le, Char.le_def]

theorem isWord_ofList {w : List Char} (hw : w ≠ []) (h : ∀ c ∈ w, isWordChar c = true) :
    IsWord (String.ofList w) := by
  refine ⟨by simpa using hw, fun c hc => ?_⟩
  rw [String.toList_ofList] at hc
  exact isWordChar_iff.1 (h c hc)

/-- The name of a method stays one word under `lowercaseAfter`, whatever comes after it. -/
theorem lowercaseAfter_method (m : Method) (rest : List Char) :
    lowercaseAfter [] (m.name.toList ++ rest) =
      (methodWord m).toList ++ lowercaseAfter m.name.toList.reverse rest := by
  cases m <;> rfl

theorem isWord_methodWord (m : Method) :
    (methodWord m).toList ≠ [] ∧ ∀ c ∈ (methodWord m).toList, isWordChar c = true := by
  rw [← List.all_eq_true]
  cases m <;> decide

/-- Whatever the names are, `operationId` makes an `IsOperationId` from a method and names. -/
theorem isOperationId_operationId (m : Method) (names : List String) :
    IsOperationId m (operationId m.name names) := by
  obtain ⟨hne, hall⟩ := isWord_methodWord m
  -- the names are separated from the method by a mark
  obtain ⟨rest, htext, hrest⟩ : ∃ rest, ("_".intercalate (m.name :: names)).toList =
      m.name.toList ++ rest ∧ ∀ c ∈ rest.head?, c = '_' := by
    rw [String.toList_intercalate, List.map_cons]
    cases names with
    | nil => exact ⟨[], by simp, nofun⟩
    | cons n names =>
      rw [List.map_cons, List.intercalate_cons_cons, List.append_assoc]
      exact ⟨_, rfl, fun c hc => (Option.some.inj hc).symm⟩
  have hhead : ∀ c ∈ (lowercaseAfter m.name.toList.reverse rest).head?, isWordChar c = false := by
    cases rest with
    | nil => exact nofun
    | cons c rest =>
      obtain rfl := hrest c rfl
      exact fun c hc => Option.some.inj hc ▸ rfl
  have hwords : words isWordChar (lowercase ("_".intercalate (m.name :: names))).toList =
      (methodWord m).toList :: words isWordChar (lowercaseAfter m.name.toList.reverse rest) := by
    unfold lowercase
    rw [String.toList_ofList, htext, lowercaseAfter_method, words_append hall hne hhead]
  refine ⟨(words isWordChar (lowercaseAfter m.name.toList.reverse rest)).map String.ofList, ?_, ?_⟩
  · intro w hw
    obtain ⟨run, hrun, rfl⟩ := List.mem_map.1 hw
    obtain ⟨hrun, hchars⟩ := words_all _ _ run hrun
    exact isWord_ofList hrun hchars
  · unfold operationId
    dsimp only
    rw [← String.toList_inj, String.toList_ofList, joined_eq_intercalate, String.toList_intercalate]
    show ['_'].intercalate (words isWordChar _) = _
    rw [hwords]
    simp [Function.comp_def]

theorem IsOperationId.numbered {m : Method} {id : String} (h : IsOperationId m id) (n : Nat) :
    IsOperationId m (numbered id "_" n) := by
  obtain ⟨ws, hws, rfl⟩ := h
  refine ⟨ws ++ [toString n], ?_, ?_⟩
  · intro w hw
    rcases List.mem_append.1 hw with hw | hw
    · exact hws w hw
    · obtain rfl := List.mem_singleton.1 hw
      have hdigits : (toString n).toList = Nat.toDigits 10 n := Nat.toList_repr
      refine ⟨fun hnil => ?_, fun c hc => isWordChar_iff.1 ?_⟩
      · rw [← String.toList_eq_nil_iff, hdigits] at hnil
        exact Nat.toDigits_ne_nil hnil
      · rw [hdigits] at hc
        have hdigit := Nat.isDigit_of_mem_toDigits (by decide) (by decide) hc
        simp [isWordChar, hdigit]
  · rw [← List.cons_append, String.intercalate_append_of_ne_nil (List.cons_ne_nil _ _)
      (List.cons_ne_nil _ _), String.intercalate_singleton]
    rfl

theorem IsOperationId.unique {m : Method} {id : String} (h : IsOperationId m id)
    (taken : List String) : IsOperationId m (unique taken id) := by
  rcases unique_spec taken id with ⟨-, heq⟩ | ⟨-, n, heq, -⟩
  · rwa [heq]
  · rw [heq]
    exact h.numbered n

theorem unique_not_mem (taken : List String) (name : String) : unique taken name ∉ taken := by
  rcases unique_spec taken name with ⟨hfree, heq⟩ | ⟨-, n, heq, hfirst⟩
  · rwa [heq]
  · rw [heq]
    exact hfirst.free

end Naming

/-! ## Ids of what has been emitted -/

/-- Every operation in `emitted` has an id of the form `IsOperationId`, and no two have one id. -/
structure Progress.Identified (p : Progress) : Prop where
  nodup : p.operationIds.Nodup
  named : ∀ e ∈ p.emitted, ∃ id, e.operation.operationId = some id ∧
    Naming.IsOperationId e.method id

section Identified

variable {s : Settings} {model : DataModel} {p p' : Progress}

theorem Progress.operationIds_emit (p : Progress) (path : String) (m : Method)
    (names : List String) (op : Operation) : (p.emit path m names op).operationIds =
      p.operationIds ++ [Naming.unique p.operationIds (Naming.operationId m.name names)] := by
  simp [operationIds, emit]

theorem Progress.identified_empty : Progress.Identified {} := ⟨List.nodup_nil, nofun⟩

/-- `emit` gives an operation an id that no other has, those that have been replaced included. -/
theorem Progress.Identified.emit (h : p.Identified) (path : String) (m : Method)
    (names : List String) (op : Operation) : (p.emit path m names op).Identified := by
  refine ⟨?_, fun e he => ?_⟩
  · rw [Progress.operationIds_emit, ← List.concat_eq_append]
    exact h.nodup.concat (Naming.unique_not_mem _ _)
  · rcases List.mem_append.1 he with he | he
    · exact h.named e he
    · obtain rfl := List.mem_singleton.1 he
      exact ⟨_, rfl, (Naming.isOperationId_operationId m names).unique _⟩

/-- Definitions have no part in `Identified`. -/
theorem Progress.Identified.withDefinitions (h : p.Identified) (defs : Definitions) :
    Progress.Identified { p with definitions := defs } :=
  ⟨h.nodup, h.named⟩

theorem Progress.Identified.emitData (hp : p.Identified) {route : Route} {id : NodeId}
    (h : emitData s model route id p = .ok p') : p'.Identified := by
  unfold RestSpec.emitData at h
  obtain ⟨⟨defs, schema⟩, -, h⟩ := bind_eq_ok.1 h
  have hread : (emitRead s model route id schema { p with definitions := defs }).Identified :=
    (hp.withDefinitions defs).emit _ _ _ _
  have hwrites : (emitWrites s model route id schema
      (emitRead s model route id schema { p with definitions := defs })).Identified := by
    have hdelete := ((hread.emit (s.dataPath route) .put (route.map (·.name))
      ((subjectAt model route id).put schema)).emit (s.dataPath route) .post (route.map (·.name))
      ((subjectAt model route id).post schema)).emit (s.dataPath route) .delete
      (route.map (·.name)) (subjectAt model route id).delete
    unfold emitWrites
    dsimp only
    split
    · exact hdelete.emit _ _ _ _
    · exact hdelete
  dsimp only at h
  split at h
  · cases h
    exact hread
  · cases h
    split
    · exact hwrites.emit _ _ _ _
    · exact hwrites

theorem Progress.Identified.emitCall (hp : p.Identified) {call : NodeId}
    (h : emitCall s model call p = .ok p') : p'.Identified := by
  unfold RestSpec.emitCall at h
  obtain ⟨⟨defs, input, output⟩, -, h⟩ := bind_eq_ok.1 h
  cases h
  exact (hp.withDefinitions defs).emit _ _ _ _

/-- Two operations in `emitted` with one id are one and the same. -/
theorem Progress.Identified.eq_of_id (h : p.Identified) {e e' : Emission} (he : e ∈ p.emitted)
    (he' : e' ∈ p.emitted) (hid : e.operation.operationId = e'.operation.operationId) : e = e' := by
  have hids : p.emitted.map (·.operation.operationId) = p.operationIds.map some := by
    unfold Progress.operationIds
    rw [List.map_filterMap]
    rw [← List.filterMap_eq_map]
    refine List.filterMap_congr fun e he => ?_
    obtain ⟨id, hid, -⟩ := h.named e he
    simp [hid]
  have hnodup : (p.emitted.map (·.operation.operationId)).Nodup :=
    hids ▸ h.nodup.map (Option.some_injective _)
  exact List.inj_on_of_nodup_map hnodup he he' hid

/-- In the `document` ids are different as well, and of the form `IsOperationId` for the methods
they stand at. -/
theorem Progress.Identified.document (h : p.Identified) {start : Document}
    (hstart : ∀ path m, start.operation? path m = none) :
    ((p.document start).operations.map fun op => op.2.2.operationId).Nodup ∧
      ∀ op ∈ (p.document start).operations, ∃ id, op.2.2.operationId = some id ∧
        Naming.IsOperationId op.2.1 id := by
  have hemitted : ∀ op ∈ (p.document start).operations, ⟨op.1, op.2.1, op.2.2⟩ ∈ p.emitted :=
    fun op hop => p.emitted_of_operation? hstart (mem_operations_iff.1 hop)
  refine ⟨?_, fun op hop => h.named _ (hemitted op hop)⟩
  refine List.Nodup.map_on (fun op hop op' hop' hid => ?_)
    (List.Nodup.of_map _ (p.document start).nodup_places)
  have hsame := h.eq_of_id (hemitted op hop) (hemitted op' hop') hid
  simpa [Prod.ext_iff] using hsame

end Identified

/-! ## Any operations in any order -/

/-- What operations are asked for: those on a data node that a route leads to, or the one of an
rpc. -/
inductive Request where
  | data (route : Route) (id : NodeId)
  | call (id : NodeId)

/-- Emits the operations of a `Request`, by `emitData` or `emitCall`. -/
def Progress.serve (s : Settings) (model : DataModel) (p : Progress) :
    Request → Except CompileError Progress
  | .data route id => emitData s model route id p
  | .call id => emitCall s model id p

/-- `serve` succeeds whatever is asked for, and the ids stay `Identified`. -/
theorem Progress.serve_ok {model : DataModel} (hm : model.Linked) (s : Settings) {p : Progress}
    (h : p.Sound s.strategy model ∧ p.Identified) (request : Request) :
    ∃ p', p.serve s model request = .ok p' ∧ p'.Sound s.strategy model ∧ p'.Identified := by
  cases request with
  | data route id =>
    obtain ⟨p', hp', hsound⟩ := emitData_ok s hm h.1 route id
    exact ⟨p', hp', hsound, h.2.emitData hp'⟩
  | call id =>
    obtain ⟨p', hp', hsound⟩ := emitCall_ok s hm h.1 id
    exact ⟨p', hp', hsound, h.2.emitCall hp'⟩

/-- For every linked model, whatever its names are, and for every list of a `Request` each, the
operations of the document have ids that differ, each an `IsOperationId`: the method in lower case
and words of lower-case letters and digits with single underscores between. No id is given out twice
in the run, either. -/
theorem operationIds_distinct {sources : List Source.Module} {model : DataModel}
    (h : link sources = .ok model) (s : Settings) (requests : List Request) {start : Document}
    (hstart : ∀ path m, start.operation? path m = none) :
    ∃ p, requests.foldlM (Progress.serve s model) {} = .ok p ∧ p.operationIds.Nodup ∧
      ((p.document start).operations.map fun op => op.2.2.operationId).Nodup ∧
      ∀ op ∈ (p.document start).operations, ∃ id, op.2.2.operationId = some id ∧
        Naming.IsOperationId op.2.1 id := by
  obtain ⟨p, hp, -, hids⟩ := foldlM_ok
    (fun p : Progress => p.Sound s.strategy model ∧ p.Identified) requests {}
    (fun request _ p hp => Progress.serve_ok (linked_of_link h).1 s hp request)
    ⟨Progress.sound_empty s.strategy model, Progress.identified_empty⟩
  exact ⟨p, hp, hids.nodup, hids.document hstart⟩

/-- Names that lose their differences on the way to an `operationId`, or all of their letters, and
one that looks as if it had got a number. -/
def alike : List Source.Module :=
  [{ name := "net", modulePrefix := none, namespaceUri := none, revision := none,
     description := none, typedefs := [], groupings := [], augments := [], rpcs := []
     data := [containerOf "Link-Up" [] [], containerOf "link.up" [] [],
       containerOf "link up 1" [] [], containerOf "ΣΣ" [] []] }]

theorem link_alike : ∃ model, link alike = .ok model :=
  exists_ok_of_isSome (by decide +kernel)

theorem operationIds_distinct_alike : ∃ model p, link alike = .ok model ∧
    ([0, 1, 2, 3, 0].map fun id => Request.data (Route.toNode model [] id) id).foldlM
      (Progress.serve {} model) {} = .ok p ∧ p.operationIds.Nodup ∧
    ((p.document {}).operations.map fun op => op.2.2.operationId).Nodup ∧
    ∀ op ∈ (p.document {}).operations, ∃ id, op.2.2.operationId = some id ∧
      Naming.IsOperationId op.2.1 id := by
  obtain ⟨model, h⟩ := link_alike
  have hempty : ∀ path m, ({} : Document).operation? path m = none := fun _ _ => rfl
  obtain ⟨p, hp⟩ := operationIds_distinct h {}
    ([0, 1, 2, 3, 0].map fun id => Request.data (Route.toNode model [] id) id) hempty
  exact ⟨model, p, h, hp⟩

end RestSpec
