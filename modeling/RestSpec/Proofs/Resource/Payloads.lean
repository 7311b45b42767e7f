/-
Payloads under the name of what they are about. Where no name along a route holds a mark that parts
a path, the last label is read back from the path of the node and from the path of its list, in
every dialect and however many parameters follow the label; so payloads at both are wrapped under
the label with which the last segment is written.
-/
import RestSpec.Proofs.Pass.Payload
import RestSpec.Proofs.Resource.Address

namespace RestSpec

open Document DataModel

/-! ## The key of a route -/

/-- Routes whose names are each a `PlainName`: along nodes of a model, or along names that no node
has. -/
inductive Route.Plain (marks : List Char) (model : DataModel) : Route → Prop
  | top : Plain marks model []
  | node {above : Route} {id : NodeId} : Plain marks model above →
      PlainName marks (model.node id).name → PlainName marks (model.node id).moduleName →
      (∀ key ∈ (model.node id).kind.keys, PlainName marks key) →
      Plain marks model (above.toNode model id)
  | name {above : Route} {name moduleName : String} : Plain marks model above →
      PlainName marks name → PlainName marks moduleName →
      Plain marks model (above.toName name moduleName)

section Keys

variable {marks : List Char} {s : Settings} {model : DataModel} {route : Route}

theorem Settings.Marks.mono {marks' : List Char} (h : s.Marks marks) (hle : marks' ⊆ marks)
    (hslash : '/' ∈ marks') : s.Marks marks' :=
  ⟨hslash, fun huse hcolon => h.colon huse (hle hcolon), fun hhyphen => h.hyphen (hle hhyphen),
    fun c hc => h.digits c (hle hc), fun root hroot => (h.roots root hroot).mono hle⟩

theorem Route.Plain.segments (hmarks : s.Marks marks) (h : route.Plain marks model) :
    ∀ segment ∈ route, segment.Plain marks := by
  induction h with
  | top => exact nofun
  | node _ hname hmodule hkeys ih =>
    exact Route.forall_mem_toNode ih ⟨hname, hmodule,
      Route.keyParameters_disjoint hmarks.hyphen hmarks.digits hmodule.disjoint hname.disjoint _ _
        fun key hkey => (hkeys key hkey).disjoint⟩
  | name _ hname hmodule ih =>
    intro segment hsegment
    rcases List.mem_append.1 hsegment with hsegment | hsegment
    · exact ih segment hsegment
    · obtain rfl := List.mem_singleton.1 hsegment
      exact ⟨hname, hmodule, nofun⟩

/-- In a linked model of `PlainNames`, each node but an augment lays a `Plain` route further
down. -/
theorem DataModel.PlainNames.plain (h : model.PlainNames marks) (hm : model.Linked) {above : Route}
    (habove : above.Plain marks model) {id : NodeId} (hid : id < model.size)
    (hkind : (model.node id).kind.isAugment = false) : (above.toNode model id).Plain marks model :=
  .node habove (h.nodes id hid hkind) (h.modules _ (hm.home id hid)) (h.keys id hid)

/-- No path of data is one that `isCallPath` takes for that of an rpc. -/
theorem isCallPath_of_text {a : Address} (hroot : a.root = s.dialect.dataRoot)
    (hparts : a.parts ≠ []) {path : String} (hpath : path.toList = a.text s.dialect) :
    isCallPath path = false := by
  obtain ⟨part, parts, heq⟩ := List.exists_cons_of_ne_nil hparts
  unfold isCallPath
  rw [hpath]
  unfold Address.text
  rw [hroot, heq]
  -- one text for each dialect: none has its data below the root of its calls
  cases s.dialect <;> rfl

/-- The `payloadKeys` of a path are its last label, with no mark in the names on the way. -/
theorem payloadKeys_of_text {a : Address} (h : a.FreeOf marks) (hmarks : ['/', '{', '='] ⊆ marks)
    (hroot : a.root = s.dialect.dataRoot) {front : List (String × List String)} {label : String}
    {names : List String} (hparts : a.parts = front ++ [(label, names)]) {path : String}
    (hpath : path.toList = a.text s.dialect) : payloadKeys path = (label, label) := by
  have hne : a.parts ≠ [] := by
    rw [hparts]
    exact List.append_ne_nil_of_right_ne_nil _ (List.cons_ne_nil _ _)
  unfold payloadKeys
  rw [isCallPath_of_text hroot hne hpath, Address.payloadKey_text h hmarks hparts hpath]
  rfl

variable (hmarks : s.Marks marks) (hall : ['/', '{', '='] ⊆ marks)
  (hroute : ∀ segment ∈ route, segment.Plain marks) {last : Segment}
  (hlast : route.getLast? = some last)

include hmarks hall hroute hlast

theorem payloadKeys_dataPath :
    payloadKeys (s.dataPath route) = (last.label s.useModuleName, last.label s.useModuleName) := by
  obtain ⟨front, rfl⟩ := List.getLast?_eq_some_iff.1 hlast
  exact payloadKeys_of_text (Settings.dataAddress_freeOf hmarks hroute) hall rfl
    (List.map_append ..) (Settings.toList_dataPath hmarks hroute (by simp))

theorem payloadKeys_listPath :
    payloadKeys (s.listPath route) = (last.label s.useModuleName, last.label s.useModuleName) := by
  have hparts : (s.listAddress route).parts = route.dropLast.map (Segment.part s.useModuleName) ++
      [Segment.collectionPart s.useModuleName last] := by
    unfold Settings.listAddress
    rw [hlast]
    rfl
  have hne : route ≠ [] := by
    rintro rfl
    cases hlast
  exact payloadKeys_of_text (Settings.listAddress_freeOf hmarks hroute) hall rfl hparts
    (Settings.toList_listPath hmarks hroute hne)

end Keys

/-- `wrapPayloads` wraps the references and arrays of an operation at the `dataPath` of a route, or
at its `listPath`, under the `label` of the last segment; the other payloads and the rest of the
operation stay. -/
theorem wrapPayloads_under_label {model : DataModel} {route : Route}
    (hroute : route.Plain ['/', '{', '}', '='] model) {last : Segment}
    (hlast : route.getLast? = some last) (s : Settings) (doc : Document) {path : String}
    (hpath : path ∈ [s.dataPath route, s.listPath route]) (m : Method) :
    doc.wrapPayloads.operation? path m = (doc.operation? path m).map
      (Operation.mapPayloads fun payload =>
        if payload.isReference ∨ payload.type = some .array then
          Schema.object [(last.label s.useModuleName, payload)]
        else payload) := by
  have hmarks : s.Marks ['/', '{', '}', '='] := s.marks.mono (by decide) (by decide)
  have hplain := hroute.segments hmarks
  have hkeys : payloadKeys path = (last.label s.useModuleName, last.label s.useModuleName) := by
    simp only [List.mem_cons, List.not_mem_nil, or_false] at hpath
    rcases hpath with rfl | rfl
    · exact payloadKeys_dataPath hmarks (by decide) hplain hlast
    · exact payloadKeys_listPath hmarks (by decide) hplain hlast
  rw [operation?_wrapPayloads_of_keys hkeys]
  exact congrArg (Option.map · _) (congrArg _ (funext (Schema.wrap_eq _)))

/-- A document in which a server is asked for, and one is added to the list of servers. -/
def serverPayloads : Document :=
  let answer : Operation := Operation.withResponse {} "200"
    { description := "", schema := some (.referenceTo "Server") }
  let request : Operation :=
    { parameters := [.inBody "body" (.arrayOf (.referenceTo "Server")) none] }
  (Document.addOperation {} "/data/net:server=\x7bname\x7d,\x7bzone\x7d" .get answer).addOperation
    "/data/net:server/" .post request

/-- In `serverPayloads` the payloads are wrapped under the module and name of the server, with its
keys in the path and without them. -/
theorem wrapPayloads_under_label_servers : ∃ model, link servers = .ok model ∧
    Route.Plain ['/', '{', '}', '='] model (Route.toNode model [] 0) ∧
    ((serverPayloads.wrapPayloads.operation?
      (Settings.dataPath { useModuleName := true } (Route.toNode model [] 0)) .get).map
        fun op => op.payloads.map (·.properties.map (·.1))) = some [["net:server"]] ∧
    ((serverPayloads.wrapPayloads.operation?
      (Settings.listPath { useModuleName := true } (Route.toNode model [] 0)) .post).map
        fun op => op.payloads.map (·.properties.map (·.1))) = some [["net:server"]] := by
  obtain ⟨model, h⟩ := link_servers
  obtain ⟨hm, -⟩ := linked_of_link h
  have hnames : model.PlainNames ['/', '{', '}', '='] := of_decide_eq_true <|
    map_of_ok h (f := fun model => decide (model.PlainNames ['/', '{', '}', '='])) (b := true)
      (by decide +kernel)
  have hnode : 0 < model.size ∧ (model.node 0).kind.isAugment = false := of_decide_eq_true <|
    map_of_ok h (f := fun model =>
      decide (0 < model.size ∧ (model.node 0).kind.isAugment = false)) (b := true)
      (by decide +kernel)
  have hwritten := map_of_ok h (f := fun model =>
    (Settings.dataPath { useModuleName := true } (Route.toNode model [] 0),
      Settings.listPath { useModuleName := true } (Route.toNode model [] 0),
      (Route.segmentOf model [] 0).label true))
    (b := ("/data/net:server=\x7bname\x7d,\x7bzone\x7d", "/data/net:server/", "net:server"))
    (by decide +kernel)
  simp only [Prod.mk.injEq] at hwritten
  obtain ⟨hdata, hlist, hlabel⟩ := hwritten
  have hplain := hnames.plain hm .top hnode.1 hnode.2
  have hget := wrapPayloads_under_label hplain List.getLast?_concat { useModuleName := true }
    serverPayloads List.mem_cons_self .get
  have hpost := wrapPayloads_under_label hplain List.getLast?_concat { useModuleName := true }
    serverPayloads (List.mem_cons_of_mem _ List.mem_cons_self) .post
  rw [hlabel] at hget hpost
  refine ⟨model, h, hplain, ?_, ?_⟩
  · rw [hget, hdata]
    decide +kernel
  · rw [hpost, hlist]
    decide +kernel

end RestSpec
