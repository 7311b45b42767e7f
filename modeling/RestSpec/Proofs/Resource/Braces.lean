/-
Names in braces. Where no module, node or key has a brace in its name, the only braces of a path
are those around its parameters, so what stands between them is read off again name by name. Each
operation is emitted with just these parameters in its path, those of the whole route or, for a new
entry of a list, of the route above it; no name is given twice on a route; and no pass changes the
parameters of an operation that are in its path.
-/
import RestSpec.Proofs.DataModel.Substitution
import RestSpec.Proofs.Resource.Address
import RestSpec.Proofs.Resource.Parameters

namespace RestSpec

open Document DataModel

/-! ## Reading names in braces -/

/-- The names between braces from left to right, by one scan; its first argument is what has been
read of a name whose brace is open. -/
def bracedAfter : Option (List Char) → List Char → List String
  | _, [] => []
  | none, c :: cs => bracedAfter (if c = '{' then some [] else none) cs
  | some name, c :: cs =>
    if c = '}' then String.ofList name :: bracedAfter none cs
    else bracedAfter (some (name ++ [c])) cs

/-- The names that stand between braces in a text, by `bracedAfter`. -/
def braced (text : String) : List String := bracedAfter none text.toList

/-- A text that adds `names` to what `bracedAfter` finds in any rest, and leaves no brace open. -/
def Holds (text : List Char) (names : List String) : Prop :=
  ∀ rest, bracedAfter none (text ++ rest) = names ++ bracedAfter none rest

section Holds

variable {text text' w : List Char} {names names' : List String} {n : String}

theorem Holds.braced {text : String} (h : Holds text.toList names) : braced text = names := by
  have hall := h []
  rw [List.append_nil] at hall
  exact hall.trans (List.append_nil names)

theorem Holds.append (h : Holds text names) (h' : Holds text' names') :
    Holds (text ++ text') (names ++ names') := by
  intro rest
  rw [List.append_assoc, h, h', List.append_assoc]

theorem holds_of_not_mem (h : '{' ∉ w) : Holds w [] := by
  intro rest
  induction w with
  | nil => rfl
  | cons c w ih =>
    rw [List.cons_append, bracedAfter, if_neg (List.ne_of_not_mem_cons h).symm]
    exact ih (List.not_mem_of_not_mem_cons h)

theorem bracedAfter_some (h : '}' ∉ w) (before rest : List Char) :
    bracedAfter (some before) (w ++ '}' :: rest) =
      String.ofList (before ++ w) :: bracedAfter none rest := by
  induction w generalizing before with
  | nil => rw [List.nil_append, bracedAfter, if_pos rfl, List.append_nil]
  | cons c w ih =>
    rw [List.cons_append, bracedAfter, if_neg (List.ne_of_not_mem_cons h).symm,
      ih (List.not_mem_of_not_mem_cons h), List.append_assoc]
    rfl

theorem holds_placeholder (h : '}' ∉ n.toList) : Holds (Dialect.placeholder n).toList [n] := by
  intro rest
  have hname := bracedAfter_some h [] rest
  rw [List.nil_append, String.ofList_toList] at hname
  rw [Address.toList_placeholder, List.append_assoc, List.cons_append, bracedAfter, if_pos rfl]
  exact hname

theorem holds_flatten {α : Type} {f : α → List Char} {g : α → List String} :
    ∀ {l : List α}, (∀ a ∈ l, Holds (f a) (g a)) → Holds (l.flatMap f) (l.flatMap g)
  | [], _ => fun _ => rfl
  | a :: l, h => by
    obtain ⟨ha, hl⟩ := List.forall_mem_cons.1 h
    rw [List.flatMap_cons, List.flatMap_cons]
    exact ha.append (holds_flatten hl)

theorem holds_intercalate {α : Type} (mark : List Char) (hmark : '{' ∉ mark) {f : α → List Char}
    {g : α → List String} : ∀ {l : List α}, (∀ a ∈ l, Holds (f a) (g a)) →
      Holds (mark.intercalate (l.map f)) (l.flatMap g)
  | [], _ => fun _ => rfl
  | [a], h => by simpa using h a List.mem_cons_self
  | a :: b :: l, h => by
    obtain ⟨ha, hl⟩ := List.forall_mem_cons.1 h
    have hfirst := ha.append (holds_of_not_mem hmark)
    rw [List.append_nil] at hfirst
    rw [List.map_cons, List.map_cons, List.intercalate_cons_cons, List.flatMap_cons,
      ← List.map_cons]
    exact hfirst.append (holds_intercalate mark hmark hl)

end Holds

/-! ## Braces in paths -/

/-- The marks around the name of a parameter in a path. -/
def braces : List Char := ['{', '}']

/-- A segment without `braces` in its names. -/
structure Segment.Unbraced (s : Segment) : Prop where
  name : s.name.toList.Disjoint braces
  moduleName : s.moduleName.toList.Disjoint braces
  parameters : ∀ p ∈ s.parameters, p.name.toList.Disjoint braces

section Paths

variable {s : Settings} {route : Route} {w : List Char}

theorem open_not_mem (h : w.Disjoint braces) : '{' ∉ w := fun hmem => h hmem (by decide)

theorem close_not_mem (h : w.Disjoint braces) : '}' ∉ w := fun hmem => h hmem (by decide)

theorem holds_writeParameters (d : Dialect) {names : List String}
    (h : ∀ n ∈ names, n.toList.Disjoint braces) :
    Holds (d.writeParameters names).toList names := by
  have hplaceholder : ∀ n ∈ names, Holds (Dialect.placeholder n).toList [n] := fun n hn =>
    holds_placeholder (close_not_mem (h n hn))
  have hslash : Holds ['/'] [] := holds_of_not_mem (by decide)
  have heq : Holds ['='] [] := holds_of_not_mem (by decide)
  by_cases hd : d = .rfc8040
  · subst hd
    cases names with
    | nil => exact fun _ => rfl
    | cons n names =>
      have hall := heq.append (holds_intercalate [','] (by decide) hplaceholder)
      simpa [Dialect.writeParameters, Function.comp_def] using hall
  · have hall := holds_flatten fun n hn => hslash.append (hplaceholder n hn)
    rw [Address.toList_writeParameters hd, List.flatMap_map]
    simpa using hall

theorem holds_label (useModuleName : Bool) {segment : Segment} (h : segment.Unbraced) :
    Holds (segment.label useModuleName).toList [] :=
  holds_of_not_mem (open_not_mem (Segment.label_disjoint h.name h.moduleName fun _ => by decide))

theorem holds_write (d : Dialect) (useModuleName : Bool) {segment : Segment}
    (h : segment.Unbraced) :
    Holds (segment.write d useModuleName).toList (segment.parameters.map (·.name)) := by
  unfold Segment.write
  rw [String.toList_append]
  refine (holds_label useModuleName h).append (holds_writeParameters d fun n hn => ?_)
  obtain ⟨p, hp, rfl⟩ := List.mem_map.1 hn
  exact h.parameters p hp

theorem holds_withFinalSlash {path : String} {names : List String} (h : Holds path.toList names) :
    Holds (withFinalSlash path).toList names := by
  unfold withFinalSlash
  split
  · exact h
  · have hslash : Holds "/".toList [] := holds_of_not_mem (by decide)
    have hall := h.append hslash
    rwa [List.append_nil, ← String.toList_append] at hall

theorem holds_rooted {root path : String} {names : List String} (hroot : '{' ∉ root.toList)
    (h : Holds path.toList names) : Holds ("/" ++ root ++ "/" ++ path).toList names := by
  have hslash : Holds ['/'] [] := holds_of_not_mem (by decide)
  have hall := ((hslash.append (holds_of_not_mem hroot)).append hslash).append h
  simpa using hall

theorem parameterNames_eq_flatMap (route : Route) :
    route.parameterNames = route.flatMap fun segment => segment.parameters.map (·.name) := by
  unfold Route.parameterNames Route.parameters
  rw [List.map_flatMap]

variable (hroute : ∀ segment ∈ route, segment.Unbraced)

include hroute

theorem holds_path (d : Dialect) (useModuleName : Bool) :
    Holds (route.path d useModuleName).toList route.parameterNames := by
  have htext : Holds ("/".intercalate (route.map (Segment.write d useModuleName))).toList
      route.parameterNames := by
    rw [String.toList_intercalate, List.map_map, parameterNames_eq_flatMap]
    exact holds_intercalate _ (by decide) fun segment hsegment =>
      holds_write d useModuleName (hroute segment hsegment)
  unfold Route.path
  cases d with
  | odl => exact holds_withFinalSlash htext
  | _ => exact htext

/-- The path `dataPath` of a route holds the parameters of the whole route in braces. -/
theorem braced_dataPath : braced (s.dataPath route) = route.parameterNames := by
  refine Holds.braced (holds_rooted ?_ (holds_path hroute _ _))
  cases s.dialect <;> decide

/-- The path `listPath` of a list holds the parameters of the route above it in braces. -/
theorem braced_listPath {segment : Segment} (hlast : segment.Unbraced) :
    braced (s.listPath (route ++ [segment])) = route.parameterNames := by
  -- each text with the names that it holds; the last segment is written without its parameters
  let parts : List (List Char × List String) :=
    route.map (fun x => ((x.write s.dialect s.useModuleName).toList, x.parameters.map (·.name))) ++
      [((segment.label s.useModuleName).toList, [])]
  have hparts : ∀ part ∈ parts, Holds part.1 part.2 := by
    intro part hpart
    rcases List.mem_append.1 hpart with hpart | hpart
    · obtain ⟨x, hx, rfl⟩ := List.mem_map.1 hpart
      exact holds_write _ _ (hroute x hx)
    · obtain rfl := List.mem_singleton.1 hpart
      exact holds_label _ hlast
  have hall := holds_intercalate ['/'] (by decide) hparts
  have hnames : parts.flatMap Prod.snd = route.parameterNames := by
    rw [parameterNames_eq_flatMap, List.flatMap_append, List.flatMap_map, List.flatMap_singleton,
      List.append_nil]
  have htexts : ['/'].intercalate (parts.map Prod.fst) =
      ("/".intercalate (route.map (Segment.write s.dialect s.useModuleName) ++
        [segment.label s.useModuleName])).toList := by
    rw [String.toList_intercalate, List.map_append, List.map_append, List.map_map, List.map_map]
    rfl
  rw [hnames, htexts] at hall
  unfold Settings.listPath Route.listPath
  rw [List.dropLast_concat, List.getLast?_concat]
  refine Holds.braced (holds_rooted ?_ (holds_withFinalSlash hall))
  cases s.dialect <;> decide

end Paths

/-! ## Parameters of operations -/

/-- The names of the parameters of a `Subject` that are in the path. -/
def Subject.pathNames (subject : Subject) : List String :=
  (subject.parameters.filter (·.location == .path)).map (·.name)

section Operations

variable (subject : Subject) (schema : Schema)

/-- A parameter in the body is not among `pathParameterNames`. -/
theorem pathParameterNames_inBody (op : Operation) (name : String) (description : Option String) :
    Operation.pathParameterNames
        { op with parameters := op.parameters ++ [Parameter.inBody name schema description] } =
      op.pathParameterNames := by
  unfold Operation.pathParameterNames
  rw [List.filter_append]
  simp [Parameter.inBody]

theorem Subject.pathParameterNames_get : (subject.get schema).pathParameterNames =
    subject.pathNames := rfl

theorem Subject.pathParameterNames_put : (subject.put schema).pathParameterNames =
    subject.pathNames :=
  pathParameterNames_inBody schema _ _ _

theorem Subject.pathParameterNames_post : (subject.post schema).pathParameterNames =
    subject.pathNames :=
  pathParameterNames_inBody schema _ _ _

theorem Subject.pathParameterNames_delete : subject.delete.pathParameterNames =
    subject.pathNames := rfl

theorem Subject.pathParameterNames_patch : (subject.patch schema).pathParameterNames =
    subject.pathNames :=
  pathParameterNames_inBody schema _ _ _

theorem Subject.pathParameterNames_call (input output : Option Schema) :
    (subject.call input output).pathParameterNames = subject.pathNames := by
  unfold Subject.call
  cases input with
  | none => cases output <;> rfl
  | some schema => cases output <;> exact pathParameterNames_inBody schema _ _ _

theorem pathNames_subjectOf (model : DataModel) (id : NodeId) (ps : List KeyParameter) :
    (subjectOf model id (pathParameters model ps)).pathNames = ps.map (·.name) := by
  unfold Subject.pathNames subjectOf pathParameters
  dsimp only
  rw [List.filter_eq_self.2 fun p hp => ?_, List.map_map]
  · rfl
  · obtain ⟨q, -, rfl⟩ := List.mem_map.1 hp
    rfl

end Operations

/-! ## Emitting -/

/-- An operation at a path in which its `pathParameterNames` stand between braces, in order and each
once. -/
structure Agrees (path : String) (op : Operation) : Prop where
  names : braced path = op.pathParameterNames
  distinct : op.pathParameterNames.Nodup

/-- Every operation in `emitted` `Agrees` with its path. -/
def Progress.Agrees (p : Progress) : Prop := ∀ e ∈ p.emitted, RestSpec.Agrees e.path e.operation

theorem Progress.Agrees.emit {p : Progress} (h : p.Agrees) {path : String} {op : Operation}
    (hop : RestSpec.Agrees path op) (m : Method) (names : List String) :
    (p.emit path m names op).Agrees := by
  intro e he
  rcases List.mem_append.1 he with he | he
  · exact h e he
  · obtain rfl := List.mem_singleton.1 he
    exact ⟨hop.names, hop.distinct⟩

/-- Modules, nodes and keys have names without `braces`; the name of an augment is a path and is
left out. -/
structure DataModel.Unbraced (model : DataModel) : Prop where
  modules : ∀ n ∈ model.moduleNames, n.toList.Disjoint braces
  nodes : ∀ id < model.size, (model.node id).kind.isAugment = false →
    (model.node id).name.toList.Disjoint braces
  keys : ∀ id < model.size, ∀ key ∈ (model.node id).kind.keys, key.toList.Disjoint braces

theorem DataModel.PlainNames.unbraced {model : DataModel} (h : model.PlainNames braces) :
    model.Unbraced :=
  ⟨fun n hn => (h.modules n hn).disjoint, fun id hid hkind => (h.nodes id hid hkind).disjoint,
    fun id hid key hkey => (h.keys id hid key hkey).disjoint⟩

/-- A route from the top that is `Laid`, with segments that are `Unbraced`. -/
structure Route.Clear (model : DataModel) (route : Route) : Prop where
  laid : Route.Laid model route
  unbraced : ∀ segment ∈ route, segment.Unbraced

section Emit

variable {s : Settings} {model : DataModel} {p p' : Progress} {above : Route} {id : NodeId}

theorem DataModel.Unbraced.segmentOf (h : model.Unbraced) (hm : model.Linked)
    (hresource : (model.node id).kind.isResource = true) (above : Route) :
    (Route.segmentOf model above id).Unbraced := by
  have hid := lt_size_of_isResource hresource
  have hname := h.nodes id hid (Kind.isAugment_of_isResource hresource)
  have hmodule := h.modules _ (hm.home id hid)
  have hdigits : ∀ c ∈ braces, c.isDigit = false := by simp [braces]
  exact ⟨hname, hmodule, Route.keyParameters_disjoint (by decide) hdigits hmodule hname _ _
    (h.keys id hid)⟩

theorem Route.Clear.toNode (h : above.Clear model) (hlast : (segmentOf model above id).Unbraced) :
    Route.Clear model (above.toNode model id) :=
  ⟨.node id h.laid, forall_mem_toNode h.unbraced hlast⟩

theorem agrees_dataPath {route : Route} (h : route.Clear model) {op : Operation}
    (hop : op.pathParameterNames = (subjectAt model route id).pathNames) :
    Agrees (s.dataPath route) op := by
  have hnames : op.pathParameterNames = route.parameterNames :=
    hop.trans (pathNames_subjectOf model id _)
  refine ⟨(braced_dataPath h.unbraced).trans hnames.symm, ?_⟩
  rw [hnames]
  exact h.laid.nodup

theorem emitWrites_agrees (s : Settings) (id : NodeId) {route : Route} (h : route.Clear model)
    (schema : Schema) (hp : p.Agrees) : (emitWrites s model route id schema p).Agrees := by
  have hput := hp.emit (agrees_dataPath (s := s) h
    ((subjectAt model route id).pathParameterNames_put schema)) .put (route.map (·.name))
  have hpost := hput.emit (agrees_dataPath (s := s) h
    ((subjectAt model route id).pathParameterNames_post schema)) .post (route.map (·.name))
  have hdelete := hpost.emit (agrees_dataPath (s := s) h
    (subjectAt model route id).pathParameterNames_delete) .delete (route.map (·.name))
  unfold emitWrites
  dsimp only
  split
  · exact hdelete.emit (agrees_dataPath h
      ((subjectAt model route id).pathParameterNames_patch schema)) .patch _
  · exact hdelete

/-- `emitEntry` keeps all that is emitted in agreement with its path: the new operation is at
`listPath`, with the parameters of the route above the list. -/
theorem emitEntry_agrees (h : above.Clear model) (hlast : (Route.segmentOf model above id).Unbraced)
    (schema : Schema) (hp : p.Agrees) :
    (emitEntry s model (above.toNode model id) id schema p).Agrees := by
  have hdrop : List.dropLast (above.toNode model id) = above := List.dropLast_concat
  have hop : ((subjectOf model id (pathParameters model above.parameters)).post
      schema).pathParameterNames = above.parameterNames := by
    rw [Subject.pathParameterNames_post, pathNames_subjectOf]
    rfl
  unfold emitEntry
  rw [hdrop]
  refine hp.emit ⟨?_, hop.symm ▸ h.laid.nodup⟩ .post _
  rw [hop]
  exact braced_listPath h.unbraced hlast

theorem emitData_agrees (h : above.Clear model) (hlast : (Route.segmentOf model above id).Unbraced)
    (hp : p.Agrees) (hok : emitData s model (above.toNode model id) id p = .ok p') : p'.Agrees := by
  have hroute := h.toNode hlast
  unfold emitData at hok
  obtain ⟨⟨defs, schema⟩, -, hok⟩ := bind_eq_ok.1 hok
  dsimp only at hok
  have hread : (emitRead s model (above.toNode model id) id schema
      { p with definitions := defs }).Agrees :=
    Progress.Agrees.emit (p := { p with definitions := defs }) hp
      (agrees_dataPath hroute (Subject.pathParameterNames_get _ _)) .get _
  have hwrites := emitWrites_agrees s id hroute schema hread
  split at hok
  · cases hok
    exact hread
  · cases hok
    split
    · exact emitEntry_agrees h hlast schema hwrites
    · exact hwrites

theorem emitCall_agrees {call : NodeId} (hname : (model.node call).name.toList.Disjoint braces)
    (hmodule : (model.node call).moduleName.toList.Disjoint braces) (hp : p.Agrees)
    (hok : emitCall s model call p = .ok p') : p'.Agrees := by
  unfold emitCall at hok
  obtain ⟨⟨defs, input, output⟩, -, hok⟩ := bind_eq_ok.1 hok
  cases hok
  have hroute : ∀ segment ∈ Route.toName [] (model.node call).name (model.node call).moduleName,
      segment.Unbraced := by
    intro segment hsegment
    obtain rfl := List.mem_singleton.1 hsegment
    exact ⟨hname, hmodule, nofun⟩
  have hpath : braced (s.callPath model call) = [] :=
    Holds.braced (holds_rooted (by decide) (holds_path hroute _ _))
  have hnames : (subjectOf model call []).pathNames = [] := pathNames_subjectOf model call []
  have hop := (subjectOf model call []).pathParameterNames_call input output
  rw [hnames] at hop
  exact Progress.Agrees.emit (p := { p with definitions := defs }) hp
    ⟨hpath.trans hop.symm, hop.symm ▸ List.nodup_nil⟩ .post _

theorem keeps_agrees (h : model.Unbraced) (hm : model.Linked) :
    s.Keeps model (Route.Clear model) Progress.Agrees :=
  ⟨fun above _ hclear hresource => hclear.toNode (h.segmentOf hm hresource above),
    fun above _ _ _ hclear hresource hp hok =>
      emitData_agrees hclear (h.segmentOf hm hresource above) hp hok⟩

/-- All that is emitted for selected modules `Agrees` with its path. -/
theorem agrees_of_selected {sources : List Source.Module} (hlink : link sources = .ok model)
    (h : model.Unbraced) {selected : List Module} (hsub : ∀ m ∈ selected, m ∈ model.modules)
    (hok : selected.foldlM (emitModule s model) {} = .ok p) : p.Agrees := by
  have hm := (linked_of_link hlink).1
  refine foldlM_invariant Progress.Agrees selected {} p (fun m hmem b b' hb hstep => ?_) nofun hok
  refine emitModule_invariant (keeps_agrees h hm) ⟨.top, nofun⟩ (fun call hcall q q' hq hok => ?_)
    hb hstep
  have hrooted := rooted_of_mem_rpcs hlink (hsub m hmem) hcall
  exact emitCall_agrees (h.nodes call hrooted.lt hrooted.kind)
    (h.modules _ (hm.home call hrooted.lt)) hq hok

/-- `emitEntry` is reached for the entry of each list that can be written, at `listPath`. -/
theorem emits_listPath (hm : model.Linked) {selected : List Module} {home : Module}
    (hok : selected.foldlM (emitModule s model) {} = .ok p) (hhome : home ∈ selected)
    (hdata : s.generates .data = true) (hcrud : s.fullCrud = true) {root : NodeId}
    (hroot : root ∈ home.data) {route : Route} (hvisits : s.Visits model [] 0 root route id)
    (hlist : (model.node id).kind.isList = true) (hconfig : (model.node id).config = true) :
    p.Emits (s.listPath route) .post := by
  have hgains := gains_foldlM selected {} p (fun _ _ _ _ h => emitModule_gains hm h) hok
  refine (hgains _ _).2 (.inr ⟨home, hhome, .data hdata hroot (offersBelow_iff.2 ?_)⟩)
  exact ⟨route, id, hvisits, .entry hcrud hconfig hlist⟩

end Emit

/-! ## Documents -/

section Documents

variable {sources : List Source.Module} {model : DataModel}

/-- In a document that `generate` makes, the names between the braces of a path are the
`pathParameterNames` of each operation there, in order and each once; and the `post` that adds an
entry to a list has the parameters of the route above the list alone. -/
theorem generate_braced (h : link sources = .ok model) (hnames : model.Unbraced) (s : Settings)
    {selected : List Module} (hselected : selectedModules s model = .ok selected) :
    ((∀ m ∈ sources, Char.ofNat 0 ∉ m.name.toList) → ∃ doc, generate s model = .ok doc) ∧
    ∀ doc, generate s model = .ok doc →
      (∀ path m op, (path, m, op) ∈ doc.operations → Agrees path op) ∧
      ∀ home ∈ selected, s.generates .data = true → s.fullCrud = true →
        ∀ root ∈ home.data, ∀ (route : Route) (id : NodeId), s.Visits model [] 0 root route id →
          (model.node id).kind.isList = true → (model.node id).config = true →
          ∃ op, (s.listPath route, .post, op) ∈ doc.operations ∧
            op.pathParameterNames = Route.parameterNames route.dropLast := by
  obtain ⟨hm, -⟩ := linked_of_link h
  refine ⟨fun hnul => ?_, fun doc hdoc => ?_⟩
  · obtain ⟨doc, hdoc, -⟩ := generateSelected_ok s hm (nulFree_moduleNames h hnul) selected
    exact ⟨doc, (generate_eq hselected).trans hdoc⟩
  · rw [generate_eq hselected] at hdoc
    obtain ⟨p, hp, hrun, -⟩ := generateSelected_eq_ok.1 hdoc
    have hemitted := agrees_of_selected h hnames
      (fun m hmem => ((mem_selectedModules hselected).1 hmem).1) hp
    have hagrees : ∀ path m op, doc.operation? path m = some op → Agrees path op := by
      intro path m op hop
      -- the passes change what an operation says, and keep its path and the parameters in it
      obtain ⟨f, hsame, hf⟩ := runAll_retains s.security s.passes (p.document (heading s selected))
      rw [hrun, hf] at hop
      obtain ⟨raw, hraw, rfl⟩ := Option.map_eq_some_iff.1 hop
      have hfirst := hemitted _ (p.emitted_of_operation? (fun _ _ => rfl) hraw)
      exact ⟨hfirst.names.trans (hsame path raw).symm, (hsame path raw).symm ▸ hfirst.distinct⟩
    refine ⟨fun path m op hop => hagrees path m op (mem_operations_iff.1 hop), ?_⟩
    intro home hhome hdata hcrud root hroot route id hvisits hlist hconfig
    have hemits := emits_listPath hm hp hhome hdata hcrud hroot hvisits hlist hconfig
    obtain ⟨op, hop⟩ := Option.isSome_iff_exists.1
      ((operation?_generateSelected hp hdoc _ _).2 hemits)
    obtain ⟨above, habove, hresource, rfl⟩ := hvisits.above (R := Route.Clear model)
      (fun above _ habove hid => habove.toNode (hnames.segmentOf hm hid above)) ⟨.top, nofun⟩
    refine ⟨op, mem_operations_iff.2 hop, ?_⟩
    have hdrop : List.dropLast (above.toNode model id) = above := List.dropLast_concat
    rw [← (hagrees _ _ op hop).names, hdrop]
    exact braced_listPath habove.unbraced (hnames.segmentOf hm hresource above)

end Documents

/-- A list in a list, each with a key of the same name. -/
def racks : List Source.Module :=
  [{ name := "net", modulePrefix := none, namespaceUri := none, revision := none,
     description := none, typedefs := [], groupings := [], rpcs := [], augments := []
     data := [⟨.list ["name"], "rack", none, none, none,
       [leafOf "name" "string", ⟨.list ["name"], "slot", none, none, none,
         [leafOf "name" "string"], []⟩], []⟩] }]

/-- In `racks` a new slot is added with the parameter of its rack alone. -/
theorem generate_braced_racks : ∃ model doc op, link racks = .ok model ∧ model.Unbraced ∧
    generate { dialect := .odl } model = .ok doc ∧
    (∀ path m op, (path, m, op) ∈ doc.operations → Agrees path op) ∧
    (Settings.listPath { dialect := .odl } (Route.over model [] [0, 2]), .post, op) ∈
      doc.operations ∧
    op.pathParameterNames = ["name"] := by
  obtain ⟨model, h⟩ := exists_ok_of_isSome (x := link racks) (by decide +kernel)
  have hnames : model.PlainNames braces := of_decide_eq_true <|
    map_of_ok h (f := fun model => decide (model.PlainNames braces)) (b := true) (by decide +kernel)
  obtain ⟨selected, hselected⟩ := exists_ok_of_isSome <|
    map_of_ok h (f := fun model => (selectedModules { dialect := .odl } model).toOption.isSome)
      (b := true) (by decide +kernel)
  have hmodules := selectedModules_eq hselected
  have hplaces := map_of_ok h (f := fun model =>
      (model.modules.map (·.data), (model.node 0).children,
        (Route.over model [] [0]).parameterNames))
    (b := ([[0]], [1, 2], ["name"])) (by decide +kernel)
  have hkinds := map_of_ok h (f := fun model =>
      ((model.node 0).kind.isResource, (model.node 2).kind.isResource, (model.node 2).kind.isList,
        (model.node 2).config))
    (b := (true, true, true, true)) (by decide +kernel)
  simp only [Prod.mk.injEq] at hplaces hkinds
  obtain ⟨hdata, hchildren, hparameters⟩ := hplaces
  obtain ⟨hrack, hslot, hlist, hconfig⟩ := hkinds
  obtain ⟨home, hhome, hroots⟩ : ∃ home ∈ model.modules, home.data = [0] := by
    have hmem : [0] ∈ model.modules.map (·.data) := hdata ▸ List.mem_singleton_self _
    exact List.mem_map.1 hmem
  have hvisits : Settings.Visits { dialect := .odl } model [] 0 0 (Route.over model [] [0, 2]) 2 :=
    @Settings.Visits.node _ _ _ _ _ _ [0] (.through hrack (hchildren ▸ by decide) .here) hslot nofun
  obtain ⟨hexists, hdocs⟩ := generate_braced h hnames.unbraced { dialect := .odl } hselected
  obtain ⟨doc, hdoc⟩ := hexists (by decide)
  obtain ⟨hagrees, hentry⟩ := hdocs doc hdoc
  obtain ⟨op, hop, hpath⟩ := hentry home (hmodules ▸ hhome) (by decide) rfl 0
    (hroots ▸ List.mem_singleton_self 0) _ 2 hvisits hlist hconfig
  exact ⟨model, doc, op, h, hnames.unbraced, hdoc, hagrees, hop, hpath.trans hparameters⟩

end RestSpec
