/-
Two dialects side by side. Keys that follow an equals sign in one dialect are segments in another
one, and that is all the difference: a walk emits the same operations in both, each under the same
path but for slashes in the place of other marks; and where no name holds such marks, no two paths
become one. So the documents are the same but for their paths.
-/
import RestSpec.Proofs.DataModel.Substitution
import RestSpec.Proofs.Pass.Readdress
import RestSpec.Proofs.Resource.Address
import RestSpec.Proofs.Resource.Offered

namespace RestSpec

open Document DataModel

/-! ## Paths with slashes -/

/-- The path with `Address.slash` in the place of what parts the parameters of a segment. -/
def slashed (path : String) : String := path.map Address.slash

/-- The paths that the dialect `rfc8040` writes for an `Address` of plain names. -/
def plainPaths : Set String := fun path => ∃ a : Address, a.FreeOf pathMarks ∧ a.parts ≠ [] ∧
  (a.root = "data" ∨ a.root = operationsRoot) ∧ path.toList = a.text .rfc8040

/-- The settings with another `Dialect`, and all else as it is. -/
def Settings.inDialect (s : Settings) (d : Dialect) : Settings := { s with dialect := d }

theorem toList_slashed {a : Address} (ha : a.FreeOf pathMarks) {path : String}
    (h : path.toList = a.text .rfc8040) : (slashed path).toList = a.text .segment := by
  unfold slashed
  rw [String.toList_map, h, Address.map_slash_text (by decide) (by decide) ha]

example : slashed "/data/server=\x7bname\x7d,\x7bzone\x7d" =
    "/data/server/\x7bname\x7d/\x7bzone\x7d" := by
  decide +kernel

theorem slashed_injOn : plainPaths.InjOn slashed := by
  rintro path ⟨a, ha, -, -, hpath⟩ path' ⟨a', ha', -, -, hpath'⟩ heq
  have htext : a.text .segment = a'.text .segment := by
    rw [← toList_slashed ha hpath, ← toList_slashed ha' hpath', heq]
  obtain rfl := Address.text_injective ha ha' (by decide) htext
  exact String.toList_inj.1 (hpath.trans hpath'.symm)

/-- Payloads are wrapped under the same `payloadKeys` when the path is `slashed`. -/
theorem payloadKeys_slashed {path : String} (hpath : path ∈ plainPaths) :
    payloadKeys (slashed path) = payloadKeys path := by
  obtain ⟨a, ha, hparts, hroot, htext⟩ := hpath
  have hslashed := toList_slashed ha htext
  have hcall : isCallPath (slashed path) = isCallPath path := by
    obtain ⟨part, parts, heq⟩ := List.exists_cons_of_ne_nil hparts
    unfold isCallPath
    rw [hslashed, htext]
    unfold Address.text
    rw [heq]
    rcases hroot with hroot | hroot <;> rw [hroot] <;> rfl
  have hkey : payloadKey (slashed path) = payloadKey path := by
    have hlast := (List.dropLast_append_getLast hparts).symm
    rw [Address.payloadKey_text ha (by decide) hlast hslashed,
      Address.payloadKey_text ha (by decide) hlast htext]
  unfold payloadKeys
  rw [hcall, hkey]

/-! ## Walking with slashes -/

/-- The same emissions under paths that are `slashed`. -/
def Progress.slashed (p : Progress) : Progress :=
  { p with emitted := p.emitted.map fun e => { e with path := RestSpec.slashed e.path } }

theorem Progress.slashed_emit (p : Progress) (path : String) (m : Method) (names : List String)
    (op : Operation) :
    (p.emit path m names op).slashed = p.slashed.emit (RestSpec.slashed path) m names op := by
  have hids : p.slashed.operationIds = p.operationIds := by
    unfold operationIds Progress.slashed
    rw [List.filterMap_map]
    rfl
  unfold emit
  rw [hids]
  simp [Progress.slashed]

section Walk

variable {s : Settings} {model : DataModel} {route : Route}

section Paths

variable (hroute : ∀ segment ∈ route, segment.Plain pathMarks) (hne : route ≠ [])

include hroute hne

theorem slashed_dataPath :
    slashed ((s.inDialect .rfc8040).dataPath route) = (s.inDialect .segment).dataPath route :=
  String.toList_inj.1 <|
    (toList_slashed (Settings.dataAddress_freeOf (s.inDialect .rfc8040).marks hroute)
      (Settings.toList_dataPath (s.inDialect .rfc8040).marks hroute hne)).trans
      (Settings.toList_dataPath (s.inDialect .segment).marks hroute hne).symm

theorem slashed_listPath :
    slashed ((s.inDialect .rfc8040).listPath route) = (s.inDialect .segment).listPath route :=
  String.toList_inj.1 <|
    (toList_slashed (Settings.listAddress_freeOf (s.inDialect .rfc8040).marks hroute)
      (Settings.toList_listPath (s.inDialect .rfc8040).marks hroute hne)).trans
      (Settings.toList_listPath (s.inDialect .segment).marks hroute hne).symm

theorem emitRead_slashed (id : NodeId) (schema : Schema) (p : Progress) :
    emitRead (s.inDialect .segment) model route id schema p.slashed =
      (emitRead (s.inDialect .rfc8040) model route id schema p).slashed := by
  unfold emitRead
  rw [Progress.slashed_emit, slashed_dataPath hroute hne]

theorem emitWrites_slashed (id : NodeId) (schema : Schema) (p : Progress) :
    emitWrites (s.inDialect .segment) model route id schema p.slashed =
      (emitWrites (s.inDialect .rfc8040) model route id schema p).slashed := by
  unfold emitWrites
  dsimp only
  rw [apply_ite Progress.slashed]
  simp only [Progress.slashed_emit, slashed_dataPath hroute hne]
  rfl

theorem emitEntry_slashed (id : NodeId) (schema : Schema) (p : Progress) :
    emitEntry (s.inDialect .segment) model route id schema p.slashed =
      (emitEntry (s.inDialect .rfc8040) model route id schema p).slashed := by
  unfold emitEntry
  dsimp only
  rw [Progress.slashed_emit, slashed_listPath hroute hne]

theorem emitData_slashed (id : NodeId) (p : Progress) :
    emitData (s.inDialect .segment) model route id p.slashed =
      (emitData (s.inDialect .rfc8040) model route id p).map Progress.slashed := by
  unfold emitData
  show (p.definitions.schemaFor s.strategy model id >>= _) =
    (p.definitions.schemaFor s.strategy model id >>= _).map _
  cases p.definitions.schemaFor s.strategy model id with
  | error e => rfl
  | ok made =>
    obtain ⟨defs, schema⟩ := made
    have hstart := @emitRead_slashed s model route hroute hne id schema { p with definitions := defs }
    dsimp only [bind, Except.bind, pure, Except.pure]
    show (if !isWritable s route then _ else _) = Except.map _ (if !isWritable s route then _ else _)
    rw [apply_ite (Except.map Progress.slashed)]
    refine if_congr Iff.rfl (congrArg Except.ok hstart) (congrArg Except.ok ?_)
    rw [apply_ite Progress.slashed, ← emitEntry_slashed hroute hne,
      ← emitWrites_slashed hroute hne, ← hstart]
    rfl

end Paths

/-- The schemas of `messageSchemas` do not depend on the dialect. -/
theorem messageSchemas_inDialect (d d' : Dialect) (ids : List NodeId) (defs : Definitions)
    (input output : Option Schema) :
    messageSchemas (s.inDialect d) model ids defs input output =
      messageSchemas (s.inDialect d') model ids defs input output := by
  induction ids generalizing defs input output with
  | nil => rfl
  | cons id ids ih =>
    unfold messageSchemas
    simp only [ih]
    rfl

theorem emitCall_slashed (hm : model.Linked) (hnames : model.PlainNames pathMarks) {call : NodeId}
    (hcall : model.Rooted call) (p : Progress) :
    emitCall (s.inDialect .segment) model call p.slashed =
      (emitCall (s.inDialect .rfc8040) model call p).map Progress.slashed := by
  have hname := hnames.nodes call hcall.lt hcall.kind
  have hmodule := hnames.modules _ (hm.home call hcall.lt)
  obtain ⟨hfree, hpath⟩ := Settings.toList_callPath (s.inDialect .rfc8040).marks hname hmodule
  obtain ⟨-, hpath'⟩ := Settings.toList_callPath (s.inDialect .segment).marks hname hmodule
  have hslashed : slashed ((s.inDialect .rfc8040).callPath model call) =
      (s.inDialect .segment).callPath model call :=
    String.toList_inj.1 ((toList_slashed hfree hpath).trans hpath'.symm)
  unfold emitCall
  dsimp only
  rw [messageSchemas_inDialect .segment .rfc8040]
  show (messageSchemas _ model _ p.definitions none none >>= _) = _
  cases messageSchemas (s.inDialect .rfc8040) model (model.node call).children p.definitions none
      none with
  | error e => rfl
  | ok made =>
    dsimp only [bind, Except.bind, pure, Except.pure, Except.map]
    rw [Progress.slashed_emit, hslashed]
    rfl

/-! ## The trees of a module -/

mutual

theorem emitTree_slashed (s : Settings) (hm : model.Linked) (hnames : model.PlainNames pathMarks) :
    ∀ (t : Tree) (above : Route) (level : Nat) (p : Progress),
      (∀ segment ∈ above, segment.Plain pathMarks) →
      emitTree (s.inDialect .segment) model above level t p.slashed =
        (emitTree (s.inDialect .rfc8040) model above level t p).map Progress.slashed
  | .node id children, above, level, p, habove => by
    unfold emitTree
    dsimp only
    split
    · exact emitTrees_slashed s hm hnames children above level p habove
    · split
      · rename_i hresource
        show (if (s.maxDepth.map _).getD false then _ else _) =
          Except.map _ (if (s.maxDepth.map _).getD false then _ else _)
        split
        · rfl
        · have hroute := hnames.toNode hm s.marks hresource habove
          rw [emitData_slashed hroute (by simp [Route.toNode])]
          cases emitData (s.inDialect .rfc8040) model (above.toNode model id) id p with
          | error e => rfl
          | ok p₁ => exact emitTrees_slashed s hm hnames children _ (level + 1) p₁ hroute
      · rfl

theorem emitTrees_slashed (s : Settings) (hm : model.Linked) (hnames : model.PlainNames pathMarks) :
    ∀ (ts : List Tree) (above : Route) (level : Nat) (p : Progress),
      (∀ segment ∈ above, segment.Plain pathMarks) →
      emitTrees (s.inDialect .segment) model above level ts p.slashed =
        (emitTrees (s.inDialect .rfc8040) model above level ts p).map Progress.slashed
  | [], _, _, _, _ => rfl
  | t :: ts, above, level, p, habove => by
    rw [emitTrees, emitTrees, emitTree_slashed s hm hnames t above level p habove]
    cases emitTree (s.inDialect .rfc8040) model above level t p with
    | error e => rfl
    | ok p₁ => exact emitTrees_slashed s hm hnames ts above level p₁ habove

end

theorem emitModule_slashed (hm : model.Linked) (hnames : model.PlainNames pathMarks) {home : Module}
    (hcalls : ∀ call ∈ home.rpcs, model.Rooted call) (p : Progress) :
    emitModule (s.inDialect .segment) model p.slashed home =
      (emitModule (s.inDialect .rfc8040) model p home).map Progress.slashed := by
  have hroots : emitRoots (s.inDialect .segment) model home p.slashed =
      (emitRoots (s.inDialect .rfc8040) model home p).map Progress.slashed := by
    unfold emitRoots
    show (if s.generates .data then _ else _) = Except.map _ (if s.generates .data then _ else _)
    split
    · exact emitTrees_slashed s hm hnames _ [] 0 p nofun
    · rfl
  unfold emitModule
  rw [hroots]
  cases emitRoots (s.inDialect .rfc8040) model home p with
  | error e => rfl
  | ok p₁ =>
    show emitCalls _ _ _ p₁.slashed = Except.map _ (emitCalls _ _ _ p₁)
    unfold emitCalls
    show (if s.generates .rpc then _ else _) = Except.map _ (if s.generates .rpc then _ else _)
    split
    · exact foldlM_map Progress.slashed home.rpcs p₁ fun call hcall p =>
        emitCall_slashed hm hnames (hcalls call hcall) p
    · rfl

end Walk

/-! ## What is emitted is plain -/

section Plain

variable {s : Settings} {model : DataModel}

/-- All that the settings offer stands under one of `plainPaths`. -/
theorem Settings.Offers.plain (hm : model.Linked) (hnames : model.PlainNames pathMarks)
    {home : Module} (hcalls : ∀ call ∈ home.rpcs, model.Rooted call) {path : String} {m : Method}
    (h : (s.inDialect .rfc8040).Offers model home path m) : path ∈ plainPaths := by
  have hmarks := (s.inDialect .rfc8040).marks
  cases h with
  | data _ _ hoffers =>
    obtain ⟨route, id, hvisits, hoffers⟩ := offersBelow_iff.1 hoffers
    obtain ⟨hroute, above, rfl⟩ := hnames.visits hm hmarks hvisits
    have hne : above.toNode model id ≠ [] := by simp [Route.toNode]
    have hdata : (s.inDialect .rfc8040).dataPath (above.toNode model id) ∈ plainPaths :=
      ⟨_, dataAddress_freeOf hmarks hroute, by simpa [dataAddress] using hne, .inl rfl,
        toList_dataPath hmarks hroute hne⟩
    cases hoffers with
    | get => exact hdata
    | write _ _ _ => exact hdata
    | entry _ _ _ =>
      refine ⟨_, listAddress_freeOf hmarks hroute, ?_, .inl rfl,
        toList_listPath hmarks hroute hne⟩
      unfold listAddress
      rw [List.getLast?_eq_some_getLast hne]
      simp
  | call _ hcall =>
    have hrooted := hcalls _ hcall
    obtain ⟨hfree, hpath⟩ := toList_callPath hmarks (hnames.nodes _ hrooted.lt hrooted.kind)
      (hnames.modules _ (hm.home _ hrooted.lt))
    exact ⟨_, hfree, List.cons_ne_nil _ _, .inr rfl, hpath⟩

end Plain

/-! ## The documents -/

theorem readdressed_document (p : Progress) {start : Document} (hstart : start.paths = ∅)
    (hpaths : ∀ e ∈ p.emitted, e.path ∈ plainPaths) :
    Readdressed plainPaths slashed (p.document start) (p.slashed.document start) := by
  have hfold : ∀ (es : List Emission) (doc doc' : Document), (∀ e ∈ es, e.path ∈ plainPaths) →
      Readdressed plainPaths slashed doc doc' →
      Readdressed plainPaths slashed
        (es.foldl (fun doc e => doc.addOperation e.path e.method e.operation) doc)
        ((es.map fun e => { e with path := slashed e.path }).foldl
          (fun doc e => doc.addOperation e.path e.method e.operation) doc') := by
    intro es
    induction es with
    | nil => exact fun _ _ _ h => h
    | cons e es ih =>
      intro doc doc' hes h
      obtain ⟨he, hes⟩ := List.forall_mem_cons.1 hes
      exact ih _ _ hes (h.addOperation slashed_injOn he e.method e.operation)
  have h := hfold p.emitted start start hpaths (readdressed_of_empty hstart)
  refine ⟨?_, h.within, h.onto, h.items⟩
  unfold Progress.document
  dsimp only
  conv_lhs => rw [h.rest]
  rfl

theorem generateSelected_dialects (s : Settings) {model : DataModel} (hm : model.Linked)
    (hnames : model.PlainNames pathMarks) {selected : List Module}
    (hcalls : ∀ home ∈ selected, ∀ call ∈ home.rpcs, model.Rooted call) :
    ((∃ doc, generateSelected (s.inDialect .rfc8040) model selected = .ok doc) ↔
      ∃ doc', generateSelected (s.inDialect .segment) model selected = .ok doc') ∧
    ∀ doc doc', generateSelected (s.inDialect .rfc8040) model selected = .ok doc →
      generateSelected (s.inDialect .segment) model selected = .ok doc' →
      Readdressed plainPaths slashed doc doc' := by
  have hwalk : selected.foldlM (emitModule (s.inDialect .segment) model) {} =
      (selected.foldlM (emitModule (s.inDialect .rfc8040) model) {}).map Progress.slashed :=
    foldlM_map Progress.slashed selected {} fun home hhome p =>
      emitModule_slashed hm hnames (hcalls home hhome) p
  have hdocs : ∀ p, selected.foldlM (emitModule (s.inDialect .rfc8040) model) {} = .ok p →
      Readdressed plainPaths slashed
        (Pass.runAll s.security s.passes (p.document (heading s selected)))
        (Pass.runAll s.security s.passes (p.slashed.document (heading s selected))) := by
    intro p hp
    have hgains := gains_foldlM selected {} p (fun _ _ _ _ h => emitModule_gains hm h) hp
    refine (readdressed_document p rfl fun e he => ?_).runAll
      (fun _ hpath => payloadKeys_slashed hpath) _ _
    rcases (hgains e.path e.method).1 ⟨e, he, rfl, rfl⟩ with hnone | ⟨home, hhome, hoffers⟩
    · obtain ⟨_, hmem, -⟩ := hnone
      cases hmem
    · exact hoffers.plain hm hnames (hcalls home hhome)
  simp only [generateSelected_eq_ok, hwalk]
  cases hp : selected.foldlM (emitModule (s.inDialect .rfc8040) model) {} with
  | error e => simp [Except.map]
  | ok p =>
    have hdoc := hdocs p hp
    simp only [Except.map, Except.ok.injEq, exists_eq_left']
    refine ⟨⟨?_, ?_⟩, ?_⟩
    · rintro ⟨_, rfl, hclosed⟩
      exact ⟨_, rfl, hdoc.dangling?_eq_none_iff.1 hclosed⟩
    · rintro ⟨_, rfl, hclosed⟩
      exact ⟨_, rfl, hdoc.dangling?_eq_none_iff.2 hclosed⟩
    · rintro _ _ ⟨rfl, -⟩ ⟨rfl, -⟩
      exact hdoc

/-- For names without the characters of `pathMarks`, `generate` in the dialects `rfc8040` and
`segment` gives documents that differ in their paths alone, and each path of one is that of the
other `slashed`. -/
theorem generate_dialects {sources : List Source.Module} {model : DataModel}
    (h : link sources = .ok model) (hnames : model.PlainNames ['/', '{', '}', '=', ','])
    (s : Settings) {selected : List Module} (hselected : selectedModules s model = .ok selected) :
    ((∀ m ∈ sources, Char.ofNat 0 ∉ m.name.toList) →
      ∃ doc, generate (s.inDialect .rfc8040) model = .ok doc) ∧
    ((∃ doc, generate (s.inDialect .rfc8040) model = .ok doc) ↔
      ∃ doc', generate (s.inDialect .segment) model = .ok doc') ∧
    ∀ doc doc', generate (s.inDialect .rfc8040) model = .ok doc →
      generate (s.inDialect .segment) model = .ok doc' →
      doc = doc'.withPaths doc.paths ∧
      Set.BijOn slashed {path | doc.paths.contains path = true}
        {path | doc'.paths.contains path = true} ∧
      ∀ path, doc.paths.contains path = true →
        doc'.paths.find? (slashed path) = doc.paths.find? path := by
  obtain ⟨hm, -⟩ := linked_of_link h
  have hcalls : ∀ home ∈ selected, ∀ call ∈ home.rpcs, model.Rooted call :=
    fun home hhome call hcall =>
      rooted_of_mem_rpcs h ((mem_selectedModules hselected).1 hhome).1 hcall
  have hselected' : ∀ dialect, selectedModules (s.inDialect dialect) model = .ok selected :=
    fun _ => hselected
  rw [generate_eq (hselected' _), generate_eq (hselected' _)]
  obtain ⟨hboth, hdocs⟩ := generateSelected_dialects s hm hnames hcalls
  refine ⟨fun hnul => ?_, hboth, fun doc doc' hdoc hdoc' => ?_⟩
  · obtain ⟨doc, hdoc, -⟩ := generateSelected_ok (s.inDialect .rfc8040) hm
      (nulFree_moduleNames h hnul) selected
    exact ⟨doc, hdoc⟩
  · have hsame := hdocs doc doc' hdoc hdoc'
    exact ⟨hsame.rest, hsame.bijOn slashed_injOn, fun path hpath =>
      hsame.items path (hsame.within path hpath)⟩

/-- The keys of `servers` follow an equals sign in one document and are segments in the other. -/
theorem generate_dialects_servers : ∃ model doc doc', link servers = .ok model ∧
    model.PlainNames ['/', '{', '}', '=', ','] ∧
    generate (Settings.inDialect {} .rfc8040) model = .ok doc ∧
    generate (Settings.inDialect {} .segment) model = .ok doc' ∧
    doc = doc'.withPaths doc.paths ∧
    Set.BijOn slashed {path | doc.paths.contains path = true}
      {path | doc'.paths.contains path = true} ∧
    ∀ path, doc.paths.contains path = true →
      doc'.paths.find? (slashed path) = doc.paths.find? path := by
  obtain ⟨model, h⟩ := link_servers
  have hnames : model.PlainNames ['/', '{', '}', '=', ','] := of_decide_eq_true <|
    map_of_ok h (f := fun model => decide (model.PlainNames ['/', '{', '}', '=', ',']))
      (b := true) (by decide +kernel)
  obtain ⟨selected, hselected⟩ := exists_ok_of_isSome <|
    map_of_ok h (f := fun model => (selectedModules {} model).toOption.isSome) (b := true)
      (by decide +kernel)
  obtain ⟨hexists, hboth, hdocs⟩ := generate_dialects h hnames {} hselected
  obtain ⟨doc, hdoc⟩ := hexists (by decide)
  obtain ⟨doc', hdoc'⟩ := hboth.1 ⟨doc, hdoc⟩
  exact ⟨model, doc, doc', h, hnames, hdoc, hdoc', hdocs doc doc' hdoc hdoc'⟩

end RestSpec
