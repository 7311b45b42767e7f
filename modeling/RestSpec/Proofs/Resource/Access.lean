/-
What can be written. A data node can be read; it can also be written unless it or a node that it
lies in says that it is no configuration. So for a node below such a one nothing is emitted but the
operation that reads it, and an operation of a document that is another one belongs to a remote call
or to a container or list above which nothing is read-only.
-/
import RestSpec.Proofs.DataModel.Configuration
import RestSpec.Proofs.Resource.Offered

namespace RestSpec

open Document DataModel

variable {s : Settings} {model : DataModel}

/-- The node or one that it lies in says `config false`, by `Declines`. -/
def DataModel.ReadOnly (model : DataModel) (id : NodeId) : Prop :=
  ∃ a ∈ id :: model.ancestors id, model.Declines a

theorem config_eq_false_iff (hm : model.Linked) (hflag : model.Flagged) (id : NodeId) :
    (model.node id).config = false ↔ model.ReadOnly id := by
  have h := config_iff hm hflag id
  rw [← Bool.not_eq_true, h]
  unfold DataModel.ReadOnly
  push Not
  rfl

/-- Of a node that is no configuration `emitData` emits nothing but the operation that reads it. -/
theorem emitData_readOnly {above : Route} {id : NodeId} {p p' : Progress}
    (hro : (model.node id).config = false)
    (h : emitData s model (above.toNode model id) id p = .ok p') :
    ∃ op, p'.emitted = p.emitted ++ [⟨s.dataPath (above.toNode model id), .get, op⟩] := by
  unfold emitData at h
  obtain ⟨⟨defs, schema⟩, -, h⟩ := bind_eq_ok.1 h
  dsimp only at h
  rw [isWritable_toNode, hro, Bool.and_false] at h
  cases h
  exact ⟨_, rfl⟩

/-- What the settings offer of a node by `OffersAt` and does not read it is offered of
configuration. -/
theorem config_of_offersAt {route : Route} {id : NodeId} {path : String} {m : Method}
    (h : s.OffersAt model route id path m) (hm : m ≠ .get) : (model.node id).config = true := by
  cases h with
  | get => exact absurd rfl hm
  | write _ hconfig _ => exact hconfig
  | entry _ hconfig _ => exact hconfig

/-- The `post` operation of an rpc, which may be invoked whatever the model says of data. -/
def Settings.Invokes (s : Settings) (model : DataModel) (path : String) (m : Method) : Prop :=
  ∃ home ∈ model.modules, ∃ call ∈ home.rpcs, path = s.callPath model call ∧ m = .post

/-- An operation on a container or list that a walk `Visits`. -/
def Settings.Serves (s : Settings) (model : DataModel) (id : NodeId) (path : String) (m : Method) :
    Prop :=
  ∃ home ∈ model.modules, ∃ root ∈ home.data, ∃ route, s.Visits model [] 0 root route id ∧
    s.OffersAt model route id path m

/-- Operations of a document are those that the settings `Serves` on containers and lists, and those
that `Invokes` an rpc. -/
theorem serves_or_invokes {doc : Document} (hm : model.Linked) (hdoc : generate s model = .ok doc)
    {path : String} {m : Method} {op : Operation} (hop : (path, m, op) ∈ doc.operations) :
    s.Invokes model path m ∨ ∃ id, s.Serves model id path m := by
  unfold generate at hdoc
  obtain ⟨selected, hselected, hdoc⟩ := bind_eq_ok.1 hdoc
  have hselected : selectedModules s model = .ok selected := by
    cases h : selectedModules s model with
    | error e =>
      rw [h] at hselected
      cases hselected
    | ok l =>
      rw [h] at hselected
      cases hselected
      rfl
  obtain ⟨p, hp, -, -⟩ := generateSelected_eq_ok.1 hdoc
  have hemits := (operation?_generateSelected hp hdoc path m).1
    (Option.isSome_iff_exists.2 ⟨op, mem_operations_iff.1 hop⟩)
  have hgains := gains_foldlM selected {} p (fun _ _ _ _ h => emitModule_gains hm h) hp
  obtain ⟨home, hhome, hoffers⟩ := ((hgains path m).1 hemits).resolve_left nofun
  have hmem := ((mem_selectedModules hselected).1 hhome).1
  rcases offers_iff.1 hoffers with ⟨-, root, hroot, hbelow⟩ | ⟨-, call, hcall, hpath, hpost⟩
  · obtain ⟨route, id, hvisits, hoffers⟩ := offersBelow_iff.1 hbelow
    exact .inr ⟨id, home, hmem, root, hroot, route, hvisits, hoffers⟩
  · exact .inl ⟨home, hmem, call, hcall, hpath.symm, hpost.symm⟩

/-- Configuration in a linked model. A node is `config` just if it is not `ReadOnly`, be it declared
where it stands, copied or added by an augment; the flags are those of the substituted sources.
Where it is not, only `get` is emitted, and all other operations of a document invoke rpcs or belong
to nodes that are configuration all the way up. -/
theorem config_effective {sources : List Source.Module} (h : link sources = .ok model) :
    (∀ id, (model.node id).config = true ↔ ¬ model.ReadOnly id) ∧
      (∃ forest, Substituted sources forest ∧
        model.modules.map (Module.flags model) = forest.map ModuleTrees.flags) ∧
      (∀ (s : Settings) (above : Route) id p p', model.ReadOnly id →
        emitData s model (above.toNode model id) id p = .ok p' →
        ∃ op, p'.emitted = p.emitted ++ [⟨s.dataPath (above.toNode model id), .get, op⟩]) ∧
      ∀ (s : Settings) doc, generate s model = .ok doc → ∀ path m op,
        (path, m, op) ∈ doc.operations → m ≠ .get →
        s.Invokes model path m ∨ ∃ id, s.Serves model id path m ∧ ¬ model.ReadOnly id := by
  obtain ⟨hm, -⟩ := linked_of_link h
  have hflag := flagged_of_link h
  have hconfig : ∀ id, (model.node id).config = true ↔ ¬ model.ReadOnly id := fun id => by
    rw [← config_eq_false_iff hm hflag, Bool.not_eq_false]
  refine ⟨hconfig, flags_of_link h, fun s above id p p' hro => ?_,
    fun s doc hdoc path m op hop hget => ?_⟩
  · exact emitData_readOnly ((config_eq_false_iff hm hflag id).2 hro)
  · refine (serves_or_invokes hm hdoc hop).imp_right fun ⟨id, hserves⟩ => ⟨id, hserves, ?_⟩
    obtain ⟨_, _, _, _, _, _, hoffers⟩ := hserves
    exact (hconfig id).1 (config_of_offersAt hoffers hget)

/-- The grouping `limits`, used in the open and within a read-only choice, and an augment of what
was copied there. -/
def monitored : List Source.Module :=
  [{ name := "net", modulePrefix := none, namespaceUri := none, revision := none,
     description := none, typedefs := [], rpcs := []
     groupings := [⟨"endpoint", none, none, ⟨[containerOf "limits" [] []], []⟩⟩]
     data := [containerOf "settings" [] ["endpoint"],
       ⟨.choice, "origin", some false, none, none,
         [⟨.case, "device", none, none, none, [containerOf "state" [] ["endpoint"]], []⟩], []⟩]
     augments := [⟨"/origin/device/state/limits", none, ⟨[containerOf "burst" [] []], []⟩⟩] }]

theorem link_monitored : ∃ model, link monitored = .ok model :=
  exists_ok_of_isSome (by decide +kernel)

/-- In `monitored` the copy in the open is configuration, and what the augment adds is not: only
`get` is emitted for it. -/
theorem config_effective_monitored : ∃ model, link monitored = .ok model ∧
    (model.node 3).config = true ∧ ¬ model.ReadOnly 3 ∧
    (model.node 9).name = "burst" ∧ (model.node 9).config = false ∧ model.ReadOnly 9 ∧
    ∃ p op, emitData {} model (Route.toNode model [] 9) 9 {} = .ok p ∧
      p.emitted = [⟨Settings.dataPath {} (Route.toNode model [] 9), .get, op⟩] := by
  obtain ⟨model, h⟩ := link_monitored
  have hnode := map_of_ok h (f := fun model => ((model.node 3).config, (model.node 9).name,
    (model.node 9).config)) (b := (true, "burst", false)) (by decide +kernel)
  simp only [Prod.mk.injEq] at hnode
  obtain ⟨hopen, hname, hclosed⟩ := hnode
  obtain ⟨hconfig, -, hread, -⟩ := config_effective h
  have hro : model.ReadOnly 9 := by
    rw [← not_not (a := model.ReadOnly 9), ← hconfig, hclosed]
    decide
  obtain ⟨p, hp, -⟩ := emitData_ok {} (linked_of_link h).1
    (Progress.sound_empty Strategy.optimizing model) (Route.toNode model [] 9) 9
  obtain ⟨op, hop⟩ := hread {} [] 9 {} p hro hp
  exact ⟨model, h, hopen, (hconfig 3).1 hopen, hname, hclosed, hro, p, op, hp, hop⟩

end RestSpec
