/-
Parameters of routes. Each segment brings one parameter for each key of its list, named for the key
or, where that name has been given above or before in the segment, by the first of the longer names
that is free. The search for one always ends, since there are more numbers than names given; so no
two parameters on the way down have one name.
-/
import RestSpec.Resource.Route
import RestSpec.Proofs.DataModel.Walks
import RestSpec.Proofs.Naming.Unique

namespace RestSpec.Route

open DataModel
open Naming (FirstFree firstFree_spec numbered numbered_injective)

/-! ## Names -/

/-- The name of a parameter: the first that is not `taken` of the key, the key after the module, the
key after the segment, and that with a number. -/
inductive Named (taken : List String) (moduleName segment key : String) : String → Prop
  | key : key ∉ taken → Named taken moduleName segment key key
  | afterModule : key ∈ taken → moduleName ++ "-" ++ key ∉ taken →
      Named taken moduleName segment key (moduleName ++ "-" ++ key)
  | afterSegment : key ∈ taken → moduleName ++ "-" ++ key ∈ taken → segment ++ "-" ++ key ∉ taken →
      Named taken moduleName segment key (segment ++ "-" ++ key)
  | numbered {k : Nat} : key ∈ taken → moduleName ++ "-" ++ key ∈ taken →
      segment ++ "-" ++ key ∈ taken → FirstFree taken (numbered (segment ++ "-" ++ key) "-") k →
      Named taken moduleName segment key (numbered (segment ++ "-" ++ key) "-" k)

variable {taken taken' : List String} {moduleName segment key n : String}

theorem Named.not_mem (h : Named taken moduleName segment key n) : n ∉ taken := by
  cases h with
  | key hfree => exact hfree
  | afterModule _ hfree => exact hfree
  | afterSegment _ _ hfree => exact hfree
  | numbered _ _ _ hfirst => exact hfirst.free

/-- It does not matter to `Named` in what order names are `taken`. -/
theorem Named.congr (h : Named taken moduleName segment key n)
    (hmem : ∀ x, x ∈ taken' ↔ x ∈ taken) : Named taken' moduleName segment key n := by
  cases h with
  | key hfree => exact .key (mt (hmem _).1 hfree)
  | afterModule hkey hfree => exact .afterModule ((hmem _).2 hkey) (mt (hmem _).1 hfree)
  | afterSegment hkey hmodule hfree =>
    exact .afterSegment ((hmem _).2 hkey) ((hmem _).2 hmodule) (mt (hmem _).1 hfree)
  | numbered hkey hmodule hsegment hfirst =>
    exact .numbered ((hmem _).2 hkey) ((hmem _).2 hmodule) ((hmem _).2 hsegment)
      ⟨hfirst.pos, mt (hmem _).1 hfirst.free, fun j hpos hj => (hmem _).2 (hfirst.before j hpos hj)⟩

theorem parameterName_named (taken : List String) (moduleName segment key : String) :
    Named taken moduleName segment key (parameterName taken moduleName segment key) := by
  unfold parameterName
  dsimp only
  by_cases hkey : key ∈ taken
  · by_cases hmodule : moduleName ++ "-" ++ key ∈ taken
    · by_cases hsegment : segment ++ "-" ++ key ∈ taken
      · obtain ⟨k, hk, hfirst⟩ :=
          @firstFree_spec taken _ (numbered_injective (segment ++ "-" ++ key) "-")
        rw [List.find?_eq_none.2 (by simp [hkey, hmodule, hsegment])]
        dsimp only
        rw [hk]
        exact .numbered hkey hmodule hsegment hfirst
      · simpa [hkey, hmodule, hsegment] using Named.afterSegment hkey hmodule hsegment
    · simpa [hkey, hmodule] using Named.afterModule hkey hmodule
  · simpa [hkey] using Named.key hkey

/-! ## Segments -/

section Keys

variable (model : DataModel) (id : NodeId)

theorem length_keyParameters (taken keys : List String) :
    (keyParameters model id taken keys).length = keys.length := by
  induction keys generalizing taken with
  | nil => rfl
  | cons key keys ih => rw [keyParameters, List.length_cons, List.length_cons, ih]

/-- `keyParameters` makes a parameter for each key, with a name that has not been given above or
before, by `Named`. -/
theorem getElem?_keyParameters (taken keys : List String) (i : Nat) (key : String)
    (hkey : keys[i]? = some key) :
    ∃ name, (keyParameters model id taken keys)[i]? =
        some ⟨name, model.dataChildNamed? id key⟩ ∧
      Named (taken ++ ((keyParameters model id taken keys).take i).map (·.name))
        (model.node id).moduleName (model.node id).name key name := by
  induction keys generalizing taken i with
  | nil => cases hkey
  | cons first keys ih =>
    rw [keyParameters]
    cases i with
    | zero =>
      cases hkey
      refine ⟨_, rfl, ?_⟩
      rw [List.take_zero, List.map_nil, List.append_nil]
      exact parameterName_named taken _ _ key
    | succ i =>
      -- the name of the first key is taken for all that come after it
      obtain ⟨name, hname, hnamed⟩ :=
        ih (parameterName taken (model.node id).moduleName (model.node id).name first :: taken) i
          hkey
      refine ⟨name, hname, hnamed.congr fun x => ?_⟩
      rw [List.take_succ_cons, List.map_cons]
      simp only [List.mem_append, List.mem_cons]
      tauto

theorem nodup_keyParameters (taken keys : List String) (h : taken.Nodup) :
    (taken ++ (keyParameters model id taken keys).map (·.name)).Nodup := by
  induction keys generalizing taken with
  | nil => simpa [keyParameters] using h
  | cons key keys ih =>
    rw [keyParameters]
    have hfree := (parameterName_named taken (model.node id).moduleName (model.node id).name
      key).not_mem
    have hrest := ih (_ :: taken) (List.nodup_cons.2 ⟨hfree, h⟩)
    rw [List.map_cons]
    exact (List.perm_middle.nodup_iff).2 hrest

end Keys

/-! ## Routes -/

/-- A route from the top, laid segment by segment: `toNode` for a node, or `toName` for a name
alone. -/
inductive Laid (model : DataModel) : Route → Prop
  | top : Laid model []
  | node {above : Route} (id : NodeId) : Laid model above → Laid model (above.toNode model id)
  | name {above : Route} (name moduleName : String) : Laid model above →
      Laid model (above.toName name moduleName)

/-- The parameters of `toNode` come after those above it, one for each key in the order of the keys,
each with the leaf that its key is and a name that has not been given before. -/
structure Keyed (model : DataModel) (above : Route) (id : NodeId) : Prop where
  after : parameters (above.toNode model id) =
    parameters above ++ (segmentOf model above id).parameters
  length : (segmentOf model above id).parameters.length = (model.node id).kind.keys.length
  parameter : ∀ (i : Nat) (key : String), (model.node id).kind.keys[i]? = some key →
    ∃ name, (segmentOf model above id).parameters[i]? =
        some ⟨name, model.dataChildNamed? id key⟩ ∧
      Named (parameterNames above ++
          ((segmentOf model above id).parameters.take i).map (·.name))
        (model.node id).moduleName (model.node id).name key name

section Routes

variable {model : DataModel} {route : Route}

theorem parameters_toNode (model : DataModel) (above : Route) (id : NodeId) :
    parameters (above.toNode model id) =
      parameters above ++ (segmentOf model above id).parameters := by
  unfold parameters toNode
  rw [List.flatMap_append, List.flatMap_singleton]

theorem parameters_toName (above : Route) (name moduleName : String) :
    parameters (above.toName name moduleName) = parameters above := by
  unfold parameters toName
  rw [List.flatMap_append, List.flatMap_singleton, List.append_nil]

theorem keyed (model : DataModel) (above : Route) (id : NodeId) : Keyed model above id :=
  ⟨parameters_toNode model above id, length_keyParameters model id _ _,
    getElem?_keyParameters model id _ _⟩

/-- Down a route that is `Laid` no parameter name is given twice. -/
theorem Laid.nodup (h : Laid model route) : (parameterNames route).Nodup := by
  induction h with
  | top => exact List.nodup_nil
  | @node above id _ ih =>
    unfold parameterNames
    rw [parameters_toNode, List.map_append]
    exact nodup_keyParameters model id _ _ ih
  | name name moduleName _ ih =>
    unfold parameterNames
    rw [parameters_toName]
    exact ih

/-- However a route is `Laid` and whatever the keys of its lists are, every search for a key or for
a name comes to its end, each segment is `Keyed`, with a parameter for each of its keys after those
above it, and all names are different. -/
theorem laid_parameters {sources : List Source.Module} (h : link sources = .ok model)
    (hroute : Laid model route) :
    model.Walkable ∧ (∀ id, Keyed model route id) ∧
    (∀ name moduleName, parameters (route.toName name moduleName) = parameters route) ∧
    (parameterNames route).Nodup :=
  ⟨(linked_of_link h).1.walkable, keyed model route, parameters_toName route, hroute.nodup⟩

/-- A list with the same key over and over and a key that is no leaf, and below it one of the same
name. -/
def crowded : List Source.Module :=
  [{ name := "net", modulePrefix := none, namespaceUri := none, revision := none,
     description := none, typedefs := [], groupings := [], rpcs := [], augments := []
     data := [⟨.list ["id", "id", "id", "id", "gone"], "row", none, none, none,
       [leafOf "id" "string", ⟨.list ["id", "net-id"], "row", none, none, none,
         [leafOf "id" "string"], []⟩], []⟩] }]

theorem laid_parameters_crowded : ∃ model, link crowded = .ok model ∧
    (((Route.toNode model [] 0).toName "entry" "net").toNode model 2).parameterNames =
      ["id", "net-id", "row-id", "row-id-1", "gone", "row-id-2", "net-net-id"] ∧
    (((Route.toNode model [] 0).toName "entry" "net").toNode model 2).parameterNames.Nodup := by
  obtain ⟨model, h⟩ := exists_ok_of_isSome (x := link crowded) (by decide +kernel)
  have hnames := map_of_ok h (f := fun model =>
      (((Route.toNode model [] 0).toName "entry" "net").toNode model 2).parameterNames)
    (b := ["id", "net-id", "row-id", "row-id-1", "gone", "row-id-2", "net-net-id"])
    (by decide +kernel)
  have hlaid : Laid model (((Route.toNode model [] 0).toName "entry" "net").toNode model 2) :=
    .node 2 (.name "entry" "net" (.node 0 .top))
  exact ⟨model, h, hnames, (laid_parameters h hlaid).2.2.2⟩

end Routes

end RestSpec.Route
