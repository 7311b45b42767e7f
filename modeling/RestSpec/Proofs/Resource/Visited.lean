/-
Where the operations of a walk stand. The containers and lists that a walk comes to are listed in
order, each with the route to it; what has been emitted stands in just the places that these and the
remote calls have, one after the other.
-/
import RestSpec.Proofs.Resource.Offered

namespace RestSpec

open Document DataModel

/-! ## Places -/

/-- The path and the method of every operation in `emitted`, in order. -/
def Progress.places (p : Progress) : List (String × Method) :=
  p.emitted.map fun e => (e.path, e.method)

@[simp]
theorem Progress.places_emit (p : Progress) (path : String) (m : Method) (names : List String)
    (op : Operation) : (p.emit path m names op).places = p.places ++ [(path, m)] := by
  simp [places, emit]

/-- The path and method of each operation on the container or list that a route leads to: `get`
alone if it cannot be written, and one more `post` for a list. -/
def Settings.placesAt (s : Settings) (model : DataModel) (route : Route) (id : NodeId) :
    List (String × Method) :=
  (s.dataPath route, .get) ::
    if s.fullCrud && (model.node id).config then
      [(s.dataPath route, .put), (s.dataPath route, .post), (s.dataPath route, .delete)] ++
        (if s.patch then [(s.dataPath route, .patch)] else []) ++
        if (model.node id).kind.isList then [(s.listPath route, .post)] else []
    else []

theorem path_of_mem_placesAt {s : Settings} {model : DataModel} {route : Route} {id : NodeId}
    {place : String × Method} (h : place ∈ s.placesAt model route id) :
    place.1 = s.dataPath route ∨ place.1 = s.listPath route := by
  unfold Settings.placesAt at h
  grind

section Emit

variable {s : Settings} {model : DataModel} {p p' : Progress}

theorem emitData_places {start : Route} {id : NodeId}
    (h : emitData s model (start.toNode model id) id p = .ok p') :
    p'.places = p.places ++ s.placesAt model (start.toNode model id) id := by
  have hwrites : ∀ route schema (p : Progress), (emitWrites s model route id schema p).places =
      p.places ++ ([(s.dataPath route, .put), (s.dataPath route, .post),
        (s.dataPath route, .delete)] ++ if s.patch then [(s.dataPath route, .patch)] else []) := by
    intro route schema p
    unfold emitWrites
    dsimp only
    split <;> simp
  unfold emitData at h
  obtain ⟨⟨defs, schema⟩, -, h⟩ := bind_eq_ok.1 h
  dsimp only at h
  rw [isWritable_toNode] at h
  generalize start.toNode model id = route at h ⊢
  have hread : (emitRead s model route id schema { p with definitions := defs }).places =
      p.places ++ [(s.dataPath route, .get)] := Progress.places_emit _ _ _ _ _
  unfold Settings.placesAt
  cases hwritable : s.fullCrud && (model.node id).config with
  | false =>
    rw [hwritable] at h
    cases h
    exact hread
  | true =>
    rw [hwritable] at h
    cases h
    cases (model.node id).kind.isList with
    | true =>
      rw [if_pos rfl, emitEntry, Progress.places_emit, hwrites, hread]
      simp
    | false =>
      rw [if_neg nofun, hwrites, hread]
      simp

theorem emitCall_places {call : NodeId} (h : emitCall s model call p = .ok p') :
    p'.places = p.places ++ [(s.callPath model call, .post)] := by
  unfold emitCall at h
  obtain ⟨⟨defs, input, output⟩, -, h⟩ := bind_eq_ok.1 h
  cases h
  exact Progress.places_emit _ _ _ _ _

theorem foldlM_places {α : Type} {f : Progress → α → Except CompileError Progress}
    {placesOf : α → List (String × Method)} :
    ∀ (l : List α) (p p' : Progress),
      (∀ a ∈ l, ∀ p p', f p a = .ok p' → p'.places = p.places ++ placesOf a) →
      l.foldlM f p = .ok p' → p'.places = p.places ++ l.flatMap placesOf
  | [], p, p', _, h => by
    cases h
    simp
  | a :: l, p, p', hstep, h => by
    rw [List.foldlM_cons] at h
    obtain ⟨p₁, ha, h⟩ := bind_eq_ok.1 h
    rw [foldlM_places l p₁ p' (fun b hb => hstep b (List.mem_cons_of_mem _ hb)) h,
      hstep a List.mem_cons_self p p₁ ha, List.flatMap_cons, List.append_assoc]

end Emit

/-! ## What a walk comes to -/

section Visited

variable (s : Settings) (model : DataModel)

mutual

/-- The containers and lists that `emitTree` comes to, each with the route to it. -/
def visited (start : Route) (level : Nat) : Tree → List (Route × NodeId)
  | .node id children =>
    if (model.node id).kind.isTransparent then visitedAmong start level children
    else if (model.node id).kind.isResource then
      if (s.maxDepth.map fun limit => decide (limit ≤ level)).getD false then []
      else (start.toNode model id, id) :: visitedAmong (start.toNode model id) (level + 1) children
    else []

/-- What is `visited` in some trees, one tree after the other. -/
def visitedAmong (start : Route) (level : Nat) : List Tree → List (Route × NodeId)
  | [] => []
  | t :: ts => visited start level t ++ visitedAmong start level ts

end

variable {s model}

theorem visitedAmong_eq_flatMap (start : Route) (level : Nat) :
    ∀ ts : List Tree, visitedAmong s model start level ts = ts.flatMap (visited s model start level)
  | [] => rfl
  | t :: ts => congrArg (visited s model start level t ++ ·) (visitedAmong_eq_flatMap start level ts)

mutual

theorem mem_visited_iff {x : Route × NodeId} : ∀ (t : Tree) (start : Route) (level : Nat),
    TreeOf model t →
    (x ∈ visited s model start level t ↔ s.Visits model start level t.id x.1 x.2)
  | .node id children, start, level, .node hids hbelow => by
    have hchildren : ∀ {start level},
        x ∈ visitedAmong s model start level children ↔
          ∃ c ∈ (model.node id).children, s.Visits model start level c x.1 x.2 := by
      intro start level
      rw [mem_visitedAmong_iff children start level hbelow, ← hids]
      simp only [List.mem_map, exists_exists_and_eq_and]
    unfold visited
    split
    · rename_i htransparent
      exact hchildren.trans (visits_transparent htransparent).symm
    · rename_i htransparent
      split
      · rename_i hresource
        split
        · rename_i hdeep
          obtain ⟨limit, hlimit, hle⟩ := tooDeep_iff.1 hdeep
          exact iff_of_false List.not_mem_nil (not_visits_of_le hlimit hle)
        · rename_i hdeep
          have hlt : ∀ limit, s.maxDepth = some limit → level < limit := fun limit hlimit =>
            Nat.lt_of_not_le fun hle => hdeep (tooDeep_iff.2 ⟨limit, hlimit, hle⟩)
          refine Iff.trans ?_ (visits_resource hresource hlt).symm
          rw [List.mem_cons, hchildren, Prod.ext_iff]
      · rename_i hresource
        exact iff_of_false List.not_mem_nil (not_visits htransparent hresource)

theorem mem_visitedAmong_iff {x : Route × NodeId} : ∀ (ts : List Tree) (start : Route) (level : Nat),
    (∀ t ∈ ts, TreeOf model t) →
    (x ∈ visitedAmong s model start level ts ↔ ∃ t ∈ ts, s.Visits model start level t.id x.1 x.2)
  | [], start, level, _ => by simp [visitedAmong]
  | t :: ts, start, level, hts => by
    rw [visitedAmong, List.mem_append, mem_visited_iff t start level (hts t List.mem_cons_self),
      mem_visitedAmong_iff ts start level fun t ht => hts t (List.mem_cons_of_mem _ ht),
      List.exists_mem_cons_iff]

end

/-! ## Where a walk puts operations -/

mutual

theorem emitTree_places (s : Settings) (model : DataModel) :
    ∀ (t : Tree) (start : Route) (level : Nat) (p p' : Progress),
      emitTree s model start level t p = .ok p' → p'.places = p.places ++
        (visited s model start level t).flatMap fun x => s.placesAt model x.1 x.2
  | .node id children, start, level, p, p', h => by
    unfold emitTree at h
    unfold visited
    dsimp only at h
    split at h
    · rename_i htransparent
      rw [if_pos htransparent]
      exact emitTrees_places s model children start level p p' h
    · rename_i htransparent
      rw [if_neg htransparent]
      split at h
      · rename_i hresource
        rw [if_pos hresource]
        split at h
        · rename_i hdeep
          cases h
          rw [if_pos hdeep]
          simp
        · rename_i hdeep
          rw [if_neg hdeep]
          obtain ⟨p₁, hdata, h⟩ := bind_eq_ok.1 h
          rw [emitTrees_places s model children _ (level + 1) p₁ p' h, emitData_places hdata,
            List.flatMap_cons, List.append_assoc]
      · rename_i hresource
        cases h
        rw [if_neg hresource]
        simp

theorem emitTrees_places (s : Settings) (model : DataModel) :
    ∀ (ts : List Tree) (start : Route) (level : Nat) (p p' : Progress),
      emitTrees s model start level ts p = .ok p' → p'.places = p.places ++
        (visitedAmong s model start level ts).flatMap fun x => s.placesAt model x.1 x.2
  | [], start, level, p, p', h => by
    cases h
    simp [visitedAmong]
  | t :: ts, start, level, p, p', h => by
    rw [emitTrees] at h
    obtain ⟨p₁, ht, h⟩ := bind_eq_ok.1 h
    rw [emitTrees_places s model ts start level p₁ p' h,
      emitTree_places s model t start level p p₁ ht,
      visitedAmong, List.flatMap_append, List.append_assoc]

end

/-- The containers and lists that the walk of a module comes to, if the settings ask for `data`. -/
def Settings.visitedIn (s : Settings) (model : DataModel) (home : Module) : List (Route × NodeId) :=
  if s.generates .data then visitedAmong s model [] 0 (home.data.map model.tree) else []

/-- The rpcs that are emitted for a module, if the settings ask for `rpc`. -/
def Settings.calledIn (s : Settings) (home : Module) : List NodeId :=
  if s.generates .rpc then home.rpcs else []

/-- The places by `placesAt` of what is visited, in the order in which they are emitted. -/
def Settings.dataPlaces (s : Settings) (model : DataModel) (visited : List (Route × NodeId)) :
    List (String × Method) :=
  visited.flatMap fun x => s.placesAt model x.1 x.2

/-- The `callPath` of each rpc, with the method `post`. -/
def Settings.callPlaces (s : Settings) (model : DataModel) (calls : List NodeId) :
    List (String × Method) :=
  calls.map fun call => (s.callPath model call, .post)

/-- The places of all that is emitted for a module: `dataPlaces`, and after them `callPlaces`. -/
def Settings.placesIn (s : Settings) (model : DataModel) (home : Module) : List (String × Method) :=
  s.dataPlaces model (s.visitedIn model home) ++ s.callPlaces model (s.calledIn home)

theorem emitModule_places {p p' : Progress} {home : Module}
    (h : emitModule s model p home = .ok p') :
    p'.places = p.places ++ s.placesIn model home := by
  unfold emitModule at h
  obtain ⟨p₁, hroots, hcalls⟩ := bind_eq_ok.1 h
  have hdata : p₁.places = p.places ++ s.dataPlaces model (s.visitedIn model home) := by
    unfold emitRoots at hroots
    unfold Settings.visitedIn
    cases hgenerates : s.generates .data with
    | true =>
      rw [hgenerates] at hroots
      exact emitTrees_places s model _ [] 0 p p₁ hroots
    | false =>
      rw [hgenerates] at hroots
      cases hroots
      exact (List.append_nil _).symm
  have hrpcs : p'.places = p₁.places ++ s.callPlaces model (s.calledIn home) := by
    unfold emitCalls at hcalls
    unfold Settings.calledIn
    cases hgenerates : s.generates .rpc with
    | true =>
      rw [hgenerates] at hcalls
      rw [foldlM_places home.rpcs p₁ p' (fun _ _ _ _ h => emitCall_places h) hcalls,
        ← List.map_eq_flatMap]
      rfl
    | false =>
      rw [hgenerates] at hcalls
      cases hcalls
      exact (List.append_nil _).symm
  rw [hrpcs, hdata, List.append_assoc]
  rfl

/-- The places of modules by `placesIn` are those of data and those of rpcs, in some order. -/
theorem placesIn_perm (s : Settings) (model : DataModel) (selected : List Module) :
    (s.dataPlaces model (selected.flatMap (s.visitedIn model)) ++
      s.callPlaces model (selected.flatMap s.calledIn)).Perm
      (selected.flatMap (s.placesIn model)) := by
  unfold Settings.dataPlaces Settings.callPlaces
  rw [List.flatMap_assoc, List.map_flatMap]
  exact List.flatMap_append_perm selected _ _

end Visited

end RestSpec
