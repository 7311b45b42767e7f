/-
A node never shares its canonical node with an ancestor. A copy comes from a node with a smaller
number, but a grouping that a node adds nothing to may have a greater one, so the way to a
canonical node is no way to smaller numbers; it ends because models hold together without a circle.
For the same reason a node stands for another node than its ancestors: child by child an ancestor
has the children of its canonical node, which a descendant would otherwise lead back to itself.
-/
import RestSpec.Proofs.DataModel.Seats
import RestSpec.Proofs.Naming.Registry

namespace RestSpec.DataModel

open Relation (TransGen ReflTransGen)

variable {model : DataModel} {sources : List Source.Module}

/-! ## Ancestors -/

/-- The node `a` is a proper ancestor of the node `id`, by `parent`. -/
def Above (model : DataModel) (a id : NodeId) : Prop :=
  TransGen (fun c p => (model.node c).parent = some p) id a

/-- A node leads down to a descendant, by `children`. -/
def Down (model : DataModel) : NodeId → NodeId → Prop :=
  TransGen fun p c => c ∈ (model.node p).children

theorem down_of_above (h : link sources = .ok model) {a id : NodeId} (ha : model.Above a id) :
    model.Down a id := by
  induction ha with
  | single hp => exact .single (mem_children_of_parent h hp)
  | tail _ hp ih => exact .head (mem_children_of_parent h hp) ih

theorem transGen_edge_of_down {a id : NodeId} (h : model.Down a id) :
    TransGen model.Edge a id :=
  TransGen.mono (fun _ _ hc => Or.inl hc) _ _ h

theorem reflTransGen_edge_canonical (id : NodeId) :
    ReflTransGen model.Edge id (model.canonical id) :=
  ReflTransGen.mono (fun _ _ hs => edge_of_standsFor? hs) _ _ (canonical_path id)

section Linked

variable (hm : model.Linked)

include hm

/-- Below nodes whose children are a `Twin` of each other, one by one, lie nodes that stand for the
same. -/
theorem Linked.down_of_twins {a b : NodeId}
    (htwins : List.Forall₂ model.Twin (model.node a).children (model.node b).children)
    {id : NodeId} (h : model.Down a id) :
    ∃ y, model.Down b y ∧ ReflTransGen model.Copies id y := by
  induction h with
  | single hc =>
    obtain ⟨t, ht, htwin⟩ := forall₂_mem_left htwins _ hc
    exact ⟨t, .single ht, htwin.copies⟩
  | tail _ hc ih =>
    obtain ⟨y, hdown, hcopies⟩ := ih
    obtain ⟨t, ht, htwin⟩ := forall₂_mem_left (hm.alike hcopies).children _ hc
    exact ⟨t, hdown.tail ht, htwin.copies⟩

/-- What lies `Down` from a node never has the same `canonical` node as it has. -/
theorem Linked.canonical_ne_of_down {a id : NodeId} (h : model.Down a id) :
    model.canonical id ≠ model.canonical a := by
  intro heq
  obtain ⟨y, hdown, hcopies⟩ := hm.down_of_twins (hm.children_canonical a) h
  have hy : model.canonical y = model.canonical a := (hm.alike hcopies).canonical.symm.trans heq
  -- from the canonical node down to `y` and on to what `y` stands for is a circle
  have hback : ReflTransGen model.Edge y (model.canonical a) :=
    hy ▸ reflTransGen_edge_canonical y
  exact not_transGen_of_wellFounded hm.founded (model.canonical a)
    (TransGen.trans_left (transGen_edge_of_down hdown) hback)

end Linked

/-! ## Ends of ways -/

/-- The node `owner` is the last one on the way from `id` by `standsFor?`: it stands for itself, and
lies in a grouping if it is another than `id`. -/
structure IsCanonical (model : DataModel) (id owner : NodeId) : Prop where
  reached : ReflTransGen (fun a b => model.standsFor? a = some b) id owner
  original : (model.node owner).copiedFrom = none
  own : model.aliasTarget? owner = none
  grouped : owner ≠ id → model.Grouped owner

theorem grouped_of_standsFor? (h : link sources = .ok model) {id s : NodeId}
    (hs : model.standsFor? id = some s) : model.Grouped s := by
  rcases standsFor?_eq_some hs with hcopies | ⟨-, halias⟩
  · exact grouped_of_copies h hcopies
  · have huses := (aliases_of_aliasTarget? halias).uses
    exact .root ((linked_of_link h).1.uses id s (huses ▸ List.mem_singleton_self s)).2

theorem canonical_isCanonical (h : link sources = .ok model) (id : NodeId) :
    model.IsCanonical id (model.canonical id) := by
  have hend := (linked_of_link h).1.standsFor?_canonical id
  have hpath : ReflTransGen (fun a b => model.standsFor? a = some b) id (model.canonical id) :=
    canonical_path id
  have hcopied : (model.node (model.canonical id)).copiedFrom = none := by
    by_contra hne
    obtain ⟨s, hs⟩ := Option.ne_none_iff_exists'.1 hne
    rw [standsFor?_of_copies hs] at hend
    cases hend
  refine ⟨hpath, hcopied, ?_, fun hne => ?_⟩
  · -- what a node stands for is what it copies first, and else what it is an alias of
    unfold standsFor? at hend
    rwa [hcopied] at hend
  · rcases ReflTransGen.cases_tail hpath with heq | ⟨b, -, hstep⟩
    · exact absurd heq hne
    · exact grouped_of_standsFor? h hstep

end RestSpec.DataModel

namespace RestSpec.Naming.Registry

open DataModel
open Relation (TransGen ReflTransGen)

variable {model : DataModel} {sources : List Source.Module}

/-! ## Questions -/

/-- What a `Registry` is asked for: the canonical node of a node, or its name. -/
inductive Question where
  | canonical (id : NodeId)
  | name (id : NodeId)

/-- What a `Registry` remembers after a question. -/
def ask (model : DataModel) (r : Registry) : Question → Registry
  | .canonical id => (r.canonical model id).1
  | .name id => (r.resolve model id).1

theorem Valid.ask {r : Registry} (hr : r.Valid model) (hm : model.Linked) (q : Question) :
    (r.ask model q).Valid model := by
  cases q with
  | canonical id => exact (canonical_finds hm hr id).valid
  | name id => exact (resolve_names hm hr id).grows.valid

theorem Valid.foldl_ask (hm : model.Linked) (asked : List Question) {r : Registry}
    (hr : r.Valid model) : (asked.foldl (Registry.ask model) r).Valid model := by
  induction asked generalizing r with
  | nil => exact hr
  | cons q asked ih => exact ih (hr.ask hm q)

/-- The node that a new `Registry` takes for canonical after the questions `asked`. -/
def answer (model : DataModel) (asked : List Question) (id : NodeId) : NodeId :=
  ((asked.foldl (ask model) {}).canonical model id).2

theorem answer_eq (hm : model.Linked) (asked : List Question) (id : NodeId) :
    answer model asked id = model.canonical id :=
  (canonical_finds hm (Valid.foldl_ask hm asked (valid_empty model)) id).found

/-! ## Steps -/

/-- `canonicalWithin` with enough steps for the nodes that have not been `Passed` changes nothing by
one step more. -/
theorem canonicalWithin_succ (hm : model.Linked) :
    ∀ (steps : Nat) (r : Registry) (id : NodeId) (passed : List NodeId),
      Passed (fun a b => model.standsFor? a = some b) model.size passed id →
      model.size < passed.length + steps →
      canonicalWithin model (steps + 1) r id = canonicalWithin model steps r id := by
  intro steps
  induction steps with
  | zero =>
    intro r id passed hp hlt
    exact absurd hp.length_le (Nat.not_le.2 hlt)
  | succ steps ih =>
    intro r id passed hp hlt
    rw [canonicalWithin, canonicalWithin]
    cases hs : model.standsFor? id with
    | none => rfl
    | some next =>
      have hpassed := hp.cons hm.standsFor_founded (lt_size_of_edge (edge_of_standsFor? hs))
        (.single hs)
      dsimp only
      rw [ih r next (id :: passed) hpassed (by simp only [List.length_cons]; omega)]

/-- The search without a bound: it finds what the registry remembers, or what the way on by
`standsFor?` leads to, and remembers that. -/
def Searches (model : DataModel) (search : Registry → NodeId → Registry × NodeId) : Prop :=
  ∀ r id, search r id =
    match r.canonicals.lookup id with
    | some owner => (r, owner)
    | none =>
      let (r, owner) :=
        match model.standsFor? id with
        | some next => search r next
        | none => (r, id)
      ({ r with canonicals := (id, owner) :: r.canonicals }, owner)

/-- `Registry.canonical` is the search without a bound, for the bound on its steps is never
reached. -/
theorem canonical_searches (hm : model.Linked) :
    Searches model fun r id => r.canonical model id := by
  intro r id
  dsimp only
  rw [canonical, canonicalWithin]
  cases r.canonicals.lookup id with
  | some owner => rfl
  | none =>
    cases hs : model.standsFor? id with
    | none => rfl
    | some next =>
      have hpassed : Passed (fun a b => model.standsFor? a = some b) model.size [id] next :=
        Passed.nil.cons hm.standsFor_founded (lt_size_of_edge (edge_of_standsFor? hs)) (.single hs)
      dsimp only
      rw [canonical, canonicalWithin_succ hm model.size r next [id] hpassed (by simp)]

/-! ## Answers -/

/-- Every search for a canonical node comes to its end, and whatever has been `asked` before it
finds the same node. This `IsCanonical`, is found for itself, lies in a grouping if it is another
than `id`, and is the answer for no node `Above` that. -/
theorem answer_isCanonical (h : link sources = .ok model) :
    (WellFounded fun b a => model.standsFor? a = some b) ∧
    Searches model (fun r id => r.canonical model id) ∧
    ∀ (asked : List Question) (id : NodeId),
      answer model asked id = model.canonical id ∧
      model.IsCanonical id (answer model asked id) ∧
      answer model asked (answer model asked id) = answer model asked id ∧
      ∀ a, model.Above a id → answer model asked a ≠ answer model asked id := by
  obtain ⟨hm, -⟩ := linked_of_link h
  refine ⟨hm.standsFor_founded, canonical_searches hm, fun asked id => ?_⟩
  rw [answer_eq hm, answer_eq hm, hm.canonical_canonical]
  refine ⟨rfl, canonical_isCanonical h id, rfl, fun a ha => ?_⟩
  rw [answer_eq hm]
  exact (hm.canonical_ne_of_down (down_of_above h ha)).symm

/-- A grouping that stands for another by using it alone, a grouping that uses it deep down, and
data that uses that. -/
def layered : List Source.Module :=
  [{ name := "net", modulePrefix := none, namespaceUri := none, revision := none,
     description := none, typedefs := [], rpcs := [], augments := []
     groupings := [
       ⟨"outer", none, none, ⟨[containerOf "inner" [] ["alias"]], []⟩⟩,
       ⟨"alias", none, none, ⟨[], ["base"]⟩⟩,
       ⟨"base", none, none, ⟨[leafOf "address" "string"], []⟩⟩]
     data := [containerOf "top" [] ["outer"]] }]

/-- The copy `inner` below `top` stands for `base`, over the `inner` of the grouping and `alias`,
and not for what `top` stands for. -/
theorem answer_isCanonical_layered : ∃ model, link layered = .ok model ∧
    (model.node 8).parent = some 7 ∧ model.canonical 8 = 3 ∧
    answer model [.name 8, .canonical 7] 8 = model.canonical 8 ∧
    model.IsCanonical 8 (answer model [.name 8, .canonical 7] 8) ∧
    answer model [.name 8, .canonical 7] 7 ≠ answer model [.name 8, .canonical 7] 8 := by
  obtain ⟨model, h⟩ := exists_ok_of_isSome (x := link layered) (by decide +kernel)
  have hinfo := map_of_ok h (f := fun model => ((model.node 8).parent, model.canonical 8))
    (b := (some 7, 3)) (by decide +kernel)
  simp only [Prod.mk.injEq] at hinfo
  obtain ⟨hparent, hcanonical⟩ := hinfo
  obtain ⟨hfound, howner, -, habove⟩ := (answer_isCanonical h).2.2 [.name 8, .canonical 7] 8
  exact ⟨model, h, hparent, hcanonical, hfound, howner, habove 7 (.single hparent)⟩

end RestSpec.Naming.Registry
