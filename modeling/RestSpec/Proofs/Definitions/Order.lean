/-
The order in which definitions are added. A definition is added once everything that it refers to
is there, under a name that has none, and is left as it is from then on: while a definition is being
built its name is under way, so what is built inside it is never added under that name. The names
in the order of addition are thus an order in which every definition refers to earlier ones only.
-/
import RestSpec.Proofs.Definitions.Closed

namespace RestSpec.Definitions

open Document DataModel
open Relation (TransGen ReflTransGen)

/-! ## From moment to moment -/

/-- A definition refers to nothing, its `parents` included, but what is in the table. -/
def Rests (table : Table Definition) (d : Definition) : Prop :=
  ∀ r ∈ d.references.map (·.2), table.contains r = true

/-- What can happen to definitions while those named in `underWay` are being built: more becomes
known of names, or a definition is added. -/
inductive Moment (underWay : List String) : Definitions → Definitions → Prop
  | names (defs : Definitions) (names : Naming.Registry) :
      Moment underWay defs { defs with names := names }
  | add {defs : Definitions} {n : String} {d : Definition} : n ∉ underWay →
      defs.table.contains n = false → Rests defs.table d → Moment underWay defs (defs.insert n d)

/-- Any number of steps by `Moment`. -/
abbrev Moments (underWay : List String) : Definitions → Definitions → Prop :=
  ReflTransGen (Moment underWay)

section Moments

variable {underWay : List String} {defs defs' : Definitions}

theorem Moments.kept (h : Moments underWay defs defs') {k : String} {d : Definition}
    (hd : defs.table.find? k = some d) : defs'.table.find? k = some d := by
  induction h with
  | refl => exact hd
  | tail _ hstep ih =>
    cases hstep with
    | names => exact ih
    | add _ hnew _ => exact Table.find?_insert_of_new hnew ih

theorem Moments.contains (h : Moments underWay defs defs') {k : String}
    (hk : defs.table.contains k = true) : defs'.table.contains k = true := by
  obtain ⟨d, hd⟩ := Table.contains_iff.1 hk
  exact Table.contains_iff.2 ⟨d, h.kept hd⟩

/-- Over any `Moments`, nothing is added under a name that is `underWay`. -/
theorem Moments.not_contains (h : Moments underWay defs defs') {n : String} (hn : n ∈ underWay)
    (hnone : defs.table.contains n = false) : defs'.table.contains n = false := by
  induction h with
  | refl => exact hnone
  | tail _ hstep ih =>
    cases hstep with
    | names => exact ih
    | add hnot _ _ =>
      rw [Bool.eq_false_iff, Ne, insert, Table.contains_insert, not_or]
      exact ⟨fun heq => hnot (heq ▸ hn), Bool.eq_false_iff.1 ih⟩

/-- What is not added while more names are `underWay` is not added while fewer are. -/
theorem Moments.outer {n : String} (h : Moments (n :: underWay) defs defs') :
    Moments underWay defs defs' := by
  refine ReflTransGen.mono (fun _ _ hstep => ?_) _ _ h
  cases hstep with
  | names => exact .names _ _
  | add hnot hnew hrests => exact .add (fun hn => hnot (List.mem_cons_of_mem _ hn)) hnew hrests

end Moments

theorem canonical_moment (underWay : List String) (model : DataModel) (defs : Definitions)
    (id : NodeId) :
    ∃ defs' owner, defs.canonical model id = (defs', owner) ∧ Moment underWay defs defs' :=
  ⟨_, _, rfl, .names _ _⟩

theorem resolve_moment (underWay : List String) (model : DataModel) (defs : Definitions)
    (id : NodeId) : ∃ defs' n, defs.resolve model id = (defs', n) ∧ defs'.table = defs.table ∧
      Moment underWay defs defs' :=
  ⟨_, _, rfl, rfl, .names _ _⟩

/-! ## What is collected -/

section Collect

/-- A relation `R` to later states, in which the same schema `stands` for a node as before. -/
structure Later {σ : Type} (R : σ → σ → Prop) (stands : σ → NodeId → Schema → Prop) : Prop where
  refl : ∀ state, R state state
  trans : ∀ {state state' state''}, R state state' → R state' state'' → R state state''
  keeps : ∀ {state state' id s}, R state state' → stands state id s → stands state' id s

theorem later_moments (underWay : List String) :
    Later (Moments underWay) fun defs _ => RefersInto defs :=
  ⟨fun _ => .refl, .trans, fun h hinto r hr => h.contains (hinto r hr)⟩

/-- States with the same table refer into all that they did: equality of tables is `Later`. -/
theorem later_table :
    Later (fun defs defs' => defs'.table = defs.table) fun defs _ => RefersInto defs :=
  ⟨fun _ => rfl, fun h h' => h'.trans h, fun h hinto r hr => h ▸ hinto r hr⟩

variable {σ : Type} {R : σ → σ → Prop} {stands : σ → NodeId → Schema → Prop} {model : DataModel}
  {nested : Nested σ}

theorem memberSchema_later (hlater : Later R stands) {id : NodeId} {state state' : σ} {s : Schema}
    (hnested : (model.node id).kind.isResource = true → ∀ state' s,
      nested state id = .ok (state', s) → R state state' ∧ stands state' id s)
    (h : memberSchema model nested state id = .ok (state', s)) :
    R state state' ∧ MemberSchema model (stands state') id s := by
  unfold memberSchema at h
  unfold MemberSchema
  cases hk : (model.node id).kind with
  | container presence =>
    rw [hk] at h
    exact hnested (by rw [hk]; rfl) state' s h
  | list keys =>
    rw [hk] at h
    obtain ⟨⟨state₁, entry⟩, hentry, h⟩ := bind_eq_ok.1 h
    cases h
    obtain ⟨hr, hstands⟩ := hnested (by rw [hk]; rfl) state' entry hentry
    exact ⟨hr, entry, hstands, rfl⟩
  | _ =>
    rw [hk] at h
    cases h
    exact ⟨hlater.refl _, rfl⟩

/-- When `collectMembers` is done, the last state is a later one, and its attributes are `Collected`
with what was made for each member. -/
theorem collectMembers_later (hlater : Later R stands) {keys : List String}
    (hnested : ∀ id, (model.node id).kind.isResource = true → ∀ state state' s,
      nested state id = .ok (state', s) → R state state' ∧ stands state' id s) :
    ∀ (ms : List Member) (state state' : σ) (a a' : Attributes),
      collectMembers model nested keys ms state a = .ok (state', a') →
      R state state' ∧ Collected model (stands state') keys ms a a'
  | [], state, state', a, a', h => by
    cases h
    exact ⟨hlater.refl _, .nil⟩
  | m :: rest, state, state', a, a', h => by
    obtain ⟨⟨state₁, s⟩, hs, h⟩ := bind_eq_ok.1 h
    obtain ⟨hr₁, hschema⟩ := memberSchema_later hlater (fun hk => hnested m.id hk state) hs
    obtain ⟨hr₂, hcollected⟩ := collectMembers_later hlater hnested rest state₁ state' _ a' h
    exact ⟨hlater.trans hr₁ hr₂, .cons (hschema.mono fun _ _ => hlater.keeps hr₂) hcollected⟩

end Collect

/-! ## What is built -/

section Build

variable {model : DataModel} {underWay : List String} {build : Builder} {defs defs' : Definitions}

/-- A builder adds `Moments` to what is there, and gives the name of a definition. -/
def Lays (underWay : List String) (build : Builder) : Prop :=
  ∀ defs id defs' n, build defs id = .ok (defs', n) →
    Moments underWay defs defs' ∧ defs'.table.contains n = true

theorem Lays.referTo (h : Lays underWay build) {id : NodeId} {s : Schema}
    (hs : referTo build defs id = .ok (defs', s)) :
    Moments underWay defs defs' ∧ RefersInto defs' s := by
  obtain ⟨⟨defs₁, n⟩, hn, hs⟩ := bind_eq_ok.1 hs
  cases hs
  obtain ⟨hmoments, hthere⟩ := h _ _ _ _ hn
  refine ⟨hmoments, fun r hr => ?_⟩
  rw [Schema.references_referenceTo, List.mem_singleton] at hr
  exact hr ▸ hthere

theorem Lays.buildParents (hbuild : Lays underWay build) : ∀ (gs : List NodeId)
    (defs defs' : Definitions) (listed parents : List String),
    (∀ p ∈ listed, defs.table.contains p = true) →
    buildParents build gs defs listed = .ok (defs', parents) →
    Moments underWay defs defs' ∧ ∀ p ∈ parents, defs'.table.contains p = true
  | [], defs, defs', listed, parents, hlisted, h => by
    cases h
    exact ⟨.refl, hlisted⟩
  | g :: rest, defs, defs', listed, parents, hlisted, h => by
    obtain ⟨⟨defs₁, n⟩, hn, h⟩ := bind_eq_ok.1 h
    obtain ⟨hmoments₁, hthere⟩ := hbuild _ _ _ _ hn
    have hlisted₁ : ∀ p ∈ if listed.contains n then listed else listed ++ [n],
        defs₁.table.contains p = true := by
      intro p hp
      split at hp
      · exact hmoments₁.contains (hlisted p hp)
      · rcases List.mem_append.1 hp with hp | hp
        · exact hmoments₁.contains (hlisted p hp)
        · exact List.mem_singleton.1 hp ▸ hthere
    obtain ⟨hmoments₂, hparents⟩ := hbuild.buildParents rest defs₁ defs' _ parents hlisted₁ h
    exact ⟨hmoments₁.trans hmoments₂, hparents⟩

theorem Lays.sharedDefinition (hbuild : Lays underWay build) {owner : NodeId} {d : Definition}
    (h : sharedDefinition model build owner defs = .ok (defs', d)) :
    Moments underWay defs defs' ∧ Rests defs'.table d := by
  obtain ⟨⟨defs₁, parents⟩, hparents, h⟩ := bind_eq_ok.1 h
  obtain ⟨⟨defs₂, own⟩, hown, h⟩ := bind_eq_ok.1 h
  cases h
  obtain ⟨hmoments₁, hthere⟩ := hbuild.buildParents _ _ _ _ _ (by simp) hparents
  obtain ⟨hmoments₂, hcollected⟩ := collectMembers_later (later_moments underWay)
    (fun _ _ _ _ _ => hbuild.referTo) _ _ _ _ _ hown
  refine ⟨hmoments₁.trans hmoments₂, fun r hr => ?_⟩
  rcases Definition.mem_references.1 hr with hp | ⟨s, hs, hr⟩
  · rw [parents_assemble] at hp
    exact hmoments₂.contains (hthere r hp)
  · obtain ⟨description, rfl⟩ := own_assemble hs
    exact hcollected.references (fun _ _ hinto => hinto) description r hr

/-- `buildSharedWithin` adds a definition last, when all that it refers to has been built; its name
has been `underWay` all the time, so it has no definition yet. -/
theorem lays_buildSharedWithin (model : DataModel) : ∀ (depth : Nat) (underWay : List String),
    Lays underWay (buildSharedWithin model depth underWay)
  | 0, _ => fun _ _ _ _ h => nomatch h
  | depth + 1, underWay => by
    intro defs id defs' n h
    obtain ⟨defs₁, owner, hcanonical, hfirst⟩ := canonical_moment underWay model defs id
    obtain ⟨defs₂, name, hresolve, -, hsecond⟩ := resolve_moment underWay model defs₁ id
    have hnames : Moments underWay defs defs₂ := .tail (.single hfirst) hsecond
    unfold buildSharedWithin at h
    rw [hcanonical] at h
    dsimp only at h
    rw [hresolve] at h
    dsimp only at h
    split at h
    · rename_i hthere
      cases h
      exact ⟨hnames, hthere⟩
    · rename_i hnone
      split at h
      · cases h
      · rename_i hnot
        obtain ⟨⟨defs₃, d⟩, hd, h⟩ := bind_eq_ok.1 h
        cases h
        obtain ⟨hinside, hrests⟩ :=
          (lays_buildSharedWithin model depth (n :: underWay)).sharedDefinition hd
        have hnew := hinside.not_contains List.mem_cons_self (Bool.eq_false_iff.2 hnone)
        have hadd : Moment underWay defs₃ (defs₃.insert n d) :=
          .add (fun hmem => hnot (List.contains_iff_mem.2 hmem)) hnew hrests
        exact ⟨(hnames.trans hinside.outer).tail hadd, Table.contains_insert.2 (.inl rfl)⟩

/-- `flatSchemaWithin` states a schema in place and adds nothing to the table. -/
theorem flatSchemaWithin_table (model : DataModel) : ∀ (depth : Nat) (underWay : List String)
    (id : NodeId) (defs defs' : Definitions) (s : Schema),
    flatSchemaWithin model depth underWay defs id = .ok (defs', s) →
    defs'.table = defs.table ∧ RefersInto defs' s
  | 0, _, _, _, _, _, h => nomatch h
  | depth + 1, underWay, id, defs, defs', s, h => by
    obtain ⟨defs₁, name, hresolve, hnames, -⟩ := resolve_moment underWay model defs id
    unfold flatSchemaWithin at h
    rw [hresolve] at h
    dsimp only at h
    split at h
    · rename_i hthere
      cases h
      refine ⟨hnames, fun r hr => ?_⟩
      rw [Schema.references_referenceTo, List.mem_singleton] at hr
      exact hr ▸ hthere
    · split at h
      · cases h
      · obtain ⟨⟨defs₂, a⟩, ha, h⟩ := bind_eq_ok.1 h
        cases h
        obtain ⟨htable, hcollected⟩ := collectMembers_later later_table
          (fun id _ => flatSchemaWithin_table model depth (name :: underWay) id) _ _ _ _ _ ha
        exact ⟨htable.trans hnames, hcollected.references (fun _ _ hinto => hinto) _⟩

theorem lays_buildFlat (model : DataModel) : Lays [] (buildFlat model) := by
  intro defs id defs' n h
  obtain ⟨defs₁, name, hresolve, -, hfirst⟩ := resolve_moment [] model defs id
  unfold buildFlat at h
  rw [hresolve] at h
  dsimp only at h
  split at h
  · rename_i hthere
    cases h
    exact ⟨.single hfirst, hthere⟩
  · rename_i hnone
    obtain ⟨⟨defs₂, s⟩, hs, h⟩ := bind_eq_ok.1 h
    cases h
    obtain ⟨htable, hinto⟩ := flatSchemaWithin_table model _ _ _ _ _ _ hs
    have hsecond : Moment [] defs₁ defs₂ := by
      have hsame : { defs₁ with names := defs₂.names } = defs₂ := congrArg (Definitions.mk _) htable.symm
      exact hsame ▸ Moment.names defs₁ defs₂.names
    have hrests : Rests defs₂.table (.simple s) := by
      intro r hr
      obtain ⟨s', hs', hr⟩ := (Definition.mem_references.1 hr).resolve_left List.not_mem_nil
      exact hinto r (Option.some.inj hs' ▸ hr)
    have hadd : Moment [] defs₂ (defs₂.insert n (.simple s)) :=
      .add List.not_mem_nil (htable ▸ Bool.eq_false_iff.2 hnone) hrests
    exact ⟨.tail (.tail (.single hfirst) hsecond) hadd, Table.contains_insert.2 (.inl rfl)⟩

theorem lays_build (strategy : Strategy) (model : DataModel) :
    Lays [] (Definitions.build strategy model) := by
  cases strategy with
  | optimizing => exact lays_buildSharedWithin model _ []
  | unpacking => exact lays_buildFlat model

end Build

/-! ## The order of addition -/

/-- The definition of `n` refers to the name `r`, as a parent or otherwise. -/
def RefersTo (table : Table Definition) (n r : String) : Prop :=
  ∃ d, table.find? n = some d ∧ r ∈ d.references.map (·.2)

/-- An order of all names of a table in which each definition `RefersTo` earlier names only. -/
structure Ordered (table : Table Definition) (order : List String) : Prop where
  nodup : order.Nodup
  names : ∀ n, n ∈ order ↔ table.contains n = true
  earlier : ∀ before n after, order = before ++ n :: after → ∀ r, RefersTo table n r → r ∈ before

section Ordered

variable {table : Table Definition} {order : List String} {underWay : List String}
  {defs defs' : Definitions}

theorem ordered_empty : Ordered ∅ [] := by
  refine ⟨List.nodup_nil, fun n => ?_, fun before n after h => ?_⟩
  · exact ⟨fun h => absurd h List.not_mem_nil, nofun⟩
  · simp at h

/-- In a table that is `Ordered` no reference dangles. -/
theorem Ordered.closed (h : Ordered table order) {n r : String} (hr : RefersTo table n r) :
    table.contains r = true := by
  obtain ⟨d, hd, -⟩ := id hr
  obtain ⟨before, after, rfl⟩ :=
    List.append_of_mem ((h.names n).2 (Table.contains_of_find? hd))
  exact (h.names r).1 (List.mem_append_left _ (h.earlier before n after rfl r hr))

/-- In a table that is `Ordered` no way by `RefersTo` leads back to where it starts. -/
theorem Ordered.acyclic (h : Ordered table order) (n : String) :
    ¬ TransGen (RefersTo table) n n := by
  intro hcycle
  have hreached : ∀ before after, order = before ++ n :: after →
      ∀ r, TransGen (RefersTo table) n r → r ∈ before := by
    intro before after horder r hr
    induction hr with
    | single hstep => exact h.earlier before n after horder _ hstep
    | tail _ hstep ih =>
      obtain ⟨before', after', rfl⟩ := List.append_of_mem ih
      rw [List.append_assoc] at horder
      exact List.mem_append_left _ (h.earlier before' _ _ horder _ hstep)
  obtain ⟨r, ⟨d, hd, -⟩, -⟩ := TransGen.head'_iff.1 hcycle
  obtain ⟨before, after, horder⟩ :=
    List.append_of_mem ((h.names n).2 (Table.contains_of_find? hd))
  have hmem := hreached before after horder n hcycle
  have hnodup := h.nodup
  rw [horder] at hnodup
  exact (List.nodup_append.1 hnodup).2.2 n hmem n List.mem_cons_self rfl

theorem Ordered.add (h : Ordered defs.table order) {n : String} {d : Definition}
    (hnew : defs.table.contains n = false) (hrests : Rests defs.table d) :
    Ordered (defs.insert n d).table (order ++ [n]) := by
  have hnot : n ∉ order := fun hmem => by
    rw [(h.names n).1 hmem] at hnew
    cases hnew
  refine ⟨?_, fun k => ?_, fun before k after horder r hr => ?_⟩
  · exact List.nodup_append.2 ⟨h.nodup, List.nodup_singleton n, fun a ha b hb heq =>
      hnot (List.mem_singleton.1 hb ▸ heq ▸ ha)⟩
  · rw [insert, Table.contains_insert, List.mem_append, List.mem_singleton, h.names, or_comm]
  · obtain ⟨d', hd', hr⟩ := hr
    have hfind : (if n = k then some d else defs.table.find? k) = some d' :=
      (Table.find?_insert defs.table n k d).symm.trans hd'
    -- the name is the last one, or stands where it stood before
    rcases List.eq_nil_or_concat after with rfl | ⟨after', last, rfl⟩
    · obtain ⟨rfl, hlast⟩ := List.append_inj' horder rfl
      obtain rfl := (List.cons.inj hlast).1
      rw [if_pos rfl] at hfind
      cases hfind
      exact (h.names r).2 (hrests r hr)
    · rw [List.concat_eq_append, ← List.cons_append, ← List.append_assoc] at horder
      obtain ⟨rfl, -⟩ := List.append_inj' horder rfl
      have hk : n ≠ k := fun heq => hnot (heq ▸ List.mem_append_right _ List.mem_cons_self)
      rw [if_neg hk] at hfind
      exact h.earlier before k after' rfl r ⟨d', hfind, hr⟩

/-- `Moments` keep a table `Ordered`: what is added comes after what is there. -/
theorem Moments.ordered (h : Moments underWay defs defs') (ho : Ordered defs.table order) :
    ∃ more, Ordered defs'.table (order ++ more) := by
  induction h with
  | refl => exact ⟨[], (List.append_nil order).symm ▸ ho⟩
  | tail _ hstep ih =>
    obtain ⟨more, hmore⟩ := ih
    cases hstep with
    | names => exact ⟨more, hmore⟩
    | @add n d _ hnew hrests =>
      exact ⟨more ++ [n], List.append_assoc order more [n] ▸ hmore.add hnew hrests⟩

end Ordered

end RestSpec.Definitions
