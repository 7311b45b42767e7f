/-
Which properties are required. A property is required by the definition that states it, as a key of
the node that the definition is made for or as a mandatory leaf that stands in no choice. Whether a
leaf is mandatory shows on every copy, so all nodes that share a definition agree on it; keys belong
to a list alone, so a definition knows only those of its own node, and groupings have none.
-/
import RestSpec.Proofs.DataModel.Divergence
import RestSpec.Proofs.Definitions.Lending
import RestSpec.Proofs.Definitions.Runs

namespace RestSpec

open Document DataModel
open Relation (TransGen ReflTransGen)
open Definitions (Named SharedParts assemble buildLast buildLast_ok buildLast_first firstSharing)

variable {model : DataModel}

/-! ## Members outside of choices -/

namespace DataModel

/-- A child of a node, or in the place of a `case` what lies in it. -/
inductive Directly (model : DataModel) (id : NodeId) : NodeId → Prop
  | child {c : NodeId} : c ∈ (model.node id).children → Directly model id c
  | case {p c : NodeId} : Directly model id p → (model.node p).kind = .case →
      c ∈ (model.node p).children → Directly model id c

mutual

theorem membersOf_marked : ∀ (t : Tree) (mark : String), ∀ m ∈ membersOf model (some mark) t,
    m.choice ≠ none
  | .node id children, mark, m, h => by
    unfold membersOf at h
    split at h
    · exact membersOfCases_marked children _ m h
    · exact membersOfAll_marked children mark m h
    all_goals first
      | exact absurd h List.not_mem_nil
      | obtain rfl := List.mem_singleton.1 h
        exact nofun

theorem membersOfAll_marked : ∀ (ts : List Tree) (mark : String),
    ∀ m ∈ membersOfAll model (some mark) ts, m.choice ≠ none
  | [], _, _, h => by cases h
  | t :: ts, mark, m, h => by
    rw [membersOfAll] at h
    rcases List.mem_append.1 h with h | h
    · exact membersOf_marked t mark m h
    · exact membersOfAll_marked ts mark m h

theorem membersOfCases_marked : ∀ (ts : List Tree) (choice : String),
    ∀ m ∈ membersOfCases model choice ts, m.choice ≠ none
  | [], _, _, h => by cases h
  | .node id children :: ts, choice, m, h => by
    rw [membersOfCases] at h
    rcases List.mem_append.1 h with h | h
    · split at h
      · exact membersOfAll_marked children _ m h
      · exact membersOf_marked (.node id children) _ m h
    · exact membersOfCases_marked ts choice m h

end

mutual

theorem membersOf_directly {root : NodeId} : ∀ (t : Tree), TreeOf model t →
    Directly model root t.id → ∀ m ∈ membersOf model none t, m.choice = none →
      Directly model root m.id
  | .node id children, ht, hid, m, h, hnone => by
    obtain ⟨hids, htrees⟩ := ht.children
    unfold membersOf at h
    split at h
    · exact absurd hnone (membersOfCases_marked children _ m h)
    · rename_i hcase
      exact membersOfAll_directly children (fun t ht => ⟨htrees t ht,
        .case hid hcase (hids ▸ List.mem_map.2 ⟨t, ht, rfl⟩)⟩) m h hnone
    all_goals first
      | exact absurd h List.not_mem_nil
      | obtain rfl := List.mem_singleton.1 h
        exact hid

theorem membersOfAll_directly {root : NodeId} : ∀ (ts : List Tree),
    (∀ t ∈ ts, TreeOf model t ∧ Directly model root t.id) →
    ∀ m ∈ membersOfAll model none ts, m.choice = none → Directly model root m.id
  | [], _, _, h, _ => by cases h
  | t :: ts, hts, m, h, hnone => by
    rw [membersOfAll] at h
    rcases List.mem_append.1 h with h | h
    · obtain ⟨ht, hid⟩ := hts t List.mem_cons_self
      exact membersOf_directly t ht hid m h hnone
    · exact membersOfAll_directly ts (fun u hu => hts u (List.mem_cons_of_mem _ hu)) m h hnone

end

section Linked

variable (hm : model.Linked)

include hm

/-- What lies `Directly` below a node, outside of choices, gives it its members. -/
theorem Linked.members_of_directly {id c : NodeId} (h : Directly model id c) :
    ∀ m ∈ membersOf model none (model.tree c), m ∈ model.members id fun _ => true := by
  induction h with
  | @child c hc =>
    intro m hmem
    unfold members
    rw [membersOfAll_eq_flatMap, List.filter_true, hm.tree_children_eq]
    exact List.mem_flatMap.2 ⟨model.tree c, List.mem_map.2 ⟨c, hc, rfl⟩, hmem⟩
  | @case p c _ hkind hc ih =>
    intro m hmem
    refine ih m ?_
    rw [hm.tree_eq, membersOf, hkind, membersOfAll_eq_flatMap]
    exact List.mem_flatMap.2 ⟨model.tree c, List.mem_map.2 ⟨c, hc, rfl⟩, hmem⟩

/-- A member has no `choice` just if it lies `Directly` below the node. -/
theorem Linked.unmarked_iff {id c : NodeId} (hkind : (model.node id).kind.isStructural = true) :
    (∃ m ∈ model.members id fun _ => true, m.id = c ∧ m.choice = none) ↔
      c ∈ model.dataChildren id ∧ Directly model id c := by
  rw [← hm.members_ids hkind]
  constructor
  · rintro ⟨m, hmem, rfl, hnone⟩
    refine ⟨List.mem_map.2 ⟨m, hmem, rfl⟩, ?_⟩
    obtain ⟨t, ht, -, hmt⟩ := mem_members hmem
    obtain ⟨hids, htrees⟩ := hm.tree_children id
    exact membersOf_directly t (htrees t ht) (.child (hids ▸ List.mem_map.2 ⟨t, ht, rfl⟩)) m hmt
      hnone
  · rintro ⟨hc, hdirect⟩
    obtain ⟨m, hmem, rfl⟩ := List.mem_map.1 hc
    have hmember := (hm.members_below hmem).2
    refine ⟨⟨m.id, none⟩, hm.members_of_directly hdirect _ ?_, rfl, rfl⟩
    have hid := tree_id model m.id
    cases htree : model.tree m.id with
    | node x children =>
      obtain rfl : x = m.id := by rw [htree] at hid; exact hid
      unfold membersOf
      cases hk : (model.node m.id).kind <;> rw [hk] at hmember <;>
        first | exact List.mem_singleton_self _ | cases hmember

end Linked

/-! ## What is required -/

/-- The kinds of leaves that must be given, by `mandatory`. -/
def Kind.isMandatory (k : Kind) : Bool := (k.leafInfo?.map (·.mandatory)).getD false

/-- A key `k` of the node `id` is the name of one of `children`, which no augment has added. -/
def NamesKey (model : DataModel) (id : NodeId) (children : List NodeId) (k : String) : Prop :=
  k ∈ (model.node id).kind.keys ∧
    ∃ c ∈ children, (model.node c).name = k ∧ (model.node c).augmentedBy = none

/-- The property name of a data child that `isMandatory` and lies `Directly` below the node, in no
choice. -/
def NamesMandatory (model : DataModel) (id : NodeId) (k : String) : Prop :=
  ∃ c ∈ model.dataChildren id, Directly model id c ∧ (model.node c).kind.isMandatory = true ∧
    (model.node c).propertyName = k

/-- The `Facets` of a member that `isMandatory` and stands in no choice. -/
structure Facets.Mandatory (f : Facets) : Prop where
  kind : f.kind.isMandatory = true
  choice : f.choice = none

theorem Linked.namesMandatory_iff (hm : model.Linked) {id : NodeId}
    (hkind : (model.node id).kind.isStructural = true) {k : String} :
    NamesMandatory model id k ↔ ∃ f ∈ model.shows id, f.name = k ∧ f.Mandatory := by
  constructor
  · rintro ⟨c, hc, hdirect, hmandatory, hname⟩
    obtain ⟨m, hmem, rfl, hnone⟩ := (hm.unmarked_iff hkind).2 ⟨hc, hdirect⟩
    exact ⟨model.facets m, List.mem_map.2 ⟨m, hmem, rfl⟩, hname, hmandatory, hnone⟩
  · rintro ⟨f, hf, hname, hmandatory, hnone⟩
    obtain ⟨m, hmem, rfl⟩ := List.mem_map.1 hf
    obtain ⟨hc, hdirect⟩ := (hm.unmarked_iff hkind).1 ⟨m, hmem, rfl, hnone⟩
    exact ⟨m.id, hc, hdirect, hmandatory, hname⟩

end DataModel

/-- A member `isRequired` as a key or as a mandatory leaf. -/
theorem isRequired_iff {keys : List String} {m : Member} :
    Attributes.isRequired keys (model.node m.id) m.choice = true ↔
      ((model.node m.id).name ∈ keys ∧ (model.node m.id).augmentedBy = none) ∨
        (model.facets m).Mandatory := by
  have hfacets : (model.facets m).Mandatory ↔
      (model.node m.id).kind.isMandatory = true ∧ m.choice = none :=
    ⟨fun h => ⟨h.kind, h.choice⟩, fun h => ⟨h.1, h.2⟩⟩
  rw [hfacets]
  unfold Attributes.isRequired Kind.isMandatory
  simp only [Bool.or_eq_true, Bool.and_eq_true, List.contains_iff_mem, Option.isNone_iff_eq_none]

section Collected

variable {stands : NodeId → Schema → Prop} {id : NodeId} {ms : List Member} {a a' : Attributes}

theorem Collected.required_iff {keys : List String} (h : Collected model stands keys ms a a')
    {k : String} : k ∈ a'.required ↔ k ∈ a.required ∨
      ∃ m ∈ ms, Attributes.isRequired keys (model.node m.id) m.choice = true ∧
        model.memberName m = k := by
  induction h with
  | nil => simp
  | @cons m rest s a a' _ _ ih =>
    rw [ih]
    unfold Attributes.add memberName
    dsimp only
    split
    · rename_i hrequired
      simp only [List.mem_append, List.mem_cons, List.not_mem_nil, or_false, exists_eq_or_imp,
        hrequired, true_and, or_assoc, eq_comm (a := k)]
    · rename_i hrequired
      simp only [List.mem_cons, exists_eq_or_imp, hrequired, Bool.false_eq_true, false_and,
        false_or]

/-- What is `Collected` requires the keys of a node among its members, and those that are
`Mandatory`. -/
theorem Collected.requires (h : Collected model stands (model.node id).kind.keys ms {} a)
    {k : String} : k ∈ a.required ↔ NamesKey model id (ms.map Member.id) k ∨
      ∃ f ∈ ms.map model.facets, f.name = k ∧ f.Mandatory := by
  rw [h.required_iff]
  constructor
  · rintro (hnil | ⟨m, hm, hrequired, hname⟩)
    · cases hnil
    · rcases isRequired_iff.1 hrequired with ⟨hkey, hnone⟩ | hmandatory
      · have hsame : model.memberName m = (model.node m.id).name := by
          unfold memberName Node.propertyName
          rw [hnone]
        rw [← hname, hsame]
        exact .inl ⟨hkey, m.id, List.mem_map.2 ⟨m, hm, rfl⟩, rfl, hnone⟩
      · exact .inr ⟨model.facets m, List.mem_map.2 ⟨m, hm, rfl⟩, hname, hmandatory⟩
  · rintro (⟨hkey, c, hc, hname, hnone⟩ | ⟨f, hf, hname, hmandatory⟩)
    · obtain ⟨m, hm, rfl⟩ := List.mem_map.1 hc
      refine .inr ⟨m, hm, isRequired_iff.2 (.inl ⟨hname ▸ hkey, hnone⟩), ?_⟩
      unfold memberName Node.propertyName
      rw [hnone]
      exact hname
    · obtain ⟨m, hm, rfl⟩ := List.mem_map.1 hf
      exact .inr ⟨m, hm, isRequired_iff.2 (.inr hmandatory), hname⟩

/-- What is `Collected` without properties requires nothing. -/
theorem Collected.required_of_isEmpty {keys : List String}
    (h : Collected model stands keys ms {} a) (hempty : a.isEmpty = true) : a.required = [] := by
  refine List.eq_nil_iff_forall_not_mem.2 fun k hk => ?_
  rcases h.required_iff.1 hk with hnil | ⟨m, hm, -, -⟩
  · cases hnil
  · have hname : model.memberName m ∈ Entries.names a.properties :=
      h.names_iff.2 (.inr (List.mem_map.2 ⟨m, hm, rfl⟩))
    rw [List.isEmpty_iff.1 hempty] at hname
    cases hname

end Collected

/-! ## What is inherited -/

namespace Document

/-- The names that a definition requires in its `own` schema. -/
def Definition.required (d : Definition) : List String := (d.own.map (·.required)).getD []

/-- A definition has a name among those `required` by itself, or one of its `parents` does, or one
of theirs and so on. -/
inductive Requires (table : Table Definition) : String → String → Prop
  | own {n k : String} {d : Definition} : table.find? n = some d → k ∈ d.required →
      Requires table n k
  | inherited {n p k : String} {d : Definition} : table.find? n = some d → p ∈ d.parents →
      Requires table p k → Requires table n k

theorem requires_iff {table : Table Definition} {n k : String} {d : Definition}
    (hd : table.find? n = some d) :
    Requires table n k ↔ k ∈ d.required ∨ ∃ p ∈ d.parents, Requires table p k := by
  constructor
  · intro h
    cases h with
    | own hd' hk => exact .inl (Option.some.inj (hd.symm.trans hd') ▸ hk)
    | inherited hd' hp hk => exact .inr ⟨_, Option.some.inj (hd.symm.trans hd') ▸ hp, hk⟩
  · rintro (hk | ⟨p, hp, hk⟩)
    · exact .own hd hk
    · exact .inherited hd hp hk

end Document

/-! ## Definitions -/

theorem DataModel.Linked.grouping_canonical (hm : model.Linked) {id : NodeId}
    (h : (model.node id).kind = .grouping) : (model.node (model.canonical id)).kind = .grouping := by
  have hpath : ReflTransGen (fun a b => model.standsFor? a = some b) id (model.canonical id) :=
    canonical_path id
  generalize model.canonical id = owner at hpath
  induction hpath with
  | refl => exact h
  | @tail a b _ hstep ih =>
    rcases standsFor?_eq_some hstep with hcopies | ⟨-, halias⟩
    · rw [← (hm.mirrors a b hcopies).kind, ih]
    · exact (hm.uses a b ((aliases_of_aliasTarget? halias).uses ▸ List.mem_singleton_self b)).2

namespace Definitions

variable {defs : Definitions}

theorem required_assemble {stands : NodeId → Schema → Prop} {keys : List String} {ms : List Member}
    {own : Attributes} (h : Collected model stands keys ms {} own) (parents : List String)
    (description : Option String) : (assemble parents own description).required = own.required := by
  cases parents with
  | nil => rfl
  | cons p parents =>
    show ((if own.isEmpty then none else some (own.object none)).map (·.required)).getD [] = _
    split
    · rename_i hempty
      exact (h.required_of_isEmpty hempty).symm
    · rfl

/-- A shared definition `Requires`, with all that it inherits from, the keys of its node among the
members that it states itself, and all mandatory members of the node. -/
theorem Sound.requires (hs : Sound .optimizing model defs) (hm : model.Linked) (owner : NodeId) :
    (model.node owner).kind.isAugment = false → ∀ n, (n, owner) ∈ defs.names.owners →
    defs.table.contains n = true → ∀ k, Requires defs.table n k ↔
      NamesKey model owner (model.ownDataChildren owner) k ∨
        ∃ f ∈ model.shows owner, f.name = k ∧ f.Mandatory := by
  -- groupings that are inherited from are named for nodes further on
  induction owner using hm.founded.transGen.induction with
  | _ owner ih =>
  intro hkind n ho hthere k
  obtain ⟨d, hd⟩ := Table.contains_iff.1 hthere
  obtain ⟨o, ho', parents, own, hparts, rfl⟩ := hs.entries n d hd
  obtain rfl := hs.valid.owner_unique ho ho'
  obtain ⟨names, hnames, rfl⟩ := hparts.parents
  have hgrouping : ∀ g ∈ model.inheritedGroupings owner, ∀ p, Named model defs g p →
      (Requires defs.table p k ↔ ∃ f ∈ model.shows g, f.name = k ∧ f.Mandatory) := by
    intro g hg p hnamed
    have huse := List.mem_of_mem_filter hg
    rw [ih (model.canonical g) (Relation.transGen_swap.2 (canonical_use huse))
      (hm.not_augment_canonical_use huse) p hnamed.owned hnamed.there k, hm.shows_canonical]
    refine or_iff_right ?_
    rintro ⟨hkey, -⟩
    rw [hm.grouping_canonical (hm.uses owner g huse).2] at hkey
    cases hkey
  have hparents : (∃ p ∈ distinct names, Requires defs.table p k) ↔
      ∃ f ∈ (model.inheritedGroupings owner).flatMap model.shows, f.name = k ∧ f.Mandatory := by
    constructor
    · rintro ⟨p, hp, hk⟩
      obtain ⟨g, hg, hnamed⟩ := forall₂_mem_left hnames.flip p (mem_distinct.1 hp)
      obtain ⟨f, hf, hmandatory⟩ := (hgrouping g hg p hnamed).1 hk
      exact ⟨f, List.mem_flatMap.2 ⟨g, hg, hf⟩, hmandatory⟩
    · rintro ⟨f, hf, hmandatory⟩
      obtain ⟨g, hg, hf⟩ := List.mem_flatMap.1 hf
      obtain ⟨p, hp, hnamed⟩ := forall₂_mem_left hnames g hg
      exact ⟨p, mem_distinct.2 hp, (hgrouping g hg p hnamed).2 ⟨f, hf, hmandatory⟩⟩
  have hshows : (∃ f ∈ model.shows owner, f.name = k ∧ f.Mandatory) ↔
      (∃ f ∈ (model.members owner (model.isOwnChild owner)).map model.facets,
        f.name = k ∧ f.Mandatory) ∨
      ∃ f ∈ (model.inheritedGroupings owner).flatMap model.shows, f.name = k ∧ f.Mandatory := by
    simp only [(hm.shows_perm hkind).mem_iff, List.mem_append, or_and_right, exists_or]
  rw [requires_iff hd, required_assemble hparts.own, parents_assemble, hparts.own.requires,
    hparents, hshows, or_assoc]
  rfl

end Definitions

/-! ## Both strategies -/

/-- After some nodes have been built and at last `id`, its definition, with all that it inherits
from, requires certain names and no others. -/
def RequiresAfter (strategy : Strategy) (model : DataModel) (before : List NodeId) (id : NodeId)
    (names : String → Prop) : Prop :=
  ∃ defs n, buildLast strategy model before id = .ok (defs, n) ∧
    ∀ k, Requires defs.table n k ↔ names k

theorem RequiresAfter.unique {strategy : Strategy} {before : List NodeId} {id : NodeId}
    {names names' : String → Prop} (h : RequiresAfter strategy model before id names)
    (h' : RequiresAfter strategy model before id names') (k : String) : names k ↔ names' k := by
  obtain ⟨defs, n, hbuild, hnames⟩ := h
  obtain ⟨defs', n', hbuild', hnames'⟩ := h'
  cases hbuild.symm.trans hbuild'
  exact (hnames k).symm.trans (hnames' k)

/-- What `NamesKey` of the node `owner` among `children`, or `NamesMandatory` of the node `id`. -/
def KeysAndMandatory (model : DataModel) (owner : NodeId) (children : List NodeId) (id : NodeId)
    (k : String) : Prop :=
  NamesKey model owner children k ∨ NamesMandatory model id k

section Linked

variable (hm : model.Linked) {id : NodeId} (hkind : (model.node id).kind.isStructural = true)

include hm hkind

theorem requiresAfter_shared (before : List NodeId) :
    RequiresAfter .optimizing model before id
      (KeysAndMandatory model (model.canonical id) (model.ownDataChildren (model.canonical id)) id) := by
  obtain ⟨defs, n, hbuild, hs, hnamed⟩ := buildLast_ok .optimizing hm before id
  refine ⟨defs, n, hbuild, fun k => ?_⟩
  unfold KeysAndMandatory
  rw [hm.namesMandatory_iff hkind, ← hm.shows_canonical]
  exact hs.requires hm (model.canonical id)
    (hm.not_augment_canonical (not_augment_of_structural hkind)) n hnamed.owned hnamed.there k

theorem requiresAfter_flat (before : List NodeId) : ∃ first,
    firstSharing model (before ++ [id]) id = some first ∧
      RequiresAfter .unpacking model before id
        (KeysAndMandatory model first (model.dataChildren first) id) := by
  obtain ⟨defs, n, first, a, hbuild, hfirst, hcanonical, hmade⟩ := buildLast_first hm before id
  have hkind' : (model.node first).kind.isStructural = true := by
    rw [← hm.isStructural_canonical, hcanonical, hm.isStructural_canonical, hkind]
  refine ⟨first, hfirst, defs, n, hbuild, fun k => ?_⟩
  unfold KeysAndMandatory
  rw [requires_iff hmade.found, hm.namesMandatory_iff hkind, ← hm.shows_canonical id, ← hcanonical,
    hm.shows_canonical, ← hm.members_ids hkind']
  refine (or_iff_left ?_).trans hmade.collected.requires
  rintro ⟨p, hp, -⟩
  cases hp

end Linked

/-- A definition requires the names that `NamesMandatory` tells of, and the keys of the node that it
is made for, as far as it states them itself. A shared definition is made for the `canonical` node;
a flat one for the node that `firstSharing` finds, the first that was built of those that share the
definition. -/
theorem build_requires {sources : List Source.Module} (h : link sources = .ok model) {id : NodeId}
    (hkind : (model.node id).kind.isStructural = true) (before : List NodeId) :
    RequiresAfter .optimizing model before id
        (KeysAndMandatory model (model.canonical id) (model.ownDataChildren (model.canonical id)) id) ∧
      ∃ first, firstSharing model (before ++ [id]) id = some first ∧
        RequiresAfter .unpacking model before id
          (KeysAndMandatory model first (model.dataChildren first) id) :=
  have hm := (linked_of_link h).1
  ⟨requiresAfter_shared hm hkind before, requiresAfter_flat hm hkind before⟩

/-! ## Keys that a grouping declares -/

/-- The statement of a list with keys, children and uses, for examples. -/
def DataModel.listOf (name : String) (keys : List String) (children : List Source.Statement)
    (uses : List String) : Source.Statement :=
  ⟨.list keys, name, none, none, none, children, uses⟩

/-- The grouping `endpoint`, which declares the only key of one list that is made of it, and one of
two keys of another list. -/
def keyed : List Source.Module :=
  [{ name := "net", modulePrefix := none, namespaceUri := none, revision := none,
     description := none, typedefs := [], rpcs := [], augments := []
     groupings := [⟨"endpoint", none, none, ⟨[leafOf "address" "string"], []⟩⟩]
     data := [listOf "server" ["address"] [] ["endpoint"], containerOf "primary" [] ["endpoint"],
       listOf "peer" ["name", "address"] [leafOf "name" "string"] ["endpoint"]] }]

theorem link_keyed : ∃ model, link keyed = .ok model :=
  exists_ok_of_isSome (by decide +kernel)

theorem build_requires_keyed : ∃ model, link keyed = .ok model ∧
    RequiresAfter .optimizing model [2] 6
        (KeysAndMandatory model (model.canonical 6) (model.ownDataChildren (model.canonical 6)) 6) ∧
      ∃ first, firstSharing model ([2] ++ [6]) 6 = some first ∧
        RequiresAfter .unpacking model [2] 6
          (KeysAndMandatory model first (model.dataChildren first) 6) := by
  obtain ⟨model, h⟩ := link_keyed
  have hkind := map_of_ok h (f := fun model => (model.node 6).kind.isStructural) (b := true)
    (by decide +kernel)
  exact ⟨model, h, build_requires h hkind [2]⟩

theorem not_keysAndMandatory {owner id : NodeId} {children : List NodeId} {k : String}
    (hkeys : k ∉ (model.node owner).kind.keys ∨ ∀ c ∈ children, (model.node c).name ≠ k)
    (hoptional : ∀ c ∈ model.dataChildren id, (model.node c).kind.isMandatory = false) :
    ¬ KeysAndMandatory model owner children id k := by
  rintro (⟨hkey, c, hc, hname, -⟩ | ⟨c, hc, -, hmandatory, -⟩)
  · rcases hkeys with hnot | hother
    · exact hnot hkey
    · exact hother c hc hname
  · rw [hoptional c hc] at hmandatory
    cases hmandatory

/-- In `keyed` the key that the grouping declares is required in neither list if definitions are
shared, and not in the first one either once there is a flat definition for the container. -/
theorem keyed_not_required : ∃ model, link keyed = .ok model ∧
    (∀ id, (model.node id).kind.isStructural = true → (model.propertyNames id).Nodup) ∧
    (model.node 2).kind.isStructural = true ∧ (model.node 6).kind.isStructural = true ∧
    ¬ RequiresAfter .optimizing model [] 2 (KeysAndMandatory model 2 (model.dataChildren 2) 2) ∧
    ¬ RequiresAfter .optimizing model [] 6 (KeysAndMandatory model 6 (model.dataChildren 6) 6) ∧
    ¬ RequiresAfter .unpacking model [4] 2 (KeysAndMandatory model 2 (model.dataChildren 2) 2) := by
  obtain ⟨model, h⟩ := link_keyed
  have hm := (linked_of_link h).1
  have hnames := map_of_ok h (f := fun model => (model.size,
      (List.range 9).all fun id => decide (model.propertyNames id).Nodup))
    (b := (9, true)) (by decide +kernel)
  have hkinds := map_of_ok h (f := fun model =>
      ((model.node 2).kind.isStructural, (model.node 6).kind.isStructural))
    (b := (true, true)) (by decide +kernel)
  have hkeys := map_of_ok h (f := fun model => ((model.node 2).kind.keys,
      (model.node (model.canonical 2)).kind.keys, (model.node 4).kind.keys,
      (model.node 6).kind.keys))
    (b := (["address"], [], [], ["name", "address"])) (by decide +kernel)
  have hchildren := map_of_ok h (f := fun model => (model.dataChildren 2, model.dataChildren 6,
      model.ownDataChildren (model.canonical 6)))
    (b := ([3], [7, 8], [7])) (by decide +kernel)
  have hleaves := map_of_ok h (f := fun model => [3, 7, 8].map fun c => ((model.node c).name,
      (model.node c).augmentedBy, (model.node c).kind.isMandatory))
    (b := [("address", none, false), ("name", none, false), ("address", none, false)])
    (by decide +kernel)
  have hfirst := map_of_ok h (f := fun model => firstSharing model ([4] ++ [2]) 2) (b := some 4)
    (by decide +kernel)
  simp only [Prod.mk.injEq] at hnames hkinds hkeys hchildren
  simp only [List.map_cons, List.map_nil, List.cons.injEq, Prod.mk.injEq, and_true] at hleaves
  obtain ⟨hsize, hall⟩ := hnames
  obtain ⟨hkeys₂, hkeysCanonical, hkeys₄, hkeys₆⟩ := hkeys
  obtain ⟨hchildren₂, hchildren₆, hown⟩ := hchildren
  obtain ⟨⟨hname₃, hdeclared₃, hoptional₃⟩, ⟨hname₇, -, hoptional₇⟩, hname₈, hdeclared₈,
    hoptional₈⟩ := hleaves
  have hserver : KeysAndMandatory model 2 (model.dataChildren 2) 2 "address" :=
    .inl ⟨by rw [hkeys₂]; simp, 3, by rw [hchildren₂]; simp, hname₃, hdeclared₃⟩
  have hpeer : KeysAndMandatory model 6 (model.dataChildren 6) 6 "address" :=
    .inl ⟨by rw [hkeys₆]; simp, 8, by rw [hchildren₆]; simp, hname₈, hdeclared₈⟩
  have hnone₂ : ∀ c ∈ model.dataChildren 2, (model.node c).kind.isMandatory = false := by
    rw [hchildren₂]
    simp [hoptional₃]
  have hnone₆ : ∀ c ∈ model.dataChildren 6, (model.node c).kind.isMandatory = false := by
    rw [hchildren₆]
    simp [hoptional₇, hoptional₈]
  refine ⟨model, h, nodup_propertyNames hsize hall, hkinds.1, hkinds.2, fun hreq => ?_,
    fun hreq => ?_, fun hreq => ?_⟩
  · refine not_keysAndMandatory (.inl ?_) hnone₂
      (((requiresAfter_shared hm hkinds.1 []).unique hreq "address").2 hserver)
    rw [hkeysCanonical]
    exact List.not_mem_nil
  · refine not_keysAndMandatory (.inr ?_) hnone₆
      (((requiresAfter_shared hm hkinds.2 []).unique hreq "address").2 hpeer)
    rw [hown]
    simp [hname₇]
  · obtain ⟨first, hsame, hflat⟩ := requiresAfter_flat hm hkinds.1 [4]
    obtain rfl := Option.some.inj (hfirst.symm.trans hsame)
    refine not_keysAndMandatory (.inl ?_) hnone₂ ((hflat.unique hreq "address").2 hserver)
    rw [hkeys₄]
    exact List.not_mem_nil

end RestSpec
