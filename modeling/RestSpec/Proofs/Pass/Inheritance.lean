/-
Passes on parents. Flattening a definition takes over what its other parents and their ancestors
have, so no effective property name is lost or won, and every schema left is one that was there.
Ancestors are gone through after their own ancestors, so where a name stands more than once the
schema that is taken over is one that a parent shows; what the definition states itself stays.
Sorting parents changes no parent.
-/
import Mathlib.Tactic
import RestSpec.Proofs.Pass.Usage

namespace RestSpec.Document

open Relation (TransGen ReflTransGen)

variable {doc : Document}

/-! ## What definitions amount to -/

/-- The names of the properties of a schema, in their order. -/
def Schema.propertyNames (s : Schema) : List String := Entries.names s.properties

/-- The name is one of those that `of` reads off the own schema of the definition or of one of its
ancestors. -/
def Amounts (doc : Document) (of : Schema → List String) (n k : String) : Prop :=
  ∃ a s, ReflTransGen doc.Inherits n a ∧ doc.ownOf a = some s ∧ k ∈ of s

theorem amounts_propertyNames {n k : String} :
    doc.Amounts Schema.propertyNames n k ↔ ∃ p, Effective doc n k p := by
  constructor
  · rintro ⟨a, s, hr, hs, hk⟩
    obtain ⟨⟨_, p⟩, hp, rfl⟩ := List.mem_map.1 hk
    exact ⟨p, (Effective.own hs hp).of_ancestor hr⟩
  · rintro ⟨p, hp⟩
    obtain ⟨a, s, hr, hs, hk⟩ := hp.source
    exact ⟨a, s, hr, hs, List.mem_map.2 ⟨_, hk, rfl⟩⟩

/-! ## Taking over properties -/

theorem mem_names_foldl_insert {es start : List (String × Schema)} {k : String} :
    k ∈ Entries.names (es.foldl (fun table (k, v) => Entries.insert k v table) start) ↔
      k ∈ Entries.names start ∨ k ∈ Entries.names es := by
  induction es generalizing start with
  | nil => simp [Entries.names]
  | cons a es ih =>
    rw [List.foldl_cons, ih, Entries.mem_names_insert]
    simp only [Entries.names, List.map_cons, List.mem_cons]
    tauto

theorem collectProperties_eq (doc : Document) (names : List String) :
    doc.collectProperties names =
      ((names.filterMap doc.ownOf).flatMap (·.properties)).foldl
        (fun table (k, v) => Entries.insert k v table) [] := by
  rw [List.foldl_flatMap]; rfl

/-- The last of the definitions `names` that states a property `k` states it with the schema `p`. -/
def Latest (doc : Document) (names : List String) (k : String) (p : Schema) : Prop :=
  ∃ before a after s, names = before ++ a :: after ∧ doc.ownOf a = some s ∧
    (k, p) ∈ s.properties ∧ ∀ b ∈ after, ¬ doc.Declares b k

/-- What is `Latest` among some definitions is so with one more that does not state the name. -/
theorem Latest.append {names : List String} {b k : String} {p : Schema}
    (h : doc.Latest names k p) (hb : ¬ doc.Declares b k) : doc.Latest (names ++ [b]) k p := by
  obtain ⟨before, a, after, s, rfl, hs, hk, hafter⟩ := h
  refine ⟨before, a, after ++ [b], s, by simp, hs, hk, fun b' hb' => ?_⟩
  rcases List.mem_append.1 hb' with hb' | hb'
  · exact hafter b' hb'
  · exact List.mem_singleton.1 hb' ▸ hb

theorem not_declares_of_find? {b k : String} {s : Schema} (hs : doc.ownOf b = some s)
    (hnone : Entries.find? k s.properties.reverse = none) : ¬ doc.Declares b k := by
  rintro ⟨t, q, ht, hq⟩
  obtain rfl := Option.some.inj (hs.symm.trans ht)
  have hmem : k ∈ Entries.names s.properties.reverse :=
    List.mem_map.2 ⟨(k, q), List.mem_reverse.2 hq, rfl⟩
  rw [← Entries.find?_isSome_iff, hnone] at hmem
  cases hmem

/-- Of definitions that state a name, `collectProperties` takes the `Latest`. -/
theorem latest_of_collectProperties {names : List String} {k : String} {p : Schema}
    (h : (k, p) ∈ doc.collectProperties names) : doc.Latest names k p := by
  have hfind : Entries.find? k
      ((names.filterMap doc.ownOf).flatMap (·.properties)).reverse = some p := by
    rw [← Table.find?_ofList]
    rw [collectProperties_eq] at h
    exact Table.mem_entries_iff.1 h
  clear h
  induction names using List.reverseRecOn with
  | nil => cases hfind
  | append_singleton names b ih =>
    rw [List.filterMap_append, List.flatMap_append, List.reverse_append,
      Entries.find?_append] at hfind
    cases hb : doc.ownOf b with
    | none =>
      have hnot : ¬ doc.Declares b k := by
        rintro ⟨s, -, hs, -⟩
        rw [hb] at hs
        cases hs
      exact (ih (by simpa [hb, Entries.find?] using hfind)).append hnot
    | some s =>
      simp only [List.filterMap_cons, hb, List.filterMap_nil, List.flatMap_cons,
        List.flatMap_nil, List.append_nil] at hfind
      cases hfound : Entries.find? k s.properties.reverse with
      | none =>
        rw [hfound, Option.none_or] at hfind
        exact (ih hfind).append (not_declares_of_find? hb hfound)
      | some q =>
        rw [hfound, Option.some_or] at hfind
        cases hfind
        exact ⟨names, b, [], s, rfl, hb, List.mem_reverse.1 (Entries.mem_of_find? hfound),
          fun _ hb' => absurd hb' List.not_mem_nil⟩

theorem Latest.mem {names : List String} {k : String} {p : Schema} (h : doc.Latest names k p) :
    ∃ a ∈ names, ∃ s, doc.ownOf a = some s ∧ (k, p) ∈ s.properties := by
  obtain ⟨before, a, after, s, rfl, hs, hk, -⟩ := h
  exact ⟨a, by simp, s, hs, hk⟩

theorem mem_names_collectProperties {names : List String} {k : String} :
    k ∈ Entries.names (doc.collectProperties names) ↔
      ∃ n ∈ names, ∃ s, doc.ownOf n = some s ∧ k ∈ s.propertyNames := by
  rw [collectProperties_eq, mem_names_foldl_insert]
  simp only [Entries.names, Schema.propertyNames, List.map_nil, List.not_mem_nil, false_or,
    List.mem_map, List.mem_flatMap, List.mem_filterMap]
  constructor
  · rintro ⟨e, ⟨s, ⟨n, hn, hs⟩, he⟩, rfl⟩
    exact ⟨n, hn, s, hs, e, he, rfl⟩
  · rintro ⟨n, hn, s, hs, e, he, rfl⟩
    exact ⟨e, ⟨s, ⟨n, hn, hs⟩, he⟩, rfl⟩

theorem mem_collectRequired {names : List String} {k : String} :
    k ∈ doc.collectRequired names ↔ ∃ n ∈ names, ∃ s, doc.ownOf n = some s ∧ k ∈ s.required := by
  unfold collectRequired
  simp only [List.mem_flatMap, List.mem_filterMap]
  constructor
  · rintro ⟨s, ⟨n, hn, hs⟩, hk⟩
    exact ⟨n, hn, s, hs, hk⟩
  · rintro ⟨n, hn, s, hs, hk⟩
    exact ⟨s, ⟨n, hn, hs⟩, hk⟩

/-- `Schema.extend` adds properties where none of the name is there. -/
theorem mem_extend {s : Schema} {properties : List (String × Schema)} {required : List String}
    {e : String × Schema} (h : e ∈ (s.extend properties required).properties) :
    e ∈ s.properties ∨ e ∈ properties ∧ e.1 ∉ s.propertyNames := by
  have hfold : ∀ (es start : List (String × Schema)),
      e ∈ es.foldl (fun table (k, v) =>
        if (Entries.find? k table).isSome then table else Entries.insert k v table) start →
      e ∈ start ∨ e ∈ es ∧ e.1 ∉ Entries.names start := by
    intro es
    induction es with
    | nil => exact fun start h => .inl h
    | cons a es ih =>
      intro start h
      rcases ih _ h with h | ⟨h, hnew⟩
      · dsimp only at h
        split at h
        · exact .inl h
        · rename_i hfound
          refine (Entries.mem_insert h).symm.imp_right fun h => ?_
          subst h
          exact ⟨List.mem_cons_self, fun hmem => hfound (Entries.find?_isSome_iff.2 hmem)⟩
      · refine .inr ⟨List.mem_cons_of_mem _ h, fun hmem => hnew ?_⟩
        dsimp only
        split
        · exact hmem
        · exact Entries.mem_names_insert.2 (.inr hmem)
  exact hfold properties s.properties h

/-- `Schema.extend` keeps the properties that are there. -/
theorem subset_extend (s : Schema) (properties : List (String × Schema)) (required : List String) :
    s.properties ⊆ (s.extend properties required).properties := by
  have hfold : ∀ (es start : List (String × Schema)),
      start ⊆ es.foldl (fun table (k, v) =>
        if (Entries.find? k table).isSome then table else Entries.insert k v table) start := by
    intro es
    induction es with
    | nil => exact fun start => List.Subset.refl start
    | cons a es ih =>
      intro start
      refine List.Subset.trans (fun e he => ?_) (ih _)
      dsimp only
      split
      · exact he
      · rename_i hfound
        refine Entries.mem_insert_of_mem he fun heq => hfound ?_
        exact Entries.find?_isSome_iff.2 (List.mem_map.2 ⟨e, he, heq⟩)
  exact hfold properties s.properties

theorem mem_names_extend {s : Schema} {properties : List (String × Schema)}
    {required : List String} {k : String} :
    k ∈ (s.extend properties required).propertyNames ↔
      k ∈ s.propertyNames ∨ k ∈ Entries.names properties := by
  have hfold : ∀ (es start : List (String × Schema)),
      k ∈ Entries.names (es.foldl (fun table (k, v) =>
        if (Entries.find? k table).isSome then table else Entries.insert k v table) start) ↔
      k ∈ Entries.names start ∨ k ∈ Entries.names es := by
    intro es
    induction es with
    | nil => simp [Entries.names]
    | cons a es ih =>
      intro start
      rw [List.foldl_cons, ih]
      obtain ⟨a, v⟩ := a
      dsimp only
      split
      · rename_i hfound
        have ha := Entries.find?_isSome_iff.1 hfound
        simp only [Entries.names, List.map_cons, List.mem_cons] at ha ⊢
        constructor
        · rintro (h | h)
          · exact .inl h
          · exact .inr (.inr h)
        · rintro (h | rfl | h)
          · exact .inl h
          · exact .inl ha
          · exact .inr h
      · rw [Entries.mem_names_insert]
        simp only [Entries.names, List.map_cons, List.mem_cons]
        tauto
  exact hfold properties s.properties

theorem references_extend {s : Schema} {properties : List (String × Schema)}
    {required : List String} {m : String} (h : m ∈ (s.extend properties required).references) :
    m ∈ s.references ∨ ∃ e ∈ properties, m ∈ e.2.references := by
  rw [Schema.mem_references] at h ⊢
  rcases h with h | h | ⟨e, he, hm⟩
  · exact .inl (.inl h)
  · exact .inl (.inr (.inl h))
  · rcases mem_extend he with he | ⟨he, -⟩
    · exact .inl (.inr (.inr ⟨e, he, hm⟩))
    · exact .inr ⟨e, he, hm⟩

theorem mem_required_extend {s : Schema} {properties : List (String × Schema)}
    {required : List String} {k : String} :
    k ∈ (s.extend properties required).required ↔ k ∈ s.required ∨ k ∈ required :=
  mem_foldl_distinct

/-! ## Ancestors -/

/-- A step up from another definition than `name`. -/
def Past (doc : Document) (name a b : String) : Prop := a ≠ name ∧ doc.Inherits a b

/-- A way up comes by `name`, or it goes past it. -/
theorem by_or_past (name : String) {a b : String} (h : ReflTransGen doc.Inherits a b) :
    ReflTransGen doc.Inherits name b ∨ b ≠ name ∧ ReflTransGen (doc.Past name) a b := by
  induction h using ReflTransGen.head_induction_on with
  | refl =>
    by_cases hb : b = name
    · exact .inl (hb ▸ .refl)
    · exact .inr ⟨hb, .refl⟩
  | @head a c hstep hr ih =>
    by_cases ha : a = name
    · exact .inl (ha ▸ .head hstep hr)
    · exact ih.imp_right fun ⟨hb, hpast⟩ => ⟨hb, .head ⟨ha, hstep⟩ hpast⟩

/-- Without a cycle no way up from a parent of `name` comes by `name`. -/
theorem past_of_acyclic (ha : doc.Acyclic) {name a b : String} (hstep : doc.Inherits name a)
    (h : ReflTransGen doc.Inherits a b) : b ≠ name ∧ ReflTransGen (doc.Past name) a b := by
  induction h with
  | refl => exact ⟨fun heq => ha a (.single (heq ▸ hstep)), .refl⟩
  | @tail b c hr hlast ih =>
    refine ⟨fun heq => ha c (TransGen.tail' (.head (heq ▸ hstep) hr) hlast), ?_⟩
    exact ih.2.tail ⟨ih.1, hlast⟩

section Ancestry

variable {name : String} {others : List String}

theorem covers_ancestry (doc : Document) (name : String) (others : List String) :
    Search.Covers doc.parentsOf { met := [name] }
      (others.foldl (Search.visit doc.parentsOf doc.searchDepth) { met := [name] }) others := by
  refine covers_searchDepth doc.parentsOf (fun n hn => ?_) { met := [name] } others
  rw [List.eq_nil_iff_forall_not_mem]
  exact fun m hm => hn (mem_names_of_inherits hm)

theorem mem_ancestry_iff_met {x : String} :
    x ∈ doc.ancestry name others ↔
      x ∈ (others.foldl (Search.visit doc.parentsOf doc.searchDepth) { met := [name] }).met ∧
        x ∉ [name] := by
  obtain ⟨new, hfinished, hnew⟩ := (covers_ancestry doc name others).finished
  rw [← hnew]
  unfold ancestry
  rw [hfinished]
  simp

/-- `ancestry` finds ancestors only. -/
theorem reached_of_ancestry {x : String} (h : x ∈ doc.ancestry name others) :
    ∃ o ∈ others, ReflTransGen doc.Inherits o x := by
  obtain ⟨hmet, hne⟩ := mem_ancestry_iff_met.1 h
  exact ((covers_ancestry doc name others).reached x hmet).resolve_left hne

/-- All that ways past `name` lead to are found. -/
theorem mem_ancestry {o x : String} (ho : o ∈ others) (hne : x ≠ name)
    (hr : ReflTransGen (doc.Past name) o x) : x ∈ doc.ancestry name others := by
  have hcovers := covers_ancestry doc name others
  refine mem_ancestry_iff_met.2 ⟨?_, fun h => hne (List.mem_singleton.1 h)⟩
  clear hne
  induction hr with
  | refl => exact hcovers.visited ho
  | tail _ hstep ih =>
    exact hcovers.closed _ ih (fun h => hstep.1 (List.mem_singleton.1 h)) _ hstep.2

/-- The schema that is `Latest` among `ancestry` is one that a parent shows: no definition that
leads to an ancestor is gone through before it. -/
theorem visible_of_latest (ha : doc.Acyclic) (hup : ∀ o ∈ others, doc.Inherits name o) {k : String}
    {p : Schema} (h : doc.Latest (doc.ancestry name others) k p) :
    ∃ o ∈ others, Visible doc o k p := by
  obtain ⟨before, a, after, s, hsplit, hs, hk, hafter⟩ := h
  have hcovers := covers_ancestry doc name others
  have hordered : Search.Ordered doc.parentsOf (before ++ a :: after) :=
    hsplit ▸ hcovers.ordered ha nofun .nil
  obtain ⟨-, htail, hcross⟩ := List.pairwise_append.1 hordered
  obtain ⟨hlast, -⟩ := List.pairwise_cons.1 htail
  -- what leads to the declaring ancestor is gone through after it, so it declares nothing itself
  suffices ∀ x, ReflTransGen doc.Inherits x a → TransGen doc.Inherits name x →
      x ∈ doc.ancestry name others → x ∈ a :: after ∧ Visible doc x k p by
    have hmem : a ∈ doc.ancestry name others := by rw [hsplit]; simp
    obtain ⟨o, ho, hr⟩ := reached_of_ancestry hmem
    have hstep : TransGen doc.Inherits name o := .single (hup o ho)
    have hne : o ∉ [name] := fun heq => ha o (List.mem_singleton.1 heq ▸ hstep)
    exact ⟨o, ho, (this o hr hstep
      (mem_ancestry_iff_met.2 ⟨hcovers.visited ho, hne⟩)).2⟩
  intro x hr
  induction hr using ReflTransGen.head_induction_on with
  | refl => exact fun _ _ => ⟨List.mem_cons_self, .own hs hk⟩
  | @head x y hstep _ ih =>
    intro hx hmem
    have hy : TransGen doc.Inherits name y := hx.tail hstep
    obtain ⟨hmet, hne⟩ := mem_ancestry_iff_met.1 hmem
    obtain ⟨hlater, hvisible⟩ := ih hy (mem_ancestry_iff_met.2
      ⟨hcovers.closed x hmet hne y hstep, fun heq => ha y (List.mem_singleton.1 heq ▸ hy)⟩)
    have hxafter : x ∈ after := by
      rw [hsplit] at hmem
      rcases List.mem_append.1 hmem with hx | hx
      · exact absurd hstep (hcross x hx y hlater)
      · rcases List.mem_cons.1 hx with rfl | hx
        · rcases List.mem_cons.1 hlater with rfl | hlater
          · exact absurd (.single hstep) (ha y)
          · exact absurd hstep (hlast y hlater)
        · exact hx
    exact ⟨List.mem_cons_of_mem _ hxafter, .inherited (hafter x hxafter) hstep hvisible⟩

end Ancestry

/-! ## Flattening -/

/-- What `of` reads off the second schema is what it reads off the first one and off the own schemas
of the definitions `taken`. -/
def Takes (doc : Document) (of : Schema → List String) (taken : List String)
    (child child' : Option Schema) : Prop :=
  ∀ k, (∃ s', child' = some s' ∧ k ∈ of s') ↔
    (∃ s, child = some s ∧ k ∈ of s) ∨ ∃ a ∈ taken, ∃ s, doc.ownOf a = some s ∧ k ∈ of s

/-- The composition `c'` has the first parent of `c` alone, and has taken over what the others and
their ancestors have. -/
structure Flattens (doc : Document) (name first : String) (others : List String)
    (c c' : Composition) : Prop where
  before : c.parents = first :: others
  after : c'.parents = [first]
  keeps : ∀ s, c.child = some s → ∃ s', c'.child = some s' ∧ s.properties ⊆ s'.properties
  mem : ∀ s', c'.child = some s' → ∀ k p, (k, p) ∈ s'.properties →
    (∃ s, c.child = some s ∧ (k, p) ∈ s.properties) ∨
      (∀ s, c.child = some s → k ∉ s.propertyNames) ∧ doc.Latest (doc.ancestry name others) k p
  names : doc.Takes Schema.propertyNames (doc.ancestry name others) c.child c'.child
  required : doc.Takes (·.required) (doc.ancestry name others) c.child c'.child
  references : ∀ s', c'.child = some s' → ∀ m ∈ s'.references,
    (∃ s, c.child = some s ∧ m ∈ s.references) ∨
      ∃ a s, doc.ownOf a = some s ∧ m ∈ s.references

theorem takes_extend {of : Schema → List String} {taken : List String} {child : Option Schema}
    (extend : Schema → Schema) (hempty : of (Schema.object []) = [])
    (hextend : ∀ s k, k ∈ of (extend s) ↔
      k ∈ of s ∨ ∃ a ∈ taken, ∃ s, doc.ownOf a = some s ∧ k ∈ of s) :
    doc.Takes of taken child (some (extend (child.getD (Schema.object [])))) := by
  intro k
  simp only [Option.some.injEq, exists_eq_left', hextend]
  cases child <;> simp [hempty]

theorem flattens_flattenParents (doc : Document) (name : String) {c : Composition} {first : String}
    {others : List String} (hc : c.parents = first :: others) :
    Flattens doc name first others c (doc.flattenParents name c) := by
  obtain ⟨parents, child, description⟩ := c
  obtain rfl : parents = first :: others := hc
  have hnew : (doc.flattenParents name ⟨first :: others, child, description⟩).child =
      some ((child.getD (Schema.object [])).extend
        (doc.collectProperties (doc.ancestry name others))
        (doc.collectRequired (doc.ancestry name others))) := rfl
  refine ⟨rfl, rfl, fun s hs => ?_, fun s' hs' k p hp => ?_, ?_, ?_, fun s' hs' m hm => ?_⟩
  · obtain rfl : child = some s := hs
    exact ⟨_, hnew, subset_extend _ _ _⟩
  · obtain rfl := Option.some.inj (hnew.symm.trans hs')
    rcases mem_extend hp with hp | ⟨hp, hnot⟩
    · cases child with
      | none => cases hp
      | some s => exact .inl ⟨s, rfl, hp⟩
    · refine .inr ⟨fun s hs => ?_, latest_of_collectProperties hp⟩
      obtain rfl : child = some s := hs
      exact hnot
  · exact takes_extend (·.extend _ _) rfl fun s k =>
      mem_names_extend.trans (by rw [mem_names_collectProperties])
  · exact takes_extend (·.extend _ _) rfl fun s k =>
      mem_required_extend.trans (by rw [mem_collectRequired])
  · obtain rfl := Option.some.inj (hnew.symm.trans hs')
    rcases references_extend hm with hm | ⟨e, he, hm⟩
    · cases child with
      | none => simp [Schema.references_object, Schema.propertyReferences] at hm
      | some s => exact .inl ⟨s, rfl, hm⟩
    · obtain ⟨a, -, s, hs, he⟩ := (latest_of_collectProperties he).mem
      exact .inr ⟨a, s, hs, Schema.references_of_property he hm⟩

section Replace

/-! The document with a composition replaced by a flattened one. -/

variable {name first : String} {others : List String} {c c' : Composition}
  (hd : doc.definitions.find? name = some (.composed c))
  (hf : Flattens doc name first others c c')

/-- The document with another composition under the name. -/
def withComposition (doc : Document) (name : String) (c : Composition) : Document :=
  { doc with definitions := doc.definitions.insert name (.composed c) }

theorem find?_withComposition (n : String) :
    (doc.withComposition name c').definitions.find? n =
      if name = n then some (.composed c') else doc.definitions.find? n :=
  Table.find?_insert doc.definitions name n _

theorem ownOf_withComposition (n : String) :
    (doc.withComposition name c').ownOf n = if name = n then c'.child else doc.ownOf n := by
  unfold ownOf
  rw [find?_withComposition]
  split <;> rfl

theorem parentsOf_withComposition (n : String) :
    (doc.withComposition name c').parentsOf n =
      if name = n then c'.parents else doc.parentsOf n := by
  unfold parentsOf
  rw [find?_withComposition]
  split <;> rfl

theorem declares_withComposition_of_ne {n k : String} (hn : name ≠ n) :
    (doc.withComposition name c').Declares n k ↔ doc.Declares n k := by
  unfold Declares
  rw [ownOf_withComposition, if_neg hn]

theorem inherits_withComposition_iff {n a : String} :
    (doc.withComposition name c').Inherits n a ↔
      if name = n then a ∈ c'.parents else doc.Inherits n a := by
  unfold Inherits
  rw [parentsOf_withComposition]
  split <;> rfl

include hd

theorem contains_withComposition {n : String} :
    (doc.withComposition name c').definitions.contains n = true ↔
      doc.definitions.contains n = true := by
  unfold Table.contains
  rw [find?_withComposition]
  split
  · rename_i h; subst h; rw [hd]; rfl
  · rfl

theorem parentsOf_of_find? : doc.parentsOf name = c.parents := by
  rw [parentsOf, hd]
  rfl

theorem inherits_of_find? {a : String} : doc.Inherits name a ↔ a ∈ c.parents := by
  rw [Inherits, parentsOf_of_find? hd]

theorem ownOf_of_find? : doc.ownOf name = c.child := by
  rw [ownOf, hd]
  rfl

include hf

theorem inherits_withComposition {n a : String}
    (h : (doc.withComposition name c').Inherits n a) : doc.Inherits n a := by
  rw [inherits_withComposition_iff] at h
  split at h
  · rename_i hn
    subst hn
    rw [hf.after] at h
    rw [inherits_of_find? hd, hf.before, List.mem_singleton.1 h]
    exact List.mem_cons_self
  · exact h

/-- What `Flattens` takes over comes from ancestors. -/
theorem Flattens.reached {a : String} (ha : a ∈ doc.ancestry name others) :
    ReflTransGen doc.Inherits name a := by
  obtain ⟨o, ho, hr⟩ := reached_of_ancestry ha
  refine .head ((inherits_of_find? hd).2 ?_) hr
  rw [hf.before]
  exact List.mem_cons_of_mem _ ho

theorem effective_of_withComposition {n k : String} {p : Schema}
    (h : Effective (doc.withComposition name c') n k p) : Effective doc n k p := by
  induction h with
  | @own n k s' p hs hk =>
    rw [ownOf_withComposition] at hs
    split at hs
    · rename_i hn
      subst hn
      rcases hf.mem s' hs k p hk with ⟨s, hs, hk⟩ | ⟨-, hlatest⟩
      · exact .own ((ownOf_of_find? hd).trans hs) hk
      · obtain ⟨a, ha, s, hs, hk⟩ := hlatest.mem
        exact (Effective.own hs hk).of_ancestor (hf.reached hd ha)
    · exact .own hs hk
  | inherited hstep _ ih => exact .inherited (inherits_withComposition hd hf hstep) ih

omit hd hf in
theorem amounts_self {of : Schema → List String} {s' : Schema} {k : String}
    (hs' : c'.child = some s') (hk : k ∈ of s') :
    (doc.withComposition name c').Amounts of name k :=
  ⟨name, s', .refl, by rw [ownOf_withComposition, if_pos rfl, hs'], hk⟩

/-- What a parent that is cut off `Amounts` to has been taken over. -/
theorem amounts_of_cut {of : Schema → List String}
    (htakes : doc.Takes of (doc.ancestry name others) c.child c'.child) {m k : String}
    (hm : m ∈ others) (h : (doc.withComposition name c').Amounts of m k) :
    (doc.withComposition name c').Amounts of name k := by
  obtain ⟨b, t, hr, hb, hk⟩ := h
  -- a way on that comes by `name` starts there too; all on another way is taken over
  rcases by_or_past name hr with hback | ⟨hne, hpast⟩
  · exact ⟨b, t, hback, hb, hk⟩
  · rw [ownOf_withComposition, if_neg (Ne.symm hne)] at hb
    have hpast : ReflTransGen (doc.Past name) m b := ReflTransGen.mono
      (fun _ _ hstep => ⟨hstep.1, inherits_withComposition hd hf hstep.2⟩) _ _ hpast
    obtain ⟨s', hs', hk⟩ := (htakes k).2 (.inr ⟨b, mem_ancestry hm hne hpast, t, hb, hk⟩)
    exact amounts_self hs' hk

/-- A composition that is flattened `Amounts` to what it did, and so does all that inherits from
it. -/
theorem amounts_withComposition {of : Schema → List String}
    (htakes : doc.Takes of (doc.ancestry name others) c.child c'.child) {n k : String} :
    (doc.withComposition name c').Amounts of n k ↔ doc.Amounts of n k := by
  constructor
  · rintro ⟨a, s', hr, hs', hk⟩
    have hr := ReflTransGen.mono (fun _ _ => inherits_withComposition hd hf) _ _ hr
    rw [ownOf_withComposition] at hs'
    split at hs'
    · rename_i hn
      subst hn
      rcases (htakes k).1 ⟨s', hs', hk⟩ with ⟨s, hs, hk⟩ | ⟨b, hb, s, hs, hk⟩
      · exact ⟨name, s, hr, (ownOf_of_find? hd).trans hs, hk⟩
      · exact ⟨b, s, hr.trans (hf.reached hd hb), hs, hk⟩
    · exact ⟨a, s', hr, hs', hk⟩
  · rintro ⟨a, s, hr, hs, hk⟩
    induction hr using ReflTransGen.head_induction_on with
    | refl =>
      by_cases hn : name = a
      · subst hn
        obtain ⟨s', hs', hk⟩ := (htakes k).2 (.inl ⟨s, (ownOf_of_find? hd).symm.trans hs, hk⟩)
        exact amounts_self hs' hk
      · exact ⟨a, s, .refl, by rw [ownOf_withComposition, if_neg hn, hs], hk⟩
    | @head n m hstep _ ih =>
      have hup : (doc.withComposition name c').Inherits n m →
          (doc.withComposition name c').Amounts of n k := fun hstep => by
        obtain ⟨b, t, hr, hb⟩ := ih
        exact ⟨b, t, .head hstep hr, hb⟩
      by_cases hn : name = n
      · subst hn
        rw [inherits_of_find? hd, hf.before] at hstep
        rcases List.mem_cons.1 hstep with rfl | hm
        · exact hup (inherits_withComposition_iff.2 (by simp [hf.after]))
        · exact amounts_of_cut hd hf htakes hm ih
      · exact hup (inherits_withComposition_iff.2 (by rwa [if_neg hn]))

theorem closed_withComposition (h : doc.Closed) : (doc.withComposition name c').Closed := by
  refine ⟨fun n d hfind m hm => ?_, fun m hm =>
    (contains_withComposition hd).2 (h.operations m hm)⟩
  rw [contains_withComposition hd]
  rcases Definition.mem_references.1 hm with hparent | ⟨s', hs', hm'⟩
  · have hstep := inherits_withComposition hd hf (inherits_iff.2 ⟨d, hfind, hparent⟩)
    exact h.contains_of_inherits hstep
  · rw [find?_withComposition] at hfind
    split at hfind
    · cases hfind
      rcases hf.references s' hs' m hm' with ⟨s, hs, hm⟩ | ⟨a, s, hs, hm⟩
      · exact h.contains_of_own ((ownOf_of_find? hd).trans hs) hm
      · exact h.contains_of_own hs hm
    · exact h.contains_of_own (n := n) (by rw [ownOf, hfind]; exact hs') hm'

theorem wellFormed_withComposition (h : doc.WellFormed) :
    (doc.withComposition name c').WellFormed :=
  ⟨closed_withComposition hd hf h.closed,
    h.acyclic.mono fun _ _ => inherits_withComposition hd hf, fun n hn => h.nulFree n
      (Table.mem_names_iff.2 ((contains_withComposition hd).1 (Table.mem_names_iff.1 hn)))⟩

omit hf in
theorem declares_of_find? {k : String} :
    doc.Declares name k ↔ ∃ s, c.child = some s ∧ k ∈ s.propertyNames := by
  unfold Declares
  rw [ownOf_of_find? hd]
  constructor
  · rintro ⟨s, p, hs, hk⟩
    exact ⟨s, hs, List.mem_map.2 ⟨_, hk, rfl⟩⟩
  · rintro ⟨s, hs, hk⟩
    obtain ⟨⟨_, p⟩, hp, rfl⟩ := List.mem_map.1 hk
    exact ⟨s, p, hs, hp⟩

/-- A definition goes on to state what it `Declares` when another composition takes over what it
inherits. -/
theorem declares_withComposition {n k : String} (h : doc.Declares n k) :
    (doc.withComposition name c').Declares n k := by
  obtain ⟨s, p, hs, hk⟩ := h
  by_cases hn : name = n
  · subst hn
    obtain ⟨s', hs', hsub⟩ := hf.keeps s ((ownOf_of_find? hd).symm.trans hs)
    exact ⟨s', p, by rw [ownOf_withComposition, if_pos rfl, hs'], hsub hk⟩
  · exact ⟨s, p, by rw [ownOf_withComposition, if_neg hn, hs], hk⟩

/-- What is taken over is `Visible` at a parent that is cut off. -/
theorem visible_of_taken (ha : doc.Acyclic) {k : String} {p : Schema} {s' : Schema}
    (hs' : c'.child = some s') (hk : (k, p) ∈ s'.properties) (hnot : ¬ doc.Declares name k) :
    ∃ o ∈ others, Visible doc o k p := by
  rcases hf.mem s' hs' k p hk with ⟨s, hs, hk⟩ | ⟨-, hlatest⟩
  · exact absurd ((declares_of_find? hd).2 ⟨s, hs, List.mem_map.2 ⟨_, hk, rfl⟩⟩) hnot
  · refine visible_of_latest ha (fun o ho => (inherits_of_find? hd).2 ?_) hlatest
    rw [hf.before]
    exact List.mem_cons_of_mem _ ho

theorem visible_of_withComposition (ha : doc.Acyclic) {n k : String} {p : Schema}
    (h : Visible (doc.withComposition name c') n k p) : Visible doc n k p := by
  induction h with
  | @own n k s' p hs hk =>
    rw [ownOf_withComposition] at hs
    split at hs
    · rename_i hn
      subst hn
      by_cases hdeclares : doc.Declares name k
      · obtain ⟨s, hs₀, hk₀⟩ := (declares_of_find? hd).1 hdeclares
        rcases hf.mem s' hs k p hk with ⟨s, hs, hk⟩ | ⟨hnot, -⟩
        · exact .own ((ownOf_of_find? hd).trans hs) hk
        · exact absurd hk₀ (hnot s hs₀)
      · obtain ⟨o, ho, hp⟩ := visible_of_taken hd hf ha hs hk hdeclares
        refine .inherited hdeclares ((inherits_of_find? hd).2 ?_) hp
        rw [hf.before]
        exact List.mem_cons_of_mem _ ho
    · exact .own hs hk
  | inherited hnot hstep _ ih =>
    exact .inherited (fun hdeclares => hnot (declares_withComposition hd hf hdeclares))
      (inherits_withComposition hd hf hstep) ih

/-- Of a name that has been `Visible` there is still something to see. -/
theorem exists_visible_withComposition (ha : doc.Acyclic) {n k : String} {p : Schema}
    (h : Visible doc n k p) : ∃ q, Visible (doc.withComposition name c') n k q := by
  have hnames := (amounts_withComposition hd hf hf.names).2
    (amounts_propertyNames.2 ⟨p, h.effective⟩)
  obtain ⟨q, hq⟩ := amounts_propertyNames.1 hnames
  exact hq.exists_visible ((ha.mono fun _ _ => inherits_withComposition hd hf).founded n)

theorem shared_withComposition (ha : doc.Acyclic) {n k m : String} (h : doc.Shared n k m) :
    (doc.withComposition name c').Shared n k m := by
  obtain ⟨⟨p, hp⟩, hall⟩ := h
  exact ⟨exists_visible_withComposition hd hf ha hp, fun q hq =>
    hall q (visible_of_withComposition hd hf ha hq)⟩

/-- Under a name that is `Visible` at a parent which is cut off, the flattened composition has a
property. -/
theorem exists_taken (ha : doc.Acyclic) {o k : String} {p : Schema} (ho : o ∈ others)
    (hp : Visible doc o k p) :
    ∃ s' q, c'.child = some s' ∧ Entries.find? k s'.properties = some q := by
  obtain ⟨b, t, hr, hb, hk⟩ := hp.effective.source
  have hstep : doc.Inherits name o := by
    rw [inherits_of_find? hd, hf.before]
    exact List.mem_cons_of_mem _ ho
  obtain ⟨hne, hpast⟩ := past_of_acyclic ha hstep hr
  obtain ⟨s', hs', hk'⟩ := (hf.names k).2
    (.inr ⟨b, mem_ancestry ho hne hpast, t, hb, List.mem_map.2 ⟨_, hk, rfl⟩⟩)
  obtain ⟨q, hq⟩ := Option.isSome_iff_exists.1 (Entries.find?_isSome_iff.2 hk')
  exact ⟨s', q, hs', hq⟩

omit hd hf in
/-- What is taken over by `c'` under `name`, and what is taken over elsewhere. -/
def takenBy (name : String) (c' : Composition) (taken : String → String → Schema) (n k : String) :
    Schema :=
  if name = n then
    (c'.child.bind fun s => Entries.find? k s.properties).getD (taken n k)
  else taken n k

theorem parents_eq {a : String} {rest : List String} (h : doc.parentsOf name = a :: rest) :
    first = a ∧ others = rest :=
  List.cons.inj (hf.before.symm.trans ((parentsOf_of_find? hd).symm.trans h))

/-- A definition other than `name` takes over what its other parents show, in the new document as
in the old one. -/
theorem taken_elsewhere (ha : doc.Acyclic) {taken : String → String → Schema}
    (htaken : (doc.withComposition name c').TakenOver taken) {n k a o : String} {p : Schema}
    {rest : List String} (hn : name ≠ n) (hfirst : doc.parentsOf n = a :: rest)
    (hnot : ¬ doc.Declares n k) (ho : o ∈ rest) (hp : Visible doc o k p) :
    (doc.withComposition name c').parentsOf n = a :: rest ∧
      ¬ (doc.withComposition name c').Declares n k ∧
      ∃ o ∈ rest, Visible (doc.withComposition name c') o k (taken n k) := by
  have hparents : (doc.withComposition name c').parentsOf n = a :: rest := by
    rw [parentsOf_withComposition, if_neg hn, hfirst]
  have hnot' : ¬ (doc.withComposition name c').Declares n k :=
    mt (declares_withComposition_of_ne hn).1 hnot
  exact ⟨hparents, hnot',
    htaken n k a rest hparents hnot' ⟨o, ho, exists_visible_withComposition hd hf ha hp⟩⟩

theorem takenOver_withComposition (ha : doc.Acyclic) {taken : String → String → Schema}
    (htaken : (doc.withComposition name c').TakenOver taken) :
    doc.TakenOver (takenBy name c' taken) := by
  rintro n k a rest hfirst hnot ⟨o, ho, p, hp⟩
  unfold takenBy
  split
  · rename_i hn
    subst hn
    obtain ⟨-, rfl⟩ := parents_eq hd hf hfirst
    obtain ⟨s', q, hs', hq⟩ := exists_taken hd hf ha ho hp
    rw [hs', Option.bind_some, hq, Option.getD_some]
    exact visible_of_taken hd hf ha hs' (Entries.mem_of_find? hq) hnot
  · rename_i hn
    obtain ⟨-, -, o, ho, hshows⟩ := taken_elsewhere hd hf ha htaken hn hfirst hnot ho hp
    exact ⟨o, ho, visible_of_withComposition hd hf ha hshows⟩

theorem kept_withComposition (ha : doc.Acyclic) {taken : String → String → Schema}
    (htaken : (doc.withComposition name c').TakenOver taken) {n k m : String}
    (h : doc.Kept (takenBy name c' taken) n k m) :
    (doc.withComposition name c').Kept taken n k m := by
  induction h with
  | @own n k m s p hs hk hm =>
    by_cases hn : name = n
    · subst hn
      obtain ⟨s', hs', hsub⟩ := hf.keeps s ((ownOf_of_find? hd).symm.trans hs)
      exact .own (by rw [ownOf_withComposition, if_pos rfl, hs']) (hsub hk) hm
    · exact .own (by rw [ownOf_withComposition, if_neg hn, hs]) hk hm
  | @first n a k m rest hfirst _ ih =>
    by_cases hn : name = n
    · subst hn
      obtain ⟨rfl, -⟩ := parents_eq hd hf hfirst
      have hafter : (doc.withComposition name c').parentsOf name = [first] := by
        rw [parentsOf_withComposition, if_pos rfl, hf.after]
      exact .first hafter ih
    · exact .first (by rw [parentsOf_withComposition, if_neg hn, hfirst]) ih
  | @taken n a o k m rest hfirst hnot ho hp hm =>
    unfold takenBy at hp hm
    split at hp
    · -- the definition now states the name with what it has taken over
      rename_i hn
      subst hn
      obtain ⟨-, rfl⟩ := parents_eq hd hf hfirst
      obtain ⟨s', q, hs', hq⟩ := exists_taken hd hf ha ho hp
      rw [if_pos rfl, hs', Option.bind_some, hq, Option.getD_some] at hm
      exact .own (by rw [ownOf_withComposition, if_pos rfl, hs']) (Entries.mem_of_find? hq) hm
    · rename_i hn
      rw [if_neg hn] at hm
      obtain ⟨hparents, hnot', o, ho, hshows⟩ :=
        taken_elsewhere hd hf ha htaken hn hfirst hnot ho hp
      exact .taken hparents hnot' ho hshows hm

end Replace

/-- `flattenAt` leaves a definition with one parent at most as it is, and `Flattens` another. -/
theorem flattenAt_cases (doc : Document) (name : String) :
    ((∀ c, doc.definitions.find? name = some (.composed c) → c.parents.length ≤ 1) ∧
      doc.flattenAt name = doc) ∨
    ∃ c c' first others, doc.definitions.find? name = some (.composed c) ∧ 1 < c.parents.length ∧
      Flattens doc name first others c c' ∧ doc.flattenAt name = doc.withComposition name c' := by
  unfold flattenAt
  split
  · rename_i c hd
    split
    · rename_i hlen
      obtain ⟨first, others, hc⟩ := List.exists_cons_of_length_pos (Nat.zero_lt_of_lt hlen)
      exact .inr ⟨c, _, first, others, hd, hlen, flattens_flattenParents doc name hc, rfl⟩
    · rename_i hlen
      refine .inl ⟨fun c' hd' => ?_, rfl⟩
      cases hd.symm.trans hd'
      exact Nat.not_lt.1 hlen
  · rename_i hnot
    exact .inl ⟨fun c hd => absurd hd (hnot c), rfl⟩

/-- `flattenAt` at one name makes a choice for `TakenOver` there and `Carries` the references that
are `Kept` by it. -/
theorem flattenAt_carries (h : doc.WellFormed) (name : String) {taken : String → String → Schema}
    (htaken : (doc.flattenAt name).TakenOver taken) :
    ∃ taken₀, doc.TakenOver taken₀ ∧
      Carries (doc.Kept taken₀) ((doc.flattenAt name).Kept taken) doc (doc.flattenAt name) ∅ := by
  rcases flattenAt_cases doc name with ⟨-, hsame⟩ | ⟨c, c', first, others, hd, -, hf, hnew⟩
  · rw [hsame] at htaken ⊢
    refine ⟨taken, htaken, (Carries.refl h.closed).narrow (fun _ _ _ => Kept.mentioned)
      fun n k m hkept => ?_⟩
    rw [Renaming.apply_empty, Renaming.apply_empty]
    exact hkept
  · rw [hnew] at htaken ⊢
    refine ⟨_, takenOver_withComposition hd hf h.acyclic htaken, (paths_rename_empty doc.paths).symm,
      fun n hn => ?_, fun n hn => (contains_withComposition hd).1 hn,
      fun n _ => ⟨fun k => ?_, fun k p hp => ?_⟩, fun n _ k m hkept => ?_,
      fun n _ k m hshared => ?_⟩
    · exact (contains_withComposition hd).2 ((hn.mono fun _ _ _ => Kept.mentioned).defined h.closed)
    · rw [Renaming.apply_empty, ← amounts_propertyNames, ← amounts_propertyNames,
        amounts_withComposition hd hf hf.names]
    · exact ⟨p, effective_of_withComposition hd hf hp, (Schema.rename_empty p).symm⟩
    · rw [Renaming.apply_empty, Renaming.apply_empty]
      exact kept_withComposition hd hf h.acyclic htaken hkept
    · rw [Renaming.apply_empty, Renaming.apply_empty]
      exact shared_withComposition hd hf h.acyclic hshared

theorem flattenAt_wellFormed (h : doc.WellFormed) (name : String) :
    (doc.flattenAt name).WellFormed := by
  rcases flattenAt_cases doc name with ⟨-, hsame⟩ | ⟨c, c', first, others, hd, -, hf, hnew⟩
  · rw [hsame]
    exact h
  · rw [hnew]
    exact wellFormed_withComposition hd hf h

theorem singleParent_wellFormed (h : doc.WellFormed) : doc.singleParent.WellFormed := by
  unfold singleParent
  generalize doc.definitions.names = names
  induction names generalizing doc with
  | nil => exact h
  | cons name names ih => exact ih (flattenAt_wellFormed h name)

/-- `singleParent` takes over one schema wherever there are some to choose from, and `Carries` the
references that are `Kept` by this choice; after it, they are all that are `Mentioned`. -/
theorem singleParent_carries (h : doc.WellFormed) : ∃ taken, doc.TakenOver taken ∧
    ∃ r, Carries (doc.Kept taken) doc.singleParent.Mentioned doc doc.singleParent r := by
  unfold singleParent
  generalize doc.definitions.names = names
  suffices ∃ taken taken', doc.TakenOver taken ∧ (names.foldl flattenAt doc).TakenOver taken' ∧
      ∃ r, Carries (doc.Kept taken) ((names.foldl flattenAt doc).Kept taken') doc
        (names.foldl flattenAt doc) r by
    obtain ⟨taken, taken', htaken, -, r, hr⟩ := this
    exact ⟨taken, htaken, r, { hr with counts := fun n hn k m hk => (hr.counts n hn k m hk).mentioned }⟩
  -- what is taken over is known from the end: each step adds what it takes over itself
  induction names generalizing doc with
  | nil =>
    obtain ⟨taken, htaken⟩ := exists_takenOver doc
    refine ⟨taken, taken, htaken, htaken, ∅, (Carries.refl h.closed).narrow
      (fun _ _ _ => Kept.mentioned) fun n k m hkept => ?_⟩
    rw [Renaming.apply_empty, Renaming.apply_empty]
    exact hkept
  | cons name names ih =>
    obtain ⟨taken, taken', htaken, htaken', r, hrest⟩ := ih (flattenAt_wellFormed h name)
    obtain ⟨taken₀, htaken₀, hstep⟩ := flattenAt_carries h name htaken
    exact ⟨taken₀, taken', htaken₀, htaken', _, hstep.trans hrest⟩

/-! ## Sorting -/

theorem mem_sortNames {names : List String} {n : String} : n ∈ sortNames names ↔ n ∈ names :=
  List.mem_mergeSort

theorem ownOf_sortParents (n : String) : doc.sortParents.ownOf n = doc.ownOf n := by
  unfold ownOf sortParents
  rw [Table.find?_mapValues]
  cases doc.definitions.find? n with
  | none => rfl
  | some d => cases d <;> rfl

theorem inherits_sortParents {n a : String} :
    doc.sortParents.Inherits n a ↔ doc.Inherits n a := by
  unfold Inherits parentsOf sortParents
  rw [Table.find?_mapValues]
  cases doc.definitions.find? n with
  | none => rfl
  | some d =>
    cases d with
    | simple s => rfl
    | composed c => exact mem_sortNames

theorem contains_sortParents (n : String) :
    doc.sortParents.definitions.contains n = doc.definitions.contains n := by
  unfold sortParents Table.contains
  rw [Table.find?_mapValues, Option.isSome_map]

theorem unchanged_sortParents (doc : Document) : Unchanged (fun _ => True) doc doc.sortParents :=
  ⟨fun _ _ _ _ => trivial, fun n _ => ownOf_sortParents n, fun _ _ _ => inherits_sortParents⟩

theorem sortParents_wellFormed (h : doc.WellFormed) : doc.sortParents.WellFormed := by
  refine ⟨⟨fun n d hfind m hm => ?_, fun m hm => ?_⟩,
    h.acyclic.mono fun _ _ => inherits_sortParents.1, fun n hn => ?_⟩
  · rw [contains_sortParents]
    rcases Definition.mem_references.1 hm with hparent | ⟨s, hs, hm⟩
    · have hstep : doc.sortParents.Inherits n m := by
        unfold Inherits parentsOf
        rw [hfind]
        exact hparent
      exact h.closed.contains_of_inherits (inherits_sortParents.1 hstep)
    · have hown : doc.ownOf n = some s := by
        rw [← ownOf_sortParents, ownOf, hfind]
        exact hs
      exact h.closed.contains_of_own hown hm
  · rw [contains_sortParents]
    exact h.closed.operations m hm
  · rw [Table.mem_names_iff, contains_sortParents] at hn
    exact h.nulFree n (Table.mem_names_iff.2 hn)

theorem sortParents_carries (h : doc.WellFormed) :
    Carries doc.Mentioned doc.sortParents.Mentioned doc doc.sortParents ∅ := by
  have hsame := unchanged_sortParents doc
  refine ⟨(paths_rename_empty doc.paths).symm,
    fun n hn => (contains_sortParents n).trans (hn.defined h.closed),
    fun n hn => (contains_sortParents n).symm.trans hn, fun n _ => ⟨fun k => ?_, fun k p hp => ?_⟩,
    fun n _ k m hcounts => ?_, fun n _ k m hshared => ?_⟩
  · simp only [Renaming.apply_empty, hsame.effective_iff trivial]
  · exact ⟨p, (hsame.effective_iff trivial).1 hp, (Schema.rename_empty p).symm⟩
  · rw [Renaming.apply_empty, Renaming.apply_empty]
    exact hsame.mentioned trivial hcounts
  · rw [Renaming.apply_empty, Renaming.apply_empty]
    exact hsame.shared trivial hshared

end RestSpec.Document
