/-
Replacing compositions that add nothing, on any document. A round puts the end of its chain of
single parents in the place of each such composition, and takes the composition out. A chain that
ends, or that ends at a composition which is its own parent, ends at a definition that stays. A
chain onto a circle of two or more has no end: what stands for the composition then is taken out
in the same round, and what referred to the composition leads nowhere from then on. `circling` is a
document with such a circle.
-/
import RestSpec.Proofs.Pass.Pipeline

namespace RestSpec.Document

open Relation (ReflTransGen TransGen)

variable {doc doc' : Document}

/-! ## What a document refers to -/

/-- An operation or a definition refers to the name, as `dangling?` sees it. -/
def RefersTo (doc : Document) (m : String) : Prop :=
  m ∈ doc.pathReferences ∨ ∃ n d, doc.definitions.find? n = some d ∧ m ∈ d.references.map (·.2)

theorem closed_iff_refersTo :
    doc.Closed ↔ ∀ m, doc.RefersTo m → doc.definitions.contains m = true := by
  constructor
  · rintro h m (hm | ⟨n, d, hd, hm⟩)
    · exact h.operations m hm
    · exact h.definitions n d hd m hm
  · exact fun h => ⟨fun n d hd m hm => h m (.inr ⟨n, d, hd, hm⟩), fun m hm => h m (.inl hm)⟩

theorem RefersTo.of_inherits {n m : String} (h : doc.Inherits n m) : doc.RefersTo m := by
  obtain ⟨d, hd, hm⟩ := inherits_iff.1 h
  exact .inr ⟨n, d, hd, Definition.mem_references.2 (.inl hm)⟩

/-- After `substitute` a document `RefersTo` the new names of what it referred to. -/
theorem RefersTo.of_substitute {r : Renaming} (hne : r.isEmpty = false) {m : String}
    (h : (doc.substitute r).RefersTo m) : ∃ n, doc.RefersTo n ∧ r.apply n = m := by
  rcases h with hm | ⟨n, d, hd, hm⟩
  · rw [pathReferences_of_paths (paths_substitute hne)] at hm
    obtain ⟨a, ha, rfl⟩ := List.mem_map.1 hm
    exact ⟨a, .inl ha, rfl⟩
  · rw [find?_substitute hne] at hd
    split at hd
    · cases hd
    · obtain ⟨d, hold, rfl⟩ := Option.map_eq_some_iff.1 hd
      obtain ⟨a, ha, rfl⟩ := Definition.mem_references_rename.1 hm
      exact ⟨a, .inr ⟨n, d, hold, ha⟩, rfl⟩

/-! ## Circles of single parents -/

/-- From the name `onlyParents` lead to two different names that lead to one another. -/
def Circles (doc : Document) (n : String) : Prop :=
  ∃ a b, a ≠ b ∧ ReflTransGen doc.onlyParents.Leads n a ∧
    ReflTransGen doc.onlyParents.Leads a b ∧ ReflTransGen doc.onlyParents.Leads b a

/-- A name that `Leads` to itself leads nowhere else. -/
theorem eq_of_leads_self {parents : Renaming} {a b : String} (ha : parents.Leads a a)
    (h : ReflTransGen parents.Leads a b) : b = a := by
  induction h with
  | refl => rfl
  | tail _ hstep ih =>
    subst ih
    exact parents.leads_unique hstep ha

/-- `emptyCompositions` takes out all compositions with an entry in `onlyParents`, but those that
are their own parents. -/
theorem contains_emptyCompositions {n : String} :
    doc.emptyCompositions.contains n = true ↔
      ∃ q, doc.onlyParents.find? n = some q ∧ q ≠ n := by
  rw [Table.contains_iff]
  constructor
  · rintro ⟨t, ht⟩
    obtain ⟨q, hq, hne, -⟩ := emptyCompositions_eq_some.1 ht
    exact ⟨q, hq, hne⟩
  · rintro ⟨q, hq, hne⟩
    exact ⟨_, emptyCompositions_eq_some.2 ⟨q, hq, hne, rfl⟩⟩

theorem leads_of_emptyCompositions {n t : String} (h : doc.emptyCompositions.find? n = some t) :
    TransGen doc.onlyParents.Leads n t := by
  obtain ⟨q, hq, -, rfl⟩ := emptyCompositions_eq_some.1 h
  exact TransGen.head' hq (leads_lastParent doc.onlyParents n _ q)

/-- A name that leads onto one of the `Circles` leads on, and not to itself, so it is taken out. -/
theorem Circles.contains {n : String} (h : doc.Circles n) :
    doc.emptyCompositions.contains n = true := by
  obtain ⟨a, b, hab, hna, hleads, -⟩ := h
  have hon : ∃ x, n ≠ x ∧ ReflTransGen doc.onlyParents.Leads n x := by
    by_cases h : n = a
    · exact ⟨b, h ▸ hab, hna.trans hleads⟩
    · exact ⟨a, h, hna⟩
  obtain ⟨x, hne, hx⟩ := hon
  obtain ⟨q, hq, -⟩ := (ReflTransGen.cases_head hx).resolve_left hne
  refine contains_emptyCompositions.2 ⟨q, hq, ?_⟩
  rintro rfl
  exact hne (eq_of_leads_self hq hx).symm

/-- All on the way onto one of the `Circles` and round it lead onto it. -/
theorem Circles.of_leads {n t : String} (h : doc.Circles n)
    (ht : ReflTransGen doc.onlyParents.Leads n t) : doc.Circles t := by
  obtain ⟨a, b, hab, hna, hleads, hback⟩ := h
  refine ⟨a, b, hab, ?_, hleads, hback⟩
  rcases ReflTransGen.total_of_right_unique doc.onlyParents.leads_unique ht hna with hta | hat
  · exact hta
  · obtain ⟨c, hac, hcb⟩ := (ReflTransGen.cases_head hleads).resolve_left hab
    exact leads_back (TransGen.head' hac (hcb.trans hback)) hat

/-- What `emptyCompositions` puts in the place of a composition is taken out itself exactly if the
chain `Circles`. -/
theorem contains_target_iff {n t : String} (h : doc.emptyCompositions.find? n = some t) :
    doc.emptyCompositions.contains t = true ↔ doc.Circles n := by
  have hway := (leads_of_emptyCompositions h).to_reflTransGen
  refine ⟨fun ht => ?_, fun hcircles => (hcircles.of_leads hway).contains⟩
  obtain ⟨q, hq, hne⟩ := contains_emptyCompositions.1 ht
  obtain ⟨p, hp, -, rfl⟩ := emptyCompositions_eq_some.1 h
  have hcircle := (lastParent_end hp).resolve_left fun hnone => nomatch hnone.symm.trans hq
  have hstep := ReflTransGen.single (r := doc.onlyParents.Leads) hq
  exact ⟨_, q, hne.symm, hway, hstep, leads_back hcircle hstep⟩

/-! ## Lost references -/

/-- One of the `Rounds` has put the name in the place of a composition whose chain `Circles`. -/
def Lost (doc : Document) (m : String) : Prop :=
  ∃ doc' n, Rounds emptyCompositions doc doc' ∧ doc'.Circles n ∧
    doc'.emptyCompositions.find? n = some m

/-- In each of the `Rounds` a reference leads to a definition unless it is `Lost`. -/
theorem Rounds.contains_or_lost (hc : doc.Closed) (h : Rounds emptyCompositions doc doc')
    {m : String} (hm : doc'.RefersTo m) : doc'.definitions.contains m = true ∨ doc.Lost m := by
  induction h generalizing m with
  | refl => exact .inl (closed_iff_refersTo.1 hc m hm)
  | @tail d _ hrounds hround ih =>
    obtain ⟨hne, rfl⟩ := hround
    obtain ⟨n, hn, rfl⟩ := hm.of_substitute hne
    cases ht : d.emptyCompositions.find? n with
    | none =>
      rw [Renaming.apply_of_none ht]
      exact (ih hn).imp_left (contains_substitute hne ht)
    | some t =>
      rw [Renaming.apply_of_find? ht]
      by_cases hcircles : d.Circles n
      · exact .inr ⟨d, n, hrounds, hcircles, ht⟩
      · have hstays : d.emptyCompositions.find? t = none := by
          have := mt (contains_target_iff ht).1 hcircles
          unfold Table.contains at this
          simpa using this
        -- the last composition of the chain names `t` as its parent
        obtain ⟨p, -, hp⟩ := TransGen.tail'_iff.1 (leads_of_emptyCompositions ht)
        exact (ih (.of_inherits (inherits_of_onlyParents hp))).imp_left
          (contains_substitute hne hstays)

theorem Lost.not_contains {m : String} (h : doc.Lost m) :
    doc.replaceEmpty.definitions.contains m ≠ true := by
  obtain ⟨doc', n, hrounds, hcircles, hm⟩ := h
  obtain ⟨t, ht⟩ := Table.contains_iff.1 ((contains_target_iff hm).2 hcircles)
  have hend := isEmpty_substituteAll emptyCompositions_defined doc
  exact (hrounds.to_end (rounds_substituteAll emptyCompositions_defined doc) hend).not_contains
    hend ht

/-- Over `Rounds` an operation keeps a reference that no definition has. -/
theorem Rounds.mem_pathReferences (h : Rounds emptyCompositions doc doc') {m : String}
    (hm : m ∈ doc.pathReferences) (hgone : doc.definitions.contains m ≠ true) :
    m ∈ doc'.pathReferences := by
  induction h with
  | refl => exact hm
  | @tail d _ hrounds hround ih =>
    obtain ⟨hne, rfl⟩ := hround
    have hnone : d.emptyCompositions.find? m = none :=
      Option.eq_none_iff_forall_ne_some.2 fun t ht =>
        hgone (Rounds.contains hrounds (emptyCompositions_defined d m t ht))
    rw [pathReferences_of_paths (paths_substitute hne)]
    exact List.mem_map.2 ⟨m, ih, Renaming.apply_of_none hnone⟩

/-- An operation that refers to a composition whose chain `Circles` loses its reference to
`replaceEmpty`. -/
theorem Circles.dangling {n : String} (h : doc.Circles n) (hn : n ∈ doc.pathReferences) :
    doc.replaceEmpty.dangling? ≠ none := by
  obtain ⟨t, ht⟩ := Table.contains_iff.1 h.contains
  have hne := Table.isEmpty_eq_false ht
  have hround : Rounds emptyCompositions doc (doc.substitute doc.emptyCompositions) :=
    .single ⟨hne, rfl⟩
  have hend := isEmpty_substituteAll emptyCompositions_defined doc
  have hlast := hround.to_end (rounds_substituteAll emptyCompositions_defined doc) hend
  have hgone : (doc.substitute doc.emptyCompositions).definitions.contains t ≠ true := by
    intro ht'
    obtain ⟨t', hfind⟩ := Table.contains_iff.1 ((contains_target_iff ht).2 h)
    exact nomatch hfind.symm.trans (find?_of_contains_substitute hne ht').1
  have hkept : t ∈ doc.replaceEmpty.pathReferences := by
    refine hlast.mem_pathReferences ?_ hgone
    rw [pathReferences_of_paths (paths_substitute hne)]
    exact List.mem_map.2 ⟨n, hn, Renaming.apply_of_find? ht⟩
  intro hclosed
  exact hgone (hlast.contains ((dangling?_eq_none_iff.1 hclosed).operations t hkept))

/-- A parent in a later one of the `Rounds` is an ancestor from the start. -/
theorem Rounds.inherits (h : Rounds emptyCompositions doc doc') {a b : String}
    (hab : doc'.Inherits a b) : ReflTransGen doc.Inherits a b := by
  induction h generalizing a b with
  | refl => exact .single hab
  | @tail d _ _ hround ih =>
    obtain ⟨hne, rfl⟩ := hround
    have ha := find?_of_contains_substitute hne (Table.mem_names_iff.1 (mem_names_of_inherits hab))
    obtain ⟨p, hp, rfl⟩ := (inherits_substitute hne ha.1).1 hab
    cases ht : d.emptyCompositions.find? p with
    | none =>
      rw [Renaming.apply_of_none ht]
      exact ih hp
    | some t =>
      rw [Renaming.apply_of_find? ht]
      have hway := TransGen.mono (fun _ _ => inherits_of_onlyParents) _ _
        (leads_of_emptyCompositions ht)
      exact (ih hp).trans (Relation.reflTransGen_closed (fun _ _ => ih) _ _ hway.to_reflTransGen)

theorem Rounds.not_circles (h : Rounds emptyCompositions doc doc')
    (hsole : ∀ a b, ReflTransGen doc.Inherits a b → ReflTransGen doc.Inherits b a → a = b)
    (n : String) : ¬ doc'.Circles n := by
  have hway : ∀ {a b}, ReflTransGen doc'.onlyParents.Leads a b → ReflTransGen doc.Inherits a b :=
    Relation.reflTransGen_closed (fun _ _ hstep => h.inherits (inherits_of_onlyParents hstep)) _ _
  rintro ⟨a, b, hab, -, hleads, hback⟩
  exact hab (hsole a b (hway hleads) (hway hback))

/-- `replaceEmpty` on every document: what stands for a composition that adds nothing is itself
taken out if and only if the chain of `onlyParents` leads onto `Circles` of two or more. Where
nothing dangles at first, exactly the references that are `Lost` do in the end, and none is if no
two definitions are ancestors of one another. -/
theorem replaceEmpty_references (h : doc.dangling? = none) :
    (∀ doc' n t, Rounds emptyCompositions doc doc' → doc'.emptyCompositions.find? n = some t →
      (doc'.emptyCompositions.contains t = true ↔ doc'.Circles n)) ∧
    (∀ m, doc.replaceEmpty.RefersTo m →
      (doc.replaceEmpty.definitions.contains m = false ↔ doc.Lost m)) ∧
    (∀ n ∈ doc.pathReferences, doc.Circles n → doc.replaceEmpty.dangling? ≠ none) ∧
    ((∀ a b, ReflTransGen doc.Inherits a b → ReflTransGen doc.Inherits b a → a = b) →
      doc.replaceEmpty.dangling? = none) := by
  have hrounds := rounds_substituteAll emptyCompositions_defined doc
  have hlost : ∀ m, doc.replaceEmpty.RefersTo m →
      doc.replaceEmpty.definitions.contains m = true ∨ doc.Lost m :=
    fun m hm => hrounds.contains_or_lost (dangling?_eq_none_iff.1 h) hm
  refine ⟨fun doc' n t _ ht => contains_target_iff ht, fun m hm => ⟨fun hgone => ?_, fun hm => ?_⟩,
    fun n hn hcircles => hcircles.dangling hn, fun hsole => ?_⟩
  · exact (hlost m hm).resolve_left (Bool.eq_false_iff.1 hgone)
  · exact Bool.eq_false_iff.2 (Lost.not_contains hm)
  · refine dangling?_eq_none_iff.2 (closed_iff_refersTo.2 fun m hm => (hlost m hm).resolve_right ?_)
    rintro ⟨doc', n, hrounds, hcircles, -⟩
    exact hrounds.not_circles hsole n hcircles

/-! ## A circle of two -/

/-- `First` and `Second` add nothing and are the parents of one another. -/
def circling : Document where
  paths := Table.ofList [("/first", { get := some (.answering (.referenceTo "First")) })]
  definitions := Table.ofList
    [("First", .composed { parents := ["Second"] }), ("Second", .composed { parents := ["First"] })]

theorem circling_dangling? : circling.dangling? = none :=
  Option.isNone_iff_eq_none.1 (by decide)

/-- In `circling` each of the two stands for the other, and both are taken out. -/
theorem circling_loses :
    circling.dangling? = none ∧ circling.replaceEmpty.dangling? ≠ none ∧
      circling.emptyCompositions.find? "First" = some "Second" ∧
      circling.emptyCompositions.contains "Second" = true :=
  ⟨circling_dangling?, Option.isSome_iff_ne_none.1 (by decide), by decide, by decide⟩

/-- `Loop` is its own parent and the parent of `Tail`. -/
def looping : Document where
  paths := Table.ofList [("/tail", { get := some (.answering (.referenceTo "Tail")) })]
  definitions := Table.ofList
    [("Loop", .composed { parents := ["Loop"] }), ("Tail", .composed { parents := ["Loop"] })]

theorem looping_dangling? : looping.dangling? = none :=
  Option.isNone_iff_eq_none.1 (by decide)

theorem looping_inherits {a b : String} (h : ReflTransGen looping.Inherits a b) :
    a = b ∨ b = "Loop" := by
  have hall : ∀ e ∈ looping.definitions.entries, ∀ p ∈ e.2.parents, p = "Loop" := by decide
  rcases ReflTransGen.cases_tail h with rfl | ⟨c, -, hstep⟩
  · exact .inl rfl
  · obtain ⟨d, hd, hb⟩ := inherits_iff.1 hstep
    exact .inr (hall _ (Table.mem_entries_iff.2 hd) b hb)

theorem looping_sole (a b : String) (hab : ReflTransGen looping.Inherits a b)
    (hba : ReflTransGen looping.Inherits b a) : a = b := by
  rcases looping_inherits hab with h | rfl
  · exact h
  · exact (looping_inherits hba).elim Eq.symm id

/-- In `circling` the circle of two loses its reference, and the composition that is its own parent
keeps it. -/
theorem circling_references :
    circling.dangling? = none ∧ circling.Circles "First" ∧
      circling.replaceEmpty.dangling? ≠ none ∧
      (∀ m, circling.replaceEmpty.RefersTo m →
        (circling.replaceEmpty.definitions.contains m = false ↔ circling.Lost m)) ∧
      looping.dangling? = none ∧ looping.replaceEmpty.dangling? = none := by
  obtain ⟨hrounds, hlost, hloses, -⟩ := replaceEmpty_references circling_dangling?
  obtain ⟨-, -, -, hkept⟩ := replaceEmpty_references looping_dangling?
  have hcircles := (hrounds circling "First" "Second" (.refl _ _) (by decide)).1 (by decide)
  exact ⟨circling_dangling?, hcircles, hloses "First" (by decide) hcircles, hlost,
    looping_dangling?, hkept looping_sole⟩

end RestSpec.Document
