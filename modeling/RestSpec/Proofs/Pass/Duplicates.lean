/-
Which compositions are merged, on any document. A round sends a bare composition to the first name,
shorter ones before longer ones, of those whose parents have the same signature, and the pass ends
when no two have. Equal sets of parents have equal signatures; the converse holds as long as no name
holds the mark that closes a name in a signature. `ambiguous` is a document in which one parent with
the mark in its name is taken for two.
-/
import RestSpec.Proofs.Pass.Pipeline

namespace RestSpec.Document

variable {doc doc' : Document}

/-! ## The first of the names -/

/-- The name `t` is one of `members`, and by `shorter` goes before all the others. -/
structure First (members : String → Prop) (t : String) : Prop where
  mem : members t
  before : ∀ m, members m → m ≠ t → shorter t m = true

theorem shorter_asymm {a b : String} (h : shorter a b = true) : shorter b a = false := by
  refine Bool.eq_false_iff.2 fun h' => ?_
  have := shorter_trans h h'
  rw [shorter_irrefl] at this
  cases this

theorem shorter_total {a b : String} (h : a ≠ b) (hab : shorter a b = false) :
    shorter b a = true := by
  by_contra hba
  rw [Bool.not_eq_true] at hba
  simp only [shorter, Bool.or_eq_false_iff, Bool.and_eq_false_iff, decide_eq_false_iff_not,
    beq_eq_false_iff_ne] at hab hba
  have hsize : a.utf8ByteSize = b.utf8ByteSize := by omega
  have hlt : ¬ a < b := hab.2.resolve_left fun h => h hsize
  have hlt' : ¬ b < a := hba.2.resolve_left fun h => h hsize.symm
  exact h (String.le_antisymm (String.not_lt.1 hlt') (String.not_lt.1 hlt))

theorem First.unique {members : String → Prop} {t t' : String} (h : First members t)
    (h' : First members t') : t = t' := by
  by_contra hne
  have hbefore := h'.before t h.mem hne
  rw [shorter_asymm (h.before t' h'.mem (Ne.symm hne))] at hbefore
  cases hbefore

theorem first_shortest {members : String → Prop} {first : String} {others : List String}
    (h : ∀ m, members m ↔ m ∈ others) (hfirst : members first) :
    First members (shortest first others) := by
  have hsub : ∀ m ∈ first :: others, members m := by
    intro m hm
    rcases List.mem_cons.1 hm with rfl | hm
    · exact hfirst
    · exact (h m).2 hm
  refine ⟨hsub _ (shortest_mem first others), fun m hm hne => shorter_total hne ?_⟩
  exact not_shorter_shortest first others m (List.mem_cons_of_mem _ ((h m).1 hm))

/-! ## Bare compositions -/

/-- The definition is a composition of parents without an own schema. -/
structure Bare (doc : Document) (n : String) : Prop where
  own : doc.ownOf n = none
  inherits : ∃ a, doc.Inherits n a

theorem mem_bareCompositions_iff {n signature : String} :
    (n, signature) ∈ doc.bareCompositions ↔
      doc.Bare n ∧ signature = parentSignature (doc.parentsOf n) := by
  rw [mem_bareCompositions]
  constructor
  · rintro ⟨parents, description, hne, rfl, hd⟩
    have hparents : doc.parentsOf n = parents := by simp [parentsOf, hd, Definition.parents]
    refine ⟨⟨by simp [ownOf, hd, Definition.own], ?_⟩, by rw [hparents]⟩
    obtain ⟨a, ha⟩ := List.exists_mem_of_ne_nil _ hne
    exact ⟨a, by unfold Inherits; rw [hparents]; exact ha⟩
  · rintro ⟨⟨hown, ⟨a, ha⟩⟩, rfl⟩
    obtain ⟨d, hd, ha⟩ := inherits_iff.1 ha
    rw [ownOf, hd] at hown
    cases d with
    | simple s => cases ha
    | composed c =>
      obtain ⟨parents, child, description⟩ := c
      obtain rfl : child = none := hown
      exact ⟨parents, description, List.ne_nil_of_mem ha,
        by simp [parentsOf, hd, Definition.parents], hd⟩

/-- Two `Bare` compositions whose parents have one `parentSignature`. -/
structure Alike (doc : Document) (n m : String) : Prop where
  bare : doc.Bare n ∧ doc.Bare m
  signature : parentSignature (doc.parentsOf n) = parentSignature (doc.parentsOf m)

/-- Two `Bare` compositions with the same set of parents. -/
structure SameParents (doc : Document) (n m : String) : Prop where
  bare : doc.Bare n ∧ doc.Bare m
  same : ∀ a, doc.Inherits n a ↔ doc.Inherits m a

theorem SameParents.alike {n m : String} (h : doc.SameParents n m) : doc.Alike n m := by
  let close (names : List String) : String := .join (names.map (·.push (Char.ofNat 0)))
  exact ⟨h.bare, congrArg close (nameSet_ext h.same)⟩

/-- Whoever is `Alike` to one of two that are alike is alike to the other. -/
theorem Alike.iff {n m : String} (h : doc.Alike n m) (x : String) :
    doc.Alike n x ↔ doc.Alike m x :=
  ⟨fun hx => ⟨⟨h.bare.2, hx.bare.2⟩, h.signature.symm.trans hx.signature⟩,
    fun hx => ⟨⟨h.bare.1, hx.bare.2⟩, h.signature.trans hx.signature⟩⟩

theorem first_alike {n : String} (hn : doc.Bare n) :
    First (doc.Alike n) (shortest n (doc.bareWith (parentSignature (doc.parentsOf n)))) := by
  refine first_shortest (fun m => ?_) ⟨⟨hn, hn⟩, rfl⟩
  rw [mem_bareWith, mem_bareCompositions_iff]
  exact ⟨fun h => ⟨h.bare.2, h.signature⟩, fun h => ⟨⟨hn, h.1⟩, h.2⟩⟩

/-- `duplicates` has a `Bare` composition give way to the `First` of all that are `Alike`. -/
theorem find?_duplicates_iff {n t : String} :
    doc.duplicates.find? n = some t ↔ n ≠ t ∧ First (doc.Alike n) t := by
  have hgives : ∀ {t}, doc.duplicates.find? n = some t → n ≠ t ∧ First (doc.Alike n) t := by
    intro t h
    obtain ⟨hne, signature, hs, rfl⟩ := find?_duplicates h
    obtain ⟨hn, rfl⟩ := mem_bareCompositions_iff.1 hs
    exact ⟨hne.symm, first_alike hn⟩
  refine ⟨hgives, fun ⟨hne, ht⟩ => ?_⟩
  have hbare := mem_bareCompositions_iff.2 ⟨ht.mem.bare.1, rfl⟩
  have hfirst := (first_alike ht.mem.bare.1).unique ht
  have hlisted : n ∈ doc.duplicates.names := Table.mem_names_ofList.2 (List.mem_map.2
    ⟨(n, _), List.mem_filterMap.2 ⟨_, hbare, if_neg (hfirst.trans_ne hne.symm)⟩, rfl⟩)
  obtain ⟨t', ht'⟩ := Table.contains_iff.1 (Table.mem_names_iff.1 hlisted)
  rw [ht', (hgives ht').2.unique ht]

/-- Where `duplicates` is empty, no two compositions are `Alike`. -/
theorem eq_of_alike (h : doc.duplicates.isEmpty = true) {n m : String} (hnm : doc.Alike n m) :
    n = m := by
  have hstays : ∀ {x t}, First (doc.Alike x) t → x = t := by
    intro x t ht
    by_contra hne
    exact nomatch (find?_duplicates_iff.2 ⟨hne, ht⟩).symm.trans (Table.isEmpty_iff.1 h x)
  have hsame : doc.Alike n = doc.Alike m := funext fun x => propext (hnm.iff x)
  have hfirst := first_alike hnm.bare.1
  exact (hstays hfirst).trans (hstays (hsame ▸ hfirst)).symm

/-! ## Names without the mark -/

/-- No name that is defined or inherited from holds the zero character that closes a name in a
`parentSignature`. -/
structure NulFree (doc : Document) : Prop where
  names : ∀ n ∈ doc.definitions.names, Char.ofNat 0 ∉ n.toList
  parents : ∀ n a, doc.Inherits n a → Char.ofNat 0 ∉ a.toList

theorem WellFormed.free (h : doc.WellFormed) : doc.NulFree :=
  ⟨h.nulFree, fun _ a ha =>
    h.nulFree a (Table.mem_names_iff.2 (h.closed.contains_of_inherits ha))⟩

theorem NulFree.sameParents (h : doc.NulFree) {n m : String} :
    doc.Alike n m ↔ doc.SameParents n m :=
  ⟨fun hnm => ⟨hnm.bare, mem_of_parentSignature_eq (h.parents n) (h.parents m) hnm.signature⟩,
    SameParents.alike⟩

/-- `Rounds` keep a document `NulFree`: a new parent is the name of a definition. -/
theorem NulFree.rounds (h : doc.NulFree) (hrounds : Rounds duplicates doc doc') : doc'.NulFree := by
  induction hrounds with
  | refl => exact h
  | @tail d _ _ hround ih =>
    obtain ⟨hne, rfl⟩ := hround
    have hstays : ∀ {n}, n ∈ (d.substitute d.duplicates).definitions.names →
        d.duplicates.find? n = none ∧ n ∈ d.definitions.names := fun hn => by
      rw [Table.mem_names_iff] at hn ⊢
      exact find?_of_contains_substitute hne hn
    refine ⟨fun n hn => ih.names n (hstays hn).2, fun n b hb => ?_⟩
    obtain ⟨a, ha, rfl⟩ := (inherits_substitute hne (hstays (mem_names_of_inherits hb)).1).1 hb
    cases ht : d.duplicates.find? a with
    | none =>
      rw [Renaming.apply_of_none ht]
      exact ih.parents n a ha
    | some t =>
      rw [Renaming.apply_of_find? ht]
      obtain ⟨c, hc⟩ := (find?_duplicates_iff.1 ht).2.mem.bare.2.inherits
      exact ih.names t (mem_names_of_inherits hc)

/-! ## The pass -/

/-- `collapseDuplicates` on every document. Its `Rounds` end with a document in which no two
compositions are `Alike`, and so no two have `SameParents`. In each round a `Bare` composition gives
way exactly to the `First` of those that are alike; in a document that is `NulFree`, of those with
the same parents. -/
theorem collapseDuplicates_rounds (doc : Document) :
    Rounds duplicates doc doc.collapseDuplicates ∧
    doc.collapseDuplicates.duplicates.isEmpty = true ∧
    (∀ n m, doc.collapseDuplicates.SameParents n m → n = m) ∧
    (∀ doc' n t, Rounds duplicates doc doc' →
      (doc'.duplicates.find? n = some t ↔ n ≠ t ∧ First (doc'.Alike n) t)) ∧
    (doc.NulFree → ∀ doc' n t, Rounds duplicates doc doc' →
      (doc'.duplicates.find? n = some t ↔ n ≠ t ∧ First (doc'.SameParents n) t)) := by
  have hend := isEmpty_substituteAll duplicates_defined doc
  refine ⟨rounds_substituteAll duplicates_defined doc, hend, fun n m h => eq_of_alike hend h.alike,
    fun doc' n t _ => find?_duplicates_iff, fun hfree doc' n t hrounds => ?_⟩
  have hsame : doc'.Alike n = doc'.SameParents n :=
    funext fun m => propext (hfree.rounds hrounds).sameParents
  rw [find?_duplicates_iff, hsame]

/-- `Longer` and `Short` have the same two parents, in another order and not once each. -/
def paired : Document where
  paths := Table.ofList
    [("/longer", { get := some (.answering (.referenceTo "Longer")) }),
      ("/short", { get := some (.answering (.referenceTo "Short")) })]
  definitions := Table.ofList
    [("A", .simple (.object [])), ("B", .simple (.object [])),
      ("Longer", .composed { parents := ["B", "A"] }),
      ("Short", .composed { parents := ["A", "B", "A"] })]

theorem paired_nulFree : paired.NulFree := by
  have hall : ∀ e ∈ paired.definitions.entries, ∀ p ∈ e.2.parents, Char.ofNat 0 ∉ p.toList := by
    decide
  refine ⟨by decide, fun n a h => ?_⟩
  obtain ⟨d, hd, ha⟩ := inherits_iff.1 h
  exact hall _ (Table.mem_entries_iff.2 hd) a ha

/-- `Longer` gives way to `Short`, the first name of those with the same parents. -/
theorem paired_rounds :
    paired.NulFree ∧ Rounds duplicates paired paired.collapseDuplicates ∧
      (∀ n m, paired.collapseDuplicates.SameParents n m → n = m) ∧
      First (paired.SameParents "Longer") "Short" := by
  obtain ⟨hrounds, -, hnone, -, hsame⟩ := collapseDuplicates_rounds paired
  have hlonger := hsame paired_nulFree paired "Longer" "Short" (.refl _ _)
  exact ⟨paired_nulFree, hrounds, hnone, (hlonger.1 (by decide +kernel)).2⟩

/-! ## One parent taken for two -/

/-- `Joined` has one parent, the name of which is the two names of the parents of `Pair` with the
mark between them. -/
def ambiguous : Document where
  paths := Table.ofList
    [("/joined", { get := some (.answering (.referenceTo "Joined")) }),
      ("/pair", { get := some (.answering (.referenceTo "Pair")) })]
  definitions := Table.ofList
    [("a", .simple (.object [])), ("a\x00b", .simple (.object [])), ("b", .simple (.object [])),
      ("Joined", .composed { parents := ["a\x00b"] }),
      ("Pair", .composed { parents := ["a", "b"] })]

/-- `Pair` stands for `Joined`, though the two have no parent in common. -/
theorem ambiguous_merges :
    ambiguous.dangling? = none ∧ ambiguous.duplicates.find? "Joined" = some "Pair" ∧
      ambiguous.Bare "Joined" ∧ ¬ ambiguous.SameParents "Joined" "Pair" := by
  refine ⟨Option.isNone_iff_eq_none.1 (by decide), by decide +kernel,
    ⟨Option.isNone_iff_eq_none.1 (by decide), "a\x00b", by decide⟩, fun h => ?_⟩
  exact absurd ((h.same "a").2 (by decide)) (by decide)

end RestSpec.Document
