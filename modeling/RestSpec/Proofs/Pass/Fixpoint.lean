/-
What is left to do after the default passes. Each pass that works in rounds ends with nothing to
choose, and removing what is unused and sorting parents bring back no composition that adds nothing.
So of the default passes one alone can still find work in a document that they have been run on:
`replaceEmpty` gives compositions new parents, and two that have the same parents from then on are
merged by the next run. `remerged` is a document on which a second run does so. Every such run takes
out a definition, so in the end nothing is left to do.
-/
import RestSpec.Proofs.Pass.Duplicates

namespace RestSpec.Document

open Relation (TransGen)

variable {doc doc' : Document}

/-! ## Nothing that adds nothing -/

/-- Every composition of one parent has properties of its own: `onlyParents` is empty. -/
def AllAdd (doc : Document) : Prop := ∀ n, doc.onlyParents.find? n = none

theorem emptyCompositions_isEmpty_iff (ha : doc.Acyclic) :
    doc.emptyCompositions.isEmpty = true ↔ doc.AllAdd := by
  rw [Table.isEmpty_iff]
  constructor
  · intro h n
    refine Option.eq_none_iff_forall_ne_some.2 fun q hq => ?_
    obtain ⟨t, ht⟩ := exists_endsAt ha n
    exact nomatch (h n).symm.trans ((find?_emptyCompositions ha).2 ⟨⟨q, hq⟩, ht⟩)
  · intro h n
    refine Option.eq_none_iff_forall_ne_some.2 fun t ht => ?_
    obtain ⟨⟨q, hq⟩, -⟩ := (find?_emptyCompositions ha).1 ht
    exact nomatch (h n).symm.trans hq

theorem allAdd_replaceEmpty (h : doc.WellFormed) : doc.replaceEmpty.AllAdd :=
  (emptyCompositions_isEmpty_iff (replaceEmpty_carries h).1.acyclic).1
    (isEmpty_substituteAll emptyCompositions_defined doc)

theorem AllAdd.replaceEmpty (h : doc.AllAdd) (ha : doc.Acyclic) : doc.replaceEmpty = doc :=
  substituteAll_of_isEmpty ((emptyCompositions_isEmpty_iff ha).2 h)

/-- A document is `AllAdd` if one is that has its compositions and what they state. -/
theorem AllAdd.of_subset (h : doc.AllAdd)
    (hparents : ∀ n q, doc'.parentsOf n = [q] → doc.parentsOf n = [q])
    (hown : ∀ n s, doc'.parentsOf n ≠ [] → doc.ownOf n = some s → doc'.ownOf n = some s) :
    doc'.AllAdd := by
  intro n
  refine Option.eq_none_iff_forall_ne_some.2 fun q hq => ?_
  obtain ⟨hq, hempty⟩ := find?_onlyParents.1 hq
  refine nomatch (h n).symm.trans (find?_onlyParents.2 ⟨hparents n q hq, fun s hs => ?_⟩)
  exact hempty s (hown n s (by rw [hq]; exact List.cons_ne_nil _ _) hs)

theorem AllAdd.removeUnused (h : doc.AllAdd) : doc.removeUnused.AllAdd := by
  have hlive : ∀ {n : String}, doc.removeUnused.parentsOf n ≠ [] → n ∈ doc.live := by
    intro n hne
    obtain ⟨a, ha⟩ := List.exists_mem_of_ne_nil _ hne
    exact (inherits_removeUnused.1 ha).1
  refine h.of_subset (fun n q hq => ?_) fun n s hne hs => ownOf_removeUnused.2 ⟨hlive hne, hs⟩
  have hn := hlive (by rw [hq]; exact List.cons_ne_nil q [])
  rw [← hq]
  unfold parentsOf
  rw [find?_removeUnused, if_pos hn]

theorem parentsOf_sortParents (n : String) :
    doc.sortParents.parentsOf n = sortNames (doc.parentsOf n) := by
  have hnil : sortNames [] = [] := List.mergeSort_nil
  unfold parentsOf sortParents
  rw [Table.find?_mapValues]
  cases doc.definitions.find? n with
  | none => exact hnil.symm
  | some d =>
    cases d with
    | simple s => exact hnil.symm
    | composed c => rfl

theorem AllAdd.sortParents (h : doc.AllAdd) : doc.sortParents.AllAdd := by
  refine h.of_subset (fun n q hq => ?_) fun n s _ hs => (ownOf_sortParents n).trans hs
  rw [parentsOf_sortParents] at hq
  exact List.perm_singleton.1 (hq ▸ (List.mergeSort_perm _ _).symm)

/-! ## Nothing unused -/

theorem AllLive.sortParents (h : doc.AllLive) : doc.sortParents.AllLive := by
  intro n hn
  rw [contains_sortParents] at hn
  have hrefs : doc.sortParents.pathReferences = doc.pathReferences := rfl
  refine live_mono hrefs (fun n _ m hm => ?_) (h n hn)
  rw [mem_successors_iff] at hm ⊢
  simpa only [inherits_sortParents, ownOf_sortParents] using hm

/-! ## Sorted parents -/

theorem sortNames_sortNames (names : List String) : sortNames (sortNames names) = sortNames names := by
  refine List.mergeSort_of_pairwise (List.pairwise_mergeSort (fun a b c hab hbc => ?_)
    (fun a b => ?_) names)
  · exact decide_eq_true (String.le_trans (of_decide_eq_true hab) (of_decide_eq_true hbc))
  · rcases String.le_total a b with h | h <;> simp [h]

theorem sortParents_sortParents (doc : Document) : doc.sortParents.sortParents = doc.sortParents := by
  unfold sortParents
  refine congrArg (fun t => { doc with definitions := t }) (Table.ext ?_)
  show (doc.definitions.entries.map _).map _ = doc.definitions.entries.map _
  rw [List.map_map]
  refine List.map_congr_left fun ⟨n, d⟩ _ => ?_
  cases d with
  | simple s => rfl
  | composed c =>
    simp only [Function.comp_apply, sortNames_sortNames]

/-! ## Compositions of the same parents -/

/-- Two definitions that are compositions of the same parents and nothing else, which
`collapseDuplicates` merges. -/
structure Doubled (doc : Document) (n m : String) : Prop where
  ne : n ≠ m
  own : doc.ownOf n = none ∧ doc.ownOf m = none
  inherits : ∃ a, doc.Inherits n a
  same : ∀ a, doc.Inherits n a ↔ doc.Inherits m a

theorem duplicates_isEmpty_iff (h : doc.WellFormed) :
    doc.duplicates.isEmpty = true ↔ ∀ n m, ¬ doc.Doubled n m := by
  constructor
  · rintro hempty n m ⟨hne, ⟨hn, hm⟩, ⟨a, ha⟩, hsame⟩
    have hnm : doc.SameParents n m := ⟨⟨⟨hn, a, ha⟩, ⟨hm, a, (hsame a).1 ha⟩⟩, hsame⟩
    exact hne (eq_of_alike hempty hnm.alike)
  · intro hnone
    refine Table.isEmpty_iff.2 fun n => Option.eq_none_iff_forall_ne_some.2 fun t ht => ?_
    obtain ⟨hne, hfirst⟩ := find?_duplicates_iff.1 ht
    have hnt := h.free.sameParents.1 hfirst.mem
    exact hnone n t ⟨hne, ⟨hnt.bare.1.own, hnt.bare.2.own⟩, hnt.bare.1.inherits, hnt.same⟩

/-! ## The default passes -/

/-- What `defaultPasses` leave behind: a well-formed document in which every composition adds
something, everything is live and parents are sorted. -/
structure Finished (doc : Document) : Prop where
  wellFormed : doc.WellFormed
  allAdd : doc.AllAdd
  allLive : doc.AllLive
  sorted : doc.sortParents = doc

theorem runAll_defaultPasses (asked : Option Security) (doc : Document) :
    Pass.runAll asked Pass.defaultPasses doc =
      doc.removeUnused.collapseDuplicates.replaceEmpty.removeUnused.sortParents :=
  rfl

theorem finished_defaultPasses (h : doc.WellFormed) (asked : Option Security) :
    (Pass.runAll asked Pass.defaultPasses doc).Finished := by
  have hcollapsed := (collapseDuplicates_carries (removeUnused_wellFormed h)).1
  refine ⟨runAll_wellFormed h asked _, ?_, ?_, ?_⟩
  · exact (allAdd_replaceEmpty hcollapsed).removeUnused.sortParents
  · exact (allLive_removeUnused _).sortParents
  · exact sortParents_sortParents _

/-- In a document that is `Finished` the `defaultPasses` have nothing to do but to merge what is
`Doubled`. -/
theorem Finished.again (h : doc.Finished) (asked : Option Security) :
    Pass.runAll asked Pass.defaultPasses doc = doc ↔ ∀ n m, ¬ doc.Doubled n m := by
  rw [← duplicates_isEmpty_iff h.wellFormed, runAll_defaultPasses, h.allLive.removeUnused]
  constructor
  · intro heq
    refine Table.isEmpty_iff.2 fun n => Option.eq_none_iff_forall_ne_some.2 fun t ht => ?_
    have hn := duplicates_defined doc n t ht
    rw [← heq, contains_sortParents, contains_removeUnused] at hn
    exact (rounds_substituteAll duplicates_defined doc).not_contains
      (isEmpty_substituteAll duplicates_defined doc) ht
      ((rounds_substituteAll emptyCompositions_defined _).contains hn.2)
  · intro hempty
    have hcollapse : doc.collapseDuplicates = doc := substituteAll_of_isEmpty hempty
    rw [hcollapse, h.allAdd.replaceEmpty h.wellFormed.acyclic, h.allLive.removeUnused, h.sorted]

/-- On what the default passes have made, each of them but `collapseDuplicates` changes nothing, and
a second run changes something if and only if two compositions have come to have the same parents
and nothing else. -/
theorem defaultPasses_again (hclosed : doc.dangling? = none) (hacyclic : doc.Acyclic)
    (hnul : ∀ n ∈ doc.definitions.names, Char.ofNat 0 ∉ n.toList) (asked : Option Security) :
    ∃ once, Pass.runAll asked Pass.defaultPasses doc = once ∧ once.removeUnused = once ∧
      once.replaceEmpty = once ∧ once.sortParents = once ∧
      (Pass.runAll asked Pass.defaultPasses once = once ↔ ∀ n m, ¬ once.Doubled n m) := by
  have h := finished_defaultPasses ⟨dangling?_eq_none_iff.1 hclosed, hacyclic, hnul⟩ asked
  exact ⟨_, rfl, h.allLive.removeUnused, h.allAdd.replaceEmpty h.wellFormed.acyclic, h.sorted,
    h.again asked⟩

/-! ## Further runs -/

theorem size_removeUnused_le (doc : Document) : doc.removeUnused.size ≤ doc.size :=
  List.length_filter_le _ _

theorem size_sortParents (doc : Document) : doc.sortParents.size = doc.size :=
  List.length_map _

/-- After `collapseDuplicates` no default pass adds a definition. -/
theorem size_defaultPasses_le (doc : Document) (asked : Option Security) :
    (Pass.runAll asked Pass.defaultPasses doc).size ≤ doc.removeUnused.collapseDuplicates.size := by
  rw [runAll_defaultPasses, size_sortParents]
  exact (size_removeUnused_le _).trans (size_substituteAll_le emptyCompositions_defined _)

/-- A further run of `defaultPasses` that changes something in a `Finished` document takes out a
definition. -/
theorem Finished.size_lt (h : doc.Finished) (asked : Option Security)
    (hne : Pass.runAll asked Pass.defaultPasses doc ≠ doc) :
    (Pass.runAll asked Pass.defaultPasses doc).size < doc.size := by
  have hchosen : doc.duplicates.isEmpty = false := by
    rw [Bool.eq_false_iff]
    exact fun hempty => hne ((h.again asked).2 ((duplicates_isEmpty_iff h.wellFormed).1 hempty))
  refine (size_defaultPasses_le doc asked).trans_lt ?_
  rw [h.allLive.removeUnused]
  exact size_substituteAll_lt duplicates_defined hchosen

theorem Finished.settles (asked : Option Security) : ∀ (runs : Nat) {doc : Document},
    doc.Finished → doc.size ≤ runs →
    Pass.runAll asked Pass.defaultPasses ((Pass.runAll asked Pass.defaultPasses)^[runs] doc) =
      (Pass.runAll asked Pass.defaultPasses)^[runs] doc
  | 0, doc, h, hsize => by
    by_contra hne
    exact absurd (h.size_lt asked hne) (by omega)
  | runs + 1, doc, h, hsize => by
    rw [Function.iterate_succ_apply]
    by_cases hsame : Pass.runAll asked Pass.defaultPasses doc = doc
    · rw [hsame, Function.iterate_fixed hsame runs, hsame]
    · have hlt := h.size_lt asked hsame
      exact Finished.settles asked runs (finished_defaultPasses h.wellFormed asked) (by omega)

/-- The `defaultPasses` come to rest after one run more than there are definitions. -/
theorem defaultPasses_settle (h : doc.WellFormed) (asked : Option Security) :
    Pass.runAll asked Pass.defaultPasses
        ((Pass.runAll asked Pass.defaultPasses)^[doc.size + 1] doc) =
      (Pass.runAll asked Pass.defaultPasses)^[doc.size + 1] doc := by
  have honce := (size_defaultPasses_le doc asked).trans
    ((size_substituteAll_le duplicates_defined _).trans (size_removeUnused_le doc))
  rw [Function.iterate_succ_apply]
  exact Finished.settles asked doc.size (finished_defaultPasses h asked) honce

/-! ## Work for a second run -/

/-- A document is `Acyclic` if all parents come before their heirs in the order of names. -/
theorem acyclic_of_lt (h : ∀ e ∈ doc.definitions.entries, ∀ p ∈ e.2.parents, p < e.1) :
    doc.Acyclic := by
  have hstep : ∀ a b, doc.Inherits a b → b < a := by
    intro a b hab
    obtain ⟨d, hd, hb⟩ := inherits_iff.1 hab
    exact h _ (Table.mem_entries_iff.2 hd) b hb
  intro n hn
  have hlt : n < n := by
    refine TransGen.head_induction_on (motive := fun a _ => n < a) hn (hstep _ _) ?_
    exact fun hab _ ih => String.lt_trans ih (hstep _ _ hab)
  exact String.lt_irrefl n hlt

/-- `Renamed` adds nothing to `Base`. Once `Base` stands for it, `Second` has the parents of
`First`. -/
def remerged : Document where
  paths := Table.ofList
    [("/first", { get := some (.answering (.referenceTo "First")) }),
      ("/second", { get := some (.answering (.referenceTo "Second")) })]
  definitions := Table.ofList
    [("Base", .simple (.object [("a", .ofType .string)])),
      ("Extra", .simple (.object [("b", .ofType .string)])),
      ("First", .composed { parents := ["Base", "Extra"] }),
      ("Renamed", .composed { parents := ["Base"] }),
      ("Second", .composed { parents := ["Renamed", "Extra"] })]

theorem remerged_dangling? : remerged.dangling? = none :=
  Option.isNone_iff_eq_none.1 (by decide)

theorem remerged_acyclic : remerged.Acyclic := acyclic_of_lt (by decide)

theorem remerged_nulFree : ∀ n ∈ remerged.definitions.names, Char.ofNat 0 ∉ n.toList := by decide

theorem remerged_doubled :
    (Pass.runAll none Pass.defaultPasses remerged).Doubled "First" "Second" := by
  rw [runAll_defaultPasses]
  have hown : ∀ n ∈ ["First", "Second"],
      remerged.removeUnused.collapseDuplicates.replaceEmpty.removeUnused.ownOf n = none := by
    decide +kernel
  have hparents : ∀ n ∈ ["First", "Second"],
      remerged.removeUnused.collapseDuplicates.replaceEmpty.removeUnused.parentsOf n =
        ["Base", "Extra"] := by
    decide +kernel
  refine ⟨by decide, ⟨?_, ?_⟩, ⟨"Base", ?_⟩, fun a => ?_⟩
  · rw [ownOf_sortParents]
    exact hown _ (by decide)
  · rw [ownOf_sortParents]
    exact hown _ (by decide)
  · rw [inherits_sortParents, Inherits, hparents _ (by decide)]
    decide
  · rw [inherits_sortParents, inherits_sortParents, Inherits, Inherits, hparents _ (by decide),
      hparents _ (by decide)]

/-- The second run of the default passes merges `Second` into `First`. -/
theorem remerged_changes :
    remerged.dangling? = none ∧ remerged.Acyclic ∧
      (∀ n ∈ remerged.definitions.names, Char.ofNat 0 ∉ n.toList) ∧
      Pass.runAll none Pass.defaultPasses (Pass.runAll none Pass.defaultPasses remerged) ≠
        Pass.runAll none Pass.defaultPasses remerged := by
  refine ⟨remerged_dangling?, remerged_acyclic, remerged_nulFree, fun h => ?_⟩
  have hfinished := finished_defaultPasses
    ⟨dangling?_eq_none_iff.1 remerged_dangling?, remerged_acyclic, remerged_nulFree⟩ none
  exact (hfinished.again none).1 h "First" "Second" remerged_doubled

theorem remerged_again : remerged.dangling? = none ∧ remerged.Acyclic ∧
    (∀ n ∈ remerged.definitions.names, Char.ofNat 0 ∉ n.toList) ∧
    ∃ once, Pass.runAll none Pass.defaultPasses remerged = once ∧ once.removeUnused = once ∧
      once.replaceEmpty = once ∧ once.sortParents = once ∧
      (Pass.runAll none Pass.defaultPasses once = once ↔ ∀ n m, ¬ once.Doubled n m) :=
  ⟨remerged_dangling?, remerged_acyclic, remerged_nulFree,
    defaultPasses_again remerged_dangling? remerged_acyclic remerged_nulFree none⟩

end RestSpec.Document
