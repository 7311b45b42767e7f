/-
Passes that rewrite definitions preserve what operations reach. Up to the first `singleParent` every
reference of an effective property counts. Flattening then keeps of the properties of one name that
stand on different ways up what a definition states, what its first parent keeps and one more, so
from there on only the references of these count; `shadowed` and `contested` are documents in which
others are lost. No pass gives a flattened document a second parent, so nothing more is lost later.
-/
import Mathlib.Data.List.TakeWhile
import RestSpec.Proofs.Pass.Flattening

namespace RestSpec.Document

variable {doc : Document}

/-! ## Flattened documents -/

/-- No definition has more than one parent: each is `Lone`. -/
def Flat (doc : Document) : Prop := ∀ n, doc.Lone n

theorem flat_iff : doc.Flat ↔ ∀ n, (doc.parentsOf n).length ≤ 1 := by
  refine forall_congr' fun n => ?_
  unfold Lone parentsOf
  cases hd : doc.definitions.find? n with
  | none => simp
  | some d =>
    cases d with
    | simple s => simp [Definition.parents]
    | composed c => simp [Definition.parents]

theorem flat_singleParent (doc : Document) : doc.singleParent.Flat := by
  intro n c hd
  obtain ⟨hkeeps, hlone⟩ := keeps_foldl_flattenAt doc.definitions.names doc
  exact hlone n (Table.mem_names_iff.2 ((hkeeps.contains n).1 (Table.contains_of_find? hd))) c hd

/-- `singleParent` leaves a document that is `Flat` as it is. -/
theorem Flat.singleParent_eq (h : doc.Flat) : doc.singleParent = doc := by
  unfold singleParent
  generalize doc.definitions.names = names
  induction names with
  | nil => rfl
  | cons name names ih =>
    rw [List.foldl_cons]
    rcases flattenAt_cases doc name with ⟨-, hsame⟩ | ⟨c, -, -, -, hd, hlen, -, -⟩
    · rw [hsame]
      exact ih
    · exact absurd (h name c hd) (Nat.not_le.2 hlen)

theorem Flat.substitute (h : doc.Flat) {r : Renaming} (hne : r.isEmpty = false) :
    (doc.substitute r).Flat := by
  rw [flat_iff] at h ⊢
  intro n
  cases hn : r.find? n with
  | none =>
    have hparents := h n
    rw [parentsOf_substitute hne hn]
    revert hparents
    rcases doc.parentsOf n with _ | ⟨a, _ | ⟨b, rest⟩⟩
    · exact fun _ => Nat.zero_le 1
    · exact fun _ => le_refl 1
    · exact fun hparents => absurd hparents (by simp)
  | some t =>
    have hc : r.contains n = true := by rw [Table.contains, hn]; rfl
    unfold parentsOf
    rw [find?_substitute hne, if_pos hc]
    exact Nat.zero_le 1

theorem Flat.substituteAll (h : doc.Flat) (choose : Document → Renaming) :
    (doc.substituteAll choose).Flat := by
  unfold Document.substituteAll
  generalize doc.definitions.entries.length = rounds
  induction rounds generalizing doc with
  | zero => exact h
  | succ rounds ih =>
    unfold substituteRepeatedly
    dsimp only
    split
    · exact h
    · rename_i hne
      exact ih (h.substitute (Bool.eq_false_iff.2 hne))

theorem Flat.removeUnused (h : doc.Flat) : doc.removeUnused.Flat := by
  intro n c hd
  rw [find?_removeUnused] at hd
  split at hd
  · exact h n c hd
  · cases hd

theorem Flat.sortParents (h : doc.Flat) : doc.sortParents.Flat := by
  rw [flat_iff] at h ⊢
  intro n
  have hn := h n
  unfold parentsOf Document.sortParents at *
  rw [Table.find?_mapValues]
  cases hd : doc.definitions.find? n with
  | none => exact Nat.zero_le 1
  | some d =>
    rw [hd] at hn
    cases d with
    | simple s => exact hn
    | composed c => exact (List.length_mergeSort c.parents).trans_le hn

theorem Flat.run (h : doc.Flat) (asked : Option Security) {pass : Pass}
    (hpass : pass ≠ .wrapPayload ∧ pass ≠ .security) : (Pass.run asked doc pass).Flat := by
  cases pass with
  | removeUnused => exact h.removeUnused
  | collapseDuplicates => exact h.substituteAll duplicates
  | singleParent => exact flat_singleParent doc
  | replaceEmpty => exact h.substituteAll emptyCompositions
  | wrapPayload => exact absurd rfl hpass.1
  | sortModels => exact h.sortParents
  | security => exact absurd rfl hpass.2

/-! ## Passes -/

/-- A pass `Carries` every reference that is `Mentioned`, unless it is `singleParent` on a document
that is not `Flat` yet. -/
theorem run_carries (h : doc.WellFormed) (asked : Option Security) {pass : Pass}
    (hpass : pass ≠ .wrapPayload ∧ pass ≠ .security) (hflat : pass = .singleParent → doc.Flat) :
    ∃ r, Carries doc.Mentioned (Pass.run asked doc pass).Mentioned doc (Pass.run asked doc pass) r := by
  cases pass with
  | removeUnused => exact ⟨_, removeUnused_carries h⟩
  | collapseDuplicates => exact (collapseDuplicates_carries h).2
  | singleParent =>
    have hsame : Pass.run asked doc .singleParent = doc := (hflat rfl).singleParent_eq
    rw [hsame]
    exact ⟨_, Carries.refl h.closed⟩
  | replaceEmpty => exact (replaceEmpty_carries h).2
  | wrapPayload => exact absurd rfl hpass.1
  | sortModels => exact ⟨_, sortParents_carries h⟩
  | security => exact absurd rfl hpass.2

theorem runAll_carries (h : doc.WellFormed) (asked : Option Security) {passes : List Pass}
    (hpasses : ∀ p ∈ passes, p ≠ .wrapPayload ∧ p ≠ .security)
    (hflat : .singleParent ∈ passes → doc.Flat) :
    ∃ r, Carries doc.Mentioned (Pass.runAll asked passes doc).Mentioned doc
      (Pass.runAll asked passes doc) r := by
  unfold Pass.runAll
  induction passes generalizing doc with
  | nil => exact ⟨∅, Carries.refl h.closed⟩
  | cons pass passes ih =>
    have hpass := hpasses pass List.mem_cons_self
    obtain ⟨r, hr⟩ := run_carries h asked hpass fun hsingle => hflat (hsingle ▸ List.mem_cons_self)
    obtain ⟨r', hr'⟩ := ih (run_wellFormed h asked pass)
      (fun p hp => hpasses p (List.mem_cons_of_mem _ hp))
      fun hsingle => (hflat (List.mem_cons_of_mem _ hsingle)).run asked hpass
    exact ⟨_, hr.trans hr'⟩

/-! ## Lists of passes -/

/-- The document that the first `singleParent` of the passes is given; without one, the document that
they make. -/
def beforeFlattening (asked : Option Security) (passes : List Pass) (doc : Document) : Document :=
  Pass.runAll asked (passes.takeWhile (· != .singleParent)) doc

/-- A list of passes, split at the first `singleParent`. -/
theorem exists_flattening {passes : List Pass} (h : .singleParent ∈ passes) :
    ∃ after, passes = passes.takeWhile (· != .singleParent) ++ .singleParent :: after := by
  induction passes with
  | nil => cases h
  | cons pass passes ih =>
    by_cases hpass : pass = .singleParent
    · subst hpass
      exact ⟨passes, by simp⟩
    · obtain ⟨after, hafter⟩ := ih (List.mem_of_ne_of_mem (Ne.symm hpass) h)
      refine ⟨after, ?_⟩
      rw [List.takeWhile_cons_of_pos (by simpa using hpass), List.cons_append, ← hafter]

/-- The references that count for a list of passes: those of effective properties, and with
`singleParent` in the list of these the ones that are `Kept` in the document that it is given, where
a definition goes by the name that `first` says. -/
def Counts (passes : List Pass) (doc given : Document) (first : Renaming)
    (taken : String → String → Schema) (n k m : String) : Prop :=
  doc.Mentioned n k m ∧
    (.singleParent ∈ passes → given.Kept taken (first.apply n) k (first.apply m))

theorem beforeFlattening_of_not_mem (asked : Option Security) {passes : List Pass}
    (h : .singleParent ∉ passes) : doc.beforeFlattening asked passes = Pass.runAll asked passes doc := by
  unfold beforeFlattening
  rw [List.takeWhile_eq_self_iff.2 fun p hp => by simpa using ne_of_mem_of_not_mem hp h]

/-- The passes up to the first `singleParent` carry every reference. -/
theorem beforeFlattening_carries (h : doc.WellFormed) (asked : Option Security) {passes : List Pass}
    (hpasses : ∀ p ∈ passes, p ≠ .wrapPayload ∧ p ≠ .security) :
    ∃ first, Carries doc.Mentioned (doc.beforeFlattening asked passes).Mentioned doc
      (doc.beforeFlattening asked passes) first :=
  runAll_carries h asked (fun p hp => hpasses p ((List.takeWhile_prefix _).subset hp))
    fun hsingle => absurd (List.mem_takeWhile_imp hsingle) (by decide)

/-- From the first `singleParent` on the passes carry what is kept. -/
theorem flattening_carries (h : doc.WellFormed) (asked : Option Security) {passes : List Pass}
    (hpasses : ∀ p ∈ passes, p ≠ .wrapPayload ∧ p ≠ .security) (hsingle : .singleParent ∈ passes) :
    ∃ taken, (doc.beforeFlattening asked passes).TakenOver taken ∧
      ∃ r, Carries ((doc.beforeFlattening asked passes).Kept taken)
        (Pass.runAll asked passes doc).Mentioned (doc.beforeFlattening asked passes)
        (Pass.runAll asked passes doc) r := by
  obtain ⟨after, hafter⟩ := exists_flattening hsingle
  have hgiven : (doc.beforeFlattening asked passes).WellFormed := runAll_wellFormed h asked _
  obtain ⟨taken, htaken, r, hr⟩ := singleParent_carries hgiven
  have hrun : Pass.runAll asked passes doc =
      Pass.runAll asked after (doc.beforeFlattening asked passes).singleParent := by
    conv_lhs => rw [hafter]
    unfold Pass.runAll
    rw [List.foldl_append, List.foldl_cons]
    rfl
  have hrest : ∀ p ∈ after, p ≠ .wrapPayload ∧ p ≠ .security := fun p hp =>
    hpasses p (hafter ▸ List.mem_append_right _ (List.mem_cons_of_mem _ hp))
  obtain ⟨r', hr'⟩ := runAll_carries (singleParent_wellFormed hgiven) asked hrest
    fun _ => flat_singleParent _
  rw [hrun]
  exact ⟨taken, htaken, _, hr.trans hr'⟩

/-- Rewriting definitions preserves what operations reach. The passes before the first
`singleParent` preserve it by all references of effective properties; all passes together by those
that count for them, to which belong at least all that are `Shared`. -/
theorem runAll_preserves (hclosed : doc.dangling? = none) (hacyclic : doc.Acyclic)
    (hnul : ∀ n ∈ doc.definitions.names, Char.ofNat 0 ∉ n.toList) (asked : Option Security)
    {passes : List Pass} (hpasses : ∀ p ∈ passes, p ≠ .wrapPayload ∧ p ≠ .security) :
    ∃ first taken r,
      Preserves doc.Mentioned doc (doc.beforeFlattening asked passes) first ∧
      (doc.beforeFlattening asked passes).TakenOver taken ∧
      Preserves (doc.Counts passes (doc.beforeFlattening asked passes) first taken) doc
        (Pass.runAll asked passes doc) r ∧
      ∀ n, (Pass.runAll asked passes doc).definitions.contains (r.apply n) = true →
        SameProperties doc (Pass.runAll asked passes doc) r n ∧ ∀ k m, doc.Shared n k m →
          doc.Counts passes (doc.beforeFlattening asked passes) first taken n k m := by
  have h : doc.WellFormed := ⟨dangling?_eq_none_iff.1 hclosed, hacyclic, hnul⟩
  obtain ⟨first, hfirst⟩ := beforeFlattening_carries h asked hpasses
  by_cases hsingle : .singleParent ∈ passes
  · obtain ⟨taken, htaken, r, hr⟩ := flattening_carries h asked hpasses hsingle
    have hall : Carries (doc.Counts passes (doc.beforeFlattening asked passes) first taken)
        (Pass.runAll asked passes doc).Mentioned doc (Pass.runAll asked passes doc)
        (first.andThen r) :=
      (hfirst.narrow (fun _ _ _ hcounts => hcounts.1) fun _ _ _ hcounts => hcounts.2 hsingle).trans hr
    refine ⟨first, taken, _, hfirst.preserves, htaken, hall.preserves, fun n hn => ?_⟩
    refine ⟨hall.properties n hn, fun k m hshared => ⟨hshared.mentioned, fun _ => ?_⟩⟩
    rw [Renaming.apply_andThen] at hn
    exact (hfirst.shared n (hr.comes _ hn) k m hshared).kept htaken
      ((runAll_wellFormed h asked _).acyclic.founded _)
  · obtain ⟨taken, htaken⟩ := exists_takenOver (doc.beforeFlattening asked passes)
    rw [beforeFlattening_of_not_mem asked hsingle] at hfirst htaken ⊢
    refine ⟨first, taken, first, hfirst.preserves, htaken, ⟨hfirst.operations, fun n hn => ?_⟩,
      fun n hn => ⟨hfirst.properties n hn, fun k m hshared => ?_⟩⟩
    · exact hfirst.preserves.reached n (hn.mono fun _ _ _ hcounts => hcounts.1)
    · exact ⟨hshared.mentioned, fun hmem => absurd hmem hsingle⟩

/-! ## Properties that are lost -/

/-- `Node` has a property `item` of its own, which refers to `Part`, and inherits another one, which
refers to `Item`. -/
def shadowed : Document where
  paths := Table.ofList [("/node", { get := some (.answering (.referenceTo "Node")) })]
  definitions := Table.ofList
    [("Base", .simple (.object [])),
      ("Extra", .simple (.object [("item", .referenceTo "Item")])),
      ("Item", .simple (.object [("size", .ofType .string)])),
      ("Node", .composed
        { parents := ["Base", "Extra"], child := some (.object [("item", .referenceTo "Part")]) }),
      ("Part", .simple (.object [("weight", .ofType .string)]))]

theorem shadowed_dangling? : shadowed.dangling? = none :=
  Option.isNone_iff_eq_none.1 (by decide)

theorem shadowed_acyclic : shadowed.Acyclic := acyclic_of_shallow (by decide)

theorem shadowed_nulFree : ∀ n ∈ shadowed.definitions.names, Char.ofNat 0 ∉ n.toList := by decide

/-- A reference in all properties of a name that the definition states itself is `Shared`. -/
theorem shared_of_own {n k m : String} {s p : Schema} (hs : doc.ownOf n = some s)
    (hk : (k, p) ∈ s.properties) (hall : ∀ q, (k, q) ∈ s.properties → m ∈ q.references) :
    doc.Shared n k m := by
  refine ⟨⟨p, .own hs hk⟩, fun q hq => ?_⟩
  cases hq with
  | own hs' hq =>
    obtain rfl := Option.some.inj (hs.symm.trans hs')
    exact hall q hq
  | inherited hnot _ _ => exact absurd ⟨s, p, hs, hk⟩ hnot

/-- `Part` stays, by whatever name. -/
theorem shadowed_preserves :
    shadowed.dangling? = none ∧ shadowed.Acyclic ∧
      (∀ n ∈ shadowed.definitions.names, Char.ofNat 0 ∉ n.toList) ∧
      (∀ p ∈ [Pass.singleParent, .removeUnused], p ≠ .wrapPayload ∧ p ≠ .security) ∧
      ∃ r, ∀ n ∈ ["Node", "Part"],
        (Pass.runAll none [.singleParent, .removeUnused] shadowed).definitions.contains
            (r.apply n) = true ∧
          SameProperties shadowed (Pass.runAll none [.singleParent, .removeUnused] shadowed) r n := by
  have hpasses : ∀ p ∈ [Pass.singleParent, .removeUnused], p ≠ .wrapPayload ∧ p ≠ .security := by
    decide
  obtain ⟨first, taken, r, -, -, hr, hleft⟩ :=
    runAll_preserves shadowed_dangling? shadowed_acyclic shadowed_nulFree none hpasses
  refine ⟨shadowed_dangling?, shadowed_acyclic, shadowed_nulFree, hpasses, r, ?_⟩
  have hnode : Reached (shadowed.Counts [.singleParent, .removeUnused]
      (shadowed.beforeFlattening none [.singleParent, .removeUnused]) first taken) shadowed "Node" :=
    .payload (by decide)
  have hshared : shadowed.Shared "Node" "item" "Part" :=
    shared_of_own (s := .object [("item", .referenceTo "Part")]) rfl List.mem_cons_self
      fun q hq => by
        obtain rfl : q = .referenceTo "Part" := by simpa [Schema.object] using hq
        decide
  have hpart := hnode.property ((hleft "Node" (hr.reached _ hnode).1).2 "item" "Part" hshared)
  simp only [List.forall_mem_cons, List.not_mem_nil, false_imp_iff, implies_true, and_true]
  exact ⟨hr.reached _ hnode, hr.reached _ hpart⟩

/-- `Node` inherits two properties `item` from the parents that are cut off. -/
def contested : Document where
  paths := Table.ofList [("/node", { get := some (.answering (.referenceTo "Node")) })]
  definitions := Table.ofList
    [("Base", .simple (.object [])),
      ("Item", .simple (.object [("size", .ofType .string)])),
      ("Left", .simple (.object [("item", .referenceTo "Item")])),
      ("Node", .composed { parents := ["Base", "Left", "Right"] }),
      ("Right", .simple (.object [("item", .ofType .string)]))]

/-- The schemas that definitions have of their own are neither references nor arrays: what
`assemble` makes. -/
def Plain (doc : Document) : Prop :=
  ∀ n s, doc.ownOf n = some s → s.reference = none ∧ s.items.isNone

theorem plain_of_entries (h : ∀ e ∈ doc.definitions.entries, ∀ s ∈ e.2.own,
    s.reference = none ∧ s.items.isNone) : doc.Plain := by
  intro n s hs
  obtain ⟨d, hd, hown⟩ := Option.bind_eq_some_iff.1 hs
  exact h _ (Table.mem_entries_iff.2 hd) s hown

/-- A document does not preserve another if a definition that was `Reached` there has an `Effective`
property which no definition has now. -/
theorem not_preserves {doc' : Document} {n k m : String} (hn : n ∈ doc.pathReferences)
    (hm : ∃ k, doc.Mentioned n k m) (hk : ∃ p, Effective doc m k p)
    (hgone : ∀ e ∈ doc'.definitions.entries, ∀ s ∈ e.2.own, k ∉ s.propertyNames) :
    ¬ ∃ r, Preserves doc.Mentioned doc doc' r := by
  rintro ⟨r, hr⟩
  obtain ⟨l, hl⟩ := hm
  obtain ⟨p', hp'⟩ := ((hr.reached m (.property (.payload hn) hl)).2.names k).2 hk
  obtain ⟨a, s, -, hs, hk'⟩ := hp'.source
  obtain ⟨d, hd, hown⟩ := Option.bind_eq_some_iff.1 hs
  exact hgone _ (Table.mem_entries_iff.2 hd) s hown (List.mem_map.2 ⟨_, hk', rfl⟩)

/-- `Item` is lost, be it that `Node` states another `item` or that it takes over another one. -/
theorem shadowed_not_preserved :
    (shadowed.dangling? = none ∧ shadowed.Acyclic ∧
      (∀ n ∈ shadowed.definitions.names, Char.ofNat 0 ∉ n.toList) ∧ shadowed.Plain ∧
      ¬ ∃ r, Preserves shadowed.Mentioned shadowed
        (Pass.runAll none [.singleParent, .removeUnused] shadowed) r) ∧
    contested.dangling? = none ∧ contested.Acyclic ∧
      (∀ n ∈ contested.definitions.names, Char.ofNat 0 ∉ n.toList) ∧ contested.Plain ∧
      ¬ ∃ r, Preserves contested.Mentioned contested
        (Pass.runAll none [.singleParent, .removeUnused] contested) r := by
  have hsize : ∀ {doc : Document}, doc.ownOf "Item" = some (.object [("size", .ofType .string)]) →
      ∃ p, Effective doc "Item" "size" p := fun hs => ⟨_, .own hs List.mem_cons_self⟩
  have hitem : ∀ {doc : Document} {a : String}, doc.Inherits "Node" a →
      doc.ownOf a = some (.object [("item", .referenceTo "Item")]) →
      ∃ k, doc.Mentioned "Node" k "Item" := fun ha hs =>
    ⟨"item", _, .inherited ha (.own hs List.mem_cons_self), by decide⟩
  refine ⟨⟨shadowed_dangling?, shadowed_acyclic, shadowed_nulFree, plain_of_entries (by decide), ?_⟩,
    Option.isNone_iff_eq_none.1 (by decide), acyclic_of_shallow (by decide), by decide,
    plain_of_entries (by decide), ?_⟩
  · exact not_preserves (n := "Node") (k := "size") (m := "Item") (by decide)
      (hitem (a := "Extra") (by decide) rfl) (hsize rfl) (by decide)
  · exact not_preserves (n := "Node") (k := "size") (m := "Item") (by decide)
      (hitem (a := "Left") (by decide) rfl) (hsize rfl) (by decide)

end RestSpec.Document
