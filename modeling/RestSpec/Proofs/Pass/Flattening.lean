/-
Flattening one definition after the other, on any document. Each step leaves what every definition
amounts to as it is, also where parents are missing or go round in circles, and a definition that
has one parent at most stays so. In the end no definition has more.
-/
import RestSpec.Proofs.Pass.Pipeline

namespace RestSpec.Document

variable {doc doc' doc'' : Document} {n : String}

/-- The definition, if it is a composition, has one parent at most. -/
def Lone (doc : Document) (n : String) : Prop :=
  ∀ c, doc.definitions.find? n = some (.composed c) → c.parents.length ≤ 1

/-- What `flattenAt` keeps: all but compositions, the names, what each definition amounts to, and
what is `Lone` already. -/
structure Keeps (doc doc' : Document) : Prop where
  rest : doc' = { doc with definitions := doc'.definitions }
  contains : ∀ n, doc'.definitions.contains n = true ↔ doc.definitions.contains n = true
  simple : ∀ n s, doc'.definitions.find? n = some (.simple s) ↔
    doc.definitions.find? n = some (.simple s)
  lone : ∀ n, doc.Lone n → doc'.definitions.find? n = doc.definitions.find? n
  names : ∀ n k, doc'.Amounts Schema.propertyNames n k ↔ doc.Amounts Schema.propertyNames n k
  required : ∀ n k, doc'.Amounts (·.required) n k ↔ doc.Amounts (·.required) n k
  closed : doc.Closed → doc'.Closed

theorem Keeps.refl (doc : Document) : doc.Keeps doc :=
  ⟨rfl, fun _ => Iff.rfl, fun _ _ => Iff.rfl, fun _ _ => rfl, fun _ _ => Iff.rfl,
    fun _ _ => Iff.rfl, id⟩

/-- `Keeps` leaves a definition that is `Lone` as it is, and so it stays one. -/
theorem Keeps.lone_after (h : doc.Keeps doc') (hn : doc.Lone n) : doc'.Lone n := by
  unfold Lone
  rw [h.lone n hn]
  exact hn

theorem Keeps.trans (h : doc.Keeps doc') (h' : doc'.Keeps doc'') : doc.Keeps doc'' where
  rest := by rw [h'.rest, h.rest]
  contains n := (h'.contains n).trans (h.contains n)
  simple n s := (h'.simple n s).trans (h.simple n s)
  lone n hn := (h'.lone n (h.lone_after hn)).trans (h.lone n hn)
  names n k := (h'.names n k).trans (h.names n k)
  required n k := (h'.required n k).trans (h.required n k)
  closed := h'.closed ∘ h.closed

/-- `flattenAt` `Keeps` the document, and makes the definition `Lone`. -/
theorem keeps_flattenAt (doc : Document) (name : String) :
    doc.Keeps (doc.flattenAt name) ∧ (doc.flattenAt name).Lone name := by
  rcases flattenAt_cases doc name with ⟨hlone, hsame⟩ | ⟨c, c', first, others, hd, hlen, hf, hnew⟩
  · rw [hsame]
    exact ⟨.refl doc, hlone⟩
  · rw [hnew]
    refine ⟨⟨rfl, fun n => contains_withComposition hd, fun n s => ?_, fun n hn => ?_,
      fun n k => amounts_withComposition hd hf hf.names,
      fun n k => amounts_withComposition hd hf hf.required, closed_withComposition hd hf⟩,
      fun d hfind => ?_⟩
    · rw [find?_withComposition]
      split
      · rename_i h
        subst h
        simp [hd]
      · rfl
    · rw [find?_withComposition, if_neg]
      rintro rfl
      exact absurd (hn c hd) (Nat.not_le.2 hlen)
    · rw [find?_withComposition, if_pos rfl] at hfind
      cases hfind
      rw [hf.after]
      exact le_rfl

theorem keeps_foldl_flattenAt : ∀ (names : List String) (doc : Document),
    doc.Keeps (names.foldl flattenAt doc) ∧ ∀ n ∈ names, (names.foldl flattenAt doc).Lone n
  | [], doc => ⟨.refl doc, fun n hn => nomatch hn⟩
  | name :: names, doc => by
    obtain ⟨hstep, hname⟩ := keeps_flattenAt doc name
    obtain ⟨hrest, hnames⟩ := keeps_foldl_flattenAt names (doc.flattenAt name)
    refine ⟨hstep.trans hrest, fun n hn => ?_⟩
    rcases List.mem_cons.1 hn with rfl | hn
    · exact hrest.lone_after hname
    · exact hnames n hn

/-- `singleParent` on every document. It leaves each composition with one parent at most, and each
definition with the effective property names and the effective required names that it had, by
`Amounts`. It changes nothing but compositions, and no reference loses its definition. -/
theorem singleParent_keeps (doc : Document) :
    (∀ n c, doc.singleParent.definitions.find? n = some (.composed c) → c.parents.length ≤ 1) ∧
    (∀ n k, doc.singleParent.Amounts Schema.propertyNames n k ↔
      doc.Amounts Schema.propertyNames n k) ∧
    (∀ n k, doc.singleParent.Amounts (·.required) n k ↔ doc.Amounts (·.required) n k) ∧
    doc.singleParent = { doc with definitions := doc.singleParent.definitions } ∧
    (∀ n s, doc.singleParent.definitions.find? n = some (.simple s) ↔
      doc.definitions.find? n = some (.simple s)) ∧
    (doc.dangling? = none → doc.singleParent.dangling? = none) := by
  obtain ⟨hkeeps, hlone⟩ := keeps_foldl_flattenAt doc.definitions.names doc
  refine ⟨fun n c hd => hlone n ?_ c hd, hkeeps.names, hkeeps.required, hkeeps.rest, hkeeps.simple,
    fun h => dangling?_eq_none_iff.2 (hkeeps.closed (dangling?_eq_none_iff.1 h))⟩
  exact Table.mem_names_iff.2 ((hkeeps.contains n).1 (Table.contains_of_find? hd))

/-- `First` and `Second` are parents of one another; `Second` is the parent of `First` that is cut
off, and `Other` is reached from `First` over it alone. -/
def entwined : Document where
  paths := Table.ofList [("/first", { get := some (.answering (.referenceTo "First")) })]
  definitions := Table.ofList
    [("Base", .simple (.object [("a", .ofType .string)])),
      ("First", .composed { parents := ["Base", "Second"] }),
      ("Other", .simple { Schema.object [("b", .ofType .string)] with required := ["b"] }),
      ("Second", .composed { parents := ["First", "Other"] })]

theorem entwined_dangling? : entwined.dangling? = none :=
  Option.isNone_iff_eq_none.1 (by decide)

/-- `First` keeps what it has from `Other`. -/
theorem entwined_keeps :
    entwined.dangling? = none ∧ entwined.singleParent.dangling? = none ∧
      entwined.singleParent.Amounts Schema.propertyNames "First" "b" ∧
      entwined.singleParent.Amounts (·.required) "First" "b" := by
  obtain ⟨-, hnames, hrequired, -, -, hclosed⟩ := singleParent_keeps entwined
  have hway : Relation.ReflTransGen entwined.Inherits "First" "Other" :=
    .head (b := "Second") (by decide) (.single (by decide))
  refine ⟨entwined_dangling?, hclosed entwined_dangling?,
    (hnames _ _).2 ⟨"Other", _, hway, rfl, ?_⟩, (hrequired _ _).2 ⟨"Other", _, hway, rfl, ?_⟩⟩
  · exact List.mem_singleton_self "b"
  · exact List.mem_singleton_self "b"

end RestSpec.Document
