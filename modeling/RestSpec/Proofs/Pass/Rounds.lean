/-
Passes in rounds, on any document. What a round chooses is defined and is taken out, so every round
leaves fewer definitions than it finds: the pass ends with a document in which there is nothing to
choose, and no definition that a round has taken out comes back.
-/
import RestSpec.Proofs.Pass.Substitution

namespace RestSpec.Document

open Relation (ReflTransGen)

variable {choose : Document → Renaming} {doc doc' : Document}

/-- The number of `definitions`. -/
def size (doc : Document) : Nat := doc.definitions.entries.length

/-- What is chosen in a document is the name of one of its `definitions`. -/
def ChoosesDefined (choose : Document → Renaming) : Prop :=
  ∀ (doc : Document) (n t : String), (choose doc).find? n = some t →
    doc.definitions.contains n = true

/-- One round of a pass: `choose` finds something, and it is substituted. -/
def Round (choose : Document → Renaming) (doc doc' : Document) : Prop :=
  (choose doc).isEmpty = false ∧ doc' = doc.substitute (choose doc)

/-- Any number of steps by `Round` lead from one document to the other. -/
def Rounds (choose : Document → Renaming) (doc doc' : Document) : Prop :=
  ReflTransGen (Round choose) doc doc'

theorem Rounds.refl (choose : Document → Renaming) (doc : Document) : Rounds choose doc doc :=
  ReflTransGen.refl

theorem Rounds.head {doc'' : Document} (h : Round choose doc doc') (h' : Rounds choose doc' doc'') :
    Rounds choose doc doc'' :=
  ReflTransGen.head h h'

/-- A document in which something is chosen is not the last one of its `Rounds`. -/
theorem Rounds.of_chosen (h : Rounds choose doc doc') (hne : (choose doc).isEmpty = false)
    (hend : (choose doc').isEmpty = true) : Rounds choose (doc.substitute (choose doc)) doc' := by
  rcases ReflTransGen.cases_head h with rfl | ⟨next, ⟨-, rfl⟩, hrest⟩
  · rw [hne] at hend
    cases hend
  · exact hrest

/-- All `Rounds` lead to the one document in which nothing is chosen. -/
theorem Rounds.to_end {last : Document} (h : Rounds choose doc doc')
    (hlast : Rounds choose doc last) (hend : (choose last).isEmpty = true) :
    Rounds choose doc' last := by
  induction h with
  | refl => exact hlast
  | tail _ hround ih =>
    obtain ⟨hne, rfl⟩ := hround
    exact ih.of_chosen hne hend

/-! ## The end of the rounds -/

theorem size_substitute_lt {r : Renaming} (hne : r.isEmpty = false)
    (hdefined : ∀ n t, r.find? n = some t → doc.definitions.contains n = true) :
    (doc.substitute r).size < doc.size := by
  obtain ⟨n, t, hn⟩ := Table.exists_of_isEmpty_eq_false hne
  obtain ⟨d, hd⟩ := Table.contains_iff.1 (hdefined n t hn)
  unfold size substitute rename without
  rw [hne]
  show ((doc.definitions.entries.filter _).map _).length < _
  rw [List.length_map, List.length_filter_lt_length_iff_exists]
  exact ⟨(n, d), Table.mem_entries_iff.2 hd, by
    simpa using Table.mem_names_iff.2 (Table.contains_of_find? hn)⟩

theorem Round.size_lt (hdefined : ChoosesDefined choose) (h : Round choose doc doc') :
    doc'.size < doc.size := by
  obtain ⟨hne, rfl⟩ := h
  exact size_substitute_lt hne (hdefined doc)

theorem Rounds.size_le (hdefined : ChoosesDefined choose) (h : Rounds choose doc doc') :
    doc'.size ≤ doc.size := by
  induction h with
  | refl => exact le_rfl
  | tail _ hround ih => exact (hround.size_lt hdefined).le.trans ih

theorem isEmpty_of_size_eq_zero (hdefined : ChoosesDefined choose) (h : doc.size = 0) :
    (choose doc).isEmpty = true := by
  refine Table.isEmpty_iff.2 fun n => Option.eq_none_iff_forall_ne_some.2 fun t ht => ?_
  obtain ⟨d, hd⟩ := Table.contains_iff.1 (hdefined doc n t ht)
  have hmem := Table.mem_entries_iff.2 hd
  rw [List.length_eq_zero_iff.1 h] at hmem
  cases hmem

/-- `substituteRepeatedly` with as many rounds as there are definitions comes to the end of its
`Rounds`. -/
theorem rounds_substituteRepeatedly (hdefined : ChoosesDefined choose) :
    ∀ (rounds : Nat) (doc : Document), doc.size ≤ rounds →
      Rounds choose doc (substituteRepeatedly choose rounds doc) ∧
        (choose (substituteRepeatedly choose rounds doc)).isEmpty = true
  | 0, doc, hle => ⟨.refl choose doc, isEmpty_of_size_eq_zero hdefined (Nat.le_zero.1 hle)⟩
  | rounds + 1, doc, hle => by
    unfold substituteRepeatedly
    dsimp only
    split
    · exact ⟨.refl choose doc, ‹_›⟩
    · rename_i hne
      have hround : Round choose doc (doc.substitute (choose doc)) := ⟨Bool.eq_false_iff.2 hne, rfl⟩
      have hlt := hround.size_lt hdefined
      obtain ⟨hrounds, hend⟩ :=
        rounds_substituteRepeatedly hdefined rounds (doc.substitute (choose doc)) (by omega)
      exact ⟨hrounds.head hround, hend⟩

/-- `substituteAll` goes on by `Rounds` until there is nothing to choose. -/
theorem rounds_substituteAll (hdefined : ChoosesDefined choose) (doc : Document) :
    Rounds choose doc (doc.substituteAll choose) :=
  (rounds_substituteRepeatedly hdefined _ doc le_rfl).1

theorem isEmpty_substituteAll (hdefined : ChoosesDefined choose) (doc : Document) :
    (choose (doc.substituteAll choose)).isEmpty = true :=
  (rounds_substituteRepeatedly hdefined _ doc le_rfl).2

theorem substituteAll_of_isEmpty (h : (choose doc).isEmpty = true) :
    doc.substituteAll choose = doc := by
  unfold substituteAll
  cases doc.definitions.entries.length with
  | zero => rfl
  | succ rounds =>
    unfold substituteRepeatedly
    exact if_pos h

theorem size_substituteAll_le (hdefined : ChoosesDefined choose) (doc : Document) :
    (doc.substituteAll choose).size ≤ doc.size :=
  (rounds_substituteAll hdefined doc).size_le hdefined

/-- `substituteAll` takes out a definition if there is something to choose. -/
theorem size_substituteAll_lt (hdefined : ChoosesDefined choose)
    (hne : (choose doc).isEmpty = false) : (doc.substituteAll choose).size < doc.size := by
  have hend := isEmpty_substituteAll hdefined doc
  have hrest := (rounds_substituteAll hdefined doc).of_chosen hne hend
  exact (hrest.size_le hdefined).trans_lt (size_substitute_lt hne (hdefined doc))

/-! ## What the rounds take out -/

theorem Rounds.contains (h : Rounds choose doc doc') {n : String}
    (hn : doc'.definitions.contains n = true) : doc.definitions.contains n = true := by
  induction h with
  | refl => exact hn
  | tail _ hround ih =>
    obtain ⟨hne, rfl⟩ := hround
    exact ih (find?_of_contains_substitute hne hn).2

/-- What is chosen in one of the `Rounds` is gone in the end. -/
theorem Rounds.not_contains (h : Rounds choose doc doc') (hend : (choose doc').isEmpty = true)
    {n t : String} (ht : (choose doc).find? n = some t) : doc'.definitions.contains n ≠ true := by
  intro hn
  have hne := Table.isEmpty_eq_false ht
  have hgone := find?_of_contains_substitute hne ((h.of_chosen hne hend).contains hn)
  exact nomatch ht.symm.trans hgone.1

end RestSpec.Document
