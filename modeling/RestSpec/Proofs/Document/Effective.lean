/-
What a definition amounts to. Its effective properties are its own and those of all its ancestors.
Of these, a property that a definition states hides what it inherits under the same name, so what is
visible of a name may be less. What is kept when compositions are brought down to one parent lies
between the two: what a definition states, what its first parent keeps, and of what its other
parents show under a name that it does not state one schema that is taken over.
-/
import Mathlib.Logic.Relation
import RestSpec.Pass.Inheritance
import RestSpec.Proofs.Document.References

namespace RestSpec.Document

open Relation (TransGen ReflTransGen)

/-! ## Parents -/

variable (doc : Document)

/-- The definition `a` names `b` as a parent. -/
def Inherits (a b : String) : Prop := b ∈ doc.parentsOf a

instance (a b : String) : Decidable (doc.Inherits a b) :=
  inferInstanceAs (Decidable (b ∈ doc.parentsOf a))

/-- No definition is its own ancestor by `Inherits`. -/
def Acyclic : Prop := ∀ n, ¬ TransGen doc.Inherits n n

/-- Going up from a definition by `Inherits` comes to an end on every way. -/
def Founded (n : String) : Prop := Acc (fun b a => doc.Inherits a b) n

variable {doc}

theorem inherits_iff {a b : String} :
    doc.Inherits a b ↔ ∃ d, doc.definitions.find? a = some d ∧ b ∈ d.parents := by
  unfold Inherits parentsOf
  cases doc.definitions.find? a <;> simp

theorem mem_names_of_inherits {a b : String} (h : doc.Inherits a b) : a ∈ doc.definitions.names := by
  obtain ⟨d, hd, -⟩ := inherits_iff.1 h
  exact Table.mem_names_iff.2 (Table.contains_of_find? hd)

theorem Closed.contains_of_inherits {a b : String} (hc : doc.Closed) (h : doc.Inherits a b) :
    doc.definitions.contains b = true := by
  obtain ⟨d, hd, hb⟩ := inherits_iff.1 h
  exact hc.definitions a d hd b (Definition.mem_references.2 (.inl hb))

theorem Closed.contains_of_own {n m : String} {s : Schema} (hc : doc.Closed)
    (h : doc.ownOf n = some s) (hm : m ∈ s.references) : doc.definitions.contains m = true := by
  obtain ⟨d, hd, hown⟩ := Option.bind_eq_some_iff.1 h
  exact hc.definitions n d hd m (Definition.mem_references.2 (.inr ⟨s, hown, hm⟩))

theorem Founded.not_transGen {n : String} (h : doc.Founded n) : ¬ TransGen doc.Inherits n n := by
  induction h with
  | intro n _ ih =>
    intro hn
    obtain ⟨b, hb, hbn⟩ := TransGen.head'_iff.1 hn
    exact ih b hb (TransGen.tail' hbn hb)

/-- Only defined names have parents, so in a document that is `Acyclic` every definition is
`Founded`. -/
theorem Acyclic.founded (h : doc.Acyclic) (n : String) : doc.Founded n := by
  -- `below` are the names that have been passed on the way up to `n`; they are all different
  suffices ∀ (k : Nat) (below : List String) (n : String), below.Nodup →
      (∀ b ∈ below, TransGen doc.Inherits b n) → below ⊆ doc.definitions.names →
      doc.definitions.names.length ≤ below.length + k → doc.Founded n from
    this doc.definitions.names.length [] n List.nodup_nil (by simp) (List.nil_subset _) (by simp)
  intro k
  induction k with
  | zero =>
    intro below n hnd hup hsub hle
    refine ⟨_, fun b hb => absurd ?_ (h n)⟩
    have hn := mem_names_of_inherits hb
    by_cases hmem : n ∈ below
    · exact hup n hmem
    · have := (List.nodup_cons.2 ⟨hmem, hnd⟩).length_le_of_subset (List.cons_subset.2 ⟨hn, hsub⟩)
      simp only [List.length_cons] at this
      omega
  | succ k ih =>
    intro below n hnd hup hsub hle
    refine ⟨_, fun b hb => ?_⟩
    refine ih (n :: below) b (List.nodup_cons.2 ⟨fun hmem => h n (hup n hmem), hnd⟩) ?_
      (List.cons_subset.2 ⟨mem_names_of_inherits hb, hsub⟩) (by simp only [List.length_cons]; omega)
    intro c hc
    rcases List.mem_cons.1 hc with rfl | hc
    · exact .single hb
    · exact (hup c hc).tail hb

theorem Acyclic.mono {doc' : Document} (h : doc.Acyclic)
    (hsub : ∀ a b, doc'.Inherits a b → doc.Inherits a b) : doc'.Acyclic :=
  fun n hn => h n (TransGen.mono (fun a b => hsub a b) _ _ hn)

/-! ## Effective properties -/

/-- A property of a definition by the composition of `allOf`: its own, or one that it inherits from
a parent. -/
inductive Effective (doc : Document) : String → String → Schema → Prop
  | own {n k : String} {s p : Schema} :
      doc.ownOf n = some s → (k, p) ∈ s.properties → Effective doc n k p
  | inherited {n a k : String} {p : Schema} :
      doc.Inherits n a → Effective doc a k p → Effective doc n k p

theorem Effective.of_ancestor {n a k : String} {p : Schema} (h : Effective doc a k p)
    (hr : ReflTransGen doc.Inherits n a) : Effective doc n k p := by
  induction hr using ReflTransGen.head_induction_on with
  | refl => exact h
  | head hstep _ ih => exact .inherited hstep ih

/-- An `Effective` property is an own one of the definition or of an ancestor. -/
theorem Effective.source {n k : String} {p : Schema} (h : Effective doc n k p) :
    ∃ a s, ReflTransGen doc.Inherits n a ∧ doc.ownOf a = some s ∧ (k, p) ∈ s.properties := by
  induction h with
  | own hs hk => exact ⟨_, _, .refl, hs, hk⟩
  | inherited hstep _ ih =>
    obtain ⟨a, s, hr, hs, hk⟩ := ih
    exact ⟨a, s, .head hstep hr, hs, hk⟩

/-! ## What is hidden -/

/-- The definition has a property of the name in its own schema, by `ownOf`. -/
def Declares (doc : Document) (n k : String) : Prop :=
  ∃ s p, doc.ownOf n = some s ∧ (k, p) ∈ s.properties

/-- An `Effective` property that no definition on the way up to it hides by one that it
`Declares`. -/
inductive Visible (doc : Document) : String → String → Schema → Prop
  | own {n k : String} {s p : Schema} :
      doc.ownOf n = some s → (k, p) ∈ s.properties → Visible doc n k p
  | inherited {n a k : String} {p : Schema} :
      ¬ doc.Declares n k → doc.Inherits n a → Visible doc a k p → Visible doc n k p

theorem Visible.effective {n k : String} {p : Schema} (h : Visible doc n k p) :
    Effective doc n k p := by
  induction h with
  | own hs hk => exact .own hs hk
  | inherited _ hstep _ ih => exact .inherited hstep ih

/-- Of each `Effective` name there is a `Visible` property. -/
theorem Effective.exists_visible {n k : String} {p : Schema} (h : Effective doc n k p)
    (hf : doc.Founded n) : ∃ q, Visible doc n k q := by
  induction hf generalizing p with
  | intro n _ ih =>
    by_cases hdeclares : doc.Declares n k
    · obtain ⟨s, q, hs, hk⟩ := hdeclares
      exact ⟨q, .own hs hk⟩
    · cases h with
      | own hs hk => exact absurd ⟨_, _, hs, hk⟩ hdeclares
      | inherited hstep hp =>
        obtain ⟨q, hq⟩ := ih _ hstep hp
        exact ⟨q, .inherited hdeclares hstep hq⟩

/-! ## References of properties -/

/-- An effective property of the name refers to `m`. -/
def Mentioned (doc : Document) (n k m : String) : Prop :=
  ∃ p, Effective doc n k p ∧ m ∈ p.references

/-- All visible properties of the name refer to `m`, and there is one. -/
def Shared (doc : Document) (n k m : String) : Prop :=
  (∃ p, Visible doc n k p) ∧ ∀ p, Visible doc n k p → m ∈ p.references

/-- For each definition and each name that it does not state, `taken` is a schema that its other
parents show under the name, if they show one. -/
def TakenOver (doc : Document) (taken : String → String → Schema) : Prop :=
  ∀ n k a others, doc.parentsOf n = a :: others → ¬ doc.Declares n k →
    (∃ o ∈ others, ∃ p, Visible doc o k p) → ∃ o ∈ others, Visible doc o k (taken n k)

/-- A property refers to `m` that a definition keeps when it is brought down to its first parent:
one that it states, one that the first parent keeps, or, of a name that it does not state, the one
that is `taken` over from its other parents. -/
inductive Kept (doc : Document) (taken : String → String → Schema) :
    String → String → String → Prop
  | own {n k m : String} {s p : Schema} :
      doc.ownOf n = some s → (k, p) ∈ s.properties → m ∈ p.references → Kept doc taken n k m
  | first {n a k m : String} {others : List String} :
      doc.parentsOf n = a :: others → Kept doc taken a k m → Kept doc taken n k m
  | taken {n a o k m : String} {others : List String} :
      doc.parentsOf n = a :: others → ¬ doc.Declares n k → o ∈ others →
      Visible doc o k (taken n k) → m ∈ (taken n k).references → Kept doc taken n k m

/-- There is a choice for `TakenOver` in every document, so statements about all of them are not
empty. -/
theorem exists_takenOver (doc : Document) : ∃ taken, doc.TakenOver taken := by
  have hchoice : ∀ n k, ∃ t : Schema, ∀ a others, doc.parentsOf n = a :: others →
      ¬ doc.Declares n k → (∃ o ∈ others, ∃ p, Visible doc o k p) →
        ∃ o ∈ others, Visible doc o k t := by
    intro n k
    cases hparents : doc.parentsOf n with
    | nil => exact ⟨default, nofun⟩
    | cons a others =>
      by_cases hshown : ∃ o ∈ others, ∃ p, Visible doc o k p
      · obtain ⟨o, ho, p, hp⟩ := hshown
        refine ⟨p, fun a' others' heq _ _ => ?_⟩
        obtain ⟨-, rfl⟩ := List.cons.inj heq
        exact ⟨o, ho, hp⟩
      · refine ⟨default, fun a' others' heq _ hshown' => ?_⟩
        obtain ⟨-, rfl⟩ := List.cons.inj heq
        exact absurd hshown' hshown
  choose taken htaken using hchoice
  exact ⟨taken, htaken⟩

theorem Shared.mentioned {n k m : String} (h : doc.Shared n k m) : doc.Mentioned n k m := by
  obtain ⟨⟨p, hp⟩, hall⟩ := h
  exact ⟨p, hp.effective, hall p hp⟩

theorem Kept.mentioned {taken : String → String → Schema} {n k m : String}
    (h : doc.Kept taken n k m) : doc.Mentioned n k m := by
  induction h with
  | own hs hk hm => exact ⟨_, .own hs hk, hm⟩
  | first hparents _ ih =>
    obtain ⟨p, hp, hm⟩ := ih
    exact ⟨p, .inherited (by unfold Inherits; rw [hparents]; exact List.mem_cons_self) hp, hm⟩
  | taken hparents _ ho hp hm =>
    refine ⟨_, .inherited ?_ hp.effective, hm⟩
    unfold Inherits
    rw [hparents]
    exact List.mem_cons_of_mem _ ho

/-- A reference that is `Shared` by all visible properties is `Kept`, whatever is taken over. -/
theorem Shared.kept {taken : String → String → Schema} (htaken : doc.TakenOver taken)
    {n k m : String} (h : doc.Shared n k m) (hf : doc.Founded n) : doc.Kept taken n k m := by
  induction hf with
  | intro n _ ih =>
    obtain ⟨⟨p, hp⟩, hall⟩ := h
    by_cases hdeclares : doc.Declares n k
    · obtain ⟨s, q, hs, hk⟩ := hdeclares
      exact .own hs hk (hall q (.own hs hk))
    · have hup : ∀ a, doc.Inherits n a → ∀ q, Visible doc a k q → m ∈ q.references :=
        fun a ha q hq => hall q (.inherited hdeclares ha hq)
      cases hp with
      | own hs hk => exact absurd ⟨_, _, hs, hk⟩ hdeclares
      | @inherited _ b _ _ _ hstep hp =>
        cases hparents : doc.parentsOf n with
        | nil =>
          unfold Inherits at hstep
          rw [hparents] at hstep
          cases hstep
        | cons a others =>
          have hmem : ∀ o ∈ a :: others, doc.Inherits n o := by
            unfold Inherits
            rw [hparents]
            exact fun o ho => ho
          have hb : b ∈ a :: others := hparents ▸ hstep
          rcases List.mem_cons.1 hb with rfl | hb
          · exact .first hparents (ih b hstep ⟨⟨p, hp⟩, hup b hstep⟩)
          · obtain ⟨o, ho, hshows⟩ := htaken n k a others hparents hdeclares ⟨b, hb, p, hp⟩
            exact .taken hparents hdeclares ho hshows
              (hup o (hmem o (List.mem_cons_of_mem _ ho)) _ hshows)

/-! ## Documents that are the same in part -/

/-- On the names of a part that is closed under `Inherits`, one document has the own schemas and the
parents of another. -/
structure Unchanged (part : String → Prop) (doc doc' : Document) : Prop where
  closed : ∀ n a, part n → doc.Inherits n a → part a
  own : ∀ n, part n → doc'.ownOf n = doc.ownOf n
  inherits : ∀ n, part n → ∀ a, doc'.Inherits n a ↔ doc.Inherits n a

section Unchanged

variable {part : String → Prop} {doc' : Document} {n k : String} {p : Schema}

theorem Unchanged.symm (h : Unchanged part doc doc') : Unchanged part doc' doc where
  closed n a hn ha := h.closed n a hn ((h.inherits n hn a).1 ha)
  own n hn := (h.own n hn).symm
  inherits n hn a := (h.inherits n hn a).symm

theorem Unchanged.declares_iff (h : Unchanged part doc doc') (hn : part n) :
    doc'.Declares n k ↔ doc.Declares n k := by
  unfold Declares
  rw [h.own n hn]

theorem Unchanged.effective (h : Unchanged part doc doc') (hn : part n) (hp : Effective doc n k p) :
    Effective doc' n k p := by
  induction hp with
  | own hs hk => exact .own ((h.own _ hn).trans hs) hk
  | inherited hstep _ ih =>
    exact .inherited ((h.inherits _ hn _).2 hstep) (ih (h.closed _ _ hn hstep))

theorem Unchanged.visible (h : Unchanged part doc doc') (hn : part n) (hp : Visible doc n k p) :
    Visible doc' n k p := by
  induction hp with
  | own hs hk => exact .own ((h.own _ hn).trans hs) hk
  | inherited hnot hstep _ ih =>
    exact .inherited (fun hdeclares => hnot ((h.declares_iff hn).1 hdeclares))
      ((h.inherits _ hn _).2 hstep) (ih (h.closed _ _ hn hstep))

theorem Unchanged.effective_iff (h : Unchanged part doc doc') (hn : part n) :
    Effective doc' n k p ↔ Effective doc n k p :=
  ⟨h.symm.effective hn, h.effective hn⟩

theorem Unchanged.visible_iff (h : Unchanged part doc doc') (hn : part n) :
    Visible doc' n k p ↔ Visible doc n k p :=
  ⟨h.symm.visible hn, h.visible hn⟩

theorem Unchanged.mentioned (h : Unchanged part doc doc') (hn : part n) {m : String}
    (hm : doc.Mentioned n k m) : doc'.Mentioned n k m :=
  hm.imp fun _ hp => ⟨h.effective hn hp.1, hp.2⟩

theorem Unchanged.shared (h : Unchanged part doc doc') (hn : part n) {m : String}
    (hm : doc.Shared n k m) : doc'.Shared n k m :=
  ⟨hm.1.imp fun _ hp => h.visible hn hp, fun q hq => hm.2 q ((h.visible_iff hn).1 hq)⟩

end Unchanged

/-! ## Well-formedness -/

/-- A document that is `Closed` and `Acyclic`, and whose names are free of the zero character that
closes a name in a `signature`. -/
structure WellFormed (doc : Document) : Prop where
  closed : doc.Closed
  acyclic : doc.Acyclic
  nulFree : ∀ n ∈ doc.definitions.names, Char.ofNat 0 ∉ n.toList

end RestSpec.Document
