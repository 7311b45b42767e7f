/-
The two merging passes choose sound renamings. A composition of the same parents as another is its
twin, since the signature tells sets of parents apart; a composition that adds nothing is the heir
of the ancestor at the end of its chain of single parents. So both passes keep a well-formed
document well formed and carry it.
-/
import Mathlib.Tactic
import RestSpec.Proofs.Search
import RestSpec.Proofs.Pass.Rounds

namespace RestSpec.Document

open Relation (TransGen ReflTransGen)

/-! ## Signatures -/

/-- Texts that are closed by a `mark` that none of them holds can be told apart when they are
joined. -/
theorem flatMap_terminated_injective {α : Type} {mark : α} :
    ∀ {l l' : List (List α)}, (∀ a ∈ l, mark ∉ a) → (∀ a ∈ l', mark ∉ a) →
      l.flatMap (· ++ [mark]) = l'.flatMap (· ++ [mark]) → l = l'
  | [], [], _, _, _ => rfl
  | [], b :: l', _, _, h => by simp at h
  | a :: l, [], _, _, h => by simp at h
  | a :: l, b :: l', ha, hb, h => by
    simp only [List.flatMap_cons, List.append_assoc, List.singleton_append] at h
    -- were one text longer than the other, it would hold the mark that closes the other
    have hab : a = b ∧ l.flatMap (· ++ [mark]) = l'.flatMap (· ++ [mark]) := by
      rcases List.append_eq_append_iff.1 h with ⟨c, hb', hc⟩ | ⟨c, ha', hc⟩
      · cases c with
        | nil => exact ⟨by simpa using hb'.symm, by simpa using hc⟩
        | cons x c =>
          obtain rfl : mark = x := by simpa using (List.cons.inj hc).1
          exact absurd (hb' ▸ by simp) (hb b List.mem_cons_self)
      · cases c with
        | nil => exact ⟨by simpa using ha', by simpa using hc.symm⟩
        | cons x c =>
          obtain rfl : mark = x := by simpa using (List.cons.inj hc).1
          exact absurd (ha' ▸ by simp) (ha a List.mem_cons_self)
    rw [hab.1, flatMap_terminated_injective (fun x hx => ha x (List.mem_cons_of_mem _ hx))
      (fun x hx => hb x (List.mem_cons_of_mem _ hx)) hab.2]

theorem parentSignature_toList (parents : List String) :
    (parentSignature parents).toList =
      ((nameSet parents).map String.toList).flatMap (· ++ [Char.ofNat 0]) := by
  unfold parentSignature nameSet
  rw [String.toList_join, List.flatMap_map, List.flatMap_map]
  simp only [String.toList_push]

/-- Parents of one `parentSignature` are the same, if no name holds the character that closes it. -/
theorem mem_of_parentSignature_eq {l l' : List String}
    (hl : ∀ p ∈ l, Char.ofNat 0 ∉ p.toList) (hl' : ∀ p ∈ l', Char.ofNat 0 ∉ p.toList)
    (h : parentSignature l = parentSignature l') (p : String) : p ∈ l ↔ p ∈ l' := by
  have hfree : ∀ {l : List String}, (∀ p ∈ l, Char.ofNat 0 ∉ p.toList) →
      ∀ cs ∈ (nameSet l).map String.toList, Char.ofNat 0 ∉ cs := by
    intro l hl cs hcs
    obtain ⟨p, hp, rfl⟩ := List.mem_map.1 hcs
    exact hl p (mem_nameSet.1 hp)
  have hsets : nameSet l = nameSet l' := by
    have := congrArg String.toList h
    rw [parentSignature_toList, parentSignature_toList] at this
    exact List.map_injective_iff.2 (fun _ _ => String.ext)
      (flatMap_terminated_injective (hfree hl) (hfree hl') this)
  rw [← mem_nameSet, hsets, mem_nameSet]

/-! ## The shortest name -/

theorem shorter_irrefl (a : String) : shorter a a = false := by
  simp [shorter]

theorem shorter_trans {a b c : String} (hab : shorter a b = true) (hbc : shorter b c = true) :
    shorter a c = true := by
  simp only [shorter, Bool.or_eq_true, Bool.and_eq_true, decide_eq_true_eq, beq_iff_eq] at *
  rcases hab with hab | ⟨hab, hlt⟩ <;> rcases hbc with hbc | ⟨hbc, hlt'⟩
  · exact .inl (by omega)
  · exact .inl (by omega)
  · exact .inl (by omega)
  · exact .inr ⟨by omega, String.lt_trans hlt hlt'⟩

theorem shorter_or_shorter {a c : String} (b : String) (h : shorter a c = true) :
    shorter a b = true ∨ shorter b c = true := by
  simp only [shorter, Bool.or_eq_true, Bool.and_eq_true, decide_eq_true_eq, beq_iff_eq] at *
  rcases lt_trichotomy a.utf8ByteSize b.utf8ByteSize with hab | hab | hab
  · exact .inl (.inl hab)
  · rcases h with h | ⟨h, hlt⟩
    · exact .inr (.inl (by omega))
    · by_cases hlt' : a < b
      · exact .inl (.inr ⟨hab, hlt'⟩)
      · exact .inr (.inr ⟨by omega, Std.lt_of_le_of_lt (String.not_lt.1 hlt') hlt⟩)
  · exact .inr (.inl (by omega))

theorem shortest_mem (first : String) (others : List String) :
    shortest first others ∈ first :: others := by
  unfold shortest
  induction others generalizing first with
  | nil => exact List.mem_singleton_self first
  | cons n others ih =>
    rw [List.foldl_cons]
    rcases List.mem_cons.1 (ih (if shorter n first then n else first)) with h | h
    · rw [h]; split <;> simp
    · exact List.mem_cons_of_mem _ (List.mem_cons_of_mem _ h)

theorem not_shorter_shortest (first : String) (others : List String) :
    ∀ m ∈ first :: others, shorter m (shortest first others) = false := by
  unfold shortest
  induction others generalizing first with
  | nil => intro m hm; rw [List.mem_singleton.1 hm]; exact shorter_irrefl first
  | cons n others ih =>
    intro m hm
    rw [List.foldl_cons]
    by_cases hn : shorter n first = true
    · rw [if_pos hn]
      rcases List.mem_cons.1 hm with rfl | hm
      · refine Bool.eq_false_iff.2 fun h => ?_
        have hbest := ih n n List.mem_cons_self
        rw [shorter_trans hn h] at hbest
        cases hbest
      · exact ih n m hm
    · rw [if_neg hn]
      rcases List.mem_cons.1 hm with rfl | hm
      · exact ih m m List.mem_cons_self
      · rcases List.mem_cons.1 hm with rfl | hm
        · refine Bool.eq_false_iff.2 fun h => ?_
          rcases shorter_or_shorter first h with h | h
          · exact hn h
          · rw [ih first first List.mem_cons_self] at h
            cases h
        · exact ih first m (List.mem_cons_of_mem _ hm)

theorem shortest_of_not_shorter {first : String} {others : List String}
    (h : ∀ m ∈ others, shorter m first = false) : shortest first others = first := by
  unfold shortest
  induction others with
  | nil => rfl
  | cons n others ih =>
    rw [List.foldl_cons, h n List.mem_cons_self, if_neg Bool.false_ne_true]
    exact ih fun m hm => h m (List.mem_cons_of_mem _ hm)

/-! ## Compositions of the same parents -/

theorem mem_bareCompositions {doc : Document} {n signature : String} :
    (n, signature) ∈ doc.bareCompositions ↔
      ∃ parents description, parents ≠ [] ∧ signature = parentSignature parents ∧
        doc.definitions.find? n = some (.composed ⟨parents, none, description⟩) := by
  unfold bareCompositions
  rw [List.mem_filterMap]
  constructor
  · rintro ⟨⟨m, d⟩, hmem, h⟩
    dsimp only at h
    split at h
    · cases h
      exact ⟨_, _, List.cons_ne_nil _ _, rfl, Table.mem_entries_iff.1 hmem⟩
    · cases h
  · rintro ⟨parents, description, hparents, rfl, hd⟩
    refine ⟨(n, _), Table.mem_entries_iff.2 hd, ?_⟩
    cases parents with
    | nil => exact absurd rfl hparents
    | cons p ps => rfl

/-- The `bareCompositions` of one signature. -/
def bareWith (doc : Document) (signature : String) : List String :=
  (doc.bareCompositions.filter (·.2 == signature)).map (·.1)

theorem mem_bareWith {doc : Document} {n signature : String} :
    n ∈ doc.bareWith signature ↔ (n, signature) ∈ doc.bareCompositions := by
  simp only [bareWith, List.mem_map, List.mem_filter, beq_iff_eq]
  constructor
  · rintro ⟨⟨m, s⟩, ⟨hm, rfl⟩, rfl⟩; exact hm
  · intro hn; exact ⟨_, ⟨hn, rfl⟩, rfl⟩

/-- `duplicates` has a composition give way to the `shortest` name of its signature. -/
theorem find?_duplicates {doc : Document} {n t : String} (h : doc.duplicates.find? n = some t) :
    t ≠ n ∧ ∃ signature, (n, signature) ∈ doc.bareCompositions ∧
      t = shortest n (doc.bareWith signature) := by
  obtain ⟨⟨m, signature⟩, hmem, hsome⟩ := List.mem_filterMap.1 (Table.mem_of_find?_ofList h)
  dsimp only at hsome
  split at hsome
  · cases hsome
  · rename_i hne
    obtain ⟨rfl, rfl⟩ := Prod.mk.inj (Option.some.inj hsome)
    exact ⟨hne, signature, hmem, rfl⟩

theorem shortest_bareWith {doc : Document} {n signature : String}
    (h : (n, signature) ∈ doc.bareCompositions) :
    (shortest n (doc.bareWith signature), signature) ∈ doc.bareCompositions := by
  rcases List.mem_cons.1 (shortest_mem n (doc.bareWith signature)) with hm | hm
  · rw [hm]; exact h
  · exact mem_bareWith.1 hm

theorem bareCompositions_signature {doc : Document} {n s s' : String}
    (h : (n, s) ∈ doc.bareCompositions) (h' : (n, s') ∈ doc.bareCompositions) : s = s' := by
  obtain ⟨parents, _, -, rfl, hd⟩ := mem_bareCompositions.1 h
  obtain ⟨parents', _, -, rfl, hd'⟩ := mem_bareCompositions.1 h'
  rw [hd] at hd'
  cases hd'
  rfl

theorem duplicates_defined : ChoosesDefined duplicates := by
  intro doc n t ht
  obtain ⟨-, signature, hn, -⟩ := find?_duplicates ht
  obtain ⟨parents, description, -, -, hd⟩ := mem_bareCompositions.1 hn
  exact Table.contains_of_find? hd

/-- The renaming of `duplicates` is a `SoundRenaming`. -/
theorem duplicates_sound {doc : Document} (h : doc.WellFormed) :
    SoundRenaming doc doc.duplicates := by
  have hbare : ∀ {n s}, (n, s) ∈ doc.bareCompositions → ∃ parents, s = parentSignature parents ∧
      doc.parentsOf n = parents ∧ doc.ownOf n = none ∧
      (∀ p ∈ parents, Char.ofNat 0 ∉ p.toList) ∧ doc.definitions.contains n = true := by
    intro n s hmem
    obtain ⟨parents, _, -, hs, hd⟩ := mem_bareCompositions.1 hmem
    refine ⟨parents, hs, by simp [parentsOf, hd, Definition.parents],
      by simp [ownOf, hd, Definition.own], fun p hp => ?_, Table.contains_of_find? hd⟩
    exact h.nulFree p (Table.mem_names_iff.2
      (h.closed.definitions n _ hd p (Definition.mem_references.2 (.inl hp))))
  refine ⟨duplicates_defined doc, fun n t ht => ?_, fun n t ht => ?_⟩
  · obtain ⟨-, signature, hn, rfl⟩ := find?_duplicates ht
    have ht := shortest_bareWith hn
    obtain ⟨-, -, -, -, -, hcontains⟩ := hbare ht
    refine ⟨hcontains, Option.eq_none_iff_forall_ne_some.2 fun t' ht' => ?_⟩
    obtain ⟨hne, signature', ht'', rfl⟩ := find?_duplicates ht'
    obtain rfl := bareCompositions_signature ht ht''
    -- no name of the signature is shorter than the one chosen, so it is chosen for itself too
    exact hne (shortest_of_not_shorter fun m hm =>
      not_shorter_shortest n _ m (List.mem_cons_of_mem _ hm))
  · obtain ⟨-, signature, hn, rfl⟩ := find?_duplicates ht
    obtain ⟨parents, rfl, hparents, hown, hfree, -⟩ := hbare hn
    obtain ⟨parents', hsig, hparents', hown', hfree', -⟩ := hbare (shortest_bareWith hn)
    refine .twin hown hown' fun a => ?_
    unfold Inherits
    rw [hparents, hparents']
    exact mem_of_parentSignature_eq hfree hfree' hsig a

/-! ## Compositions that add nothing -/

theorem onlyParent?_eq_some {d : Definition} {q : String} :
    d.onlyParent? = some q ↔ d.parents = [q] ∧ ∀ s, d.own = some s → s.properties = [] := by
  unfold Definition.onlyParent?
  constructor
  · intro h
    split at h
    · split at h
      · rename_i hchild
        obtain rfl := Option.some.inj h
        refine ⟨rfl, fun s hs => ?_⟩
        obtain rfl : _ = some s := hs
        simpa using hchild
      · cases h
    · cases h
  · rintro ⟨hparents, hown⟩
    cases d with
    | simple s => cases hparents
    | composed c =>
      obtain ⟨parents, child, description⟩ := c
      obtain rfl : parents = [q] := hparents
      have hchild : ((child.map (·.properties)).getD []).isEmpty = true := by
        cases child with
        | none => rfl
        | some s => simp [hown s rfl]
      exact if_pos hchild

theorem find?_onlyParents {doc : Document} {n q : String} :
    doc.onlyParents.find? n = some q ↔
      doc.parentsOf n = [q] ∧ ∀ s, doc.ownOf n = some s → s.properties = [] := by
  unfold onlyParents
  rw [Table.find?_ofList_filterMap doc.definitions fun _ d => d.onlyParent?]
  unfold parentsOf ownOf
  cases doc.definitions.find? n with
  | none =>
    constructor
    · intro h; cases h
    · rintro ⟨h, -⟩; cases h
  | some d => exact onlyParent?_eq_some

theorem inherits_of_onlyParents {doc : Document} {n q : String}
    (h : doc.onlyParents.find? n = some q) : doc.Inherits n q := by
  unfold Inherits
  rw [(find?_onlyParents.1 h).1]
  exact List.mem_singleton_self q

/-! ## Chains of single parents -/

/-- The name `a` has `b` for its single parent. -/
def Renaming.Leads (parents : Renaming) (a b : String) : Prop := parents.find? a = some b

section Chains

variable {parents : Renaming} {start a b : String}

theorem Renaming.leads_unique (parents : Renaming) : Relator.RightUnique parents.Leads :=
  fun _ _ _ hb hc => Option.some.inj (hb.symm.trans hc)

/-- A circle by `Leads` comes back from wherever it leads. -/
theorem leads_back (hcircle : TransGen parents.Leads a a) (h : ReflTransGen parents.Leads a b) :
    ReflTransGen parents.Leads b a := by
  induction h with
  | refl => exact .refl
  | @tail b c _ hbc ih =>
    have hback : TransGen parents.Leads b a := by
      rcases ReflTransGen.cases_head ih with rfl | ⟨d, hbd, hda⟩
      · exact hcircle
      · exact TransGen.head' hbd hda
    obtain ⟨d, hbd, hda⟩ := TransGen.head'_iff.1 hback
    exact parents.leads_unique hbc hbd ▸ hda

theorem circle_of_leads (hcircle : TransGen parents.Leads a a)
    (h : ReflTransGen parents.Leads a b) : TransGen parents.Leads b b :=
  (TransGen.trans_right (leads_back hcircle h) hcircle).trans_left h

theorem leads_lastParent (parents : Renaming) (start : String) :
    ∀ (steps : Nat) (n : String), ReflTransGen parents.Leads n (lastParent parents start steps n)
  | 0, n => .refl
  | steps + 1, n => by
    unfold lastParent
    split
    · exact .refl
    · rename_i next hnext
      split
      · exact .refl
      · exact .head hnext (leads_lastParent parents start steps next)

/-- `lastParent` stops before it comes back to its start. -/
theorem lastParent_ne : ∀ (steps : Nat) {n : String}, n ≠ start →
    lastParent parents start steps n ≠ start
  | 0, _, h => h
  | steps + 1, n, h => by
    unfold lastParent
    split
    · exact h
    · split
      · exact h
      · rename_i hne
        exact lastParent_ne steps hne

/-- `lastParent` with more steps than there are names on the way comes to its end, or round a circle
by `Leads`. -/
theorem lastParent_ends : ∀ (steps : Nat) (passed : List String) (n : String), passed.Nodup →
    (∀ p ∈ passed, TransGen parents.Leads p n) → passed ⊆ parents.names →
    parents.names.length < passed.length + steps → start ∈ passed →
    parents.find? (lastParent parents start steps n) = none ∨
      TransGen parents.Leads (lastParent parents start steps n) (lastParent parents start steps n)
  | 0, passed, n, hnd, _, hsub, hlt, _ => by
    -- the names passed are all different, so no more than lead on
    have := hnd.length_le_of_subset hsub
    omega
  | steps + 1, passed, n, hnd, hway, hsub, hlt, hstart => by
    by_cases hn : n ∈ passed
    · exact .inr (circle_of_leads (hway n hn) (leads_lastParent parents start _ n))
    · unfold lastParent
      split
      · exact .inl ‹_›
      · rename_i next hnext
        split
        · rename_i heq
          subst heq
          exact .inr (TransGen.head hnext (hway _ hstart))
        · refine lastParent_ends steps (n :: passed) next (List.nodup_cons.2 ⟨hn, hnd⟩) ?_
            (List.cons_subset.2 ⟨Table.mem_names_iff.2 (Table.contains_of_find? hnext), hsub⟩)
            (by simp only [List.length_cons]; omega) (List.mem_cons_of_mem _ hstart)
          intro p hp
          rcases List.mem_cons.1 hp with rfl | hp
          · exact .single hnext
          · exact (hway p hp).tail hnext

/-- The number of single parents is bound enough for `lastParent`. -/
theorem lastParent_end {q : String} (hq : parents.find? start = some q) :
    parents.find? (lastParent parents start (parents.entries.length + 1) q) = none ∨
      TransGen parents.Leads (lastParent parents start (parents.entries.length + 1) q)
        (lastParent parents start (parents.entries.length + 1) q) := by
  refine lastParent_ends _ [start] q (List.nodup_singleton start)
    (fun p hp => List.mem_singleton.1 hp ▸ .single hq)
    (by simpa using Table.mem_names_iff.2 (Table.contains_of_find? hq)) ?_
    (List.mem_singleton_self start)
  simp only [Table.names, Entries.names, List.length_map, List.length_singleton]
  omega

end Chains

/-- `emptyCompositions` puts the `lastParent` in the place of a composition that adds nothing; one
that is its own parent stays. -/
theorem emptyCompositions_eq_some {doc : Document} {n t : String} :
    doc.emptyCompositions.find? n = some t ↔ ∃ q, doc.onlyParents.find? n = some q ∧ q ≠ n ∧
      lastParent doc.onlyParents n (doc.onlyParents.entries.length + 1) q = t := by
  unfold emptyCompositions
  dsimp only
  rw [Table.find?_ofList_filterMap, Option.bind_eq_some_iff]
  unfold replacement?
  dsimp only
  constructor
  · rintro ⟨q, hq, h⟩
    split at h
    · cases h
    · rename_i hne
      refine ⟨q, hq, ?_, Option.some.inj h⟩
      rintro rfl
      refine hne ?_
      unfold lastParent
      simp [hq]
  · rintro ⟨q, hq, hne, rfl⟩
    exact ⟨q, hq, if_neg (lastParent_ne _ hne)⟩

/-- The name that a chain of single parents ends at: the first that has none. -/
inductive EndsAt (parents : Renaming) : String → String → Prop
  | stop {n : String} : parents.find? n = none → EndsAt parents n n
  | step {n m t : String} : parents.find? n = some m → EndsAt parents m t → EndsAt parents n t

theorem EndsAt.last {parents : Renaming} {n t : String} (h : EndsAt parents n t) :
    parents.find? t = none := by
  induction h with
  | stop h => exact h
  | step _ _ ih => exact ih

theorem EndsAt.unique {parents : Renaming} {n t t' : String} (h : EndsAt parents n t)
    (h' : EndsAt parents n t') : t = t' := by
  induction h with
  | stop h =>
    cases h' with
    | stop _ => rfl
    | step hm _ => rw [h] at hm; cases hm
  | step hm _ ih =>
    cases h' with
    | stop hn => rw [hm] at hn; cases hn
    | step hm' h' => rw [hm] at hm'; cases hm'; exact ih h'

theorem EndsAt.of_leads {parents : Renaming} {n t : String}
    (h : ReflTransGen parents.Leads n t) (ht : parents.find? t = none) : EndsAt parents n t := by
  induction h using ReflTransGen.head_induction_on with
  | refl => exact .stop ht
  | head hstep _ ih => exact .step hstep ih

/-- In a document that is `Acyclic` there is no circle of `onlyParents`. -/
theorem Acyclic.not_circle {doc : Document} (ha : doc.Acyclic) (n : String) :
    ¬ TransGen doc.onlyParents.Leads n n :=
  fun h => ha n (TransGen.mono (fun _ _ => inherits_of_onlyParents) _ _ h)

/-- In a document that is `Acyclic`, `emptyCompositions` puts the end of its chain in the place of a
composition that adds nothing. -/
theorem find?_emptyCompositions {doc : Document} (ha : doc.Acyclic) {n t : String} :
    doc.emptyCompositions.find? n = some t ↔
      (∃ q, doc.onlyParents.find? n = some q) ∧ EndsAt doc.onlyParents n t := by
  have hends : ∀ {q}, doc.onlyParents.find? n = some q → EndsAt doc.onlyParents n
      (lastParent doc.onlyParents n (doc.onlyParents.entries.length + 1) q) := by
    intro q hq
    exact .of_leads (.head hq (leads_lastParent doc.onlyParents n _ q))
      ((lastParent_end hq).resolve_right (ha.not_circle _))
  rw [emptyCompositions_eq_some]
  constructor
  · rintro ⟨q, hq, -, rfl⟩
    exact ⟨⟨q, hq⟩, hends hq⟩
  · rintro ⟨⟨q, hq⟩, ht⟩
    refine ⟨q, hq, ?_, (hends hq).unique ht⟩
    rintro rfl
    exact ha.not_circle _ (.single hq)

theorem exists_endsAt {doc : Document} (ha : doc.Acyclic) (n : String) :
    ∃ t, EndsAt doc.onlyParents n t := by
  induction ha.founded n with
  | intro n _ ih =>
    cases hn : doc.onlyParents.find? n with
    | none => exact ⟨n, .stop hn⟩
    | some q =>
      obtain ⟨t, ht⟩ := ih q (inherits_of_onlyParents hn)
      exact ⟨t, .step hn ht⟩

/-- In a document that is `Acyclic`, `emptyCompositions` takes every name to the end of its
chain. -/
theorem endsAt_apply_emptyCompositions {doc : Document} (ha : doc.Acyclic) (n : String) :
    EndsAt doc.onlyParents n (doc.emptyCompositions.apply n) := by
  cases hn : doc.onlyParents.find? n with
  | none =>
    have : doc.emptyCompositions.find? n = none := by
      refine Option.eq_none_iff_forall_ne_some.2 fun t ht => ?_
      obtain ⟨⟨q, hq⟩, -⟩ := (find?_emptyCompositions ha).1 ht
      rw [hn] at hq
      cases hq
    rw [Renaming.apply_of_none this]
    exact .stop hn
  | some q =>
    obtain ⟨t, ht⟩ := exists_endsAt ha n
    rw [Renaming.apply_of_find? ((find?_emptyCompositions ha).2 ⟨⟨q, hn⟩, ht⟩)]
    exact ht

theorem EndsAt.contains {doc : Document} (hc : doc.Closed) {n t : String}
    (h : EndsAt doc.onlyParents n t) (hn : doc.definitions.contains n = true) :
    doc.definitions.contains t = true := by
  induction h with
  | stop _ => exact hn
  | step hm _ ih => exact ih (hc.contains_of_inherits (inherits_of_onlyParents hm))

theorem emptyCompositions_defined : ChoosesDefined emptyCompositions := by
  intro doc n t ht
  obtain ⟨q, hq, -, -⟩ := emptyCompositions_eq_some.1 ht
  exact Table.mem_names_iff.1 (mem_names_of_inherits (inherits_of_onlyParents hq))

/-- The renaming of `emptyCompositions` is a `SoundRenaming` in a document that is well formed. -/
theorem emptyCompositions_sound {doc : Document} (h : doc.WellFormed) :
    SoundRenaming doc doc.emptyCompositions := by
  refine ⟨emptyCompositions_defined doc, fun n t ht => ?_, fun n t ht => ?_⟩
  · obtain ⟨⟨q, hq⟩, hends⟩ := (find?_emptyCompositions h.acyclic).1 ht
    refine ⟨hends.contains h.closed
      (Table.mem_names_iff.1 (mem_names_of_inherits (inherits_of_onlyParents hq))), ?_⟩
    refine Option.eq_none_iff_forall_ne_some.2 fun t' ht' => ?_
    obtain ⟨⟨q', hq'⟩, -⟩ := (find?_emptyCompositions h.acyclic).1 ht'
    rw [hends.last] at hq'
    cases hq'
  · obtain ⟨⟨q, hq⟩, hends⟩ := (find?_emptyCompositions h.acyclic).1 ht
    obtain ⟨hparents, hown⟩ := find?_onlyParents.1 hq
    refine .heir hown hparents ?_
    exact (EndsAt.step hq (endsAt_apply_emptyCompositions h.acyclic q)).unique hends

/-! ## The passes -/

theorem collapseDuplicates_carries {doc : Document} (h : doc.WellFormed) :
    doc.collapseDuplicates.WellFormed ∧ ∃ r, Carries doc.Mentioned
      doc.collapseDuplicates.Mentioned doc doc.collapseDuplicates r :=
  substituteRepeatedly_carries (fun _ => duplicates_sound) _ doc h

theorem replaceEmpty_carries {doc : Document} (h : doc.WellFormed) :
    doc.replaceEmpty.WellFormed ∧ ∃ r, Carries doc.Mentioned
      doc.replaceEmpty.Mentioned doc doc.replaceEmpty r :=
  substituteRepeatedly_carries (fun _ => emptyCompositions_sound) _ doc h

end RestSpec.Document
