/-
Letting definitions stand for others. A renaming is sound when each name that it takes out goes to
a definition that stays and amounts to the same: a twin with the same parents, or the heir that it
leads to over parents without adding a property. A sound substitution keeps a document well formed
and carries it, and so does any number of rounds that choose sound renamings.
-/
import RestSpec.Pass.Merge
import RestSpec.Proofs.Document.Carries

namespace RestSpec.Document

open Relation (TransGen ReflTransGen)

/-- How the definition `t` stands for `n`, which is taken out: both state nothing and have the same
parents, or `n` adds no property to its only parent, which goes by the name `t` afterwards. -/
inductive StandsIn (doc : Document) (r : Renaming) (n t : String) : Prop
  | twin : doc.ownOf n = none → doc.ownOf t = none →
      (∀ a, doc.Inherits n a ↔ doc.Inherits t a) → StandsIn doc r n t
  | heir {q : String} : (∀ s, doc.ownOf n = some s → s.properties = []) →
      doc.parentsOf n = [q] → r.apply q = t → StandsIn doc r n t

/-- A renaming of definitions to such as stay and `StandsIn` for them. -/
structure SoundRenaming (doc : Document) (r : Renaming) : Prop where
  source : ∀ n t, r.find? n = some t → doc.definitions.contains n = true
  target : ∀ n t, r.find? n = some t → doc.definitions.contains t = true ∧ r.find? t = none
  stands : ∀ n t, r.find? n = some t → StandsIn doc r n t

section Substitute

variable {doc : Document} {r : Renaming} (hne : r.isEmpty = false)

include hne

theorem find?_substitute (n : String) :
    (doc.substitute r).definitions.find? n =
      if r.contains n then none else (doc.definitions.find? n).map (Definition.rename r) := by
  unfold substitute rename without
  rw [hne]
  show (((doc.definitions.filter _).mapValues _).find? n) = _
  rw [Table.find?_mapValues, Table.find?_filter]
  by_cases h : r.contains n = true
  · have hn : r.names.contains n = true := List.contains_iff_mem.2 (Table.mem_names_iff.2 h)
    rw [hn, h]; rfl
  · have hn : r.names.contains n = false := by
      rw [Bool.eq_false_iff]
      exact fun hc => h (Table.mem_names_iff.1 (List.contains_iff_mem.1 hc))
    rw [hn, if_neg h]; rfl

theorem paths_substitute :
    (doc.substitute r).paths = doc.paths.mapValues (PathItem.map (Operation.rename r)) := by
  unfold substitute rename
  rw [hne]; rfl

theorem ownOf_substitute {n : String} (hn : r.find? n = none) :
    (doc.substitute r).ownOf n = (doc.ownOf n).map (Schema.rename r) := by
  have hc : r.contains n = false := by rw [Table.contains, hn]; rfl
  unfold ownOf
  rw [find?_substitute hne, hc]
  cases doc.definitions.find? n with
  | none => rfl
  | some d => exact Definition.own_rename r d

theorem inherits_substitute {n b : String} (hn : r.find? n = none) :
    (doc.substitute r).Inherits n b ↔ ∃ a, doc.Inherits n a ∧ r.apply a = b := by
  have hc : r.contains n = false := by rw [Table.contains, hn]; rfl
  unfold Inherits parentsOf
  rw [find?_substitute hne, hc]
  cases doc.definitions.find? n with
  | none => simp
  | some d => exact Definition.mem_parents_rename

theorem parentsOf_substitute {n : String} (hn : r.find? n = none) :
    (doc.substitute r).parentsOf n = distinct ((doc.parentsOf n).map r.apply) := by
  have hc : r.contains n = false := by rw [Table.contains, hn]; rfl
  unfold parentsOf
  rw [find?_substitute hne, hc]
  cases doc.definitions.find? n with
  | none => rfl
  | some d => cases d <;> rfl

theorem declares_substitute {n k : String} (hn : r.find? n = none) :
    (doc.substitute r).Declares n k ↔ doc.Declares n k := by
  unfold Declares
  rw [ownOf_substitute hne hn]
  constructor
  · rintro ⟨s', p', hs, hk⟩
    obtain ⟨s, hown, rfl⟩ := Option.map_eq_some_iff.1 hs
    rw [Schema.properties_rename] at hk
    obtain ⟨⟨k, p⟩, hp, he⟩ := List.mem_map.1 hk
    cases he
    exact ⟨s, p, hown, hp⟩
  · rintro ⟨s, p, hs, hk⟩
    refine ⟨s.rename r, p.rename r, by rw [hs]; rfl, ?_⟩
    rw [Schema.properties_rename]
    exact List.mem_map.2 ⟨(k, p), hk, rfl⟩

/-- A name that is defined after `substitute` has stayed: it has no new name. -/
theorem find?_of_contains_substitute {n : String}
    (h : (doc.substitute r).definitions.contains n = true) :
    r.find? n = none ∧ doc.definitions.contains n = true := by
  obtain ⟨d, hd⟩ := Table.contains_iff.1 h
  rw [find?_substitute hne] at hd
  split at hd
  · cases hd
  · rename_i hc
    obtain ⟨d', hd', -⟩ := Option.map_eq_some_iff.1 hd
    refine ⟨?_, Table.contains_of_find? hd'⟩
    unfold Table.contains at hc
    cases hr : r.find? n with
    | none => rfl
    | some t => rw [hr] at hc; exact absurd rfl hc

theorem contains_substitute {n : String} (hn : r.find? n = none)
    (h : doc.definitions.contains n = true) :
    (doc.substitute r).definitions.contains n = true := by
  have hc : r.contains n = false := by rw [Table.contains, hn]; rfl
  obtain ⟨d, hd⟩ := Table.contains_iff.1 h
  refine Table.contains_of_find? (v := d.rename r) ?_
  rw [find?_substitute hne, hc, hd]; rfl

omit hne in
/-- A name that `Renaming.apply` gives is not taken out itself, if the renaming is sound. -/
theorem SoundRenaming.find?_apply (hr : SoundRenaming doc r) (n : String) :
    r.find? (r.apply n) = none := by
  cases h : r.find? n with
  | none => rw [Renaming.apply_of_none h]; exact h
  | some t => rw [Renaming.apply_of_find? h]; exact (hr.target n t h).2

theorem SoundRenaming.contains_of_apply (hr : SoundRenaming doc r) {n : String}
    (h : (doc.substitute r).definitions.contains (r.apply n) = true) :
    doc.definitions.contains n = true := by
  cases hn : r.find? n with
  | none =>
    rw [Renaming.apply_of_none hn] at h
    exact (find?_of_contains_substitute hne h).2
  | some t => exact hr.source n t hn

theorem SoundRenaming.contains_apply (hr : SoundRenaming doc r) {n : String}
    (hn : doc.definitions.contains n = true) :
    (doc.substitute r).definitions.contains (r.apply n) = true := by
  refine contains_substitute hne (hr.find?_apply n) ?_
  cases h : r.find? n with
  | none => rw [Renaming.apply_of_none h]; exact hn
  | some t => rw [Renaming.apply_of_find? h]; exact (hr.target n t h).1

/-! ## Effective properties -/

omit hne in
/-- The `Effective` properties of what stands for a definition by a `SoundRenaming` are those of
that definition too. -/
theorem SoundRenaming.effective_target (hr : SoundRenaming doc r) {n : String}
    (hf : doc.Founded n) :
    ∀ t, r.find? n = some t → ∀ k p, Effective doc t k p → Effective doc n k p := by
  induction hf with
  | intro n _ ih =>
    intro t ht k p hp
    cases hr.stands n t ht with
    | twin _ hown hsame =>
      cases hp with
      | own hs _ => rw [hown] at hs; cases hs
      | inherited hstep hp => exact .inherited ((hsame _).2 hstep) hp
    | @heir q _ hq htq =>
      have hstep : doc.Inherits n q := by unfold Inherits; rw [hq]; exact List.mem_singleton_self q
      refine .inherited hstep ?_
      cases hrq : r.find? q with
      | none => rw [Renaming.apply_of_none hrq] at htq; subst htq; exact hp
      | some t' =>
        rw [Renaming.apply_of_find? hrq] at htq
        subst htq
        exact ih q hstep _ hrq k p hp

theorem SoundRenaming.effective_substitute (hr : SoundRenaming doc r) {n k : String} {p : Schema}
    (h : Effective doc n k p) : Effective (doc.substitute r) (r.apply n) k (p.rename r) := by
  induction h with
  | @own n k s p hs hk =>
    -- what is taken out has no properties of its own
    have hn : r.find? n = none := by
      cases h : r.find? n with
      | none => rfl
      | some t =>
        cases hr.stands n t h with
        | twin hown _ _ => rw [hown] at hs; cases hs
        | heir hempty _ _ => rw [hempty s hs] at hk; cases hk
    rw [Renaming.apply_of_none hn]
    refine .own (s := s.rename r) (by rw [ownOf_substitute hne hn, hs]; rfl) ?_
    rw [Schema.properties_rename]
    exact List.mem_map.2 ⟨(k, p), hk, rfl⟩
  | @inherited n a k p hstep _ ih =>
    cases h : r.find? n with
    | none =>
      rw [Renaming.apply_of_none h]
      exact .inherited ((inherits_substitute hne h).2 ⟨a, hstep, rfl⟩) ih
    | some t =>
      rw [Renaming.apply_of_find? h]
      cases hr.stands n t h with
      | twin _ _ hsame =>
        exact .inherited
          ((inherits_substitute hne (hr.target n t h).2).2 ⟨a, (hsame a).1 hstep, rfl⟩) ih
      | heir _ hq htq =>
        unfold Inherits at hstep
        rw [hq] at hstep
        rw [List.mem_singleton.1 hstep, htq] at ih
        exact ih

/-- Only a name that has stayed can have `Effective` properties after `substitute`. -/
theorem stays_of_effective {x k : String} {p' : Schema}
    (h : Effective (doc.substitute r) x k p') : r.find? x = none := by
  have hx : (doc.substitute r).definitions.contains x = true := by
    cases h with
    | own hs _ =>
      obtain ⟨d, hd, -⟩ := Option.bind_eq_some_iff.1 hs
      exact Table.contains_of_find? hd
    | inherited hstep _ => exact Table.mem_names_iff.1 (mem_names_of_inherits hstep)
  exact (find?_of_contains_substitute hne hx).1

theorem SoundRenaming.effective_of_substitute (hr : SoundRenaming doc r) (ha : doc.Acyclic)
    {x k : String} {p' : Schema} (h : Effective (doc.substitute r) x k p') :
    ∃ p, Effective doc x k p ∧ p' = p.rename r := by
  induction h with
  | @own x k s' p' hs hk =>
    have hx := stays_of_effective hne (.own hs hk)
    rw [ownOf_substitute hne hx] at hs
    obtain ⟨s, hown, rfl⟩ := Option.map_eq_some_iff.1 hs
    rw [Schema.properties_rename] at hk
    obtain ⟨⟨k, p⟩, hp, he⟩ := List.mem_map.1 hk
    cases he
    exact ⟨p, .own hown hp, rfl⟩
  | @inherited x b k p' hstep hp ih =>
    obtain ⟨a, hparent, rfl⟩ := (inherits_substitute hne (stays_of_effective hne (.inherited hstep hp))).1 hstep
    obtain ⟨p, hq, rfl⟩ := ih
    refine ⟨p, .inherited hparent ?_, rfl⟩
    cases hra : r.find? a with
    | none => rw [Renaming.apply_of_none hra] at hq; exact hq
    | some t =>
      rw [Renaming.apply_of_find? hra] at hq
      exact hr.effective_target (ha.founded a) t hra k p hq

theorem SoundRenaming.effective_apply (hr : SoundRenaming doc r) (ha : doc.Acyclic)
    {n k : String} {p' : Schema} (h : Effective (doc.substitute r) (r.apply n) k p') :
    ∃ p, Effective doc n k p ∧ p' = p.rename r := by
  obtain ⟨p, hp, rfl⟩ := hr.effective_of_substitute hne ha h
  refine ⟨p, ?_, rfl⟩
  cases hrn : r.find? n with
  | none => rw [Renaming.apply_of_none hrn] at hp; exact hp
  | some t =>
    rw [Renaming.apply_of_find? hrn] at hp
    exact hr.effective_target (ha.founded n) t hrn k p hp

/-! ## Well-formedness -/

theorem SoundRenaming.closed_substitute (hr : SoundRenaming doc r) (hc : doc.Closed) :
    (doc.substitute r).Closed := by
  refine ⟨fun n d hd m hm => ?_, fun m hm => ?_⟩
  · rw [find?_substitute hne] at hd
    split at hd
    · cases hd
    · obtain ⟨d, hold, rfl⟩ := Option.map_eq_some_iff.1 hd
      obtain ⟨m, hmem, rfl⟩ := Definition.mem_references_rename.1 hm
      exact hr.contains_apply hne (hc.definitions n d hold m hmem)
  · rw [pathReferences_of_paths (paths_substitute hne)] at hm
    obtain ⟨m, hmem, rfl⟩ := List.mem_map.1 hm
    exact hr.contains_apply hne (hc.operations m hmem)

theorem SoundRenaming.founded_substitute (hr : SoundRenaming doc r) {n : String}
    (hf : doc.Founded n) : (doc.substitute r).Founded (r.apply n) := by
  induction hf with
  | intro n _ ih =>
    cases h : r.find? n with
    | none =>
      refine ⟨_, fun b hb => ?_⟩
      rw [Renaming.apply_of_none h] at hb
      obtain ⟨a, ha, rfl⟩ := (inherits_substitute hne h).1 hb
      exact ih a ha
    | some t =>
      cases hr.stands n t h with
      | twin _ _ hsame =>
        refine ⟨_, fun b hb => ?_⟩
        rw [Renaming.apply_of_find? h] at hb
        obtain ⟨a, ha, rfl⟩ := (inherits_substitute hne (hr.target n t h).2).1 hb
        exact ih a ((hsame a).2 ha)
      | @heir q _ hq htq =>
        have hstep : doc.Inherits n q := by
          unfold Inherits; rw [hq]; exact List.mem_singleton_self q
        rw [Renaming.apply_of_find? h, ← htq]
        exact ih q hstep

theorem SoundRenaming.acyclic_substitute (hr : SoundRenaming doc r) (ha : doc.Acyclic) :
    (doc.substitute r).Acyclic := by
  intro n hn
  obtain ⟨b, hb, -⟩ := TransGen.head'_iff.1 hn
  have hstays := find?_of_contains_substitute hne (Table.mem_names_iff.1 (mem_names_of_inherits hb))
  have hf := hr.founded_substitute hne (ha.founded n)
  rw [Renaming.apply_of_none hstays.1] at hf
  exact hf.not_transGen hn

/-- `substitute` with a `SoundRenaming` keeps the document `WellFormed`. -/
theorem SoundRenaming.wellFormed (hr : SoundRenaming doc r) (h : doc.WellFormed) :
    (doc.substitute r).WellFormed :=
  ⟨hr.closed_substitute hne h.closed, hr.acyclic_substitute hne h.acyclic, fun n hn =>
    h.nulFree n (Table.mem_names_iff.2
      (find?_of_contains_substitute hne (Table.mem_names_iff.1 hn)).2)⟩

/-! ## Visible properties -/

omit hne in
/-- What a `SoundRenaming` takes out `Declares` nothing. -/
theorem SoundRenaming.not_declares (hr : SoundRenaming doc r) {n t k : String}
    (ht : r.find? n = some t) : ¬ doc.Declares n k := by
  rintro ⟨s, p, hs, hk⟩
  cases hr.stands n t ht with
  | twin hown _ _ => rw [hown] at hs; cases hs
  | heir hempty _ _ => rw [hempty s hs] at hk; cases hk

omit hne in
/-- The `Visible` properties of what stands for a definition by a `SoundRenaming` are visible there
too. -/
theorem SoundRenaming.visible_target (hr : SoundRenaming doc r) {n : String}
    (hf : doc.Founded n) :
    ∀ t, r.find? n = some t → ∀ k p, Visible doc t k p → Visible doc n k p := by
  induction hf with
  | intro n _ ih =>
    intro t ht k p hp
    have hnot : ¬ doc.Declares n k := hr.not_declares ht
    cases hr.stands n t ht with
    | twin _ hown hsame =>
      cases hp with
      | own hs _ => rw [hown] at hs; cases hs
      | inherited _ hstep hp => exact .inherited hnot ((hsame _).2 hstep) hp
    | @heir q _ hq htq =>
      have hstep : doc.Inherits n q := by unfold Inherits; rw [hq]; exact List.mem_singleton_self q
      refine .inherited hnot hstep ?_
      cases hrq : r.find? q with
      | none => rw [Renaming.apply_of_none hrq] at htq; subst htq; exact hp
      | some t' =>
        rw [Renaming.apply_of_find? hrq] at htq
        subst htq
        exact ih q hstep _ hrq k p hp

omit hne in
theorem SoundRenaming.visible_of_apply (hr : SoundRenaming doc r) (ha : doc.Acyclic)
    {n k : String} {p : Schema} (h : Visible doc (r.apply n) k p) : Visible doc n k p := by
  cases hn : r.find? n with
  | none => rw [Renaming.apply_of_none hn] at h; exact h
  | some t =>
    rw [Renaming.apply_of_find? hn] at h
    exact hr.visible_target (ha.founded n) t hn k p h

/-- What is `Visible` under the new name after `substitute` was visible before, with the old names
in it. -/
theorem SoundRenaming.visible_apply (hr : SoundRenaming doc r) (ha : doc.Acyclic) {n k : String}
    {p' : Schema} (h : Visible (doc.substitute r) (r.apply n) k p') :
    ∃ p, Visible doc n k p ∧ p' = p.rename r := by
  suffices ∀ {x k p'}, Visible (doc.substitute r) x k p' →
      ∃ p, Visible doc x k p ∧ p' = p.rename r by
    obtain ⟨p, hp, rfl⟩ := this h
    exact ⟨p, hr.visible_of_apply ha hp, rfl⟩
  clear h
  intro x k p' h
  induction h with
  | @own x k s' p' hs hk =>
    have hx := stays_of_effective hne (.own hs hk)
    rw [ownOf_substitute hne hx] at hs
    obtain ⟨s, hown, rfl⟩ := Option.map_eq_some_iff.1 hs
    rw [Schema.properties_rename] at hk
    obtain ⟨⟨k, p⟩, hp, he⟩ := List.mem_map.1 hk
    cases he
    exact ⟨p, .own hown hp, rfl⟩
  | @inherited x b k p' hnot hstep hp ih =>
    have hx := stays_of_effective hne (.inherited hstep hp.effective)
    obtain ⟨a, hparent, rfl⟩ := (inherits_substitute hne hx).1 hstep
    obtain ⟨p, hq, rfl⟩ := ih
    exact ⟨p, .inherited (fun hdeclares => hnot ((declares_substitute hne hx).2 hdeclares)) hparent
      (hr.visible_of_apply ha hq), rfl⟩

/-! ## References that count -/

theorem SoundRenaming.mentioned_apply (hr : SoundRenaming doc r) {n k m : String}
    (h : doc.Mentioned n k m) : (doc.substitute r).Mentioned (r.apply n) k (r.apply m) := by
  obtain ⟨p, hp, hm⟩ := h
  exact ⟨_, hr.effective_substitute hne hp, Schema.mem_references_rename hm⟩

theorem SoundRenaming.shared_apply (hr : SoundRenaming doc r) (ha : doc.Acyclic) {n k m : String}
    (h : doc.Shared n k m) : (doc.substitute r).Shared (r.apply n) k (r.apply m) := by
  obtain ⟨⟨p, hp⟩, hall⟩ := h
  refine ⟨(hr.effective_substitute hne hp.effective).exists_visible
    ((hr.acyclic_substitute hne ha).founded _), fun p' hp' => ?_⟩
  obtain ⟨q, hq, rfl⟩ := hr.visible_apply hne ha hp'
  exact Schema.mem_references_rename (hall q hq)

/-- `substitute` with a `SoundRenaming` `Carries` the document under that renaming. -/
theorem SoundRenaming.carries (hr : SoundRenaming doc r) (h : doc.WellFormed) :
    Carries doc.Mentioned (doc.substitute r).Mentioned doc (doc.substitute r) r := by
  refine ⟨paths_substitute hne, fun n hn => hr.contains_apply hne (hn.defined h.closed),
    fun n hn => hr.contains_of_apply hne hn,
    fun n _ => ⟨fun k => ⟨?_, ?_⟩, fun k p' hp => hr.effective_apply hne h.acyclic hp⟩,
    fun n _ k m hcounts => hr.mentioned_apply hne hcounts,
    fun n _ k m hshared => hr.shared_apply hne h.acyclic hshared⟩
  · rintro ⟨p', hp'⟩
    obtain ⟨p, hp, -⟩ := hr.effective_apply hne h.acyclic hp'
    exact ⟨p, hp⟩
  · rintro ⟨p, hp⟩
    exact ⟨_, hr.effective_substitute hne hp⟩

end Substitute

/-! ## Rounds -/

theorem substituteRepeatedly_carries {choose : Document → Renaming}
    (hchoose : ∀ doc : Document, doc.WellFormed → SoundRenaming doc (choose doc)) :
    ∀ (rounds : Nat) (doc : Document), doc.WellFormed →
      (substituteRepeatedly choose rounds doc).WellFormed ∧
        ∃ r, Carries doc.Mentioned (substituteRepeatedly choose rounds doc).Mentioned doc
          (substituteRepeatedly choose rounds doc) r
  | 0, doc, h => ⟨h, ∅, Carries.refl h.closed⟩
  | rounds + 1, doc, h => by
    unfold substituteRepeatedly
    simp only
    split
    · exact ⟨h, ∅, Carries.refl h.closed⟩
    · rename_i hne
      have hne := Bool.eq_false_iff.2 hne
      have hr := hchoose doc h
      obtain ⟨hwf, r, hcarries⟩ :=
        substituteRepeatedly_carries hchoose rounds _ (hr.wellFormed hne h)
      exact ⟨hwf, _, (hr.carries hne h).trans hcarries⟩

end RestSpec.Document
