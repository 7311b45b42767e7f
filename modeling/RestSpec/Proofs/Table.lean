/-
Look-ups in tables. What `find?` gives after each operation is one equation, and a table holds an
entry exactly when looking its name up gives its value; so statements about tables can be made
about look-ups alone.
-/
import Mathlib.Tactic
import RestSpec.Table

namespace RestSpec

namespace Entries

variable {α β : Type}

@[simp]
theorem find?_insert (k n : String) (v : α) (es : List (String × α)) :
    find? n (insert k v es) = if k = n then some v else find? n es := by
  induction es with
  | nil => simp [insert, find?]
  | cons e es ih =>
    obtain ⟨k', v'⟩ := e
    unfold insert
    split
    · rename_i h; subst h
      by_cases hn : k = n <;> simp [find?, hn]
    · rename_i hk
      split
      · simp [find?]
      · by_cases hn : k' = n
        · subst hn; simp [find?, hk]
        · simp [find?, hn, ih]

theorem mem_of_find? {n : String} {v : α} {es : List (String × α)} (h : find? n es = some v) :
    (n, v) ∈ es := by
  induction es with
  | nil => simp [find?] at h
  | cons e es ih =>
    obtain ⟨k, w⟩ := e
    unfold find? at h
    split at h
    · rename_i hk; subst hk; cases h; exact List.mem_cons_self
    · exact List.mem_cons_of_mem _ (ih h)

theorem find?_isSome_iff {n : String} {es : List (String × α)} :
    (find? n es).isSome = true ↔ n ∈ names es := by
  induction es with
  | nil => simp [find?, names]
  | cons e es ih =>
    obtain ⟨k, w⟩ := e
    unfold find?
    split
    · rename_i hk; simp [names, hk]
    · rename_i hk
      rw [ih]; simp [names, Ne.symm hk]

/-- `find?` gives the entry of a name that does not stand twice. -/
theorem find?_of_mem {n : String} {v : α} {es : List (String × α)} (hnd : (names es).Nodup)
    (h : (n, v) ∈ es) : find? n es = some v := by
  induction es with
  | nil => cases h
  | cons e es ih =>
    obtain ⟨k, w⟩ := e
    obtain ⟨hk, hrest⟩ := List.nodup_cons.1 hnd
    unfold find?
    rcases List.mem_cons.1 h with h | h
    · cases h; simp
    · have hne : k ≠ n := fun heq => hk (heq ▸ List.mem_map.2 ⟨_, h, rfl⟩)
      rw [if_neg hne]
      exact ih hrest h

theorem find?_append (n : String) (es es' : List (String × α)) :
    find? n (es ++ es') = (find? n es).or (find? n es') := by
  induction es with
  | nil => rfl
  | cons e es ih =>
    obtain ⟨k, w⟩ := e
    simp only [List.cons_append, find?]
    split
    · rfl
    · exact ih

theorem Ascending.nodup_names {es : List (String × α)} (h : Ascending es) : (names es).Nodup :=
  List.pairwise_map.2 (h.imp fun hlt => Std.ne_of_lt hlt)

theorem find?_map (f : String → α → β) (n : String) (es : List (String × α)) :
    find? n (es.map fun (k, v) => (k, f k v)) = (find? n es).map (f n) := by
  induction es with
  | nil => rfl
  | cons e es ih =>
    obtain ⟨k, w⟩ := e
    simp only [List.map_cons, find?]
    split
    · rename_i hk; subst hk; rfl
    · exact ih

theorem find?_filter (keep : String → Bool) (n : String) (es : List (String × α)) :
    find? n (es.filter fun e => keep e.1) = if keep n then find? n es else none := by
  induction es with
  | nil => simp [find?]
  | cons e es ih =>
    obtain ⟨k, w⟩ := e
    by_cases hk : keep k = true
    · rw [List.filter_cons_of_pos (by simpa using hk)]
      simp only [find?]
      split
      · rename_i h; subst h; simp [hk]
      · exact ih
    · rw [List.filter_cons_of_neg (by simpa using hk), ih]
      by_cases hn : k = n
      · subst hn; simp [hk]
      · simp [find?, hn]

/-- `find?` after inserting one entry after the other gives the last one of the name. -/
theorem find?_foldl_insert (n : String) (es start : List (String × α)) :
    find? n (es.foldl (fun table (k, v) => insert k v table) start) =
      (find? n es.reverse).or (find? n start) := by
  induction es generalizing start with
  | nil => rfl
  | cons e es ih =>
    obtain ⟨k, v⟩ := e
    rw [List.foldl_cons, ih, List.reverse_cons, find?_insert, find?_append]
    cases find? n es.reverse
    · simp only [Option.none_or, find?]
      split <;> rfl
    · rfl

theorem mem_names_insert {k n : String} {v : α} {es : List (String × α)} :
    n ∈ names (insert k v es) ↔ n = k ∨ n ∈ names es := by
  rw [← find?_isSome_iff, find?_insert, ← find?_isSome_iff]
  split
  · rename_i h; simp [h]
  · rename_i h; simp [Ne.symm h]

/-- `insert` leaves what stands under other names. -/
theorem mem_insert_of_mem {k : String} {v : α} {e : String × α} {es : List (String × α)}
    (h : e ∈ es) (hk : e.1 ≠ k) : e ∈ insert k v es := by
  induction es with
  | nil => cases h
  | cons a es ih =>
    obtain ⟨n, w⟩ := a
    unfold insert
    split
    · rename_i hn
      rcases List.mem_cons.1 h with rfl | h
      · exact absurd hn.symm hk
      · exact List.mem_cons_of_mem _ h
    · split
      · exact List.mem_cons_of_mem _ h
      · rcases List.mem_cons.1 h with rfl | h
        · exact List.mem_cons_self
        · exact List.mem_cons_of_mem _ (ih h)

end Entries

namespace Table

variable {α β : Type} (t : Table α)

@[simp]
theorem find?_empty (n : String) : (∅ : Table α).find? n = none := rfl

@[simp]
theorem find?_insert (k n : String) (v : α) :
    (t.insert k v).find? n = if k = n then some v else t.find? n :=
  Entries.find?_insert k n v t.entries

theorem mem_entries_iff {t : Table α} {n : String} {v : α} :
    (n, v) ∈ t.entries ↔ t.find? n = some v :=
  ⟨Entries.find?_of_mem t.ascending.nodup_names, Entries.mem_of_find?⟩

theorem contains_iff {t : Table α} {n : String} :
    t.contains n = true ↔ ∃ v, t.find? n = some v := by
  rw [contains, Option.isSome_iff_exists]

theorem contains_of_find? {t : Table α} {n : String} {v : α} (h : t.find? n = some v) :
    t.contains n = true :=
  contains_iff.2 ⟨v, h⟩

theorem mem_names_iff {t : Table α} {n : String} : n ∈ t.names ↔ t.contains n = true :=
  Entries.find?_isSome_iff.symm

/-- A `Table` is no more than its look-ups by `find?`. -/
theorem ext_find? {s t : Table α} (h : ∀ n, s.find? n = t.find? n) : s = t := by
  have hnodup : ∀ t : Table α, t.entries.Nodup := fun t =>
    t.ascending.nodup_names.of_map Prod.fst
  have hperm : s.entries.Perm t.entries := by
    refine (List.perm_ext_iff_of_nodup (hnodup s) (hnodup t)).2 fun ⟨n, v⟩ => ?_
    rw [mem_entries_iff, mem_entries_iff, h]
  refine Table.ext (hperm.eq_of_pairwise (fun a b _ _ hab hba => ?_) s.ascending t.ascending)
  exact absurd (String.lt_trans hab hba) (String.lt_irrefl _)

theorem isEmpty_iff {t : Table α} :
    t.isEmpty = true ↔ ∀ n, t.find? n = none := by
  unfold isEmpty
  rw [List.isEmpty_iff]
  constructor
  · intro h n
    refine Option.eq_none_iff_forall_ne_some.2 fun v hv => ?_
    have hmem := mem_entries_iff.2 hv
    rw [h] at hmem
    cases hmem
  · intro h
    refine List.eq_nil_iff_forall_not_mem.2 fun ⟨n, v⟩ hmem => ?_
    exact nomatch (h n).symm.trans (mem_entries_iff.1 hmem)

theorem eq_empty {t : Table α} (h : t.isEmpty = true) : t = ∅ := ext_find? (isEmpty_iff.1 h)

theorem exists_of_isEmpty_eq_false {t : Table α} (h : t.isEmpty = false) :
    ∃ n v, t.find? n = some v := by
  by_contra hnone
  simp only [not_exists] at hnone
  rw [isEmpty_iff.2 fun n => Option.eq_none_iff_forall_ne_some.2 fun v => hnone n v] at h
  cases h

theorem isEmpty_eq_false {t : Table α} {n : String} {v : α} (h : t.find? n = some v) :
    t.isEmpty = false :=
  Bool.eq_false_iff.2 fun hempty => nomatch h.symm.trans (isEmpty_iff.1 hempty n)

theorem contains_insert {t : Table α} {k n : String} {v : α} :
    (t.insert k v).contains n = true ↔ n = k ∨ t.contains n = true := by
  rw [← mem_names_iff, ← mem_names_iff]
  exact Entries.mem_names_insert

/-- `insert` under a new name leaves what `find?` gives for any other. -/
theorem find?_insert_of_new {t : Table α} {k n : String} {v w : α} (hnew : t.contains k = false)
    (hn : t.find? n = some w) : (t.insert k v).find? n = some w := by
  rw [find?_insert, if_neg]
  · exact hn
  · rintro rfl
    rw [contains_of_find? hn] at hnew
    cases hnew

@[simp]
theorem find?_map (f : String → α → β) (n : String) : (t.map f).find? n = (t.find? n).map (f n) :=
  Entries.find?_map f n t.entries

@[simp]
theorem find?_mapValues (f : α → β) (n : String) :
    (t.mapValues f).find? n = (t.find? n).map f :=
  Entries.find?_map (fun _ => f) n t.entries

theorem mapValues_mapValues {γ : Type} (t : Table α) (f : α → β) (g : β → γ) :
    (t.mapValues f).mapValues g = t.mapValues (g ∘ f) := by
  apply Table.ext
  simp [mapValues, map, Function.comp_def]

@[simp]
theorem find?_filter (keep : String → Bool) (n : String) :
    (t.filter fun k _ => keep k).find? n = if keep n then t.find? n else none :=
  Entries.find?_filter keep n t.entries

theorem find?_ofList (es : List (String × α)) (n : String) :
    (ofList es).find? n = Entries.find? n es.reverse := by
  show Entries.find? n (es.foldl _ []) = _
  rw [Entries.find?_foldl_insert]
  cases Entries.find? n es.reverse <;> rfl

theorem mem_names_ofList {es : List (String × α)} {n : String} :
    n ∈ (ofList es).names ↔ n ∈ es.map (·.1) := by
  rw [mem_names_iff, contains, find?_ofList, Entries.find?_isSome_iff]
  simp [Entries.names]

theorem mem_of_find?_ofList {es : List (String × α)} {n : String} {v : α}
    (h : (ofList es).find? n = some v) : (n, v) ∈ es := by
  rw [find?_ofList] at h
  exact List.mem_reverse.1 (Entries.mem_of_find? h)

/-- `ofList` has an entry that is listed if no other one is listed under its name. -/
theorem find?_ofList_of_unique {es : List (String × α)} {n : String} {v : α} (h : (n, v) ∈ es)
    (hu : ∀ w, (n, w) ∈ es → w = v) : (ofList es).find? n = some v := by
  have hn : n ∈ (ofList es).names := mem_names_ofList.2 (List.mem_map.2 ⟨_, h, rfl⟩)
  obtain ⟨w, hw⟩ := contains_iff.1 (mem_names_iff.1 hn)
  rw [hw, hu w (mem_of_find?_ofList hw)]

theorem find?_ofList_append (es es' : List (String × α)) (n : String) :
    (ofList (es ++ es')).find? n = ((ofList es').find? n).or ((ofList es).find? n) := by
  rw [find?_ofList, find?_ofList, find?_ofList, List.reverse_append, Entries.find?_append]

@[simp]
theorem find?_ofList_entries (n : String) : (ofList t.entries).find? n = t.find? n := by
  cases h : t.find? n with
  | some v =>
    refine find?_ofList_of_unique (mem_entries_iff.2 h) fun w hw => ?_
    rw [mem_entries_iff.1 hw] at h
    exact Option.some.inj h
  | none =>
    cases h' : (ofList t.entries).find? n with
    | none => rfl
    | some v =>
      have := mem_entries_iff.1 (mem_of_find?_ofList h')
      rw [h] at this; cases this

/-- `find?` in a table of what is made from some entries of a table, under the same names. -/
theorem find?_ofList_filterMap {β : Type} (f : String → α → Option β) (n : String) :
    (ofList (t.entries.filterMap fun e => (f e.1 e.2).map (e.1, ·))).find? n =
      (t.find? n).bind (f n) := by
  have hmem : ∀ w, (n, w) ∈ (t.entries.filterMap fun e => (f e.1 e.2).map (e.1, ·)) ↔
      (t.find? n).bind (f n) = some w := by
    intro w
    rw [List.mem_filterMap, Option.bind_eq_some_iff]
    constructor
    · rintro ⟨e, he, hmap⟩
      obtain ⟨w', hw, heq⟩ := Option.map_eq_some_iff.1 hmap
      cases heq
      exact ⟨e.2, mem_entries_iff.1 he, hw⟩
    · rintro ⟨v, hv, hw⟩
      exact ⟨(n, v), mem_entries_iff.2 hv, by rw [hw]; rfl⟩
  refine Option.ext fun w => ⟨fun h => (hmem w).1 (mem_of_find?_ofList h), fun h => ?_⟩
  -- a name has one entry in the table, so one thing at most is made under it
  refine find?_ofList_of_unique ((hmem w).2 h) fun w' hw' => ?_
  exact Option.some.inj (((hmem w').1 hw').symm.trans h)

end Table

end RestSpec
