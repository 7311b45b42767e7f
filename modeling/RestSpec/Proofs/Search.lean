/-
Search finds what can be reached. As long as there is more fuel than there are names that lead on
and have not been met, a depth-first visit meets the name and everything it leads to, finishes each
name that it meets after all that it leads to, and meets nothing else. A queue of names comes to an
end too, and then the same names have been met.
-/
import Mathlib.Tactic
import Mathlib.Logic.Relation
import RestSpec.Pass.Usage
import RestSpec.Proofs.Table

namespace RestSpec

theorem mem_nameSet {names : List String} {n : String} : n ∈ nameSet names ↔ n ∈ names := by
  unfold nameSet
  rw [Table.mem_names_ofList]
  simp

/-- A `nameSet` depends on the members of the list alone. -/
theorem nameSet_ext {l l' : List String} (h : ∀ n, n ∈ l ↔ n ∈ l') : nameSet l = nameSet l' := by
  have hsorted : ∀ l : List String, (nameSet l).Pairwise (· < ·) := fun l =>
    List.pairwise_map.2 (Table.ofList (l.map (·, ()))).ascending
  have hnodup : ∀ l : List String, (nameSet l).Nodup := fun l => (hsorted l).imp Std.ne_of_lt
  refine List.Perm.eq_of_pairwise (fun a b _ _ hab hba => ?_) (hsorted l) (hsorted l')
    ((List.perm_ext_iff_of_nodup (hnodup l) (hnodup l')).2 fun n => ?_)
  · exact absurd (String.lt_trans hab hba) (String.lt_irrefl a)
  · rw [mem_nameSet, mem_nameSet]
    exact h n

namespace Search

open Relation (TransGen ReflTransGen)

/-- The name `b` is among those that `next` has for `a`. -/
def Leads (next : String → List String) (a b : String) : Prop := b ∈ next a

/-- How many of the names `defined`, the only ones that lead on, have not been `met`. -/
def unmet (defined met : List String) : Nat := (defined.filter fun n => !met.contains n).length

theorem mem_unmet_filter {defined met : List String} {n : String} :
    n ∈ defined.filter (fun n => !met.contains n) ↔ n ∈ defined ∧ n ∉ met := by
  rw [List.mem_filter]
  simp

theorem unmet_sublist (defined : List String) {met met' : List String} (h : met ⊆ met') :
    (defined.filter fun n => !met'.contains n).Sublist
      (defined.filter fun n => !met.contains n) := by
  refine List.monotone_filter_right defined fun n hn => ?_
  simp only [Bool.not_eq_true', Bool.eq_false_iff, ne_eq, List.contains_iff_mem] at hn ⊢
  exact fun hm => hn (h hm)

theorem unmet_mono {defined met met' : List String} (h : met ⊆ met') :
    unmet defined met' ≤ unmet defined met :=
  (unmet_sublist defined h).length_le

theorem unmet_cons_lt {defined met : List String} {n : String} (hd : n ∈ defined) (hn : n ∉ met) :
    unmet defined (n :: met) < unmet defined met := by
  have hsub := unmet_sublist defined (List.subset_cons_self n met)
  refine lt_of_le_of_ne hsub.length_le fun heq => ?_
  have hmem : n ∈ defined.filter fun a => !(n :: met).contains a := by
    rw [hsub.eq_of_length heq]
    exact mem_unmet_filter.2 ⟨hd, hn⟩
  exact (mem_unmet_filter.1 hmem).2 List.mem_cons_self

/-- Names of which none `Leads` to a later one. -/
def Ordered (next : String → List String) (names : List String) : Prop :=
  names.Pairwise fun earlier later => ¬ Leads next earlier later

/-- What a search that went on from `s` over some names has done. If no name leads back to itself,
names are left behind after all that they lead to. -/
structure Covers (next : String → List String) (s s' : Search) (names : List String) : Prop where
  met : s.met ⊆ s'.met
  visited : names ⊆ s'.met
  reached : ∀ x ∈ s'.met, x ∈ s.met ∨ ∃ n ∈ names, ReflTransGen (Leads next) n x
  closed : ∀ x ∈ s'.met, x ∉ s.met → ∀ y ∈ next x, y ∈ s'.met
  finished : ∃ new, s'.finished = s.finished ++ new ∧ ∀ x, x ∈ new ↔ x ∈ s'.met ∧ x ∉ s.met
  ordered : (∀ x, ¬ TransGen (Leads next) x x) → (∀ x ∈ s.finished, next x ⊆ s.met) →
    Ordered next s.finished → Ordered next s'.finished

theorem Covers.refl (next : String → List String) (s : Search) : Covers next s s [] :=
  ⟨List.Subset.refl _, List.nil_subset _, fun _ h => .inl h, fun _ h hn => absurd h hn,
    ⟨[], by simp, by simp⟩, fun _ _ h => h⟩

/-- What a search that `Covers` its names has left behind leads to names that have been `met`. -/
theorem Covers.settled {next : String → List String} {s s' : Search} {names : List String}
    (h : Covers next s s' names) (hs : ∀ x ∈ s.finished, next x ⊆ s.met) :
    ∀ x ∈ s'.finished, next x ⊆ s'.met := by
  obtain ⟨new, hf, hnew⟩ := h.finished
  intro x hx
  rw [hf] at hx
  rcases List.mem_append.1 hx with hx | hx
  · exact List.Subset.trans (hs x hx) h.met
  · obtain ⟨hx, hnot⟩ := (hnew x).1 hx
    exact h.closed x hx hnot

theorem Covers.append {next : String → List String} {s s' s'' : Search} {ms ns : List String}
    (h : Covers next s s' ms) (h' : Covers next s' s'' ns) : Covers next s s'' (ms ++ ns) := by
  obtain ⟨new, hf, hnew⟩ := h.finished
  obtain ⟨new', hf', hnew'⟩ := h'.finished
  refine ⟨List.Subset.trans h.met h'.met,
    List.append_subset.2 ⟨List.Subset.trans h.visited h'.met, h'.visited⟩, ?_, ?_,
    ⟨new ++ new', by rw [hf', hf, List.append_assoc], fun x => ?_⟩,
    fun hacyclic hs hordered => h'.ordered hacyclic (h.settled hs) (h.ordered hacyclic hs hordered)⟩
  · intro x hx
    rcases h'.reached x hx with hx | ⟨n, hn, hr⟩
    · rcases h.reached x hx with hx | ⟨n, hn, hr⟩
      · exact .inl hx
      · exact .inr ⟨n, List.mem_append_left _ hn, hr⟩
    · exact .inr ⟨n, List.mem_append_right _ hn, hr⟩
  · intro x hx hxs y hy
    by_cases hm : x ∈ s'.met
    · exact h'.met (h.closed x hm hxs y hy)
    · exact h'.closed x hx hm y hy
  · rw [List.mem_append, hnew, hnew']
    constructor
    · rintro (⟨h1, h2⟩ | ⟨h1, h2⟩)
      · exact ⟨h'.met h1, h2⟩
      · exact ⟨h1, fun hs => h2 (h.met hs)⟩
    · rintro ⟨h1, h2⟩
      by_cases hm : x ∈ s'.met
      · exact .inl ⟨hm, h2⟩
      · exact .inr ⟨h1, hm⟩

/-- A fold of visits `Covers` its names if each visit does. -/
theorem covers_foldl {next : String → List String} {visit : Search → String → Search}
    {fuel : Nat} {defined : List String}
    (hv : ∀ s n, unmet defined s.met < fuel → Covers next s (visit s n) [n]) :
    ∀ (names : List String) (s : Search), unmet defined s.met < fuel →
      Covers next s (names.foldl visit s) names
  | [], s, _ => Covers.refl next s
  | n :: names, s, hs => by
    have h := hv s n hs
    exact h.append (covers_foldl hv names _ (lt_of_le_of_lt (unmet_mono h.met) hs))

/-- To leave a name behind after all that it leads to keeps the order: what was left behind before
does not lead to the name, for it leads to what had been `met`, nor does what was left behind on the
way, for the name leads there. -/
theorem Covers.ordered_leave {next : String → List String} {s s₁ : Search} {name : String}
    (h : Covers next { s with met := name :: s.met } s₁ (next name)) (hm : name ∉ s.met)
    (hacyclic : ∀ x, ¬ TransGen (Leads next) x x) (hs : ∀ x ∈ s.finished, next x ⊆ s.met)
    (hordered : Ordered next s.finished) : Ordered next (s₁.finished ++ [name]) := by
  have hs' : ∀ x ∈ s.finished, next x ⊆ name :: s.met :=
    fun x hx => List.Subset.trans (hs x hx) (List.subset_cons_self _ _)
  obtain ⟨new, hf, hnew⟩ := h.finished
  refine List.pairwise_append.2 ⟨h.ordered hacyclic hs' hordered, List.pairwise_singleton _ _,
    fun x hx y hy hxy => ?_⟩
  obtain rfl := List.mem_singleton.1 hy
  rw [hf] at hx
  rcases List.mem_append.1 hx with hx | hx
  · exact hm (hs x hx hxy)
  · obtain ⟨hmet, hnot⟩ := (hnew x).1 hx
    obtain ⟨n, hn, hr⟩ := (h.reached x hmet).resolve_left hnot
    exact hacyclic _ (TransGen.tail (TransGen.head' hn hr) hxy)

/-- A visit `Covers` its name, given fuel for all names that are `unmet`. -/
theorem covers_visit {next : String → List String} {defined : List String}
    (hnext : ∀ n, n ∉ defined → next n = []) :
    ∀ (depth : Nat) (s : Search) (name : String), unmet defined s.met < depth →
      Covers next s (visit next depth s name) [name]
  | 0, s, name, h => absurd h (Nat.not_lt_zero _)
  | depth + 1, s, name, h => by
    unfold visit
    split
    · rename_i hm
      have hm : name ∈ s.met := List.contains_iff_mem.1 hm
      exact ⟨List.Subset.refl _, by simpa using hm, fun _ hx => .inl hx,
        fun _ hx hn => absurd hx hn, ⟨[], by simp, by simp⟩, fun _ _ h => h⟩
    · rename_i hm
      have hm : name ∉ s.met := fun hc => hm (List.contains_iff_mem.2 hc)
      -- `name` counts as met while its targets are visited, so less is left for them to meet
      have hin : Covers next { s with met := name :: s.met }
          ((next name).foldl (visit next depth) { s with met := name :: s.met }) (next name) := by
        by_cases hd : name ∈ defined
        · have hlt := unmet_cons_lt hd hm
          exact covers_foldl (fun s n hs => covers_visit hnext depth s n hs) _ _
            (by show unmet defined (name :: s.met) < depth; omega)
        · rw [hnext name hd]; exact Covers.refl next _
      obtain ⟨new, hf, hnew⟩ := hin.finished
      refine ⟨fun x hx => hin.met (List.mem_cons_of_mem _ hx),
        by simpa using hin.met (List.mem_cons_self), ?_, ?_, ⟨new ++ [name], ?_, fun x => ?_⟩,
        fun hacyclic hs hordered => ?_⟩
      · intro x hx
        rcases hin.reached x hx with hx | ⟨n, hn, hr⟩
        · rcases List.mem_cons.1 hx with rfl | hx
          · exact .inr ⟨x, by simp, .refl⟩
          · exact .inl hx
        · exact .inr ⟨name, by simp, .head hn hr⟩
      · intro x hx hxs y hy
        by_cases hxn : x = name
        · subst hxn; exact hin.visited hy
        · exact hin.closed x hx (by simp [hxn, hxs]) y hy
      · show _ ++ [name] = _
        rw [hf, List.append_assoc]
      · show x ∈ new ++ [name] ↔ x ∈ (_ : Search).met ∧ _
        rw [List.mem_append, hnew, List.mem_singleton]
        constructor
        · rintro (⟨h1, h2⟩ | rfl)
          · exact ⟨h1, fun hs => h2 (List.mem_cons_of_mem _ hs)⟩
          · exact ⟨hin.met (List.mem_cons_self), hm⟩
        · rintro ⟨h1, h2⟩
          by_cases hxn : x = name
          · exact .inr hxn
          · exact .inl ⟨h1, by simp [hxn, h2]⟩
      · exact hin.ordered_leave hm hacyclic hs hordered

/-- What a search that `Covers` the names has `met` is closed from then on: all that `Leads` from
these names has been met, and no more. -/
theorem Covers.mem_iff {next : String → List String} {s' : Search} {names : List String}
    (h : Covers next {} s' names) (x : String) :
    x ∈ s'.met ↔ ∃ n ∈ names, ReflTransGen (Leads next) n x := by
  constructor
  · intro hx
    exact (h.reached x hx).resolve_left (by simp)
  · rintro ⟨n, hn, hr⟩
    induction hr with
    | refl => exact h.visited hn
    | tail _ hstep ih => exact h.closed _ ih (by simp) _ hstep

/-! ## A queue -/

/-- The state of a search with a queue: the names `met`, and the names `waiting`. -/
structure Queue where
  met : List String := []
  waiting : List String

/-- One turn of a `Queue`. A name that has been `met` is passed over; another one is met, and what
it leads to by `next` and has not been met goes to the end of the queue. -/
inductive Turn (next : String → List String) : Queue → Queue → Prop
  | again {met rest : List String} {name : String} :
      name ∈ met → Turn next ⟨met, name :: rest⟩ ⟨met, rest⟩
  | first {met rest : List String} {name : String} :
      name ∉ met → Turn next ⟨met, name :: rest⟩
        ⟨name :: met, rest ++ (next name).filter fun n => !(name :: met).contains n⟩

/-- What a queue keeps to: it holds no more than `roots` lead to, and what is met leads to no more
than it holds. -/
structure Queue.Fits (next : String → List String) (roots : List String) (q : Queue) : Prop where
  started : roots ⊆ q.met ++ q.waiting
  reached : ∀ x ∈ q.met ++ q.waiting, ∃ n ∈ roots, ReflTransGen (Leads next) n x
  closed : ∀ x ∈ q.met, next x ⊆ q.met ++ q.waiting

theorem Turn.fits {next : String → List String} {roots : List String} {q q' : Queue}
    (h : Turn next q q') (hq : q.Fits next roots) : q'.Fits next roots := by
  cases h with
  | @again met rest name hmet =>
    have hsame : ∀ x, x ∈ met ++ name :: rest ↔ x ∈ met ++ rest := by
      intro x
      simp only [List.mem_append, List.mem_cons]
      constructor
      · rintro (hx | rfl | hx)
        · exact .inl hx
        · exact .inl hmet
        · exact .inr hx
      · rintro (hx | hx)
        · exact .inl hx
        · exact .inr (.inr hx)
    exact ⟨fun x hx => (hsame x).1 (hq.started hx), fun x hx => hq.reached x ((hsame x).2 hx),
      fun x hx y hy => (hsame y).1 (hq.closed x hx hy)⟩
  | @first met rest name hmet =>
    have hgrown : ∀ x ∈ met ++ name :: rest,
        x ∈ name :: met ++ (rest ++ (next name).filter fun n => !(name :: met).contains n) := by
      intro x hx
      simp only [List.mem_append, List.mem_cons] at hx ⊢
      tauto
    have hname : ∃ n ∈ roots, ReflTransGen (Leads next) n name := hq.reached name (by simp)
    refine ⟨fun x hx => hgrown x (hq.started hx), fun x hx => ?_, fun x hx y hy => ?_⟩
    · simp only [List.mem_append, List.mem_cons, List.mem_filter] at hx
      rcases hx with (rfl | hx) | hx | ⟨hx, -⟩
      · exact hname
      · exact hq.reached x (by simp [hx])
      · exact hq.reached x (by simp [hx])
      · obtain ⟨n, hn, hr⟩ := hname
        exact ⟨n, hn, hr.tail hx⟩
    · rcases List.mem_cons.1 hx with rfl | hx
      · by_cases hy' : y ∈ x :: met
        · exact List.mem_append_left _ hy'
        · exact List.mem_append_right _ (List.mem_append_right _
            (List.mem_filter.2 ⟨hy, by simpa using hy'⟩))
      · exact hgrown y (hq.closed x hx hy)

/-- Every `Queue` comes to an end: with each `Turn` a name that leads on is met, or fewer names
wait. -/
theorem exists_emptied {next : String → List String} {defined : List String}
    (hnext : ∀ n, n ∉ defined → next n = []) (met waiting : List String) :
    ∃ met', ReflTransGen (Turn next) ⟨met, waiting⟩ ⟨met', []⟩ := by
  match waiting with
  | [] => exact ⟨met, .refl⟩
  | name :: rest =>
    by_cases hmet : name ∈ met
    · obtain ⟨met', hrun⟩ := exists_emptied hnext met rest
      exact ⟨met', .head (.again hmet) hrun⟩
    · by_cases hd : name ∈ defined
      · have hlt := unmet_cons_lt hd hmet
        obtain ⟨met', hrun⟩ := exists_emptied hnext (name :: met)
          (rest ++ (next name).filter fun n => !(name :: met).contains n)
        exact ⟨met', .head (.first hmet) hrun⟩
      · have hle : unmet defined (name :: met) ≤ unmet defined met :=
          unmet_mono (List.subset_cons_self name met)
        obtain ⟨met', hrun⟩ := exists_emptied hnext (name :: met) rest
        refine ⟨met', .head (.first hmet) ?_⟩
        rw [hnext name hd, List.filter_nil, List.append_nil]
        exact hrun
termination_by (unmet defined met, waiting.length)
decreasing_by
  · exact .right _ (Nat.lt_succ_self _)
  · exact .left _ _ hlt
  · rcases hle.lt_or_eq with hlt | heq
    · exact .left _ _ hlt
    · rw [heq]
      exact .right _ (Nat.lt_succ_self _)

/-- When no name of a `Queue` waits any more, exactly what the first names lead to has been
`met`. -/
theorem mem_emptied_iff {next : String → List String} {roots met : List String}
    (h : ReflTransGen (Turn next) ⟨[], roots⟩ ⟨met, []⟩) (x : String) :
    x ∈ met ↔ ∃ n ∈ roots, ReflTransGen (Leads next) n x := by
  have hfits : ∀ q, ReflTransGen (Turn next) ⟨[], roots⟩ q → q.Fits next roots := by
    intro q hrun
    induction hrun with
    | refl => exact ⟨List.Subset.refl _, fun x hx => ⟨x, hx, .refl⟩, fun x hx => nomatch hx⟩
    | tail _ hturn ih => exact hturn.fits ih
  obtain ⟨hroots, hreached, hclosed⟩ := hfits _ h
  simp only [List.append_nil] at hroots hreached hclosed
  constructor
  · exact hreached x
  · rintro ⟨n, hn, hr⟩
    induction hr with
    | refl => exact hroots hn
    | tail _ hstep ih => exact hclosed _ ih hstep

end Search

end RestSpec
