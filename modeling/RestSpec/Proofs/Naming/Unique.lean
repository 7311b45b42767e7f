/-
Names that are not taken. Numbered names differ from each other, so among one more of them than
there are names taken is one that is free, and the search stops at the first.
-/
import Mathlib.Tactic
import RestSpec.Naming.Identifier

namespace RestSpec.Naming

theorem numbered_injective (name mark : String) : Function.Injective (numbered name mark) := by
  intro m n h
  have hchars := congrArg String.toList h
  simp only [numbered, String.toList_append] at hchars
  have hdigits := congrArg (fun cs => Nat.ofDigitChars 10 cs 0) (List.append_cancel_left hchars)
  simpa [Nat.toString_eq_ofList_toDigits] using hdigits

/-- The number `k` is the first, from one on, whose `name` is not `taken`. -/
structure FirstFree (taken : List String) (name : Nat → String) (k : Nat) : Prop where
  pos : 1 ≤ k
  free : name k ∉ taken
  before : ∀ j, 1 ≤ j → j < k → name j ∈ taken

/-- One of the first few values of an injective `name` is not `taken`. -/
theorem exists_free (taken : List String) {name : Nat → String} (h : Function.Injective name) :
    ∃ i < taken.length + 1, name (i + 1) ∉ taken := by
  by_contra hall
  push Not at hall
  have hsub : (List.range (taken.length + 1)).map (fun i => name (i + 1)) ⊆ taken := by
    intro n hn
    obtain ⟨i, hi, rfl⟩ := List.mem_map.1 hn
    exact hall i (List.mem_range.1 hi)
  have hnd : ((List.range (taken.length + 1)).map fun i => name (i + 1)).Nodup :=
    List.nodup_range.map fun i j hij => by simpa using h hij
  have := hnd.length_le_of_subset hsub
  simp at this

theorem firstFree_spec {taken : List String} {name : Nat → String} (h : Function.Injective name) :
    ∃ k, firstFree taken name = name k ∧ FirstFree taken name k := by
  obtain ⟨i, hi, hfree⟩ := exists_free taken h
  unfold firstFree
  cases hfind : (List.range (taken.length + 1)).find? fun i => !taken.contains (name (i + 1)) with
  | none =>
    have := List.find?_eq_none.1 hfind i (List.mem_range.2 hi)
    simp [hfree] at this
  | some place =>
    obtain ⟨hplace, -, hbefore⟩ := List.find?_range_eq_some.1 hfind
    refine ⟨place + 1, rfl, Nat.succ_pos place, by simpa using hplace, fun j hpos hj => ?_⟩
    have htaken := hbefore (j - 1) (by omega)
    rw [Nat.sub_add_cancel hpos] at htaken
    simpa using htaken

/-- `unique` leaves a name that is free as it is, and gives one that is `taken` the `FirstFree`
number. -/
theorem unique_spec (taken : List String) (name : String) :
    name ∉ taken ∧ unique taken name = name ∨
      name ∈ taken ∧ ∃ k, unique taken name = numbered name "_" k ∧
        FirstFree taken (numbered name "_") k := by
  unfold unique
  by_cases h : name ∈ taken
  · rw [if_pos (List.contains_iff_mem.2 h)]
    exact .inr ⟨h, firstFree_spec (numbered_injective name "_")⟩
  · rw [if_neg fun hc => h (List.contains_iff_mem.1 hc)]
    exact .inl ⟨h, rfl⟩

end RestSpec.Naming
