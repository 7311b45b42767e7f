/-
What characters names are made of. Words keep characters of their text, and lower case leads from no
other character to U+0000; so no definition name holds U+0000 unless the name of a module does.
-/
import RestSpec.Proofs.Naming.Class
import RestSpec.Proofs.Naming.Registry

namespace RestSpec

/-- A text without the character U+0000, by `Char.ofNat 0`. -/
def NulFree (cs : List Char) : Prop := Char.ofNat 0 ∉ cs

instance (cs : List Char) : Decidable (NulFree cs) := inferInstanceAs (Decidable (_ ∉ _))

namespace Text

/-! ## Lower case -/

theorem toNat_ofNat {n : Nat} (h : n.isValidChar) : (Char.ofNat n).toNat = n := by
  unfold Char.ofNat
  rw [dif_pos h]
  rfl

theorem toLower_ne_nul {c : Char} (h : c ≠ Char.ofNat 0) : c.toLower ≠ Char.ofNat 0 := by
  unfold Char.toLower
  split
  · rename_i hrange
    have hlow : 65 ≤ c.val.toNat := UInt32.le_iff_toNat_le.1 hrange.1
    have hhigh : c.val.toNat ≤ 90 := UInt32.le_iff_toNat_le.1 hrange.2
    intro heq
    have hval := congrArg (fun d => d.val.toNat) heq
    dsimp only at hval
    rw [UInt32.toNat_add, show ('a'.val - 'A'.val).toNat = 32 from rfl,
      show (Char.ofNat 0).val.toNat = 0 from rfl] at hval
    omega
  · exact h

/-- The lower-case partners in `caseRanges` are characters other than U+0000. -/
theorem caseRanges_shift : ∀ r ∈ caseRanges, 0 < r.first + r.shift ∧
    (r.last + r.shift < 0xD800 ∨ 0xDFFF < r.first + r.shift ∧ r.last + r.shift < 0x110000) := by
  decide +kernel

theorem lowerChar_nulFree {c : Char} (h : c ≠ Char.ofNat 0) : NulFree (lowerChar c) := by
  unfold NulFree lowerChar
  split
  · simpa using (toLower_ne_nul h).symm
  · split
    · decide
    · split
      · rename_i r hfind
        obtain ⟨hpos, hvalid⟩ := caseRanges_shift r (List.mem_of_find?_eq_some hfind)
        have hin := List.find?_some hfind
        simp only [Bool.and_eq_true, decide_eq_true_eq] at hin
        obtain ⟨⟨hfirst, hlast⟩, -⟩ := hin
        rw [List.mem_singleton]
        intro heq
        -- the partner is a character, so it is U+0000 only if its number is 0
        have hchar : ((c.toNat : Int) + r.shift).toNat.isValidChar := by
          unfold Nat.isValidChar
          omega
        have hzero : ((c.toNat : Int) + r.shift).toNat = 0 := by
          rw [← toNat_ofNat hchar, ← heq]
          rfl
        omega
      · simpa using h.symm

theorem lowercaseAfter_nulFree {cs : List Char} (h : NulFree cs) (before : List Char) :
    NulFree (lowercaseAfter before cs) := by
  induction cs generalizing before with
  | nil => exact List.not_mem_nil
  | cons c cs ih =>
    unfold NulFree at h
    rw [List.mem_cons, not_or] at h
    unfold lowercaseAfter
    refine List.not_mem_append ?_ (ih h.2 _)
    split
    · split <;> decide
    · exact lowerChar_nulFree (Ne.symm h.1)

/-! ## Texts put together -/

theorem intercalate_nulFree {mark : List Char} (hmark : NulFree mark) : ∀ {ws : List (List Char)},
    (∀ w ∈ ws, NulFree w) → NulFree (mark.intercalate ws)
  | [], _ => by simp [NulFree]
  | [w], h => by simpa using h w List.mem_cons_self
  | w :: w' :: ws, h => by
    rw [List.intercalate_cons_cons]
    exact List.not_mem_append (List.not_mem_append (h w List.mem_cons_self) hmark)
      (intercalate_nulFree hmark fun x hx => h x (List.mem_cons_of_mem _ hx))

end Text

namespace Naming

open DataModel Text

/-! ## Names from identifiers -/

theorem guardStart_nulFree {cs : List Char} (h : NulFree cs) : NulFree (guardStart cs) := by
  intro hmem
  rcases mem_of_guardStart hmem with heq | hmem
  · exact absurd heq (by decide)
  · exact h hmem

theorem packageName_nulFree {moduleName : String} (h : NulFree moduleName.toList) :
    NulFree (packageName moduleName).toList := by
  unfold packageName
  dsimp only
  rw [String.toList_ofList, joined_eq_intercalate]
  refine intercalate_nulFree (by decide) fun w hw => ?_
  obtain ⟨run, hrun, rfl⟩ := List.mem_map.1 hw
  refine guardStart_nulFree fun hmem => lowercaseAfter_nulFree h [] ?_
  have hlower := mem_of_words hrun hmem
  unfold lowercase at hlower
  rwa [String.toList_ofList] at hlower

theorem className_nulFree (identifier : String) : NulFree (className identifier).toList := by
  intro hmem
  rcases mem_of_className hmem with hchar | heq
  · exact absurd hchar (by decide)
  · exact absurd heq (by decide)

/-! ## Names of nodes -/

theorem nodeClass_nulFree (model : DataModel) (id : NodeId) :
    NulFree (nodeClass model id).toList := by
  unfold nodeClass
  dsimp only
  split
  · rw [String.toList_append]
    exact List.not_mem_append (className_nulFree _) (by decide)
  · rw [String.toList_append]
    exact List.not_mem_append (className_nulFree _) (by decide)
  · exact className_nulFree _

theorem nameAmong_nulFree {model : DataModel} {id : NodeId}
    (h : NulFree (model.node id).moduleName.toList) (k : Nat) :
    NulFree (nameAmong model id k).toList := by
  unfold nameAmong extendedName
  dsimp only
  rw [String.toList_intercalate]
  refine intercalate_nulFree (by decide) fun w hw => ?_
  obtain ⟨part, hpart, rfl⟩ := List.mem_map.1 hw
  simp only [List.cons_append, List.mem_cons, List.mem_append, List.mem_map, List.not_mem_nil,
    or_false] at hpart
  rcases hpart with rfl | ⟨a, -, rfl⟩ | rfl
  · exact packageName_nulFree h
  · rw [String.toList_map]
    intro hmem
    obtain ⟨c, hc, hlower⟩ := List.mem_map.1 hmem
    refine toLower_ne_nul ?_ hlower
    rintro rfl
    exact nodeClass_nulFree model a hc
  · exact nodeClass_nulFree model id

theorem numbered_nulFree {name : String} (h : NulFree name.toList) (k : Nat) :
    NulFree (numbered name "_" k).toList := by
  have hdigits : NulFree (toString k).toList := by
    intro hmem
    have hrepr : (toString k).toList = Nat.toDigits 10 k := Nat.toList_repr
    rw [hrepr] at hmem
    exact absurd (Nat.isDigit_of_mem_toDigits (by decide) (by decide) hmem) (by decide)
  unfold numbered
  rw [String.toList_append, String.toList_append]
  exact List.not_mem_append (List.not_mem_append h (by decide)) hdigits

theorem Fresh.nulFree {taken : List String} {name : Nat → String} {last : Nat} {n : String}
    (h : Fresh taken name last n) (hname : ∀ k, NulFree (name k).toList) : NulFree n.toList := by
  cases h with
  | extended _ _ _ => exact hname _
  | numbered _ _ => exact numbered_nulFree (hname last) _

/-- Where module names are `NulFree`, the names of definitions in a `Valid` registry are. -/
theorem Registry.Valid.nulFree {model : DataModel} {r : Registry} (hr : r.Valid model)
    (hm : model.Linked) (hmodules : ∀ m ∈ model.moduleNames, NulFree m.toList) {n : String}
    {owner : NodeId} (ho : (n, owner) ∈ r.owners) : NulFree n.toList := by
  have hmodule : NulFree (model.node owner).moduleName.toList := by
    by_cases hid : owner < model.size
    · exact hmodules _ (hm.home owner hid)
    · rw [node_of_size_le (Nat.le_of_not_lt hid)]
      decide
  obtain ⟨taken, hfresh⟩ := (hr.owners n owner ho).made
  exact hfresh.nulFree (nameAmong_nulFree hmodule)

end Naming

end RestSpec
