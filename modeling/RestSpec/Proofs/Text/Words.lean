/-
What a text has as its words. A word goes up to the next mark, and marks in front of a text and
behind it make no difference; a text of class characters alone is one word. All that words hold is in
the text they are taken from.
-/
import Mathlib.Data.List.Basic
import RestSpec.Text.Words

namespace RestSpec.Text

variable {p : Char → Bool} {c : Char} {w cs : List Char}

theorem words_eq (p : Char → Bool) (cs : List Char) :
    words p cs = if (openingRun p cs).1.isEmpty then (openingRun p cs).2
      else (openingRun p cs).1 :: (openingRun p cs).2 :=
  rfl

/-! ## Words and marks -/

theorem openingRun_append (h : ∀ x ∈ w, p x = true) (cs : List Char) :
    openingRun p (w ++ cs) = (w ++ (openingRun p cs).1, (openingRun p cs).2) := by
  induction w with
  | nil => rfl
  | cons x w ih =>
    obtain ⟨hx, hw⟩ := List.forall_mem_cons.1 h
    simp only [List.cons_append, openingRun, ih hw, hx, if_true]

theorem openingRun_mark (hc : p c = false) (cs : List Char) :
    openingRun p (c :: cs) = ([], words p cs) := by
  simp only [openingRun, hc, Bool.false_eq_true, if_false, words]

theorem words_mark (hc : p c = false) (cs : List Char) : words p (c :: cs) = words p cs := by
  rw [words_eq, openingRun_mark hc]
  rfl

theorem openingRun_append_mark (hc : p c = false) (cs : List Char) :
    openingRun p (cs ++ [c]) = openingRun p cs := by
  induction cs with
  | nil => exact openingRun_mark hc []
  | cons x cs ih => simp only [List.cons_append, openingRun, ih]

theorem words_append_mark (hc : p c = false) (cs : List Char) :
    words p (cs ++ [c]) = words p cs := by
  rw [words_eq, openingRun_append_mark hc, words_eq]

/-- `words` has a word that goes up to the next mark. -/
theorem words_append (h : ∀ x ∈ w, p x = true) (hw : w ≠ [])
    (hcs : ∀ x ∈ cs.head?, p x = false) : words p (w ++ cs) = w :: words p cs := by
  have hrun : (openingRun p cs).1 = [] ∧ (openingRun p cs).2 = words p cs := by
    cases cs with
    | nil => exact ⟨rfl, rfl⟩
    | cons c cs =>
      have hc : p c = false := hcs c rfl
      rw [openingRun_mark hc, words_mark hc]
      exact ⟨rfl, rfl⟩
  rw [words_eq, openingRun_append h, hrun.1, hrun.2, List.append_nil, if_neg (by simpa using hw)]

theorem words_of_all (h : ∀ x ∈ w, p x = true) (hw : w ≠ []) : words p w = [w] := by
  have happend : words p (w ++ []) = w :: words p [] := words_append h hw nofun
  rw [List.append_nil] at happend
  exact happend

/-- The `words` of a text in which a mark stands before each. -/
theorem words_flatMap (hc : p c = false) {tail : List Char} (htail : tail = [] ∨ tail = [c]) :
    ∀ ws : List (List Char), (∀ w ∈ ws, w ≠ [] ∧ ∀ x ∈ w, p x = true) →
      words p (ws.flatMap (c :: ·) ++ tail) = ws
  | [], _ => by
    rcases htail with rfl | rfl
    · rfl
    · exact words_mark hc []
  | w :: ws, h => by
    obtain ⟨⟨hw, hall⟩, hrest⟩ := List.forall_mem_cons.1 h
    have hhead : ∀ x ∈ (ws.flatMap (c :: ·) ++ tail).head?, p x = false := by
      intro x hx
      cases ws with
      | nil => rcases htail with rfl | rfl <;> simp_all
      | cons w' ws => simp_all
    rw [List.flatMap_cons, List.cons_append, List.cons_append, List.append_assoc, words_mark hc,
      words_append hall hw hhead, words_flatMap hc htail ws hrest]

/-! ## Characters of words -/

theorem mem_of_openingRun (h : c ∈ (openingRun p cs).1 ∨ ∃ w ∈ (openingRun p cs).2, c ∈ w) :
    c ∈ cs := by
  induction cs with
  | nil => simp [openingRun] at h
  | cons d cs ih =>
    unfold openingRun at h
    dsimp only at h
    split at h
    · rcases h with h | h
      · rcases List.mem_cons.1 h with rfl | h
        · exact List.mem_cons_self
        · exact List.mem_cons_of_mem _ (ih (.inl h))
      · exact List.mem_cons_of_mem _ (ih (.inr h))
    · refine List.mem_cons_of_mem _ (ih ?_)
      obtain ⟨w, hw, hc⟩ := h.resolve_left List.not_mem_nil
      split at hw
      · exact .inr ⟨w, hw, hc⟩
      · rcases List.mem_cons.1 hw with rfl | hw
        · exact .inl hc
        · exact .inr ⟨w, hw, hc⟩

/-- The characters of one of the `words` are characters of the text. -/
theorem mem_of_words (hw : w ∈ words p cs) (hc : c ∈ w) : c ∈ cs := by
  unfold words at hw
  dsimp only at hw
  split at hw
  · exact mem_of_openingRun (.inr ⟨w, hw, hc⟩)
  · rcases List.mem_cons.1 hw with rfl | hw
    · exact mem_of_openingRun (.inl hc)
    · exact mem_of_openingRun (.inr ⟨w, hw, hc⟩)

/-! ## Words put together -/

theorem joined_eq_intercalate (mark : List Char) : ∀ ws : List (List Char),
    joined mark ws = mark.intercalate ws
  | [] => rfl
  | [w] => by simp [joined]
  | w :: w' :: ws => by
    rw [joined, joined_eq_intercalate mark (w' :: ws), List.intercalate_cons_cons, List.append_assoc]
    exact nofun

end RestSpec.Text
