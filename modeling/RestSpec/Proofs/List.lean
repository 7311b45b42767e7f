/-
Lists side by side: two lists of one length whose elements are related place by place, cut and put
together. Lists from the first place of an element on. Looking through a list for either of two
things at once, and for one after the other.
-/
import Mathlib.Data.List.Forall2

namespace RestSpec

theorem forall₂_append_right {α β : Type} {R : α → β → Prop} :
    ∀ {l : List α} {m m' : List β}, List.Forall₂ R l (m ++ m') →
      ∃ k k', l = k ++ k' ∧ List.Forall₂ R k m ∧ List.Forall₂ R k' m'
  | l, [], m', h => ⟨[], l, rfl, .nil, h⟩
  | a :: l, b :: m, m', .cons hab h => by
    obtain ⟨k, k', rfl, hk, hk'⟩ := forall₂_append_right h
    exact ⟨a :: k, k', rfl, .cons hab hk, hk'⟩

theorem forall₂_flatten_right {α β : Type} {R : α → β → Prop} :
    ∀ {l : List α} {blocks : List (List β)}, List.Forall₂ R l blocks.flatten →
      ∃ parts, l = parts.flatten ∧ List.Forall₂ (List.Forall₂ R) parts blocks
  | l, [], h => by
    cases h
    exact ⟨[], rfl, .nil⟩
  | l, b :: blocks, h => by
    obtain ⟨k, k', rfl, hk, hk'⟩ := forall₂_append_right h
    obtain ⟨parts, rfl, hparts⟩ := forall₂_flatten_right hk'
    exact ⟨k :: parts, rfl, .cons hk hparts⟩

theorem forall₂_trans {α β γ : Type} {R : α → β → Prop} {S : β → γ → Prop} {T : α → γ → Prop} :
    ∀ {l : List α} {m : List β} {n : List γ},
      (∀ a ∈ l, ∀ b ∈ m, ∀ c ∈ n, R a b → S b c → T a c) →
      List.Forall₂ R l m → List.Forall₂ S m n → List.Forall₂ T l n
  | [], [], [], _, _, _ => .nil
  | a :: _, b :: _, c :: _, h, .cons hab hl, .cons hbc hm =>
    .cons (h a List.mem_cons_self b List.mem_cons_self c List.mem_cons_self hab hbc)
      (forall₂_trans (fun a ha b hb c hc => h a (List.mem_cons_of_mem _ ha) b
        (List.mem_cons_of_mem _ hb) c (List.mem_cons_of_mem _ hc)) hl hm)

theorem forall₂_mem_left {α β : Type} {R : α → β → Prop} {l : List α} {m : List β}
    (h : List.Forall₂ R l m) : ∀ a ∈ l, ∃ b ∈ m, R a b := by
  induction h with
  | nil => simp
  | cons hab _ ih =>
    intro a ha
    rcases List.mem_cons.1 ha with rfl | ha
    · exact ⟨_, List.mem_cons_self, hab⟩
    · obtain ⟨b, hb, hr⟩ := ih a ha
      exact ⟨b, List.mem_cons_of_mem _ hb, hr⟩

theorem forall₂_imp_mem {α β : Type} {R S : α → β → Prop} {l : List α} {m : List β}
    (h : List.Forall₂ R l m) (himp : ∀ a ∈ l, ∀ b ∈ m, R a b → S a b) : List.Forall₂ S l m := by
  refine List.forall₂_iff_zip.2 ⟨h.length_eq, fun hab => ?_⟩
  have hzip := List.of_mem_zip hab
  exact himp _ hzip.1 _ hzip.2 ((List.forall₂_iff_zip.1 h).2 hab)

/-- `dropWhile` up to an element gives a list that begins with it, or nothing where it does not
occur. -/
theorem dropWhile_ne_cases {α : Type} [BEq α] [LawfulBEq α] (a : α) (l : List α) :
    a ∉ l ∧ l.dropWhile (· != a) = [] ∨ ∃ after, l.dropWhile (· != a) = a :: after := by
  induction l with
  | nil => exact .inl ⟨List.not_mem_nil, rfl⟩
  | cons b l ih =>
    by_cases hb : b = a
    · exact .inr ⟨l, by simp [hb]⟩
    · rw [List.dropWhile_cons_of_pos (by simpa using hb)]
      exact ih.imp_left fun ⟨hnot, hnil⟩ => ⟨by simp [Ne.symm hb, hnot], hnil⟩

/-! ## Looking for two things -/

section Find

variable {α : Type} {p q : α → Bool}

theorem find?_or_eq_none_iff {l : List α} :
    (l.find? fun a => p a || q a) = none ↔ (l.find? p <|> l.find? q) = none := by
  simp [List.find?_eq_none, forall_and]

/-- `find?` of either is `find?` of one and then of the other, unless one of the other kind stands
before the first of the one kind. -/
theorem find?_or_eq_iff : ∀ {l : List α},
    (l.find? fun a => p a || q a) = (l.find? p <|> l.find? q) ↔
      ¬ ((∃ a ∈ l, p a = true) ∧ ∃ a ∈ l.takeWhile fun a => !p a, q a = true)
  | [] => by simp
  | a :: l => by
    cases hp : p a with
    | true => simp [hp]
    | false =>
      cases hq : q a with
      | false => simpa [hp, hq] using find?_or_eq_iff (l := l)
      | true =>
        cases hfind : l.find? p with
        | none => simpa [hp, hq, hfind] using List.find?_eq_none.1 hfind
        | some b =>
          have hb := List.find?_some hfind
          have hne : a ≠ b := fun heq => by simp [heq, hb] at hp
          simpa [hp, hq, hfind, hne] using ⟨b, List.mem_of_find?_eq_some hfind, hb⟩

theorem mem_of_find?_orElse {l : List α} {a : α} (h : (l.find? p <|> l.find? q) = some a) :
    a ∈ l := by
  rw [Option.orElse_eq_orElse, Option.orElse_eq_or, Option.or_eq_some_iff] at h
  rcases h with h | ⟨-, h⟩
  · exact List.mem_of_find?_eq_some h
  · exact List.mem_of_find?_eq_some h

end Find

end RestSpec
