/-
Computations that may fail, opened step by step: what is known when they succeed, and what makes
them succeed.
-/
import Mathlib.Data.List.Forall2

namespace RestSpec

variable {ε α β : Type}

theorem bind_eq_ok {x : Except ε α} {f : α → Except ε β} {b : β} :
    (x >>= f) = .ok b ↔ ∃ a, x = .ok a ∧ f a = .ok b := by
  cases x with
  | error e => exact ⟨fun h => (nomatch h), fun ⟨_, h, _⟩ => (nomatch h)⟩
  | ok a => exact ⟨fun h => ⟨a, rfl, h⟩, fun ⟨_, h, h'⟩ => by cases h; exact h'⟩

theorem exists_ok_of_isSome {x : Except ε α} (h : x.toOption.isSome = true) :
    ∃ a, x = .ok a := by
  cases x with
  | error e => cases h
  | ok a => exact ⟨a, rfl⟩

theorem eq_ok_of_toOption {x : Except ε α} {a : α} (h : x.toOption = some a) : x = .ok a := by
  cases x with
  | error e => cases h
  | ok b => rw [Option.some.inj h]

/-- What is computed from a result that is there. -/
theorem map_of_ok {x : Except ε α} {a : α} (h : x = .ok a) {f : α → β} {b : β}
    (hf : x.toOption.map f = some b) : f a = b := by
  rw [h] at hf
  exact Option.some.inj hf

theorem mapM_eq_ok_iff {f : α → Except ε β} : ∀ {l : List α} {l' : List β},
    l.mapM f = .ok l' ↔ List.Forall₂ (fun a b => f a = .ok b) l l'
  | [], l' => by
    constructor
    · intro h
      cases h
      exact .nil
    · rintro ⟨⟩
      rfl
  | a :: l, l' => by
    rw [List.mapM_cons, bind_eq_ok]
    constructor
    · rintro ⟨b, hb, h⟩
      obtain ⟨bs, hbs, h⟩ := bind_eq_ok.1 h
      cases h
      exact .cons hb (mapM_eq_ok_iff.1 hbs)
    · rintro (_ | ⟨hb, h⟩)
      exact ⟨_, hb, bind_eq_ok.2 ⟨_, mapM_eq_ok_iff.2 h, rfl⟩⟩

/-- What every step keeps, a `foldlM` that succeeds keeps. -/
theorem foldlM_invariant {f : β → α → Except ε β} (P : β → Prop) :
    ∀ (l : List α) (b b' : β), (∀ a ∈ l, ∀ b b', P b → f b a = .ok b' → P b') → P b →
      l.foldlM f b = .ok b' → P b'
  | [], b, b', _, hb, h => by cases h; exact hb
  | a :: l, b, b', hstep, hb, h => by
    rw [List.foldlM_cons] at h
    obtain ⟨b₁, h₁, h₂⟩ := bind_eq_ok.1 h
    exact foldlM_invariant P l b₁ b' (fun a ha => hstep a (List.mem_cons_of_mem _ ha))
      (hstep a List.mem_cons_self b b₁ hb h₁) h₂

/-- A `foldlM` succeeds if every step does, from what the steps keep. -/
theorem foldlM_ok {f : β → α → Except ε β} (P : β → Prop) :
    ∀ (l : List α) (b : β), (∀ a ∈ l, ∀ b, P b → ∃ b', f b a = .ok b' ∧ P b') → P b →
      ∃ b', l.foldlM f b = .ok b' ∧ P b'
  | [], b, _, hb => ⟨b, rfl, hb⟩
  | a :: l, b, hstep, hb => by
    obtain ⟨b₁, h₁, hb₁⟩ := hstep a List.mem_cons_self b hb
    obtain ⟨b', h', hb'⟩ := foldlM_ok P l b₁ (fun a ha => hstep a (List.mem_cons_of_mem _ ha)) hb₁
    exact ⟨b', by rw [List.foldlM_cons, h₁]; exact h', hb'⟩

/-- Two `foldlM` whose steps agree after `map` agree after it as a whole. -/
theorem foldlM_map {γ : Type} {f : β → α → Except ε β} {f' : γ → α → Except ε γ} (g : β → γ) :
    ∀ (l : List α) (b : β), (∀ a ∈ l, ∀ b, f' (g b) a = (f b a).map g) →
      l.foldlM f' (g b) = (l.foldlM f b).map g
  | [], _, _ => rfl
  | a :: l, b, h => by
    obtain ⟨ha, hl⟩ := List.forall_mem_cons.1 h
    rw [List.foldlM_cons, List.foldlM_cons, ha]
    cases f b a with
    | error e => rfl
    | ok b₁ => exact foldlM_map g l b₁ hl

/-! ## Both ends -/

/-- The error, if the computation ends in one; the counterpart of `toOption`. -/
def error? : Except ε α → Option ε
  | .error e => some e
  | .ok _ => none

theorem eq_error_of_error? {x : Except ε α} {e : ε} (h : error? x = some e) : x = .error e := by
  cases x with
  | error e' => rw [Option.some.inj h]
  | ok a => cases h

/-- A computation ends well, with a result of which `Q` holds, or in an error of which `E` does. -/
def Ends (Q : α → Prop) (E : ε → Prop) : Except ε α → Prop
  | .ok a => Q a
  | .error e => E e

section Ends

variable {Q : α → Prop} {E : ε → Prop} {x : Except ε α}

theorem Ends.error (h : Ends Q E x) {e : ε} (he : x = .error e) : E e := by
  rwa [he] at h

theorem Ends.bind {Q' : β → Prop} {f : α → Except ε β} (h : Ends Q E x)
    (hf : ∀ a, Q a → Ends Q' E (f a)) : Ends Q' E (x >>= f) := by
  cases x with
  | error e => exact h
  | ok a => exact hf a h

/-- A `foldlM` ends as its steps do by `Ends`, if they keep what they need. -/
theorem ends_foldlM {P : β → Prop} {f : β → α → Except ε β} :
    ∀ (l : List α) (b : β), (∀ a ∈ l, ∀ b, P b → Ends P E (f b a)) → P b →
      Ends P E (l.foldlM f b)
  | [], _, _, hb => hb
  | a :: l, b, hstep, hb => by
    rw [List.foldlM_cons]
    exact (hstep a List.mem_cons_self b hb).bind fun b' hb' =>
      ends_foldlM l b' (fun a ha => hstep a (List.mem_cons_of_mem _ ha)) hb'

end Ends

end RestSpec
