/-
Classes of identifiers. What is put around a camel-case name to make a class of it is an underscore,
and to the reader of a name an underscore is a mark between words. So the camel-case name can be read
off the class: two identifiers have one class just if they have one camel-case name, and a class is
its own class. A reserved word holds no underscore, so one underscore is enough to tell a class from
all of them.
-/
import RestSpec.Naming.Identifier
import RestSpec.Proofs.Text.Words

namespace RestSpec

namespace Text

/-! ## Letters and digits of ASCII -/

/-- What is true of the first 128 characters, one by one, is true of every character among them. -/
theorem forall_ascii {P : Char → Prop} (h : ∀ n < 0x80, P (Char.ofNat n)) {c : Char}
    (hc : c.toNat < 0x80) : P c := by
  rw [← Char.ofNat_toNat c]
  exact h _ hc

theorem isAsciiLetterOrDigit_iff {c : Char} : isAsciiLetterOrDigit c = true ↔
    'A' ≤ c ∧ c ≤ 'Z' ∨ 'a' ≤ c ∧ c ≤ 'z' ∨ '0' ≤ c ∧ c ≤ '9' := by
  unfold isAsciiLetterOrDigit Char.isAlphanum Char.isAlpha Char.isUpper Char.isLower Char.isDigit
  simp only [Bool.or_eq_true, Bool.and_eq_true, decide_eq_true_eq, ge_iff_le, Char.le_def, or_assoc]

theorem toNat_lt_of_isAsciiLetterOrDigit {c : Char} (h : isAsciiLetterOrDigit c = true) :
    c.toNat < 0x80 := by
  have hle : ∀ {d : Char}, c ≤ d → c.toNat ≤ d.toNat := fun h => UInt32.le_iff_toNat_le.1 h
  rcases isAsciiLetterOrDigit_iff.1 h with ⟨-, h⟩ | ⟨-, h⟩ | ⟨-, h⟩
  · exact Nat.lt_of_le_of_lt (hle h) (by decide)
  · exact Nat.lt_of_le_of_lt (hle h) (by decide)
  · exact Nat.lt_of_le_of_lt (hle h) (by decide)

/-- `Char.toUpper` of an ASCII letter or digit is one again, and `toUpper` leaves that as it is. -/
theorem toUpper_of_isAsciiLetterOrDigit {c : Char} (h : isAsciiLetterOrDigit c = true) :
    isAsciiLetterOrDigit c.toUpper = true ∧ c.toUpper.toUpper = c.toUpper := by
  refine forall_ascii (P := fun c => isAsciiLetterOrDigit c = true →
    isAsciiLetterOrDigit c.toUpper = true ∧ c.toUpper.toUpper = c.toUpper) ?_
    (toNat_lt_of_isAsciiLetterOrDigit h) h
  decide +kernel

theorem lowercaseAfter_ascii {cs : List Char} (h : ∀ c ∈ cs, c.toNat < 0x80) (before : List Char) :
    lowercaseAfter before cs = cs.map Char.toLower := by
  induction cs generalizing before with
  | nil => rfl
  | cons c cs ih =>
    obtain ⟨hc, hcs⟩ := List.forall_mem_cons.1 h
    have hsigma : c.toNat ≠ 0x3A3 := by omega
    simp only [lowercaseAfter, lowerChar, if_neg hsigma, if_pos hc, ih hcs, List.singleton_append,
      List.map_cons]

/-- `lowercase` of a text of ASCII characters is `Char.toLower` of each, wherever it stands. -/
theorem toList_lowercase_ascii {cs : List Char} (h : ∀ c ∈ cs, c.toNat < 0x80) :
    (lowercase (String.ofList cs)).toList = cs.map Char.toLower := by
  unfold lowercase
  rw [String.toList_ofList, String.toList_ofList, lowercaseAfter_ascii h]

end Text

namespace Naming

open Text

variable {cs w : List Char} {c : Char}

/-! ## Camel case -/

/-- Letters and digits that `capitalize` leaves as they are: one word, with its capital. -/
structure Capitalized (cs : List Char) : Prop where
  chars : ∀ c ∈ cs, isAsciiLetterOrDigit c = true
  capital : capitalize cs = cs

theorem capitalized_capitalize (h : ∀ c ∈ w, isAsciiLetterOrDigit c = true) :
    Capitalized (capitalize w) := by
  cases w with
  | nil => exact ⟨nofun, rfl⟩
  | cons c w =>
    obtain ⟨hc, hw⟩ := List.forall_mem_cons.1 h
    obtain ⟨hupper, htwice⟩ := toUpper_of_isAsciiLetterOrDigit hc
    exact ⟨List.forall_mem_cons.2 ⟨hupper, hw⟩, congrArg (· :: w) htwice⟩

theorem Capitalized.append (hw : Capitalized w) (hcs : Capitalized cs) :
    Capitalized (w ++ cs) := by
  refine ⟨List.forall_mem_append.2 ⟨hw.chars, hcs.chars⟩, ?_⟩
  cases w with
  | nil => exact hcs.capital
  | cons c w =>
    have hc : c.toUpper = c := (List.cons.inj hw.capital).1
    exact congrArg (· :: (w ++ cs)) hc

theorem capitalized_flatten {ws : List (List Char)} (h : ∀ w ∈ ws, Capitalized w) :
    Capitalized ws.flatten := by
  induction ws with
  | nil => exact ⟨nofun, rfl⟩
  | cons w ws ih =>
    obtain ⟨hw, hws⟩ := List.forall_mem_cons.1 h
    exact hw.append (ih hws)

theorem capitalized_camelCaseChars (cs : List Char) : Capitalized (camelCaseChars cs) := by
  refine capitalized_flatten fun w hw => ?_
  obtain ⟨run, hrun, rfl⟩ := List.mem_map.1 hw
  exact capitalized_capitalize (words_all _ _ run hrun).2

/-- A text that is `Capitalized` is its own camel-case form. -/
theorem Capitalized.camelCaseChars_eq (h : Capitalized cs) : camelCaseChars cs = cs := by
  by_cases hcs : cs = []
  · rw [hcs]
    rfl
  · unfold camelCaseChars
    rw [words_of_all h.chars hcs]
    simpa using h.capital

/-! ## Underscores around a name -/

/-- `guardStart` leaves a text alone that does not begin with a digit, and sets an underscore before
any other. -/
theorem guardStart_eq (cs : List Char) :
    guardStart cs = '_' :: cs ∨ guardStart cs = cs ∧ ∃ c ∈ cs.head?, c.isDigit = false := by
  cases cs with
  | nil => exact .inl rfl
  | cons c cs =>
    by_cases hc : c.isDigit = true
    · exact .inl (if_pos hc)
    · exact .inr ⟨if_neg hc, c, rfl, by simpa using hc⟩

theorem guardReserved_eq (cs : List Char) :
    guardReserved cs = cs ++ ['_'] ∨ guardReserved cs = cs := by
  unfold guardReserved
  split
  · exact .inl rfl
  · exact .inr rfl

theorem head?_guardStart (cs : List Char) : ∃ c ∈ (guardStart cs).head?, c.isDigit = false := by
  rcases guardStart_eq cs with h | ⟨h, hhead⟩
  · rw [h]
    exact ⟨'_', rfl, rfl⟩
  · rwa [h]

theorem head?_guardReserved (h : c ∈ cs.head?) : c ∈ (guardReserved cs).head? := by
  rcases guardReserved_eq cs with heq | heq
  · rw [heq, List.head?_append, h]
    rfl
  · rwa [heq]

theorem mem_of_guardStart (h : c ∈ guardStart cs) : c = '_' ∨ c ∈ cs := by
  rcases guardStart_eq cs with heq | ⟨heq, -⟩
  · rw [heq] at h
    exact List.mem_cons.1 h
  · rw [heq] at h
    exact .inr h

theorem mem_of_guardReserved (h : c ∈ guardReserved cs) : c = '_' ∨ c ∈ cs := by
  rcases guardReserved_eq cs with heq | heq
  · rw [heq, List.mem_append, List.mem_singleton] at h
    exact h.symm
  · rw [heq] at h
    exact .inr h

theorem camelCaseChars_guardStart (cs : List Char) :
    camelCaseChars (guardStart cs) = camelCaseChars cs := by
  rcases guardStart_eq cs with h | ⟨h, -⟩
  · unfold camelCaseChars
    rw [h, words_mark (by decide)]
  · rw [h]

theorem camelCaseChars_guardReserved (cs : List Char) :
    camelCaseChars (guardReserved cs) = camelCaseChars cs := by
  rcases guardReserved_eq cs with h | h
  · unfold camelCaseChars
    rw [h, words_append_mark (by decide)]
  · rw [h]

/-! ## Reserved words -/

theorem underscore_not_mem_of_reserved : ∀ w ∈ reservedWords, '_' ∉ w.toList := by
  decide

/-- `guardReserved` gives a reserved word an underscore, which none of `reservedWords` has; so one
is enough. -/
theorem lowercase_guardReserved (h : ∀ c ∈ cs, c.toNat < 0x80) :
    lowercase (String.ofList (guardReserved cs)) ∉ reservedWords := by
  intro hmem
  unfold guardReserved at hmem
  split at hmem
  · have hascii : ∀ c ∈ cs ++ ['_'], c.toNat < 0x80 :=
      List.forall_mem_append.2 ⟨h, List.forall_mem_singleton.2 (by decide)⟩
    refine underscore_not_mem_of_reserved _ hmem ?_
    -- an underscore is its own lower case
    rw [toList_lowercase_ascii hascii, List.map_append]
    exact List.mem_append_right _ List.mem_cons_self
  · rename_i hnot
    exact hnot (List.any_eq_true.2 ⟨_, hmem, beq_iff_eq.2 (toList_lowercase_ascii h)⟩)

/-! ## Classes -/

/-- A name to give to a class: ASCII letters, digits and underscores, at least one, no digit in
front, and in lower case none of `reservedWords`. -/
structure IsClassName (s : String) : Prop where
  nonempty : s ≠ ""
  chars : ∀ c ∈ s.toList,
    ('A' ≤ c ∧ c ≤ 'Z' ∨ 'a' ≤ c ∧ c ≤ 'z' ∨ '0' ≤ c ∧ c ≤ '9') ∨ c = '_'
  start : ∀ c ∈ s.toList.head?, ¬ ('0' ≤ c ∧ c ≤ '9')
  unreserved : lowercase s ∉ reservedWords

/-- `className` has letters, digits and underscores, whatever it is made from. -/
theorem mem_of_className {identifier : String} (h : c ∈ (className identifier).toList) :
    isAsciiLetterOrDigit c = true ∨ c = '_' := by
  unfold className at h
  rw [String.toList_ofList] at h
  rcases mem_of_guardReserved h with h | h
  · exact .inr h
  · exact ((mem_of_guardStart h).imp_right ((capitalized_camelCaseChars _).chars c)).symm

theorem isClassName_className (identifier : String) : IsClassName (className identifier) := by
  obtain ⟨first, hfirst, hdigit⟩ := head?_guardStart (camelCaseChars identifier.toList)
  have hhead : first ∈ (className identifier).toList.head? := by
    unfold className
    rw [String.toList_ofList]
    exact head?_guardReserved hfirst
  refine ⟨?_, fun c hc => (mem_of_className hc).imp_left isAsciiLetterOrDigit_iff.1, ?_, ?_⟩
  · intro hnil
    rw [hnil] at hhead
    cases hhead
  · intro c hc
    obtain rfl := Option.some.inj (hhead.symm.trans hc)
    simpa [Char.isDigit, Char.le_def] using hdigit
  · refine lowercase_guardReserved fun c hc => ?_
    rcases mem_of_guardStart hc with rfl | hc
    · decide
    · exact toNat_lt_of_isAsciiLetterOrDigit ((capitalized_camelCaseChars _).chars c hc)

/-- The underscores of a `className` are marks, so its words are those of the `camelCase` name. -/
theorem camelCase_className (identifier : String) :
    camelCase (className identifier) = camelCase identifier := by
  unfold camelCase className
  rw [String.toList_ofList, camelCaseChars_guardReserved, camelCaseChars_guardStart,
    (capitalized_camelCaseChars _).camelCaseChars_eq]

/-- Two identifiers have one `className` just if they have one `camelCase` name. -/
theorem className_eq_iff {s t : String} : className s = className t ↔ camelCase s = camelCase t := by
  constructor
  · intro h
    rw [← camelCase_className s, h, camelCase_className]
  · intro h
    -- nothing but the camel-case name of an identifier goes into its class
    unfold className
    rw [String.ofList_inj.1 h]

/-- Whatever the identifier, its `className` satisfies `IsClassName`, is its own class name, and has
the `camelCase` name of the identifier. -/
theorem className_stable (identifier : String) :
    IsClassName (className identifier) ∧
      className (className identifier) = className identifier ∧
      camelCase (className identifier) = camelCase identifier :=
  ⟨isClassName_className identifier, className_eq_iff.2 (camelCase_className identifier),
    camelCase_className identifier⟩

example : ["", "802-1q", "server-group", "type"].map className =
    ["_", "_8021q", "ServerGroup", "Type_"] := by
  decide

end Naming

end RestSpec
