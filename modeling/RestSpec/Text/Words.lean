/-
Texts taken apart. The words of a text are its maximal runs of characters of a class; every name the
library makes from an identifier is put together from such words. A reader takes a value from the
first characters and leaves the rest; here are the parts that readers of several notations share.
-/
namespace RestSpec.Text

/-! ## Words -/

/-- The run of class characters that opens the text, empty if there is none, and the runs after it. -/
def openingRun (p : Char → Bool) : List Char → List Char × List (List Char)
  | [] => ([], [])
  | c :: cs =>
    let (run, later) := openingRun p cs
    if p c then (c :: run, later) else ([], if run.isEmpty then later else run :: later)

/-- The maximal runs of class characters, from left to right. -/
def words (p : Char → Bool) (cs : List Char) : List (List Char) :=
  let (run, later) := openingRun p cs
  if run.isEmpty then later else run :: later

/-- Texts with `mark` between each two. -/
def joined (mark : List Char) : List (List Char) → List Char
  | [] => []
  | [w] => w
  | w :: ws => w ++ mark ++ joined mark ws

/-- The characters that the words of identifiers are made of. -/
def isAsciiLetterOrDigit (c : Char) : Bool :=
  c.isAlphanum

theorem openingRun_all (p : Char → Bool) (cs : List Char) :
    (∀ c ∈ (openingRun p cs).1, p c) ∧ ∀ w ∈ (openingRun p cs).2, w ≠ [] ∧ ∀ c ∈ w, p c := by
  induction cs with
  | nil => simp [openingRun]
  | cons c cs ih =>
    obtain ⟨hrun, hlater⟩ := ih
    by_cases hc : p c
    · simp only [openingRun, hc, if_true]
      exact ⟨by simpa [hc] using hrun, hlater⟩
    · simp only [openingRun, hc]
      refine ⟨by simp, ?_⟩
      by_cases he : (openingRun p cs).1.isEmpty
      · simpa [he] using hlater
      · simp only [he, Bool.false_eq_true, if_false, List.mem_cons, forall_eq_or_imp]
        exact ⟨⟨by simpa [List.isEmpty_iff] using he, hrun⟩, hlater⟩

/-- A word is never empty and holds class characters alone. -/
theorem words_all (p : Char → Bool) (cs : List Char) :
    ∀ w ∈ words p cs, w ≠ [] ∧ ∀ c ∈ w, p c := by
  obtain ⟨hrun, hlater⟩ := openingRun_all p cs
  unfold words
  by_cases he : (openingRun p cs).1.isEmpty
  · simpa [he] using hlater
  · simp only [he, Bool.false_eq_true, if_false, List.mem_cons, forall_eq_or_imp]
    exact ⟨⟨by simpa [List.isEmpty_iff] using he, hrun⟩, hlater⟩

/-! ## White space -/

/-- Spaces, tabs, line and paragraph breaks of every script. -/
def isBlank (c : Char) : Bool :=
  let n := c.toNat
  (0x9 ≤ n && n ≤ 0xD) || n = 0x20 || n = 0x85 || n = 0xA0 || n = 0x1680 ||
    (0x2000 ≤ n && n ≤ 0x200A) || n = 0x2028 || n = 0x2029 || n = 0x202F || n = 0x205F ||
    n = 0x3000

/-- The text without white space at its two ends. -/
def trim (cs : List Char) : List Char :=
  ((cs.dropWhile isBlank).reverse.dropWhile isBlank).reverse

/-! ## Reading from the front -/

/-- A value and the text after it. -/
abbrev Reader (α : Type) := List Char → Option (α × List Char)

/-- A word that stands for a value. -/
def literal {α : Type} (word : String) (value : α) : Reader α := fun cs =>
  if word.toList.isPrefixOf cs then some (value, cs.drop word.length) else none

/-- The number that a decimal digit stands for. -/
def digitValue (c : Char) : Nat := c.toNat - '0'.toNat

/-- The number that a hexadecimal digit stands for, in either case. -/
def hexValue (c : Char) : Option Nat :=
  if c.isDigit then some (c.toNat - '0'.toNat)
  else if 'a' ≤ c && c ≤ 'f' then some (c.toNat - 'a'.toNat + 10)
  else if 'A' ≤ c && c ≤ 'F' then some (c.toNat - 'A'.toNat + 10)
  else none

/-- The number that digits of a base below seventeen make, if there are any and all fit the base. -/
def numeral? (base : Nat) (cs : List Char) : Option Nat :=
  if cs.isEmpty then none
  else cs.foldlM (fun n c => do
    let d ← hexValue c
    if d < base then some (n * base + d) else none) 0

/-- The character of a number, if the number is one of a character. -/
def charOf? (n : Nat) : Option Char := if n.isValidChar then some (Char.ofNat n) else none

/-- The character that hexadecimal digits name. -/
def hexChar? (digits : List Char) : Option Char := (numeral? 16 digits).bind charOf?

end RestSpec.Text
