/-
Lower case for any text. A capital sigma at the end of a word becomes a final sigma, a dotted
capital I keeps its dot as a mark, and every other capital has one partner.
-/
import RestSpec.Text.CaseTable

namespace RestSpec.Text

/-- The lower-case form of a character looked at alone. -/
def lowerChar (c : Char) : List Char :=
  if c.toNat < 0x80 then [c.toLower]
  else if c.toNat = 0x130 then ['i', Char.ofNat 0x307]
  else
    match caseRanges.find? fun r =>
        r.first ≤ c.toNat && c.toNat ≤ r.last && (c.toNat - r.first) % r.step == 0 with
    | some r => [Char.ofNat (c.toNat + r.shift).toNat]
    | none => [c]

/-- The nearest character that is not passed over carries case. -/
def nextIsCased (cs : List Char) : Bool :=
  match cs.dropWhile (inRanges caseIgnorableRanges) with
  | c :: _ => inRanges casedRanges c
  | [] => false

/-- Lower case of `cs`, where `before` holds the characters in front of it, the nearest first. -/
def lowercaseAfter (before : List Char) : List Char → List Char
  | [] => []
  | c :: cs =>
    let lower :=
      if c.toNat = 0x3A3 then
        [if nextIsCased before && !nextIsCased cs then Char.ofNat 0x3C2 else Char.ofNat 0x3C3]
      else lowerChar c
    lower ++ lowercaseAfter (c :: before) cs

/-- The text in lower case, as `lowercaseAfter` writes it from its beginning. -/
def lowercase (s : String) : String :=
  String.ofList (lowercaseAfter [] s.toList)

end RestSpec.Text
