import Reflash.Text.CaseTable

/-!
# Lower case

The lower case of texts, for comparing names regardless of case. It is that of
Unicode, in which one letter becomes two characters and another one depends on its
place in the word.

* `lowercase`: the lower case of a text.
* `equalIgnoringAsciiCase`: equality up to the case of ASCII letters.
-/

namespace Reflash.Text

/-- A character is in one of the ranges. -/
def inRanges (ranges : List (Nat × Nat)) (c : Char) : Bool :=
  ranges.any fun (first, last) => first ≤ c.toNat && c.toNat ≤ last

/-- The single character that is the lower case of `c`, `c` itself if it has none. -/
def lowerChar (c : Char) : Char :=
  let n := c.toNat
  if n < 0x80 then c.toLower
  else
    match lowerRuns.find? fun r => r.first ≤ n && n ≤ r.last && (n - r.first) % r.step = 0 with
    | some r => Char.ofNat (r.lower + (n - r.first))
    | none => c

/-- The first character that is not passed over has a case. -/
def startsCased (cs : List Char) : Bool :=
  ((cs.dropWhile (inRanges ignorableRanges)).head?).any (inRanges casedRanges)

/-- The lower case of `cs`, before which the characters `before` stand, the nearest first. A
capital sigma that ends a word becomes a final one, a dotted capital I keeps its dot. -/
def lowerChars : List Char → List Char → List Char
  | _, [] => []
  | before, c :: cs =>
    let low :=
      if c = 'Σ' then [if startsCased before && !startsCased cs then 'ς' else 'σ']
      else if c = 'İ' then ['i', '\u0307']
      else [lowerChar c]
    low ++ lowerChars (c :: before) cs

/-- The lower case of a text. -/
def lowercase (s : String) : List Char := lowerChars [] s.toList

/-- `part` occurs somewhere in the text. -/
def occursIn (part : List Char) : List Char → Bool
  | [] => part.isEmpty
  | c :: cs => part.isPrefixOf (c :: cs) || occursIn part cs

/-- The texts are equal up to the case of ASCII letters. -/
def equalIgnoringAsciiCase (s t : String) : Bool :=
  s.toList.map Char.toLower == t.toList.map Char.toLower

end Reflash.Text
