import PpuCodec.Text.Blank
import PpuCodec.Text.CaseTable

/-!
Lower case. Each character has a lower case of its own, except that a capital sigma which ends a
word becomes a final sigma.
-/

namespace PpuCodec.Text

def lowerChar (c : Char) : List Char :=
  if c.toNat < 0x80 then [c.toLower]
  else if c = '\u0130' then ['i', '\u0307']
  else match lowercaseRanges.find? (·.contains c.toNat) with
    | some range => [Char.ofNat (c.toNat + range.shift).toNat]
    | none => [c]

def isCaseIgnorable (c : Char) : Bool :=
  inRanges caseIgnorableRanges c

def startsCased (s : List Char) : Bool :=
  match s.dropWhile isCaseIgnorable with
  | c :: _ => inRanges casedRanges c
  | [] => false

/-- A sigma ends a word if a cased letter stands before it and none after it. -/
def lowerSigma (before after : List Char) : Char :=
  if startsCased before && !startsCased after then 'ς' else 'σ'

/-- The characters in lower case. `before` holds those already passed, the last of them first. -/
def lowerChars (before : List Char) : List Char → List Char
  | [] => []
  | c :: after =>
    let lowered := if c = 'Σ' then [lowerSigma before after] else lowerChar c
    lowered ++ lowerChars (c :: before) after

def lower (s : String) : String :=
  String.ofList (lowerChars [] s.toList)

end PpuCodec.Text
