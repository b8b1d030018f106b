import PpuCodec.Numeral.Hex
import PpuCodec.Text.Blank

/-!
Text in quotes, as messages show it: one line, with every character that cannot be printed escaped.
-/

namespace PpuCodec.Text

def unprintableRanges : List (Nat × Nat) :=
  [(0x00, 0x1F), (0x7F, 0xA0), (0xAD, 0xAD), (0x1680, 0x1680), (0x180E, 0x180E), (0x2000, 0x200F),
   (0x2028, 0x202F), (0x205F, 0x206F), (0x3000, 0x3000), (0xFEFF, 0xFEFF)]

def escapeCode (code : Nat) : String :=
  let digits := String.ofList (Nat.toDigits 16 code)
  if code < 0x100 then Numeral.filled 4 "\\x" digits
  else if code < 0x10000 then Numeral.filled 6 "\\u" digits
  else Numeral.filled 10 "\\U" digits

def escapeChar (mark c : Char) : String :=
  if c = mark || c = '\\' then String.ofList ['\\', c]
  else if c = '\n' then "\\n"
  else if c = '\r' then "\\r"
  else if c = '\t' then "\\t"
  else if inRanges unprintableRanges c then escapeCode c.toNat
  else c.toString

/-- Single quotes, unless that would escape one and double quotes would not. -/
def quoteMark (s : List Char) : Char :=
  if s.contains '\x27' && !s.contains '\x22' then '\x22' else '\x27'

def quoted (s : String) : String :=
  let mark := quoteMark s.toList
  mark.toString ++ String.join (s.toList.map (escapeChar mark)) ++ mark.toString

end PpuCodec.Text
