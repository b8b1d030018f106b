/-!
Numbers written in base sixteen. A sign or mark counts towards the width of the text.
-/

namespace PpuCodec.Numeral

/-- Zeros between `mark` and `digits` fill the text up to `width` characters. -/
def filled (width : Nat) (mark digits : String) : String :=
  mark ++ String.ofList (List.replicate (width - mark.length - digits.length) '0') ++ digits

def hex (width : Nat) (n : Int) : String :=
  filled width (if n < 0 then "-" else "")
    (String.ofList ((Nat.toDigits 16 n.natAbs).map Char.toUpper))

def markedHex (width : Nat) (n : Int) : String :=
  filled width (if n < 0 then "-0x" else "0x") (String.ofList (Nat.toDigits 16 n.natAbs))

def offset (n : Int) : String :=
  "0x" ++ hex 0 n

def address (n : Int) : String :=
  "$" ++ hex 4 n

/-- Values apart by spaces; a value that is missing is shown as two dashes. -/
def hexRow (row : List (Option Int)) : String :=
  " ".intercalate (row.map fun value => match value with
    | some n => hex 2 n
    | none => "--")

end PpuCodec.Numeral
