import PpuCodec.Numeral.Hex

/-!
JSON documents and how they are printed: one field or item a line, two spaces further in for each
level, in ASCII.
-/

namespace PpuCodec

inductive Json where
  | null
  | bool (value : Bool)
  | number (value : Int)
  | text (value : String)
  | list (items : List Json)
  | record (fields : List (String × Json))

namespace Json

def escapeUnit (unit : Nat) : String :=
  Numeral.filled 6 "\\u" (String.ofList (Nat.toDigits 16 unit))

/-- A character outside ASCII is written in units of sixteen bits. -/
def escapeChar (c : Char) : String :=
  if c = '\x22' then "\\\""
  else if c = '\\' then "\\\\"
  else if c = '\n' then "\\n"
  else if c = '\r' then "\\r"
  else if c = '\t' then "\\t"
  else if c = '\x08' then "\\b"
  else if c = '\x0c' then "\\f"
  else if 0x20 ≤ c.toNat ∧ c.toNat < 0x7F then c.toString
  else if c.toNat < 0x10000 then escapeUnit c.toNat
  else
    let code := c.toNat - 0x10000
    escapeUnit (0xD800 + code / 0x400) ++ escapeUnit (0xDC00 + code % 0x400)

def printText (s : String) : String :=
  "\"" ++ String.join (s.toList.map escapeChar) ++ "\""

def newLine (indent : Nat) : String :=
  "\n" ++ String.ofList (List.replicate indent ' ')

/-- Lines between brackets, which stand side by side if there are none. -/
def block (opening closing : String) (indent : Nat) (lines : List String) : String :=
  if lines.isEmpty then opening ++ closing
  else
    let line := newLine (indent + 2)
    opening ++ line ++ ("," ++ line).intercalate lines ++ newLine indent ++ closing

mutual

def print (indent : Nat) : Json → String
  | .null => "null"
  | .bool value => if value then "true" else "false"
  | .number value => toString value
  | .text value => printText value
  | .list items => block "[" "]" indent (printItems (indent + 2) items)
  | .record fields => block "\x7b" "\x7d" indent (printFields (indent + 2) fields)

def printItems (indent : Nat) : List Json → List String
  | [] => []
  | item :: rest => item.print indent :: printItems indent rest

def printFields (indent : Nat) : List (String × Json) → List String
  | [] => []
  | (name, value) :: rest =>
    (printText name ++ ": " ++ value.print indent) :: printFields indent rest

end

end Json

end PpuCodec
