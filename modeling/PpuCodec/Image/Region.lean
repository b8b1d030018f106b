import PpuCodec.Image
import PpuCodec.Text.Digit
import PpuCodec.Text.Lowercase
import PpuCodec.Text.Quoted

/-!
The parts of picture memory that can be taken out of it, and the names they go by.
-/

namespace PpuCodec

inductive Table where
  | nametable
  | attributes
  | patterns
deriving Repr, DecidableEq

namespace Table

def title : Table → String
  | .nametable => "Nametable"
  | .attributes => "Attribute table"
  | .patterns => "Pattern table"

def label : Table → String
  | .nametable => "nt"
  | .attributes => "att"
  | .patterns => "chr"

def count : Table → Nat
  | .nametable => 4
  | .attributes => 4
  | .patterns => 2

def base : Table → Nat
  | .nametable => 0x2000
  | .attributes => 0x23C0
  | .patterns => 0x0000

def stride : Table → Nat
  | .nametable => 0x400
  | .attributes => 0x400
  | .patterns => 0x1000

def size : Table → Nat
  | .nametable => 0x400
  | .attributes => 0x40
  | .patterns => 0x1000

end Table

inductive Region where
  | table (kind : Table) (index : Nat)
  | backgroundPalette
  | spritePalette
  | whole
deriving Repr, DecidableEq

namespace Region

inductive Error where
  | unknownName (name : String)
  /-- The digits behind a table's label are not decimal. -/
  | indexText (text : String)
  | index (kind : Table) (index : Int)
  | image (error : Image.Error)
deriving Repr, DecidableEq

def Error.message : Error → String
  | .unknownName name => s!"Unknown PPU region: {Text.quoted name}"
  | .indexText text => s!"invalid literal for int() with base 10: {Text.quoted text}"
  | .index kind value => s!"{kind.title} index must be 0-{kind.count - 1}, got {value}"
  | .image reason => reason.message

def start : Region → Nat
  | .table kind index => kind.base + index * kind.stride
  | .backgroundPalette => 0x3F00
  | .spritePalette => 0x3F10
  | .whole => 0x0000

def size : Region → Nat
  | .table kind _ => kind.size
  | .backgroundPalette => 0x10
  | .spritePalette => 0x10
  | .whole => 0x4000

def ofTable (kind : Table) (index : Int) : Except Error Region :=
  if 0 ≤ index ∧ index < kind.count then .ok (.table kind index.toNat)
  else .error (.index kind index)

/-- A name that is read, but not yet checked for an index out of range. -/
inductive Name where
  | table (kind : Table) (index : Nat)
  | fixed (region : Region)
deriving Repr, DecidableEq

def indexDigits? (name : String) (kind : Table) : Option (List Char) :=
  let digits := name.toList.drop kind.label.length
  if kind.label.toList.isPrefixOf name.toList && !digits.isEmpty && digits.all Text.isDigit then
    some digits
  else
    none

def Name.parseLower? (name : String) : Option (Except Error Name) :=
  let indexed := [Table.nametable, .attributes, .patterns].findSome? fun kind =>
    (indexDigits? name kind).map fun digits =>
      match Text.decimalNumber? digits with
      | some index => .ok (.table kind index)
      | none => .error (.indexText (String.ofList digits))
  let fixed := [("bkpal", backgroundPalette), ("bgpal", .backgroundPalette),
    ("spritepal", .spritePalette), ("ppu", .whole)]
  indexed.or ((fixed.lookup name).map fun region => .ok (.fixed region))

/-- Names are compared without regard to case. -/
def Name.parse (name : String) : Except Error Name :=
  (parseLower? (Text.lower name)).getD (.error (.unknownName name))

def Name.check : Name → Except Error Region
  | .table kind index => ofTable kind index
  | .fixed region => .ok region

end Region

namespace Image

def region (image : Image) (region : Region) : Bytes :=
  image.toBytes.extract region.start (region.start + region.size)

def regionNamed (data : Bytes) (name : String) : Except Region.Error Bytes := do
  let name ← Region.Name.parse name
  let image ← (ofBytes data).mapError .image
  return image.region (← name.check)

def tableAt (data : Bytes) (kind : Table) (index : Int) : Except Region.Error Bytes := do
  let image ← (ofBytes data).mapError .image
  return image.region (← Region.ofTable kind index)

def extractNames : List String :=
  ["nt0", "nt1", "nt2", "nt3", "bkpal", "spritepal"]

def extract (data : Bytes) : Except Region.Error (List (String × Bytes)) :=
  extractNames.mapM fun name => do return (name, ← regionNamed data name)

end Image

end PpuCodec
