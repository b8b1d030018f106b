import PpuCodec.Image.Region
import PpuCodec.Picture
import PpuCodec.Tile.PatternTable

/-!
The four nametables of a picture memory drawn as one picture, two beside two.
-/

namespace PpuCodec.Preview

inductive Error where
  | outside
deriving Repr, DecidableEq

def Error.message : Error → String
  | .outside => "index out of range"

/-- Each attribute byte holds two bits for each quarter of a square of four by four tiles. -/
def quarter (b : UInt8) (row column : Int) : Fin 4 :=
  let shift := 4 * (row % 4 / 2) + 2 * (column % 4 / 2)
  ⟨b.toNat >>> shift.toNat % 4, Nat.mod_lt _ (by decide)⟩

def attributeIndex (row column : Int) : Int :=
  8 * (row / 4) + column / 4

def subpaletteOf (attributes : Bytes) (row column : Int) : Except Error (Fin 4) :=
  match attributes.wrapped? (attributeIndex row column) with
  | some b => .ok (quarter b row column)
  | none => .error .outside

/-- The CHR bytes that the tiles come from, if they are given: a half of them if there is more than
one pattern table, else all. -/
def half (chr : Bytes) (patternTable : Int) : Bytes :=
  let start := if 0x1000 < chr.size then patternTable * 0x1000 else 0
  chr.slice start (start + 0x1000)

def tileData (image : Image) (chr : Option Bytes) (patternTable : Int) :
    Except Region.Error Bytes :=
  match chr with
  | some chr => .ok (half chr patternTable)
  | none => (Region.ofTable .patterns patternTable).map image.region

structure Place where
  nametable : Fin 4
  row : Fin 30
  column : Fin 32

namespace Place

def ofPixel (x : Fin 512) (y : Fin 480) : Place where
  nametable := ⟨2 * (y.val / 240) + x.val / 256, by omega⟩
  row := ⟨y.val % 240 / 8, by omega⟩
  column := ⟨x.val % 256 / 8, by omega⟩

def index (place : Place) : Fin 3840 :=
  ⟨960 * place.nametable.val + 32 * place.row.val + place.column.val, by omega⟩

def ofIndex (i : Fin 3840) : Place where
  nametable := ⟨i.val / 960, by omega⟩
  row := ⟨i.val % 960 / 32, by omega⟩
  column := ⟨i.val % 32, by omega⟩

theorem ofIndex_index (place : Place) : ofIndex place.index = place := by
  obtain ⟨n, r, c⟩ := place
  simp only [ofIndex, index, mk.injEq, Fin.ext_iff]
  omega

def all : List Place :=
  (List.finRange 3840).map ofIndex

def tile (place : Place) (image : Image) : Nat :=
  image.cells[0x2000 + 0x400 * place.nametable.val + 32 * place.row.val + place.column.val].toNat

def subpalette (place : Place) (image : Image) : Fin 4 :=
  let b := image.cells[0x23C0 + 0x400 * place.nametable.val + 8 * (place.row.val / 4) +
    place.column.val / 4]
  quarter b place.row.val place.column.val

end Place

/-- The tiles at all places. Each is decoded once. -/
def tiles (image : Image) (data : Bytes) : Vector Tile 3840 :=
  let numbers := Place.all.map (·.tile image)
  ⟨((PatternTable.ofBytes data).tiles numbers).1.toArray, by
    simp [numbers, Place.all, PatternTable.length_tiles]⟩

theorem size_backgroundPalette (image : Image) :
    16 ≤ (image.region .backgroundPalette).size := by
  simp [Image.region, Image.toBytes, Region.start, Region.size]

def draw (image : Image) (data : Bytes) : Picture :=
  let tiles := tiles image data
  let palettes := Subpalette.fourOfMemory (image.region .backgroundPalette)
    (size_backgroundPalette image)
  .ofFn 512 480 fun x y =>
    let place := Place.ofPixel x y
    let tile := tiles[place.index]
    palettes[place.subpalette image][tile.rows[y.val % 8][x.val % 8]]

def render (image : Image) (chr : Option Bytes) (patternTable : Int) :
    Except Region.Error Picture :=
  (tileData image chr patternTable).map (draw image)

end PpuCodec.Preview
