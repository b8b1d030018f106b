import PpuCodec.Preview
import PpuCodec.Proofs.Tile.Planes

/-!
The pixels of a preview, each told by the bytes of the picture memory and of the tiles that it
depends on.
-/

namespace PpuCodec

theorem Bytes.slice_ofNat (data : Bytes) (start stop : Nat)
    : data.slice start stop = data.extract start stop := by
  have hclamp : ∀ n : Nat, data.clamp n = min n data.size := by
    intro n
    rw [Bytes.clamp, if_pos (Int.natCast_nonneg n), Int.toNat_natCast]
  rw [Bytes.slice, hclamp, hclamp]
  apply Array.ext
  . simp only [Array.size_extract]
    omega
  . intro i hi _
    have hinside : start ≤ data.size := by
      simp only [Array.size_extract] at hi
      omega
    simp only [Array.getElem_extract, Nat.min_eq_left hinside]

/-- The byte at an address of the picture memory; there is none from `0x4000` on. -/
def Image.byteAt (image : Image) (address : Nat) : Nat :=
  (image.toBytes.getD address 0).toNat

theorem Image.byteAt_eq (image : Image) {address : Nat} (h : address < 0x4000)
    : image.byteAt address = image.cells[address].toNat := by
  simp [byteAt, toBytes, h]

namespace Preview

/-- The bytes that the tiles are read from. -/
def shownTable (image : Image) (chr : Option Bytes) (patternTable : Nat) : Bytes :=
  match chr with
  | none => image.toBytes.extract (0x1000 * patternTable) (0x1000 * patternTable + 0x1000)
  | some chr =>
    let start := if 0x1000 < chr.size then 0x1000 * patternTable else 0
    chr.extract start (start + 0x1000)

/-- The value of a pixel in a tile of a pattern table, from the bits of its two planes. It is `0` in
a tile that the table ends within. -/
def shownEntry (table : Bytes) (tile row column : Nat) : Nat :=
  if 16 * tile + 16 ≤ table.size then
    let low := (table.getD (16 * tile + row) 0).toNat.testBit (7 - column)
    let high := (table.getD (16 * tile + 8 + row) 0).toNat.testBit (7 - column)
    low.toNat + 2 * high.toNat
  else
    0

/-- The number of the colour of an entry of a background palette. The first entry of each is the
backdrop. In a picture memory without colours they are black and greys. -/
def shownNumber (image : Image) (palette entry : Nat) : Nat :=
  if ∀ i < 16, image.byteAt (0x3F00 + i) = 0 then
    [0x0F, 0x00, 0x10, 0x30].getD entry 0
  else
    image.byteAt (0x3F00 + if entry = 0 then 0 else 4 * palette + entry)

section

variable (image : Image)

theorem tileData_eq_ok (chr : Option Bytes) (patternTable : Fin 2)
    : tileData image chr patternTable.val = .ok (shownTable image chr patternTable) := by
  cases chr with
  | none =>
    have hregion
        : Region.ofTable .patterns patternTable.val = .ok (.table .patterns patternTable) := by
      match patternTable with
      | 0 => rfl
      | 1 => rfl
    rw [tileData, hregion, shownTable, Nat.mul_comm]
    simp [Except.map, Image.region, Region.start, Region.size, Table.base, Table.stride, Table.size]
  | some chr =>
    have hstart : (if 0x1000 < chr.size then (patternTable.val : Int) * 0x1000 else 0)
        = ((if 0x1000 < chr.size then 0x1000 * patternTable.val else 0 : Nat) : Int) := by
      split
      . omega
      . rfl
    rw [tileData, half, hstart]
    exact congrArg Except.ok (Bytes.slice_ofNat chr _ _)

theorem getElem_readAt (table : Bytes) (tile : Nat) {row column : Nat} (hrow : row < 8)
    (hcolumn : column < 8)
    : ((Tile.readAt table (16 * tile)).rows[row][column]).val
        =
      shownEntry table tile row column := by
  unfold Tile.readAt shownEntry
  split
  . next hinside =>
    have hlow : 16 * tile + row < table.size := by omega
    have hhigh : 16 * tile + 8 + row < table.size := by omega
    have hbehind : 16 * tile + (row + 8) = 16 * tile + 8 + row := by omega
    simp only [Tile.ofBytes, Vector.getElem_ofFn, Tile.val_pixel, hbehind]
    simp [hlow, hhigh]
  . simp [Tile.blank]

theorem getElem_gray (entry : Fin 4)
    : Subpalette.gray[entry] = .ofNumber ([0x0F, 0x00, 0x10, 0x30].getD entry.val 0 : Nat) := by
  revert entry
  decide

theorem size_region_backgroundPalette : (image.region .backgroundPalette).size = 16 := by
  simp [Image.region, Image.toBytes, Region.start, Region.size]

theorem toNat_backgroundPalette {i : Nat} (h : i < (image.region .backgroundPalette).size)
    : (image.region .backgroundPalette)[i].toNat = image.byteAt (0x3F00 + i) := by
  have hsize := size_region_backgroundPalette image
  rw [image.byteAt_eq (by omega)]
  simp [Image.region, Image.toBytes, Region.start]

theorem all_backgroundPalette
    : (image.region .backgroundPalette).all (· == 0) = true
        ↔
      ∀ i < 16, image.byteAt (0x3F00 + i) = 0 := by
  have hsize := size_region_backgroundPalette image
  rw [Array.all_eq_true]
  constructor
  . intro h i hi
    have hinside : i < (image.region .backgroundPalette).size := by omega
    rw [← toNat_backgroundPalette image hinside, beq_iff_eq.mp (h i hinside)]
    rfl
  . intro h i hi
    rw [beq_iff_eq, ← UInt8.toNat_inj, toNat_backgroundPalette image hi, h i (by omega)]
    rfl

theorem getElem_fourOfMemory (palette entry : Fin 4)
    : (Subpalette.fourOfMemory (image.region .backgroundPalette)
        (size_backgroundPalette image))[palette][entry]
        =
      .ofNumber (shownNumber image palette entry) := by
  simp only [Subpalette.fourOfMemory, shownNumber, all_backgroundPalette]
  split
  . simp only [Fin.getElem_fin, Vector.getElem_replicate]
    exact getElem_gray entry
  . simp only [Fin.getElem_fin, Vector.getElem_ofFn, Subpalette.ofMemory]
    split
    . rw [toNat_backgroundPalette]
    . rw [toNat_backgroundPalette]

/-- Every place shows the tile whose number it holds, although the tiles are read one after another
from a table that keeps them. -/
theorem getElem_tiles (data : Bytes) (place : Place)
    : (tiles image data)[place.index] = Tile.readAt data (16 * place.tile image) := by
  have htiles : ((PatternTable.ofBytes data).tiles (Place.all.map (·.tile image))).1
      = Place.all.map fun place => Tile.readAt data (16 * place.tile image) := by
    rw [(PatternTable.faithful_ofBytes data).tiles, List.map_map]
    rfl
  have hplace : ∀ h : place.index.val < Place.all.length, Place.all[place.index.val] = place := by
    simp [Place.all, Place.ofIndex_index]
  simp only [tiles, Fin.getElem_fin, Vector.getElem_mk, List.getElem_toArray, htiles,
    List.getElem_map, hplace]

theorem tile_eq_byteAt (place : Place)
    : place.tile image
        =
      image.byteAt (0x2000 + 0x400 * place.nametable.val + 32 * place.row.val + place.column.val)
    := by
  rw [image.byteAt_eq (by omega)]
  rfl

theorem val_subpalette (place : Place)
    : (place.subpalette image).val
        =
      image.byteAt (0x2000 + 0x400 * place.nametable.val + 0x3C0 + 8 * (place.row.val / 4) +
          place.column.val / 4)
        >>> (4 * (place.row.val % 4 / 2) + 2 * (place.column.val % 4 / 2)) % 4 := by
  have hshift : (4 * ((place.row.val : Int) % 4 / 2) + 2 * ((place.column.val : Int) % 4 / 2)).toNat
      = 4 * (place.row.val % 4 / 2) + 2 * (place.column.val % 4 / 2) := by
    omega
  have hbase : 0x2000 + 0x400 * place.nametable.val + 0x3C0
      = 0x23C0 + 0x400 * place.nametable.val := by
    omega
  rw [hbase, image.byteAt_eq (by omega)]
  simp only [Place.subpalette, quarter, hshift]

theorem pixel?_draw (data : Bytes) (x : Fin 512) (y : Fin 480)
    : (draw image data).pixel? x y
        =
      let place := Place.ofPixel x y
      let entry := shownEntry data (place.tile image) (y.val % 8) (x.val % 8)
      some (.ofNumber (shownNumber image (place.subpalette image).val entry)) := by
  rw [draw, Picture.pixel?_ofFn _ x.isLt y.isLt]
  have hrow : y.val % 8 < 8 := Nat.mod_lt _ (by decide)
  have hcolumn : x.val % 8 < 8 := Nat.mod_lt _ (by decide)
  dsimp only
  refine congrArg some ((getElem_fourOfMemory image _ _).trans ?_)
  rw [← getElem_readAt data ((Place.ofPixel x y).tile image) hrow hcolumn, ← getElem_tiles]

end

end Preview

end PpuCodec
