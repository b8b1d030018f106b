import Mathlib.Data.Nat.Init
import PpuCodec.Proofs.Tile.PatternTable

/-!
Tiles are packed the way they are read: a plane of low bits, then a plane of high bits, with a byte
for every row. Each tile is read back from its planes, and all sixteen bytes are the planes of a
tile.
-/

namespace PpuCodec.Tile

/-- The byte whose bits are given from the highest to the lowest. -/
def rowByte (bits : Fin 8 → Bool) : UInt8 :=
  UInt8.ofNat (Nat.ofBits fun place => bits place.rev)

/-- One bit of every pixel, a byte for each row. -/
def plane (tile : Tile) (level : Nat) : Vector UInt8 8 :=
  Vector.ofFn fun row => rowByte fun column => tile.rows[row][column].val.testBit level

/-- The low bits of the pixels, then the high bits. -/
def pack (tile : Tile) : Vector UInt8 16 :=
  tile.plane 0 ++ tile.plane 1

theorem toNat_rowByte (bits : Fin 8 → Bool)
    : (rowByte bits).toNat = Nat.ofBits fun place => bits place.rev := by
  rw [rowByte, UInt8.toNat_ofNat']
  apply Nat.mod_eq_of_lt
  apply Nat.ofBits_lt_two_pow

theorem testBit_rowByte (bits : Fin 8 → Bool) (column : Fin 8)
    : (rowByte bits).toNat.testBit (7 - column.val) = bits column := by
  have hplace : 7 - column.val < 8 := by omega
  have hrev : Fin.rev ⟨7 - column.val, hplace⟩ = column := by
    apply Fin.ext
    simp only [Fin.val_rev]
    omega
  rw [toNat_rowByte, Nat.testBit_ofBits_lt _ _ hplace, hrev]

theorem rowByte_testBit (byte : UInt8)
    : rowByte (fun column => byte.toNat.testBit (7 - column.val)) = byte := by
  rw [← UInt8.toNat_inj]
  apply Nat.eq_of_testBit_eq
  intro place
  cases Nat.lt_or_ge place 8 with
  | inl hlt =>
    have hrev : place = 7 - (7 - place) := by omega
    have := testBit_rowByte (fun column => byte.toNat.testBit (7 - column.val)) ⟨7 - place, by omega⟩
    rwa [← hrev] at this
  | inr hge =>
    have hsmall : ∀ other : UInt8, other.toNat.testBit place = false := by
      intro other
      apply Nat.testBit_lt_two_pow
      exact Nat.lt_of_lt_of_le other.toNat_lt (Nat.pow_le_pow_right (by decide) hge)
    rw [hsmall, hsmall]

theorem val_bit (row : UInt8) (column : Fin 8)
    : (bit row column).val = (row.toNat.testBit (7 - column.val)).toNat := by
  rw [Nat.toNat_testBit, ← Nat.shiftRight_eq_div_pow]
  rfl

section

variable (low high : UInt8) (column : Fin 8)

theorem val_pixel
    : (pixel low high column).val
        =
      (low.toNat.testBit (7 - column.val)).toNat + 2 * (high.toNat.testBit (7 - column.val)).toNat
    := by
  simp only [pixel, val_bit]

theorem testBit_zero_pixel
    : (pixel low high column).val.testBit 0 = low.toNat.testBit (7 - column.val) := by
  rw [val_pixel]
  cases low.toNat.testBit (7 - column.val) with
  | false => simp
  | true => simp

theorem testBit_one_pixel
    : (pixel low high column).val.testBit 1 = high.toNat.testBit (7 - column.val) := by
  rw [val_pixel]
  cases low.toNat.testBit (7 - column.val) with
  | false => cases high.toNat.testBit (7 - column.val) <;> rfl
  | true => cases high.toNat.testBit (7 - column.val) <;> rfl

end

theorem get_plane (tile : Tile) (level : Nat) (row : Fin 8)
    : (tile.plane level).get row = rowByte fun column => tile.rows[row][column].val.testBit level
    := by
  unfold plane
  apply Vector.getElem_ofFn

theorem get_pack_castAdd (tile : Tile) (row : Fin 8)
    : tile.pack.get (row.castAdd 8) = rowByte fun column => tile.rows[row][column].val.testBit 0
    := by
  rw [← get_plane]
  apply Vector.getElem_append_left

theorem get_pack_addNat (tile : Tile) (row : Fin 8)
    : tile.pack.get (row.addNat 8) = rowByte fun column => tile.rows[row][column].val.testBit 1
    := by
  rw [← get_plane]
  apply Vector.getElem_append_right
  apply Nat.le_add_left

/-- A pixel is told by its two bits. -/
theorem pixel_rowByte (value : Fin 8 → Fin 4) (column : Fin 8)
    : pixel (rowByte fun column => (value column).val.testBit 0)
        (rowByte fun column => (value column).val.testBit 1) column
        =
      value column := by
  have hbits : ∀ v : Fin 4, (v.val.testBit 0).toNat + 2 * (v.val.testBit 1).toNat = v.val := by
    decide
  apply Fin.ext
  rw [val_pixel, testBit_rowByte, testBit_rowByte, hbits]

theorem ofBytes_pack (tile : Tile) : ofBytes tile.pack = tile := by
  cases tile with
  | mk rows =>
    rw [ofBytes, mk.injEq]
    apply Vector.ext
    intro row hrow
    apply Vector.ext
    intro column hcolumn
    have hlow : (mk rows).pack[row] = _ := get_pack_castAdd ⟨rows⟩ ⟨row, hrow⟩
    have hhigh : (mk rows).pack[row + 8] = _ := get_pack_addNat ⟨rows⟩ ⟨row, hrow⟩
    simp only [Vector.getElem_ofFn, hlow, hhigh]
    exact pixel_rowByte (fun column => rows[row][column]) ⟨column, hcolumn⟩

theorem pack_ofBytes (bytes : Vector UInt8 16) : (ofBytes bytes).pack = bytes := by
  apply Vector.ext
  intro place hplace
  -- The first eight bytes are the low bits of the rows, the others the high bits.
  cases Nat.lt_or_ge place 8 with
  | inl hlow =>
    apply (get_pack_castAdd (ofBytes bytes) ⟨place, hlow⟩).trans
    rw [← rowByte_testBit bytes[place]]
    apply congrArg rowByte
    funext column
    simp only [ofBytes, Fin.getElem_fin, Vector.getElem_ofFn]
    apply testBit_zero_pixel
  | inr hhigh =>
    obtain ⟨row, rfl⟩ : ∃ row, place = row + 8 := ⟨place - 8, by omega⟩
    apply (get_pack_addNat (ofBytes bytes) ⟨row, by omega⟩).trans
    rw [← rowByte_testBit bytes[row + 8]]
    apply congrArg rowByte
    funext column
    simp only [ofBytes, Fin.getElem_fin, Vector.getElem_ofFn]
    apply testBit_one_pixel

theorem readAt_append (front back : Bytes) (bytes : Vector UInt8 16)
    : readAt (front ++ bytes.toArray ++ back) front.size = ofBytes bytes := by
  have hinside : front.size + 16 ≤ (front ++ bytes.toArray ++ back).size := by
    simp only [Array.size_append, Vector.size_toArray]
    omega
  rw [readAt, dif_pos hinside]
  apply congrArg ofBytes
  apply Vector.ext
  intro place hplace
  rw [Vector.getElem_ofFn]
  rw [Array.getElem_append_left (by simpa using hplace)]
  rw [Array.getElem_append_right (by simp)]
  simp

theorem pack_readAt {data : Bytes} {start : Nat} (h : start + 16 ≤ data.size)
    : (readAt data start).pack.toArray = data.extract start (start + 16) := by
  rw [readAt, dif_pos h, pack_ofBytes]
  apply Array.ext
  . simp
    omega
  . intro place hplace _
    simp

/-- A packed tile is read back from among whole tiles, and a tile that was read is packed as the bytes
it was read from. Where the data ends before all sixteen bytes, the tile is blank. A pattern table
gives the same tiles, whatever it was asked for before. -/
theorem decode_inverts_pack
    : (∀ (tile : Tile) (front back : Bytes), 16 ∣ front.size →
        decode (front ++ tile.pack.toArray ++ back) (front.size / 16 : Nat) = .ok tile) ∧
      (∀ (data : Bytes) (index : Nat), 16 * index + 16 ≤ data.size →
        ∃ tile,
          decode data index = .ok tile ∧
          tile.pack.toArray = data.extract (16 * index) (16 * index + 16)) ∧
      (∀ (data : Bytes) (index : Nat), data.size < 16 * index + 16 →
        decode data index = .ok blank) ∧
      ∀ (data : Bytes) (asked : List Int) (index : Int),
        (((PatternTable.ofBytes data).afterAsking asked).tileAt index).1 = decode data index := by
  refine ⟨?_, ?_, ?_, ?_⟩
  . intro tile front back hdvd
    rw [decode_ofNat, Nat.mul_div_cancel' hdvd, readAt_append, ofBytes_pack]
  . intro data index hinside
    exact ⟨_, decode_ofNat data index, pack_readAt hinside⟩
  . intro data index houtside
    rw [decode_ofNat, readAt, dif_neg (Nat.not_le_of_lt houtside)]
  . intro data asked index
    have hfaithful := (PatternTable.faithful_ofBytes data).afterAsking asked
    exact (hfaithful.tileAt index).1

/-- A tile in which every row begins with the next value, between a tile and half a tile. -/
theorem decode_inverts_pack_between
    : let tile : Tile := ⟨.ofFn fun row => .ofFn fun column => Fin.ofNat 4 (row + column)⟩
      let data := Array.replicate 16 0xAA ++ tile.pack.toArray ++ Array.replicate 8 0x55
      decode data 1 = .ok tile ∧
      (∃ first,
        decode data 0 = .ok first ∧ first.pack.toArray = Array.replicate 16 0xAA) ∧
      decode data 2 = .ok blank ∧
      (((PatternTable.ofBytes data).afterAsking [2, -1, 1, 1]).tileAt 1).1 = .ok tile := by
  intro tile data
  obtain ⟨hpacked, hblock, hbehind, hasked⟩ := decode_inverts_pack
  have hsize : data.size = 40 := by simp [data]
  have htile := hpacked tile (Array.replicate 16 0xAA) (Array.replicate 8 0x55) (by decide)
  obtain ⟨first, hfirst, hbytes⟩ := hblock data 0 (by omega)
  refine ⟨htile, ⟨first, hfirst, ?_⟩, hbehind data 2 (by omega), ?_⟩
  . rw [hbytes]
    apply Array.ext
    . simp [hsize]
    . intro place hplace _
      simp [data]
  . rw [hasked]
    exact htile

end PpuCodec.Tile
