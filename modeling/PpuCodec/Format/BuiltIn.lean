import PpuCodec.Format.Catalog

/-!
The formats that are built in. Exact values stand above the wider ranges that contain them.
-/

namespace PpuCodec

def ByteRange.any : ByteRange := ⟨0x00, 0xFF, by decide, by decide⟩

namespace Format

def between (low high : Nat) (h : low ≤ high := by decide) (h' : high ≤ 0xFF := by decide) :
    Option ByteRange :=
  some ⟨low, high, h, h'⟩

def exactly (value : Nat) (h : value ≤ 0xFF := by decide) : Option ByteRange :=
  some ⟨value, value, Nat.le_refl _, h⟩

def present : Option ByteRange := some .any

open PpuCodec.Expr (byte)

/-- Run lengths as in Contra: the output always starts at $2000. -/
def konami : Format where
  name := "Konami RLE"
  key := "konami"
  description := "Konami RLE compression (as used in Contra)"
  rules := [
    { slots := #v[between 0x00 0x80, present, none]
      action := .fill (byte 1) (byte 0)
      size := .single 2
      note := "repeat next byte n times" },
    { slots := #v[between 0x81 0xFE, none, none]
      action := .copy (byte 0 - 128) 1
      size := .single (byte 0 - 127)
      note := "copy n-0x80 bytes" },
    { slots := #v[exactly 0xFF, none, none]
      action := .stop
      note := "end of data" }]

/-- Run lengths as in Life Force and Blades of Steel: an address comes first, and more may follow. -/
def konami2 : Format where
  name := "Konami RLE 2"
  key := "konami2"
  description := "Konami RLE compression (as used in Life Force)"
  rules := [
    { slots := #v[present, present, none]
      action := .seek (byte 1 * 256 + byte 0)
      size := .single 2
      startOnly := true
      note := "starting PPU address" },
    { slots := #v[exactly 0x00, present, none]
      action := .fill (byte 1) 256
      size := .single 2
      discouraged := true
      note := "repeat next byte 256 times" },
    { slots := #v[between 0x01 0x7E, present, none]
      action := .fill (byte 1) (byte 0)
      size := .single 2
      note := "repeat next byte n times" },
    { slots := #v[exactly 0x80, present, none]
      action := .fill (byte 1) 255
      size := .single 2
      discouraged := true
      note := "repeat next byte 255 times" },
    { slots := #v[exactly 0x7F, present, present]
      action := .seek (byte 2 * 256 + byte 1)
      size := .single 3
      note := "new PPU address" },
    { slots := #v[between 0x81 0xFE, none, none]
      action := .copy (byte 0 - 128) 1
      size := .single (byte 0 - 127)
      note := "copy n-0x80 bytes" },
    { slots := #v[exactly 0xFF, none, none]
      action := .stop
      note := "end of data" }]

/-- Run lengths as in Bugs Bunny Crazy Castle: plain bytes, and runs behind a marker. -/
def kemko : Format where
  name := "Kemko RLE"
  key := "kemko"
  description := "Kemko RLE compression (as used in Bugs Bunny Crazy Castle)"
  rules := [
    { action := .seek 0x2000
      size := .single 0
      startOnly := true
      note := "data always starts at $2000" },
    { slots := #v[exactly 0xFF, present, exactly 0x00]
      action := .stop
      size := .single 3
      note := "end of data" },
    { slots := #v[exactly 0xFF, present, present]
      action := .fill (byte 1) (byte 2)
      size := .single 3
      note := "repeat xx yy times" },
    { slots := #v[between 0x00 0xFE, none, none]
      action := .copy 1 0
      note := "literal byte" }]

/-- Packets of an address and one run, along a row or down a column, as in Super Mario Bros. -/
def stripe : Format where
  name := "NES Stripe Image RLE"
  key := "stripe"
  description := "NES Stripe Image RLE (as used in Super Mario Bros.)"
  rules := [
    { slots := #v[exactly 0x00, none, none]
      action := .stop
      note := "end of data" },
    { slots := #v[between 0x80 0xFF, none, none]
      action := .stop
      note := "end of data" },
    { slots := #v[present, present, none]
      action := .seek (byte 0 * 256 + byte 1)
      size := .single 2
      continues := true
      note := "PPU address" },
    { slots := #v[between 0x00 0x3F, none, none]
      action := .copy (byte 0 + 1) 1
      size := .single (byte 0 + 2)
      note := "copy n+1 bytes" },
    { slots := #v[between 0x40 0x7F, present, none]
      action := .fill (byte 1) (byte 0 - 63)
      size := .single 2
      note := "repeat next byte n-0x3F times" },
    { slots := #v[between 0x80 0xBF, none, none]
      action := .copy (byte 0 - 127) 1
      size := .single (byte 0 - 126)
      step := .single 32
      note := "copy n-0x7F bytes vertically" },
    { slots := #v[between 0xC0 0xFF, present, none]
      action := .fill (byte 1) (byte 0 - 191)
      size := .single 2
      step := .single 32
      note := "repeat next byte n-0xBF times vertically" }]

def ppuDump : Format where
  name := "Full PPU Dump"
  key := "ppudump"
  description := "Uncompressed 16KB PPU memory dump"
  rules := [
    { action := .seek 0
      size := .single 0
      startOnly := true
      note := "dump starts at $0000" },
    { slots := #v[present, none, none]
      action := .copy 0x4000 0
      size := .single 0x4000
      continues := true
      note := "copy $4000 bytes" },
    { action := .stop
      note := "end of data" }]

/-- Blocks and runs that follow each other to the end of the input. The value 0x80 is not used. -/
def packBits : Format where
  name := "PackBits"
  key := "packbits"
  description := "Apple PackBits run-length encoding"
  rules := [
    { slots := #v[between 0x81 0xFF, present, none]
      action := .fill (byte 1) (257 - byte 0)
      size := .single 2
      note := "repeat next byte 257-n times" },
    { slots := #v[between 0x00 0x7F, none, none]
      action := .copy (byte 0 + 1) 1
      size := .single (byte 0 + 2)
      note := "copy n+1 bytes" }]

end Format

def Catalog.builtIn : Catalog :=
  ⟨[Format.konami, Format.konami2, Format.kemko, Format.stripe, Format.ppuDump, Format.packBits]⟩

end PpuCodec
