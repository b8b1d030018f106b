import PpuCodec.Bytes
import PpuCodec.Picture

/-!
Pictures as PNG data, uncompressed: three bytes a pixel, and a zero before each row.
-/

namespace PpuCodec.Picture.Png

def word (n : Nat) : Bytes :=
  #[UInt8.ofNat (n / 0x1000000), UInt8.ofNat (n / 0x10000), UInt8.ofNat (n / 0x100), UInt8.ofNat n]

def half (n : Nat) : Bytes :=
  #[UInt8.ofNat n, UInt8.ofNat (n / 0x100)]

/-- One step of the division by the polynomial of the cyclic redundancy check. -/
def crcStep (c : UInt32) : UInt32 :=
  if c % 2 = 1 then (c >>> 1) ^^^ 0xEDB88320 else c >>> 1

def crcByte (c : UInt32) (b : UInt8) : UInt32 :=
  (List.range 8).foldl (fun c _ => crcStep c) (c ^^^ b.toUInt32)

def crc (data : Bytes) : Nat :=
  ((data.foldl crcByte 0xFFFFFFFF) ^^^ 0xFFFFFFFF).toNat

/-- The two running sums of the checksum, modulo a prime. -/
def adler (data : Bytes) : Nat :=
  let (a, b) := data.foldl (fun (a, b) byte =>
    let a := (a + byte.toNat) % 65521
    (a, (b + a) % 65521)) (1, 0)
  b * 0x10000 + a

def chunk (name : String) (data : Bytes) : Bytes :=
  let body := (name.toList.map fun c => UInt8.ofNat c.toNat).toArray ++ data
  word data.size ++ body ++ word (crc body)

/-- A stored block holds no more bytes than this. -/
def blockSize : Nat := 0xFFFF

def stored (data : Bytes) : Bytes :=
  let count := max 1 ((data.size + blockSize - 1) / blockSize)
  (List.range count).foldl (fun out i =>
    let block := data.extract (i * blockSize) (i * blockSize + blockSize)
    let last : UInt8 := if i + 1 = count then 1 else 0
    (out.push last ++ half block.size ++ half (0xFFFF - block.size)) ++ block) #[]

def header (picture : Picture) : Bytes :=
  word picture.width ++ word picture.height ++ #[8, 2, 0, 0, 0]

def scanlines (picture : Picture) : Bytes :=
  picture.rows.foldl (fun out row =>
    row.foldl (fun out color => ((out.push color.red).push color.green).push color.blue)
      (out.push 0)) #[]

end Png

def toPng (picture : Picture) : Bytes :=
  let lines := Png.scanlines picture
  let signature : Bytes := #[0x89, 0x50, 0x4E, 0x47, 0x0D, 0x0A, 0x1A, 0x0A]
  signature ++ Png.chunk "IHDR" (Png.header picture)
    ++ Png.chunk "IDAT" (#[0x78, 0x01] ++ Png.stored lines ++ Png.word (Png.adler lines))
    ++ Png.chunk "IEND" #[]

end PpuCodec.Picture
