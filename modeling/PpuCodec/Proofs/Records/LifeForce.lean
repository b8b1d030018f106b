import PpuCodec.Proofs.Records.Konami

/-!
Streams of the game Life Force: an address, records, and an end mark. The table for them does what
the records say, one after the other.
-/

namespace PpuCodec

namespace LifeForce

inductive Record where
  | run (value : UInt8) (count : Nat) (hcount : 1 ≤ count ∧ count ≤ 0x7E)
  | run256 (value : UInt8)
  | run255 (value : UInt8)
  | seek (low high : UInt8)
  | block (bytes : List UInt8) (hlength : 1 ≤ bytes.length ∧ bytes.length ≤ 0x7E)

namespace Record

def bytes : Record → List UInt8
  | .run value count _ => [UInt8.ofNat count, value]
  | .run256 value => [0x00, value]
  | .run255 value => [0x80, value]
  | .seek low high => [0x7F, low, high]
  | .block bytes _ => UInt8.ofNat (0x80 + bytes.length) :: bytes

def draw (record : Record) (pen : Pen) : Pen :=
  match record with
  | .run value count _ => pen.write 1 (List.replicate count value)
  | .run256 value => pen.write 1 (List.replicate 256 value)
  | .run255 value => pen.write 1 (List.replicate 255 value)
  | .seek low high => pen.moveTo (addressOf low high)
  | .block bytes _ => pen.write 1 bytes

/-- The long runs are discouraged, for games disagree on them. -/
def isDiscouraged : Record → Bool
  | .run256 _ => true
  | .run255 _ => true
  | _ => false

end Record

def layout : Layout Record where
  bytes := Record.bytes
  draw := Record.draw
  discouraged := Record.isDiscouraged

theorem readBy_konami2 (record : Record) : layout.ReadBy Format.konami2.rules record := by
  cases record with
  | run value count hcount =>
    have hfits : Pack.Konami.Fits (.run value count) := hcount
    apply (Pack.Konami.readBy_konami2 hfits).congr
    . rfl
    . rfl
    . rfl
  | run256 value =>
    have hcode : 0x00 < 0x100 := by decide
    apply Layout.readBy_pair 1 Format.konami2.rules[1] (n := 256) hcode rfl ?_ rfl rfl
      (fun _ => rfl) rfl rfl
    . intro b rest _
      rfl
    . intro atStart b rest hb hunderway
      constructor
      . rfl
      . simp [Format.konami2, hb]
      . simp [Format.konami2, Pack.Konami.atStart_eq_false hunderway]
    . intro pen
      rw [Int.natCast_one]
      simp only [layout, Record.draw]
  | run255 value =>
    have hcode : 0x80 < 0x100 := by decide
    apply Layout.readBy_pair 3 Format.konami2.rules[3] (n := 255) hcode rfl ?_ rfl rfl
      (fun _ => rfl) rfl rfl
    . intro b rest _
      rfl
    . intro atStart b rest hb hunderway
      constructor
      . rfl
      . simp [Format.konami2, hb]
      . simp [Format.konami2, hb, Pack.Konami.atStart_eq_false hunderway]
    . intro pen
      rw [Int.natCast_one]
      simp only [layout, Record.draw]
  | seek low high =>
    have hbytes : layout.bytes (.seek low high) = [0x7F, low, high] := by rfl
    have hselects : layout.Selects Format.konami2.rules (.seek low high) 4
        Format.konami2.rules[4] := by
      constructor
      . simp [hbytes]
      . intro atStart rest hunderway
        constructor
        . rfl
        . simp [Format.konami2, hbytes]
        . simp [Format.konami2, hbytes, Pack.Konami.atStart_eq_false hunderway]
      . intro rest
        rfl
      . rfl
      . rfl
    apply hselects.readBy_seek rfl
    . intro rest
      rfl
    . intro rest
      rfl
    . intro pen
      rfl
  | block bytes hlength =>
    have hfits : Pack.Konami.Fits (.block bytes) := hlength
    apply (Pack.Konami.readBy_konami2 hfits).congr
    . rfl
    . rfl
    . rfl

end LifeForce

/-- A Life Force stream is decoded as its records say, wherever it stands in the input. -/
theorem Format.konami2_decodeWith_records (low high : UInt8) (records : List LifeForce.Record)
    (before after : Bytes) (fill : UInt8)
    : let stream := [low, high] ++ LifeForce.layout.encode records ++ [0xFF]
      let pen := LifeForce.layout.drawAll records
        { image := .blank fill, address := high.toNat * 256 + low.toNat }
      ∃ tally,
        Format.konami2.decodeWith {} (before ++ stream.toArray ++ after) before.size fill.toNat
          = (.ok pen.image, tally) ∧
        tally.finalAddress = pen.address ∧
        tally.endReached = true ∧
        tally.endOffset = before.size + stream.length ∧
        tally.skippedWrites = pen.dropped.length ∧
        tally.discouraged.map Prod.fst
          = LifeForce.layout.discouragedAt (before.size + 2) records := by
  intro stream pen
  have hreads : Bytes.ReadsAt (before ++ stream.toArray ++ after) before.size
      ([low, high] ++ (LifeForce.layout.encode records ++ ([0xFF] ++ after.toList))) := by
    simpa [stream] using Bytes.readsAt_append before after stream
  have hopens := Pack.Konami.opens_konami2 hreads (by simp) fill
  obtain ⟨tally, hdecode, hshows, hreached, hhits⟩ := hopens.decodeWith Format.konami2 (by omega)
    (fun record _ => LifeForce.readBy_konami2 record) Pack.Konami.stoppedBy_konami2 hreads.advance
  refine ⟨tally, hdecode, hshows.finalAddress, hreached, ?_, hshows.skippedWrites, hhits⟩
  rw [hshows.endOffset]
  simp only [stream, List.length_append, Int.natCast_add]
  simp
  omega

end PpuCodec
