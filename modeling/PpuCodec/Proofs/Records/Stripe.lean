import PpuCodec.Proofs.Decode.Reading
import PpuCodec.Proofs.Decode.Stream

/-!
Stripe streams: packets of an address and one run along a row or down a column, and a byte that can
begin no packet. The codes of the runs down a column are end marks at the beginning of a packet, so
what they mean depends on where the pass over the table stands.
-/

namespace PpuCodec

namespace Stripe

inductive Direction where
  | across
  | down

def Direction.step : Direction → Int
  | .across => 1
  | .down => 32

inductive Run where
  | block (direction : Direction) (bytes : List UInt8)
    (hlength : 1 ≤ bytes.length ∧ bytes.length ≤ 64)
  | fill (direction : Direction) (value : UInt8) (count : Nat) (hcount : 1 ≤ count ∧ count ≤ 64)

namespace Run

def bytes : Run → List UInt8
  | .block .across bytes _ => UInt8.ofNat (bytes.length - 1) :: bytes
  | .fill .across value count _ => [UInt8.ofNat (0x3F + count), value]
  | .block .down bytes _ => UInt8.ofNat (0x7F + bytes.length) :: bytes
  | .fill .down value count _ => [UInt8.ofNat (0xBF + count), value]

def draw (run : Run) (pen : Pen) : Pen :=
  match run with
  | .block direction bytes _ => pen.write direction.step bytes
  | .fill direction value count _ => pen.write direction.step (List.replicate count value)

def layout : Layout Run where
  bytes := Run.bytes
  draw := Run.draw

end Run

/-- A high byte of zero or above 0x7F would end the stream. -/
structure Packet where
  high : UInt8
  low : UInt8
  run : Run
  hhigh : 0x01 ≤ high.toNat ∧ high.toNat ≤ 0x7F

namespace Packet

def layout : Layout Packet where
  bytes packet := [packet.high, packet.low] ++ packet.run.bytes
  draw packet pen := packet.run.draw (pen.moveTo (addressOf packet.low packet.high))

end Packet

structure EndMark where
  byte : UInt8
  hbyte : byte = 0x00 ∨ 0x80 ≤ byte.toNat

/-- The rules below the one for the address. -/
def runRules : List Rule :=
  Format.stripe.rules.drop 3

theorem Run.readBy_runRules (run : Run) : Run.layout.ReadBy runRules run := by
  cases run with
  | block direction bytes hlength =>
    cases direction with
    | across =>
      have hcode : bytes.length - 1 < 0x100 := by omega
      apply Layout.readBy_counted 0 runRules[0] hcode rfl (fun _ => rfl) rfl (fun _ => rfl) rfl rfl
      . intro b rest hb
        have : (bytes.length : Int) = b.toNat + (1 : Nat) := by omega
        rw [this]
        rfl
      . intro b rest hb
        have : (bytes.length : Int) + 1 = b.toNat + (2 : Nat) := by omega
        rw [this]
        rfl
      . intro atStart b rest hb _
        constructor
        . rfl
        . simp [runRules, Format.stripe]
          omega
        . simp
    | down =>
      have hcode : 0x7F + bytes.length < 0x100 := by omega
      apply Layout.readBy_counted 2 runRules[2] hcode rfl (fun _ => rfl) rfl (fun _ => rfl) rfl rfl
      . intro b rest hb
        have : (bytes.length : Int) = b.toNat - (127 : Nat) := by omega
        rw [this]
        rfl
      . intro b rest hb
        have : (bytes.length : Int) + 1 = b.toNat - (126 : Nat) := by omega
        rw [this]
        rfl
      . intro atStart b rest hb _
        constructor
        . rfl
        . simp [runRules, Format.stripe]
          omega
        . simp [runRules, Format.stripe]
          omega
  | fill direction value count hcount =>
    cases direction with
    | across =>
      have hcode : 0x3F + count < 0x100 := by omega
      apply Layout.readBy_pair 1 runRules[1] hcode rfl (fun _ => rfl) rfl rfl (fun _ => rfl) rfl rfl
      . intro b rest hb
        have : (count : Int) = b.toNat - (63 : Nat) := by omega
        rw [this]
        rfl
      . intro atStart b rest hb _
        constructor
        . rfl
        . simp [runRules, Format.stripe]
          omega
        . simp [runRules, Format.stripe]
          omega
    | down =>
      have hcode : 0xBF + count < 0x100 := by omega
      apply Layout.readBy_pair 3 runRules[3] hcode rfl (fun _ => rfl) rfl rfl (fun _ => rfl) rfl rfl
      . intro b rest hb
        have : (count : Int) = b.toNat - (191 : Nat) := by omega
        rw [this]
        rfl
      . intro atStart b rest hb _
        constructor
        . rfl
        . simp [runRules, Format.stripe]
          omega
        . simp [runRules, Format.stripe]
          omega

theorem Packet.readBy_stripe (packet : Packet)
    : Packet.layout.ReadBy Format.stripe.rules packet := by
  have hhigh := packet.hhigh
  apply Layout.readBy_of_continues 2 Format.stripe.rules[2] rfl (by simp) (fun _ => rfl) rfl rfl
    packet.run.readBy_runRules rfl rfl rfl
  . intro rest
    rfl
  . intro rest
    rfl
  . intro look
    rfl
  . intro atStart rest _
    constructor
    . rfl
    . simp [Format.stripe]
    -- The rules above are those of the end marks, which the high byte is none of.
    . simp [Format.stripe]
      omega

theorem EndMark.stoppedBy_stripe (mark : EndMark) : StoppedBy Format.stripe.rules [mark.byte] := by
  cases mark.hbyte with
  | inl hzero =>
    rw [hzero]
    apply StoppedBy.of_firstAt 0 Format.stripe.rules[0] (by simp) rfl rfl
    . intro atStart rest _
      constructor
      . rfl
      . simp [Format.stripe]
      . simp
    . intro rest
      rfl
    . intro rest
      rfl
  | inr habove =>
    have hlt := mark.byte.toNat_lt
    apply StoppedBy.of_firstAt 1 Format.stripe.rules[1] (by simp) rfl rfl
    . intro atStart rest _
      constructor
      . rfl
      . simp [Format.stripe]
        omega
      . simp [Format.stripe]
        omega
    . intro rest
      rfl
    . intro rest
      rfl

end Stripe

/-- A stripe stream is decoded as its packets say, wherever it stands in the input. -/
theorem Format.stripe_decodeWith_packets (packets : List Stripe.Packet) (mark : Stripe.EndMark)
    (before after : Bytes) (fill : UInt8)
    : let stream := Stripe.Packet.layout.encode packets ++ [mark.byte]
      let pen := Stripe.Packet.layout.drawAll packets
        { image := .blank fill, address := Image.defaultAddress }
      ∃ tally,
        Format.stripe.decodeWith {} (before ++ stream.toArray ++ after) before.size fill.toNat
          = (.ok pen.image, tally) ∧
        tally.finalAddress = pen.address ∧
        tally.endReached = true ∧
        tally.endOffset = before.size + stream.length ∧
        tally.skippedWrites = pen.dropped.length := by
  intro stream pen
  have hreads : Bytes.ReadsAt (before ++ stream.toArray ++ after) before.size
      (Stripe.Packet.layout.encode packets ++ ([mark.byte] ++ after.toList)) := by
    simpa [stream] using Bytes.readsAt_append before after stream
  have hopens : Opens (before ++ stream.toArray ++ after) Format.stripe.rules before.size fill
      (Run.start before.size) (.fresh fill) := by
    apply Opens.of_startOnly_eq_false
    simp [Format.stripe]
  obtain ⟨tally, hdecode, hshows, hreached, _⟩ := hopens.decodeWith Format.stripe (by omega)
    (fun packet _ => packet.readBy_stripe) mark.stoppedBy_stripe hreads
  refine ⟨tally, hdecode, hshows.finalAddress, hreached, ?_, hshows.skippedWrites⟩
  rw [hshows.endOffset]
  simp only [stream, List.length_append, Int.natCast_add, Run.start]
  omega

end PpuCodec
