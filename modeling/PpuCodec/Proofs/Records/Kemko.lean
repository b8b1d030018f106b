import PpuCodec.Pack.Kemko
import PpuCodec.Proofs.Decode.Reading
import PpuCodec.Proofs.Records.Segment

/-!
Runs and plain bytes as records of the Kemko table. The marker begins both the runs and the end
mark; what tells them apart is the length, which for a run is never zero.
-/

namespace PpuCodec.Pack.Kemko

/-- The segments that have a code: the marker does not stand for itself. -/
def Fits : Segment → Prop
  | .run _ count => 1 ≤ count ∧ count ≤ maxLength
  | .block bytes => ∃ b, b ≠ marker ∧ bytes = [b]

theorem atStart_eq_false {atStart : Bool} (h : Underway Format.kemko.rules atStart)
    : atStart = false := by
  apply h.atStart_eq_false
  simp [Format.kemko]

theorem readBy_run {value : UInt8} {count : Nat} (h : Fits (.run value count))
    : (Segment.layout encodeSegment).ReadBy Format.kemko.rules (.run value count) := by
  simp only [Fits, maxLength] at h
  have hcode : (UInt8.ofNat count).toNat = count := by
    rw [UInt8.toNat_ofNat']
    omega
  have hbytes : (Segment.layout encodeSegment).bytes (.run value count)
      = [0xFF, value, UInt8.ofNat count] := by
    rfl
  have hselects : (Segment.layout encodeSegment).Selects Format.kemko.rules (.run value count) 2
      Format.kemko.rules[2] := by
    constructor
    . simp [hbytes]
    . intro atStart rest hunderway
      constructor
      . rfl
      . simp [Format.kemko, hbytes]
      -- The rule for the end mark stands above this one, and takes a count of zero only.
      . simp [Format.kemko, hbytes, atStart_eq_false hunderway]
        omega
    . intro rest
      rfl
    . rfl
    . rfl
  apply hselects.readBy_fill (v := value) (n := count) rfl
  . intro rest
    rfl
  . rw [hbytes]
    generalize UInt8.ofNat count = code at hcode
    rw [← hcode]
    intro rest
    rfl
  . intro rest
    rfl
  . intro pen
    rfl

theorem readBy_block {b : UInt8} (h : b ≠ marker)
    : (Segment.layout encodeSegment).ReadBy Format.kemko.rules (.block [b]) := by
  have hlt := b.toNat_lt
  have hne : b.toNat ≠ 0xFF := by
    intro heq
    apply h
    apply UInt8.toNat_inj.mp
    exact heq
  have hselects : (Segment.layout encodeSegment).Selects Format.kemko.rules (.block [b]) 3
      Format.kemko.rules[3] := by
    have hbytes : (Segment.layout encodeSegment).bytes (.block [b]) = [b] := by rfl
    constructor
    . simp [hbytes]
    . intro atStart rest hunderway
      constructor
      . rfl
      . simp [Format.kemko, hbytes]
        omega
      . simp [Format.kemko, hbytes, atStart_eq_false hunderway, hne]
    . intro rest
      rfl
    . rfl
    . rfl
  apply hselects.readBy_copy [] rfl rfl
  . intro rest
    rfl
  . intro rest
    rfl
  . intro rest
    rfl
  . intro pen
    rfl

theorem readBy_kemko {segment : Segment} (h : Fits segment)
    : (Segment.layout encodeSegment).ReadBy Format.kemko.rules segment := by
  cases segment with
  | run value count => exact readBy_run h
  | block bytes =>
    obtain ⟨b, hne, hbytes⟩ := h
    rw [hbytes]
    exact readBy_block hne

theorem stoppedBy_endMark : StoppedBy Format.kemko.rules endMark := by
  apply StoppedBy.of_firstAt 1 Format.kemko.rules[1] (by simp [endMark]) rfl rfl
  . intro atStart rest hunderway
    constructor
    . rfl
    . simp [Format.kemko, endMark, marker]
    . simp [Format.kemko, atStart_eq_false hunderway]
  . intro rest
    rfl
  . intro rest
    rfl

theorem opens_kemko {data : Bytes} {offset : Int} {rest : List UInt8}
    (hreads : data.ReadsAt offset rest) (hrest : rest ≠ []) (fill : UInt8)
    : Opens data Format.kemko.rules offset fill ⟨offset + 0, 0x2000, false⟩
        ((Pen.fresh fill).moveTo 0x2000) := by
  have hhead : data.ReadsAt offset ([] ++ rest) := hreads
  apply Opens.of_seek 0 Format.kemko.rules[0] hhead hrest ?_ rfl rfl rfl rfl rfl rfl rfl
  constructor
  . rfl
  . simp [Format.kemko]
  . simp

end PpuCodec.Pack.Kemko
