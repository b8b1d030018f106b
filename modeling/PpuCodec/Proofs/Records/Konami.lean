import PpuCodec.Pack.Konami
import PpuCodec.Proofs.Decode.Reading
import PpuCodec.Proofs.Records.Segment

/-!
The segments that both Konami formats have a code for, as records of the two tables.
-/

namespace PpuCodec.Pack.Konami

/-- The lengths that have a code in both formats. -/
def Fits : Segment → Prop
  | .run _ count => 1 ≤ count ∧ count ≤ maxLength
  | .block bytes => 1 ≤ bytes.length ∧ bytes.length ≤ maxLength

section

variable {rules : List Rule}

theorem readBy_run {value : UInt8} {count : Nat} (h : Fits (.run value count)) (index : Nat)
    (rule : Rule) (haction : rule.action = .fill (.byte 1) (.byte 0))
    (hsize : rule.size = .single 2) (hstep : ∀ look, rule.step.value look = .ok 1)
    (hcontinues : rule.continues = false) (hhit : rule.discouraged = false)
    (hfirst : ∀ {atStart : Bool} (b : UInt8) rest, b.toNat = count → Underway rules atStart →
      Rule.FirstAt rules (Bytes.lookaheadOf (b :: value :: rest)) atStart index rule)
    : (Segment.layout encodeSegment).ReadBy rules (.run value count) := by
  simp only [Fits, maxLength] at h
  have hcode : count < 0x100 := by omega
  apply Layout.readBy_pair index rule hcode rfl (fun _ => rfl) haction hsize hstep hcontinues hhit
    ?_ hfirst
  intro b rest hb
  rw [← hb]
  rfl

theorem readBy_block {bytes : List UInt8} (h : Fits (.block bytes)) (index : Nat) (rule : Rule)
    (haction : rule.action = .copy (.byte 0 - 128) 1) (hsize : rule.size = .single (.byte 0 - 127))
    (hstep : ∀ look, rule.step.value look = .ok 1) (hcontinues : rule.continues = false)
    (hhit : rule.discouraged = false)
    (hfirst : ∀ {atStart : Bool} (b : UInt8) rest, b.toNat = 0x80 + bytes.length →
      Underway rules atStart →
        Rule.FirstAt rules (Bytes.lookaheadOf (b :: rest)) atStart index rule)
    : (Segment.layout encodeSegment).ReadBy rules (.block bytes) := by
  simp only [Fits, maxLength] at h
  have hcode : 0x80 + bytes.length < 0x100 := by omega
  apply Layout.readBy_counted index rule hcode rfl (fun _ => rfl) haction hstep hcontinues hhit
    ?_ ?_ hfirst
  . intro b rest hb
    have : (bytes.length : Int) = b.toNat - (128 : Nat) := by omega
    rw [this]
    rfl
  . intro b rest hb
    have : (bytes.length : Int) + 1 = b.toNat - (127 : Nat) := by omega
    rw [this, hsize]
    rfl

end

theorem readBy_konami {segment : Segment} (h : Fits segment)
    : (Segment.layout encodeSegment).ReadBy Format.konami.rules segment := by
  cases segment with
  | run value count =>
    apply readBy_run h 0 Format.konami.rules[0] rfl rfl (fun _ => rfl) rfl rfl
    intro atStart b rest hb _
    simp only [Fits, maxLength] at h
    constructor
    . rfl
    . simp [Format.konami]
      omega
    . simp
  | block bytes =>
    apply readBy_block h 1 Format.konami.rules[1] rfl rfl (fun _ => rfl) rfl rfl
    intro atStart b rest hb _
    simp only [Fits, maxLength] at h
    constructor
    . rfl
    . simp [Format.konami]
      omega
    . simp [Format.konami]
      omega

theorem atStart_eq_false {atStart : Bool} (h : Underway Format.konami2.rules atStart)
    : atStart = false := by
  apply h.atStart_eq_false
  simp [Format.konami2]

theorem readBy_konami2 {segment : Segment} (h : Fits segment)
    : (Segment.layout encodeSegment).ReadBy Format.konami2.rules segment := by
  cases segment with
  | run value count =>
    apply readBy_run h 2 Format.konami2.rules[2] rfl rfl (fun _ => rfl) rfl rfl
    intro atStart b rest hb hunderway
    simp only [Fits, maxLength] at h
    constructor
    . rfl
    . simp [Format.konami2]
      omega
    . simp [Format.konami2, atStart_eq_false hunderway]
      omega
  | block bytes =>
    apply readBy_block h 5 Format.konami2.rules[5] rfl rfl (fun _ => rfl) rfl rfl
    intro atStart b rest hb hunderway
    simp only [Fits, maxLength] at h
    constructor
    . rfl
    . simp [Format.konami2]
      omega
    . simp [Format.konami2, atStart_eq_false hunderway]
      grind

theorem stoppedBy_konami : StoppedBy Format.konami.rules [0xFF] := by
  apply StoppedBy.of_firstAt 2 Format.konami.rules[2] (by simp) rfl rfl
  . intro atStart rest _
    constructor
    . rfl
    . simp [Format.konami]
    . simp [Format.konami]
  . intro rest
    rfl
  . intro rest
    rfl

theorem stoppedBy_konami2 : StoppedBy Format.konami2.rules [0xFF] := by
  apply StoppedBy.of_firstAt 6 Format.konami2.rules[6] (by simp) rfl rfl
  . intro atStart rest hunderway
    constructor
    . rfl
    . simp [Format.konami2]
    . simp [Format.konami2, atStart_eq_false hunderway]
  . intro rest
    rfl
  . intro rest
    rfl

theorem opens_konami2 {data : Bytes} {offset : Int} {low high : UInt8} {rest : List UInt8}
    (hreads : data.ReadsAt offset ([low, high] ++ rest)) (hrest : rest ≠ []) (fill : UInt8)
    : Opens data Format.konami2.rules offset fill ⟨offset + 2, addressOf low high, false⟩
        ((Pen.fresh fill).moveTo (addressOf low high)) := by
  apply Opens.of_seek 0 Format.konami2.rules[0] hreads hrest ?_ rfl rfl rfl rfl rfl rfl rfl
  constructor
  . rfl
  . simp [Format.konami2]
  . simp

end PpuCodec.Pack.Konami
