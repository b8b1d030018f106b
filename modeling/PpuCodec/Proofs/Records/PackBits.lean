import Mathlib.Logic.ExistsUnique
import PpuCodec.Proofs.Decode.Forward
import PpuCodec.Proofs.Decode.Reading
import PpuCodec.Proofs.Decode.Records
import PpuCodec.Proofs.Format.SelfContained
import PpuCodec.Proofs.Records.Segment

/-!
Runs and blocks as records of the PackBits table, which has no end mark. The table takes nothing but
such records, and what begins with one begins with no other.
-/

namespace PpuCodec

namespace Pack.PackBits

/-- The lengths that have a code. -/
def Fits : Segment → Prop
  | .run _ count => 2 ≤ count ∧ count ≤ 128
  | .block bytes => 1 ≤ bytes.length ∧ bytes.length ≤ 128

def encodeSegment : Segment → List UInt8
  | .run value count => [UInt8.ofNat (257 - count), value]
  | .block bytes => UInt8.ofNat (bytes.length - 1) :: bytes

def layout : Layout Segment :=
  Segment.layout encodeSegment

theorem readBy_packBits {segment : Segment} (h : Fits segment)
    : layout.ReadBy Format.packBits.rules segment := by
  cases segment with
  | run value count =>
    simp only [Fits] at h
    have hcode : 257 - count < 0x100 := by omega
    apply Layout.readBy_pair 0 Format.packBits.rules[0] hcode rfl (fun _ => rfl) rfl rfl
      (fun _ => rfl) rfl rfl
    . intro b rest hb
      have : (count : Int) = (257 : Nat) - b.toNat := by omega
      rw [this]
      rfl
    . intro atStart b rest hb _
      constructor
      . rfl
      . simp [Format.packBits]
        omega
      . simp
  | block bytes =>
    simp only [Fits] at h
    have hcode : bytes.length - 1 < 0x100 := by omega
    apply Layout.readBy_counted 1 Format.packBits.rules[1] hcode rfl (fun _ => rfl) rfl
      (fun _ => rfl) rfl rfl
    . intro b rest hb
      have : (bytes.length : Int) = b.toNat + (1 : Nat) := by omega
      rw [this]
      rfl
    . intro b rest hb
      have : (bytes.length : Int) + 1 = b.toNat + (2 : Nat) := by omega
      rw [this]
      rfl
    . intro atStart b rest hb _
      constructor
      . rfl
      . simp [Format.packBits]
        omega
      . simp [Format.packBits]
        omega

theorem eq_of_ofNat_eq {m n : Nat} (hm : m < 0x100) (hn : n < 0x100)
    (h : UInt8.ofNat m = UInt8.ofNat n)
    : m = n := by
  have := congrArg UInt8.toNat h
  rw [UInt8.toNat_ofNat_of_lt' hm, UInt8.toNat_ofNat_of_lt' hn] at this
  exact this

theorem readable_layout : layout.Readable Fits := by
  constructor
  . intro segment _
    cases segment with
    | run value count => simp [layout, Segment.layout, encodeSegment]
    | block bytes => simp [layout, Segment.layout, encodeSegment]
  . intro x y rest rest' hx hy heq
    cases x with
    | run value count =>
      cases y with
      | run value' count' =>
        simp only [layout, Segment.layout, encodeSegment, List.cons_append, List.cons.injEq] at heq
        obtain ⟨hcode, hvalue, -⟩ := heq
        simp only [Fits] at hx hy
        have := eq_of_ofNat_eq (by omega) (by omega) hcode
        have hcount : count = count' := by omega
        rw [hcount, hvalue]
      | block bytes =>
        simp only [layout, Segment.layout, encodeSegment, List.cons_append, List.cons.injEq] at heq
        simp only [Fits] at hx hy
        have := eq_of_ofNat_eq (by omega) (by omega) heq.1
        omega
    | block bytes =>
      cases y with
      | run value count =>
        simp only [layout, Segment.layout, encodeSegment, List.cons_append, List.cons.injEq] at heq
        simp only [Fits] at hx hy
        have := eq_of_ofNat_eq (by omega) (by omega) heq.1
        omega
      | block bytes' =>
        simp only [layout, Segment.layout, encodeSegment, List.cons_append, List.cons.injEq] at heq
        obtain ⟨hcode, happend⟩ := heq
        simp only [Fits] at hx hy
        have := eq_of_ofNat_eq (by omega) (by omega) hcode
        rw [(List.append_inj happend (by omega)).1]

section

variable {data : Bytes} {firing : Firing} {rest : List UInt8}

theorem exists_run_of_fire (h : firing.Of data Format.packBits.rules)
    (hrule : firing.rule = Format.packBits.rules[0])
    (hreads : data.ReadsAt firing.cursor.position rest)
    : ∃ value count more,
        Fits (.run value count) ∧
        rest = layout.bytes (.run value count) ++ more ∧
        firing.size = (layout.bytes (.run value count)).length := by
  have haccepts := h.accepts
  rw [hrule, hreads.lookahead_eq] at haccepts
  obtain ⟨size, step, effect, hsize, -, -, -, heq⟩ := Rule.exists_of_fire_eq_ok h.fire
  rw [hrule] at hsize
  match rest with
  | [] => simp [Format.packBits] at haccepts
  | [b] => simp [Format.packBits] at haccepts
  | b :: value :: more =>
    have := b.toNat_lt
    simp [Format.packBits] at haccepts
    refine ⟨value, 257 - b.toNat, more, ?_, ?_, ?_⟩
    . simp only [Fits]
      omega
    . have hcode : 257 - (257 - b.toNat) = b.toNat := by omega
      simp only [layout, Segment.layout, encodeSegment]
      rw [hcode, UInt8.ofNat_toNat]
      rfl
    . rw [heq]
      exact (Except.ok.inj hsize).symm

theorem exists_block_of_fire (h : firing.Of data Format.packBits.rules)
    (hrule : firing.rule = Format.packBits.rules[1])
    (hreads : data.ReadsAt firing.cursor.position rest) (hopen : firing.effect.finishes = false)
    : ∃ bytes more,
        Fits (.block bytes) ∧
        rest = layout.bytes (.block bytes) ++ more ∧
        firing.size = (layout.bytes (.block bytes)).length := by
  have haccepts := h.accepts
  rw [hrule, hreads.lookahead_eq] at haccepts
  obtain ⟨size, step, effect, hsize, -, -, heffect, heq⟩ := Rule.exists_of_fire_eq_ok h.fire
  rw [hrule] at hsize heffect
  rw [hreads.lookahead_eq] at hsize
  match rest with
  | [] => simp [Format.packBits] at haccepts
  | b :: more =>
    simp [Format.packBits] at haccepts
    have haction : Format.packBits.rules[1].action = .copy (.byte 0 + 1) 1 := by rfl
    have hcount : (Expr.byte 0 + 1).eval (Bytes.lookaheadOf (b :: more))
        = .ok ((b.toNat : Int) + 1) := by
      rfl
    rw [Rule.effect_copy_of_reads step haction hreads hcount rfl Int.one_nonneg] at heffect
    rw [heq, ← Except.ok.inj heffect] at hopen
    simp [Effect.finishes] at hopen
    -- The copy was not cut, so all of the block is there.
    have hblock : (more.take (b.toNat + 1)).length = b.toNat + 1 := by
      rw [List.length_take]
      omega
    refine ⟨more.take (b.toNat + 1), more.drop (b.toNat + 1), ?_, ?_, ?_⟩
    . simp only [Fits]
      omega
    . simp only [layout, Segment.layout, encodeSegment]
      rw [hblock, Nat.add_sub_cancel, UInt8.ofNat_toNat]
      rw [List.cons_append, List.take_append_drop]
    . simp only [layout, Segment.layout, encodeSegment, List.length_cons]
      rw [hblock, heq]
      exact (Except.ok.inj hsize).symm

end

theorem covers_layout : layout.Covers Fits Format.packBits.rules := by
  constructor
  intro data firing hof hposition hopen
  have hreads := data.readsAt_drop hposition
  generalize data.toList.drop firing.cursor.position.toNat = rest at hreads
  have hrules : Format.packBits.rules = [Format.packBits.rules[0], Format.packBits.rules[1]] := by
    rfl
  have hmem := List.mem_of_getElem? hof.getElem?
  rw [hrules, List.mem_cons, List.mem_singleton] at hmem
  cases hmem with
  | inl hrule =>
    obtain ⟨value, count, more, hfits, hrest, hsize⟩ := exists_run_of_fire hof hrule hreads
    rw [hrest] at hreads
    exact ⟨.run value count, more, hfits, hreads, hsize⟩
  | inr hrule =>
    obtain ⟨bytes, more, hfits, hrest, hsize⟩ := exists_block_of_fire hof hrule hreads hopen
    rw [hrest] at hreads
    exact ⟨.block bytes, more, hfits, hreads, hsize⟩

end Pack.PackBits

namespace Format

open Pack (Segment PackBits.Fits PackBits.encodeSegment)

theorem packBits_completes {segments : List Segment} (h : ∀ segment ∈ segments, PackBits.Fits segment)
    (before : Bytes) (fill : UInt8)
    : (packBits.run (before ++ (segments.flatMap PackBits.encodeSegment).toArray) before.size).Completes
        fill ((Pen.fresh fill).write 1 (segments.flatMap Segment.expand))
        (before.size + (segments.flatMap PackBits.encodeSegment).length) [] false := by
  have hreads : Bytes.ReadsAt (before ++ (segments.flatMap PackBits.encodeSegment).toArray)
      before.size (segments.flatMap PackBits.encodeSegment) := by
    simpa using Bytes.readsAt_append before #[] (segments.flatMap PackBits.encodeSegment)
  have hopens : Opens (before ++ (segments.flatMap PackBits.encodeSegment).toArray) packBits.rules
      before.size fill (Run.start before.size) (.fresh fill) := by
    apply Opens.of_startOnly_eq_false
    simp [packBits]
  have := hopens.completes_of_exhausted
    (fun segment hmem => Pack.PackBits.readBy_packBits (h segment hmem)) hreads
  rw [Pack.PackBits.layout, Segment.drawAll_layout, Segment.discouragedAt_layout] at this
  exact this

/-- A decode that returns, and has not cut a copy, has read a stream of records. -/
theorem exists_segments_of_packBits {data : Bytes} {offset : Nat}
    (hending : (packBits.run data offset).ending = .complete)
    (hcopies : (packBits.run data offset).truncatedCopies = [])
    : ∃ segments : List Segment,
        (∀ segment ∈ segments, PackBits.Fits segment) ∧
        segments.flatMap PackBits.encodeSegment = data.toList.drop offset := by
  have hstop : ∀ rule ∈ packBits.rules, rule.action ≠ .stop := by decide
  have hopen := Run.forall_open_of_truncatedCopies hstop hcopies
  have hlast := Run.size_le_of_forall_open hending hopen
  obtain ⟨segments, rest, hfits, hreads, hrest⟩ := Pack.PackBits.covers_layout.exists_records
    (Run.linked packBits.rules data offset) (Run.of_mem_fired packBits.rules data offset) hopen
    (Int.natCast_nonneg offset)
  have hnil : rest = [] := by
    rw [← hrest.2, List.drop_eq_nil_iff, Array.length_toList]
    omega
  rw [hnil, List.append_nil] at hreads
  exact ⟨segments, hfits, hreads.2.symm⟩

/-- What PackBits decodes to its end are just the streams of runs and blocks, each of which is such
a stream in one way only. -/
theorem packBits_decodeWith_records
    : (∀ (segments : List Segment) (before : Bytes) (fill : UInt8),
        (∀ segment ∈ segments, PackBits.Fits segment) →
          let data := before ++ (segments.flatMap PackBits.encodeSegment).toArray
          let bytes := segments.flatMap Segment.expand
          ∃ tally,
            packBits.decodeWith {} data before.size fill.toNat
              = (.ok ((Image.blank fill).overlay 0x2000 bytes), tally) ∧
            tally.finalAddress = 0x2000 + bytes.length ∧
            tally.endOffset = data.size ∧
            tally.endReached = false ∧
            tally.truncatedCopy = none) ∧
      ∀ (data : Bytes) (offset : Nat) (fill : UInt8) (image : Image) (tally : Tally),
        packBits.decodeWith {} data offset fill.toNat = (.ok image, tally) →
          tally.truncatedCopy = none →
            ∃! segments : List Segment,
              (∀ segment ∈ segments, PackBits.Fits segment) ∧
              segments.flatMap PackBits.encodeSegment = data.toList.drop offset := by
  constructor
  . intro segments before fill hfits data bytes
    obtain ⟨tally, hdecode, hshows, hreached, -⟩ :=
      (packBits_completes hfits before fill).decodeWith packBits (Int.natCast_nonneg before.size)
    rw [Pen.image_write_one _ 0x2000 rfl] at hdecode
    refine ⟨tally, hdecode, ?_, ?_, hreached, hshows.truncatedCopy⟩
    . rw [hshows.finalAddress, Pen.address_write, Int.mul_one]
      rfl
    . rw [hshows.endOffset]
      simp [data]
  . intro data offset fill image tally hdecode htruncated
    obtain ⟨hending, htally⟩ := complete_of_decodeWith (Int.natCast_nonneg offset) hdecode
    have hcopies : (packBits.run data offset).truncatedCopies = [] := by
      rw [htally] at htruncated
      simpa [Tally.observe] using htruncated
    obtain ⟨segments, hfits, hstream⟩ := exists_segments_of_packBits hending hcopies
    refine ⟨segments, ⟨hfits, hstream⟩, ?_⟩
    rintro others ⟨hothers, hother⟩
    apply Pack.PackBits.readable_layout.encode_injective hothers hfits
    exact hother.trans hstream.symm

theorem packBits_decodeWith_records_run_block
    : ∃ tally,
        packBits.decodeWith {} #[0x80, 0xFE, 0x07, 0x01, 0x05, 0x06] (1 : Nat) (0x20 : UInt8).toNat
          = (.ok ((Image.blank 0x20).overlay 0x2000 [0x07, 0x07, 0x07, 0x05, 0x06]), tally) ∧
        tally.endOffset = 6 ∧
        ∃! segments : List Segment,
          (∀ segment ∈ segments, PackBits.Fits segment) ∧
          segments.flatMap PackBits.encodeSegment = [0xFE, 0x07, 0x01, 0x05, 0x06] := by
  have hfits : ∀ segment ∈ [Segment.run 0x07 3, .block [0x05, 0x06]], PackBits.Fits segment := by
    simp [PackBits.Fits]
  obtain ⟨tally, hdecode, -, hend, -, htruncated⟩ :=
    packBits_decodeWith_records.1 _ #[0x80] 0x20 hfits
  exact ⟨tally, hdecode, hend, packBits_decodeWith_records.2 _ _ _ _ _ hdecode htruncated⟩

end Format

end PpuCodec
