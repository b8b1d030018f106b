import PpuCodec.Proofs.Pack.Basic
import PpuCodec.Proofs.Records.Kemko

/-!
What is packed for the Kemko format is decoded to the data it was packed from, and nothing in it is
taken for the end mark but the end mark.
-/

namespace PpuCodec.Pack.Kemko

theorem flatMap_expand_segments (data : List UInt8)
    : (segments data).flatMap Segment.expand = data := by
  fun_induction segments data with
  | case1 => rfl
  | case2 b rest count hrun ih =>
    rw [List.flatMap_cons, ih]
    apply replicate_runLength_append
  | case3 b rest count hrun ih =>
    rw [List.flatMap_cons, ih]
    rfl

theorem fits_of_mem_segments (data : List UInt8) : ∀ segment ∈ segments data, Fits segment := by
  fun_induction segments data with
  | case1 => simp
  | case2 b rest count hrun ih =>
    intro segment hmem
    cases List.mem_cons.mp hmem with
    | inl heq =>
      rw [heq]
      constructor
      . exact runLength_pos
      . exact runLength_le_cap (by decide) b rest
    | inr hrest => exact ih segment hrest
  | case3 b rest count hrun ih =>
    intro segment hmem
    cases List.mem_cons.mp hmem with
    | inl heq =>
      rw [heq]
      refine ⟨b, ?_, rfl⟩
      -- The marker is packed as a run even if it stands alone.
      intro hmarker
      apply hrun
      exact .inr hmarker
    | inr hrest => exact ih segment hrest

theorem readBy_of_mem_segments (data : List UInt8)
    : ∀ segment ∈ segments data,
        (Segment.layout encodeSegment).ReadBy Format.kemko.rules segment := by
  intro segment hmem
  apply readBy_kemko
  exact fits_of_mem_segments data segment hmem

end PpuCodec.Pack.Kemko

namespace PpuCodec

open Pack (Segment)

/-- Packed data is decoded to what it was, wherever it stands in the input. Its last three bytes are
the only end mark that is found. -/
theorem Format.kemko_decodeWith_encode (bytes : List UInt8) (before after : Bytes) (fill : UInt8)
    : let packed := Pack.Kemko.encode bytes
      let data := before ++ packed.toArray ++ after
      (∃ tally,
        Format.kemko.decodeWith {} data before.size fill.toNat
          = (.ok ((Image.blank fill).overlay 0x2000 bytes), tally) ∧
        tally.ShowsUnpacked (before.size + packed.length) 0x2000 bytes) ∧
      ∀ firing ∈ (Format.kemko.run data before.size).fired, firing.effect = .stop →
        firing.cursor.position + 3 = before.size + packed.length := by
  intro packed data
  have hreads : data.ReadsAt before.size
      ((Pack.Kemko.segments bytes).flatMap Pack.Kemko.encodeSegment
        ++ (Pack.Kemko.endMark ++ after.toList)) := by
    rw [← List.append_assoc]
    exact Bytes.readsAt_append before after packed
  have hopens := Pack.Kemko.opens_kemko hreads (by simp [Pack.Kemko.endMark]) fill
  have hsegments := Pack.Kemko.readBy_of_mem_segments bytes
  have hrecords := hreads
  rw [← Int.add_zero (before.size : Int)] at hrecords
  constructor
  . have := Segment.decodeWith_layout Format.kemko hopens (by omega) (by decide) hsegments
      Pack.Kemko.stoppedBy_endMark hrecords
    rw [Pack.Kemko.flatMap_expand_segments, Int.add_zero] at this
    exact this
  . intro firing hmem hstop
    have hstops := (hopens.completes_of_stoppedBy hsegments Pack.Kemko.stoppedBy_endMark hrecords).2
    have hposition := hstops firing hmem hstop
    rw [hposition]
    simp only [packed, Pack.Kemko.encode, Pack.Kemko.endMark, List.length_append, Int.natCast_add,
      Int.add_zero, Int.add_assoc]
    rfl

end PpuCodec
