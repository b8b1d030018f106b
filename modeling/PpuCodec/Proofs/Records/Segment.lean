import PpuCodec.Pack.Segment
import PpuCodec.Proofs.Decode.Stream

/-!
Segments as records, and what a stream of them is decoded to: the data they were cut from, from the
first address on.
-/

namespace PpuCodec

/-- The tally of a single decode that laid `bytes` over the memory from `address` on, and found its
end mark right before `position`. -/
structure Tally.ShowsUnpacked (tally : Tally) (position : Int) (address : Nat)
    (bytes : List UInt8) : Prop where
  endReached : tally.endReached = true
  endOffset : tally.endOffset = position
  finalAddress : tally.finalAddress = address + bytes.length
  skippedWrites : tally.skippedWrites = address + bytes.length - 0x4000
  discouraged : tally.discouraged = []
  truncatedCopy : tally.truncatedCopy = none

namespace Pack.Segment

def layout (encode : Segment → List UInt8) : Layout Segment where
  bytes := encode
  draw segment pen := pen.write 1 segment.expand

variable {encode : Segment → List UInt8} {segments : List Segment}

theorem drawAll_layout (pen : Pen)
    : (layout encode).drawAll segments pen = pen.write 1 (segments.flatMap expand) := by
  induction segments generalizing pen with
  | nil => rfl
  | cons segment segments ih =>
    rw [List.flatMap_cons, Pen.write_append]
    exact ih _

theorem discouragedAt_layout (place : Int)
    : (layout encode).discouragedAt place segments = [] := by
  induction segments generalizing place with
  | nil => rfl
  | cons segment segments ih => simpa [Layout.discouragedAt, layout] using ih _

theorem decodeWith_layout (format : Format) {data : Bytes} {offset : Int} {fill : UInt8}
    {first : Cursor} {address : Nat} {mark rest : List UInt8}
    (hopens : Opens data format.rules offset fill first ((Pen.fresh fill).moveTo address))
    (hoffset : 0 ≤ offset) (haddress : address ≤ 0x4000)
    (hread : ∀ segment ∈ segments, (layout encode).ReadBy format.rules segment)
    (hstop : StoppedBy format.rules mark)
    (hreads : data.ReadsAt first.position (segments.flatMap encode ++ (mark ++ rest)))
    : ∃ tally,
        format.decodeWith {} data offset fill.toNat
          = (.ok ((Image.blank fill).overlay address (segments.flatMap expand)), tally) ∧
        tally.ShowsUnpacked (first.position + (segments.flatMap encode ++ mark).length) address
          (segments.flatMap expand) := by
  obtain ⟨tally, hdecode, hshows, hreached, hhits⟩ :=
    hopens.decodeWith format hoffset hread hstop hreads
  rw [drawAll_layout] at hdecode hshows
  rw [discouragedAt_layout] at hhits
  refine ⟨tally, ?_, ?_⟩
  . rw [hdecode]
    rw [Pen.image_write_one _ address rfl]
    rfl
  . constructor
    . exact hreached
    . rw [hshows.endOffset]
      simp only [Layout.encode, layout, List.length_append]
      omega
    . rw [hshows.finalAddress]
      rw [Pen.address_write]
      rw [Int.mul_one]
      rfl
    . rw [hshows.skippedWrites]
      rw [Pen.length_dropped_write_one _ address rfl]
      simp only [Pen.moveTo, Pen.fresh, List.length_nil]
      omega
    . simpa using hhits
    . exact hshows.truncatedCopy

end Pack.Segment

end PpuCodec
