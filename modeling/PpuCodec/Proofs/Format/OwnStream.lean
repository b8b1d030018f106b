import PpuCodec.Proofs.Decode.Appended
import PpuCodec.Proofs.Decode.Prepended
import PpuCodec.Proofs.Format.SelfContained

/-!
A decode depends on its own stream only. What stands before the stream changes nothing but the
places, and what stands behind it is not looked at if the stream has an end mark.
-/

namespace PpuCodec.Format

theorem konami_settled : Rule.Settled konami.rules 1 := by
  constructor
  all_goals decide

/-- If one byte is all there is, then the first rule to apply may be another one than if there were
more, for an address is two bytes. -/
theorem konami2_settled : Rule.Settled konami2.rules 2 := by
  constructor
  all_goals decide

theorem kemko_settled : Rule.Settled kemko.rules 1 := by
  constructor
  all_goals decide

theorem ppuDump_settled : Rule.Settled ppuDump.rules 1 := by
  constructor
  all_goals decide

theorem decodeWith_ownStream
    : (∀ format ∈ Catalog.builtIn.formats, ∀ (before data : Bytes) (fill : UInt8),
        format.decodeWith {} (before ++ data) before.size fill.toNat
          =
        let result := format.decodeWith {} data 0 fill.toNat
        (result.1.mapError (·.shift before.size), result.2.shift before.size)) ∧
      ∀ format ∈ [konami, konami2, kemko, ppuDump],
        ∀ (data after : Bytes) (offset fill : Int) (tally : Tally),
          (format = konami2 → offset + 2 ≤ data.size) →
          (format.decodeWith {} data offset fill).2.endReached = true →
            format.decodeWith tally (data ++ after) offset fill
              =
            format.decodeWith tally data offset fill := by
  constructor
  . intro format hformat before data fill
    exact decodeWith_prepend (builtIn_selfContained hformat) before data fill
  . intro format hformat data after offset fill tally hleast hreached
    have hone : offset < data.size → offset + (1 : Nat) ≤ data.size := by omega
    simp only [List.mem_cons, List.not_mem_nil, or_false] at hformat
    rcases hformat with rfl | rfl | rfl | rfl
    . exact decodeWith_append konami_selfContained konami_settled hone hreached after tally
    . exact decodeWith_append konami2_selfContained konami2_settled (fun _ => hleast rfl) hreached
        after tally
    . exact decodeWith_append kemko_selfContained kemko_settled hone hreached after tally
    . exact decodeWith_append ppuDump_selfContained ppuDump_settled hone hreached after tally

/-- A run and an end mark, with two bytes before and two behind. -/
theorem konami_decodeWith_runStream
    : let before : Bytes := #[0xAA, 0xFF]
      let data : Bytes := #[0x03, 0x41, 0xFF]
      let after : Bytes := #[0x02, 0x7E]
      konami ∈ Catalog.builtIn.formats ∧
      konami ∈ [konami, konami2, kemko, ppuDump] ∧
      (konami.decodeWith {} data 0 0).2.endReached = true ∧
      konami.decodeWith {} (data ++ after) 0 0 = konami.decodeWith {} data 0 0 ∧
      (konami.decodeWith {} (before ++ data) 2 0).2.endOffset = 5 := by
  intro before data after
  have hformat : konami ∈ Catalog.builtIn.formats := by simp [Catalog.builtIn]
  have hmarked : konami ∈ [konami, konami2, kemko, ppuDump] := by simp
  have hreached : (konami.decodeWith {} data 0 0).2.endReached = true := by decide +kernel
  have hend : (konami.decodeWith {} data 0 0).2.endOffset = 3 := by decide +kernel
  obtain ⟨hbefore, hafter⟩ := decodeWith_ownStream
  refine ⟨hformat, hmarked, hreached, ?_, ?_⟩
  . exact hafter konami hmarked data after 0 0 {} (by simp [konami, konami2]) hreached
  . have hshift := congrArg (fun result => result.2.endOffset)
      (hbefore konami hformat before data 0)
    change (konami.decodeWith {} (before ++ data) 2 0).2.endOffset
      = (konami.decodeWith {} data 0 0).2.endOffset + 2 at hshift
    rw [hshift, hend]
    rfl

end PpuCodec.Format
