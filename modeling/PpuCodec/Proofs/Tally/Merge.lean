import PpuCodec.Decode
import PpuCodec.Proofs.Tally.Usage

/-!
Two decodes into one tally, and two tallies that are merged. What a decode adds to a tally is what
is added by merging the tally of the decode alone. Only of the copies that were cut short does a
decode leave the last one, and merging the first.
-/

namespace PpuCodec

namespace Tally

variable {tally : Tally} {run : Run} {offset : Int}

/-- What holds of a tally, whatever was added to it. -/
structure Sound (tally : Tally) : Prop where
  usage : Usage.Ordered tally.usage
  skippedAddresses : tally.skippedAddresses.length ≤ keptAddresses

theorem sound_empty : Sound {} := by
  constructor
  . exact List.Pairwise.nil
  . exact Nat.zero_le _

def usesOf (run : Run) : List Usage :=
  run.uses.map fun (index, rule, _) => ⟨index, rule.describe, 1⟩

theorem usage_observe (tally : Tally) (offset : Int) (run : Run)
    : (tally.observe offset run).usage = Usage.addAll (usesOf run) tally.usage := by
  rw [usesOf, Usage.addAll, List.foldl_map]
  rfl

theorem Sound.observe (h : tally.Sound) (offset : Int) (run : Run)
    : (tally.observe offset run).Sound := by
  constructor
  . rw [usage_observe]
    exact h.usage.addAll _
  . exact List.length_take_le _ _

/-- The tallies show the same, but for where the last decode was and which copy was cut short. -/
structure SameCounts (tally tally' : Tally) : Prop where
  endReached : tally.endReached = tally'.endReached
  usage : tally.usage = tally'.usage
  discouraged : tally.discouraged = tally'.discouraged
  skippedWrites : tally.skippedWrites = tally'.skippedWrites
  skippedAddresses : tally.skippedAddresses = tally'.skippedAddresses

theorem take_append_take {α : Type} (count : Nat) (xs ys : List α)
    : (xs ++ ys.take count).take count = (xs ++ ys).take count := by
  rw [List.take_append, List.take_append, List.take_take]
  rw [Nat.min_eq_left (Nat.sub_le _ _)]

theorem Sound.merge_empty (h : tally.Sound) : tally.merge {} = tally := by
  simp [merge, List.take_of_length_le h.skippedAddresses]

theorem Sound.sameCounts_merge_empty (h : tally.Sound) : SameCounts tally (tally.merge {}) := by
  rw [h.merge_empty]
  constructor <;> rfl

theorem Sound.sameCounts_observe (h : tally.Sound) (offset : Int) (run : Run)
    : SameCounts (tally.observe offset run) (tally.merge (Tally.observe {} offset run)) := by
  constructor
  . simp [merge, Tally.observe]
  . have hmerge : (tally.merge (Tally.observe {} offset run)).usage
        = Usage.addAll (Tally.observe {} offset run).usage tally.usage := by rfl
    rw [hmerge, usage_observe, usage_observe]
    rw [h.usage.addAll_addAll List.Pairwise.nil]
    rfl
  . simp [merge, Tally.observe]
  . simp [merge, Tally.observe]
  . simp only [merge, Tally.observe, List.nil_append]
    rw [take_append_take]

end Tally

namespace Format

variable {tally : Tally} (format : Format) (data : Bytes) (offset fill : Int)

/-- A tally is left alone if there is no decode; otherwise the run is added to it. -/
theorem decodeWith_snd_eq
    : (∀ tally, (format.decodeWith tally data offset fill).2 = tally) ∨
      ∀ tally, (format.decodeWith tally data offset fill).2
        = tally.observe offset (format.run data offset) := by
  unfold decodeWith
  cases checkedFill offset fill with
  | error error => exact .inl fun _ => rfl
  | ok fill => exact .inr fun _ => rfl

theorem sound_decodeWith (h : tally.Sound)
    : (format.decodeWith tally data offset fill).2.Sound := by
  cases format.decodeWith_snd_eq data offset fill with
  | inl hnone =>
    rw [hnone]
    exact h
  | inr hrun =>
    rw [hrun]
    exact h.observe offset _

theorem sameCounts_decodeWith (h : tally.Sound)
    : Tally.SameCounts (format.decodeWith tally data offset fill).2
        (tally.merge (format.decodeWith {} data offset fill).2) := by
  cases format.decodeWith_snd_eq data offset fill with
  | inl hnone =>
    rw [hnone, hnone]
    exact h.sameCounts_merge_empty
  | inr hrun =>
    rw [hrun, hrun]
    exact h.sameCounts_observe offset _

/-- Of the copies that were cut short, the last one stays. -/
theorem truncatedCopy_decodeWith (tally : Tally)
    : (format.decodeWith tally data offset fill).2.truncatedCopy
        =
      (format.decodeWith {} data offset fill).2.truncatedCopy.or tally.truncatedCopy := by
  cases format.decodeWith_snd_eq data offset fill with
  | inl hnone => simp [hnone]
  | inr hrun => simp [hrun, Tally.observe]

/-- Two decodes into one tally count what two tallies of one decode each count when merged. They
show the same copy that was cut short, unless there is one in both decodes. -/
theorem decodeWith_decodeWith_eq_merge (format format' : Format) (data data' : Bytes)
    (offset fill offset' fill' : Int)
    : let first := (format.decodeWith {} data offset fill).2
      let second := (format'.decodeWith {} data' offset' fill').2
      let both := (format'.decodeWith first data' offset' fill').2
      both.SameCounts (first.merge second) ∧
      (first.truncatedCopy = none ∨ second.truncatedCopy = none →
        both.truncatedCopy = (first.merge second).truncatedCopy) := by
  intro first second both
  have hfirst : first.Sound := format.sound_decodeWith data offset fill Tally.sound_empty
  refine ⟨format'.sameCounts_decodeWith data' offset' fill' hfirst, ?_⟩
  have hboth : both.truncatedCopy = second.truncatedCopy.or first.truncatedCopy :=
    format'.truncatedCopy_decodeWith data' offset' fill' first
  have hmerge : (first.merge second).truncatedCopy
      = first.truncatedCopy.or second.truncatedCopy := by rfl
  rintro (hnone | hnone)
  . rw [hboth, hmerge, hnone, Option.or_none, Option.none_or]
  . rw [hboth, hmerge, hnone, Option.or_none, Option.none_or]

end Format

end PpuCodec
