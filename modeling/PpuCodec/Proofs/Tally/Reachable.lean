import PpuCodec.Format.BuiltIn
import PpuCodec.Proofs.Tally.Merge

/-!
The tallies that decodes and merges lead to. In each of them the places of dropped writes are as many
as were counted, up to those that are kept, and merging them is associative.
-/

namespace PpuCodec

namespace Usage

variable {use : Usage} {usage : List Usage}

theorem one_le_count_add (huse : 1 ≤ use.count) (h : ∀ other ∈ usage, 1 ≤ other.count)
    : ∀ other ∈ use.add usage, 1 ≤ other.count := by
  induction usage with
  | nil => simpa [Usage.add] using huse
  | cons first rest ih =>
    rw [List.forall_mem_cons] at h
    obtain ⟨hfirst, hrest⟩ := h
    rw [Usage.add]
    split
    . rw [List.forall_mem_cons, List.forall_mem_cons]
      exact ⟨huse, hfirst, hrest⟩
    . split
      . rw [List.forall_mem_cons]
        exact ⟨Nat.le_add_right_of_le hfirst, hrest⟩
      . rw [List.forall_mem_cons]
        exact ⟨hfirst, ih hrest⟩

theorem one_le_count_addAll {uses : List Usage} (huses : ∀ use ∈ uses, 1 ≤ use.count)
    (h : ∀ other ∈ usage, 1 ≤ other.count)
    : ∀ other ∈ addAll uses usage, 1 ≤ other.count := by
  induction uses generalizing usage with
  | nil => exact h
  | cons use uses ih =>
    rw [List.forall_mem_cons] at huses
    exact ih huses.2 (one_le_count_add huses.1 h)

end Usage

theorem Run.outside_of_mem_missed {run : Run} {address : Int} (h : address ∈ run.missed)
    : address < 0 ∨ 0x4000 ≤ address := by
  obtain ⟨firing, -, hmissed⟩ := List.mem_flatMap.mp h
  cases heffect : firing.effect with
  | seek target => simp [heffect, Effect.missed] at hmissed
  | stop => simp [heffect, Effect.missed] at hmissed
  | paint stroke cut =>
    simp [heffect, Effect.missed, Stroke.missed, Image.holds] at hmissed
    omega

namespace Tally

/-- The tallies that one can come to from empty ones. -/
inductive Reachable : Tally → Prop where
  | empty : Reachable {}
  | decode {tally : Tally} (h : Reachable tally) (format : Format) (data : Bytes)
      (offset fill : Int) : Reachable (format.decodeWith tally data offset fill).2
  | merge {tally other : Tally} (h : Reachable tally) (hother : Reachable other) :
      Reachable (tally.merge other)

/-- What the counts and the lists of a tally say of each other. -/
structure Consistent (tally : Tally) : Prop extends Sound tally where
  length_skippedAddresses : tally.skippedAddresses.length = min 16 tally.skippedWrites
  outside : ∀ address ∈ tally.skippedAddresses, address < 0 ∨ 0x4000 ≤ address
  counted : ∀ use ∈ tally.usage, 1 ≤ use.count

variable {tally other : Tally}

theorem consistent_empty : Consistent {} := by
  constructor
  . exact sound_empty
  . rfl
  . simp
  . simp

theorem Consistent.observe (h : tally.Consistent) (offset : Int) (run : Run)
    : (tally.observe offset run).Consistent := by
  constructor
  . exact h.toSound.observe offset run
  . have := h.length_skippedAddresses
    simp only [Tally.observe, keptAddresses, List.length_take, List.length_append]
    omega
  . intro address hmem
    cases List.mem_append.mp (List.mem_of_mem_take hmem) with
    | inl hold => exact h.outside address hold
    | inr hnew => exact Run.outside_of_mem_missed hnew
  . rw [usage_observe]
    apply Usage.one_le_count_addAll _ h.counted
    intro use hmem
    obtain ⟨_, -, rfl⟩ := List.mem_map.mp hmem
    exact Nat.le_refl 1

theorem Consistent.merge (h : tally.Consistent) (hother : other.Consistent)
    : (tally.merge other).Consistent := by
  constructor
  . constructor
    . exact h.usage.addAll other.usage
    . exact List.length_take_le _ _
  . have := h.length_skippedAddresses
    have := hother.length_skippedAddresses
    simp only [Tally.merge, keptAddresses, List.length_take, List.length_append]
    omega
  . intro address hmem
    cases List.mem_append.mp (List.mem_of_mem_take hmem) with
    | inl hmem => exact h.outside address hmem
    | inr hmem => exact hother.outside address hmem
  . exact Usage.one_le_count_addAll hother.counted h.counted

theorem Reachable.consistent (h : Reachable tally) : Consistent tally := by
  induction h with
  | empty => exact consistent_empty
  | decode _ format data offset fill ih =>
    cases format.decodeWith_snd_eq data offset fill with
    | inl hnone =>
      rw [hnone]
      exact ih
    | inr hrun =>
      rw [hrun]
      exact ih.observe offset _
  | merge _ _ ih ihother => exact ih.merge ihother

theorem take_take_append {α : Type} (count : Nat) (xs ys : List α)
    : (xs.take count ++ ys).take count = (xs ++ ys).take count := by
  rw [List.take_append, List.take_append, List.take_take, Nat.min_self, List.length_take]
  congr 2
  omega

/-- Addresses may be cut off in either merge, but the ones that are left are the first of all. -/
theorem Sound.merge_merge {first second : Tally} (hfirst : first.Sound) (hsecond : second.Sound)
    (third : Tally)
    : (first.merge second).merge third = first.merge (second.merge third) := by
  simp only [Tally.merge, mk.injEq]
  refine ⟨trivial, trivial, trivial, ?_, ?_, ?_, ?_, ?_, ?_⟩
  . apply Bool.or_assoc
  . exact (hfirst.usage.addAll_addAll hsecond.usage third.usage).symm
  . apply List.append_assoc
  . apply Nat.add_assoc
  . rw [take_take_append, take_append_take, List.append_assoc]
  . apply Option.or_assoc

/-- What a tally holds is consistent however it was come by, merges of such tallies may be grouped in
any way, and an empty one adds nothing. -/
theorem reachable_consistent_merge
    : (∀ tally, Reachable tally →
        tally.skippedAddresses.length = min 16 tally.skippedWrites ∧
        (∀ address ∈ tally.skippedAddresses, address < 0 ∨ 0x4000 ≤ address) ∧
        ∀ use ∈ tally.usage, 1 ≤ use.count) ∧
      (∀ first second third, Reachable first → Reachable second → Reachable third →
        (first.merge second).merge third = first.merge (second.merge third)) ∧
      ∀ tally, Reachable tally → tally.merge {} = tally := by
  refine ⟨?_, ?_, ?_⟩
  . intro tally h
    exact ⟨h.consistent.length_skippedAddresses, h.consistent.outside, h.consistent.counted⟩
  . intro first second third hfirst hsecond _
    exact hfirst.consistent.toSound.merge_merge hsecond.consistent.toSound third
  . intro tally h
    exact h.consistent.toSound.merge_empty

/-- Nineteen of twenty bytes miss the memory. The places of sixteen are kept, also of twice as many. -/
theorem reachable_consistent_merge_dropped
    : let tally := (Format.konami2.decodeWith {} #[0xFF, 0x3F, 20, 7, 0xFF] 0 0).2
      tally.Reachable ∧ tally.skippedWrites = 19 ∧ tally.skippedAddresses.length = 16 ∧
        (tally.merge tally).skippedAddresses.length = 16 ∧
        (tally.merge tally).merge tally = tally.merge (tally.merge tally) ∧
        tally.merge {} = tally := by
  intro tally
  have h : tally.Reachable := .decode .empty ..
  have hwrites : tally.skippedWrites = 19 := by decide +kernel
  obtain ⟨hconsistent, hassoc, hempty⟩ := reachable_consistent_merge
  refine ⟨h, hwrites, ?_, ?_, hassoc tally tally tally h h h, hempty tally h⟩
  . rw [(hconsistent tally h).1, hwrites]
    rfl
  . have hboth : (tally.merge tally).skippedWrites = 19 + 19 := by
      rw [Tally.merge, hwrites]
    rw [(hconsistent _ (h.merge h)).1, hboth]
    rfl

end Tally

end PpuCodec
