import PpuCodec.Proofs.Decode.CutInput
import PpuCodec.Proofs.Format.Gaps

/-!
What was written when a decode got stuck is what the valid part of the input stands for: decoded by
itself, that part gives the same memory, and the same tally. Only the Kemko table has a rule that
applies without using up input, and it does not apply where there is none.
-/

namespace PpuCodec

namespace Run.Agrees

variable {run cut : Run}

theorem image_eq (h : run.Agrees cut) (fill : UInt8) : cut.image fill = run.image fill := by
  rw [image, image]
  rw [h.fired]

theorem observe_eq (h : run.Agrees cut) (hstuck : run.ending = .stuck) (tally : Tally)
    (offset : Int)
    : tally.observe offset cut = tally.observe offset run := by
  have huses : cut.uses = run.uses := by
    simp [uses, h.ending, hstuck, h.fired]
  have hmissed : cut.missed = run.missed := by
    rw [missed, missed, h.fired]
  have hreached : cut.endReached = run.endReached := by
    rw [endReached, endReached, h.fired]
  have hcopies : cut.truncatedCopies = run.truncatedCopies := by
    rw [truncatedCopies, truncatedCopies, h.fired]
  simp [Tally.observe, discouraged, h.ending, hstuck, h.cursor, huses, hmissed, hreached, hcopies]

end Run.Agrees

namespace Format

variable {data : Bytes} {offset : Nat} {fill : UInt8}

/-- What a decode reports that got stuck. -/
structure Reports (format : Format) (data : Bytes) (offset : Nat) (fill : UInt8) (position : Int)
    (look : Lookahead) (image : Image) (tally : Tally) : Prop where
  ending : (format.run data offset).ending = .stuck
  position_eq : position = (format.run data offset).cursor.position
  look_eq : look = data.lookahead position
  image_eq : image = (format.run data offset).image fill
  tally_eq : tally = Tally.observe {} offset (format.run data offset)

theorem reports_of_decodeWith {format : Format} {name : String} {position : Int} {look : Lookahead}
    {image : Image} {tally : Tally}
    (h : format.decodeWith {} data offset fill.toNat
      = (.error (.stuck name position look image), tally))
    : format.Reports data offset fill position look image tally := by
  rw [format.decodeWith_eq_outcome {} data (by omega) fill] at h
  rw [Prod.mk.injEq] at h
  obtain ⟨houtcome, htally⟩ := h
  rw [outcome] at houtcome
  split at houtcome
  . simp at houtcome
  . next hending =>
    simp only [Except.error.injEq, Decode.Error.stuck.injEq] at houtcome
    obtain ⟨-, hposition, hlook, himage⟩ := houtcome
    constructor
    . exact hending
    . exact hposition.symm
    . rw [← hlook, ← hposition]
    . exact himage.symm
    . exact htally.symm
  . simp at houtcome

theorem decodeWith_take_of_agrees {format : Format} {count : Nat}
    (h : (format.run data offset).Agrees (format.run (data.take count) offset))
    (hstuck : (format.run data offset).ending = .stuck)
    : format.decodeWith {} (data.take count) offset fill.toNat
        =
      (.ok ((format.run data offset).image fill),
        Tally.observe {} offset (format.run data offset)) := by
  rw [format.decodeWith_eq_outcome {} (data.take count) (by omega) fill]
  rw [h.observe_eq hstuck]
  rw [outcome, h.ending]
  simp only [h.image_eq]

theorem ppuDump_ending_ne_stuck : (ppuDump.run data offset).ending ≠ .stuck := by
  intro hstuck
  have hfails := ppuDump_failsOnlyIn data offset 0
  rw [ppuDump.decode_eq_outcome data (by omega)] at hfails
  simp [outcome, hstuck] at hfails

theorem agrees_take {format : Format} (hformat : format ∈ Catalog.builtIn.formats)
    (hstuck : (format.run data offset).ending = .stuck)
    (hplace : ¬(format = kemko ∧ (format.run data offset).cursor.position = offset))
    : (format.run data offset).Agrees
        (format.run (data.take (format.run data offset).cursor.position.toNat) offset) := by
  have hrules := builtIn_selfContained hformat
  have hagrees := fun hmoves => Run.agrees_take_of_movesOn hrules hmoves (by omega) hstuck
  simp only [Catalog.builtIn, List.mem_cons, List.not_mem_nil, or_false] at hformat
  rcases hformat with rfl | rfl | rfl | rfl | rfl | rfl
  . exact hagrees (by decide)
  . exact hagrees (by decide)
  . have hle := (Run.position_le data hrules (Int.natCast_nonneg offset)).1
    apply Run.agrees_take_of_lt hrules (by omega) hstuck
    change (offset : Int) ≤ (kemko.run data offset).cursor.position at hle
    change (offset : Int) < (kemko.run data offset).cursor.position
    simp only [true_and] at hplace
    omega
  . exact hagrees (by decide)
  . exact absurd hstuck ppuDump_ending_ne_stuck
  . exact hagrees (by decide)

theorem kemko_firstPass (data : Bytes) (offset : Int)
    : Pass.ofRules data 0 kemko.rules (Run.start offset)
        =
      ⟨[⟨0, kemko.rules[0], Run.start offset, 0, .seek 0x2000⟩], ⟨offset + 0, 0x2000, false⟩,
        none⟩ := by
  rfl

/-- The start rule has applied, and nothing else, though the input up to there is empty. -/
theorem kemko_observe_take (fill : UInt8) (hstuck : (kemko.run data offset).ending = .stuck)
    (hplace : (kemko.run data offset).cursor.position = offset)
    : let run := kemko.run data offset
      let cut := kemko.run (data.take offset) offset
      cut.ending = .complete ∧
      cut.image fill = run.image fill ∧
      Tally.observe {} offset cut = { Tally.observe {} offset run with usage := [] } ∧
      (Tally.observe {} offset run).usage = [⟨0, kemko.rules[0].describe, 1⟩] := by
  intro run cut
  have hfirst := Run.firstPass_of_stuck kemko_selfContained (by omega) hstuck (Int.le_of_eq hplace)
  rw [kemko_firstPass] at hfirst
  rw [Pass.mk.injEq] at hfirst
  obtain ⟨hfired, hcursor, -⟩ := hfirst
  change _ = run.fired at hfired
  change _ = run.cursor at hcursor
  have hcut : cut = ⟨[], Run.start offset, .complete⟩ := Run.take_of_le (Int.le_refl _)
  rw [hcut]
  have hending : run.ending = .stuck := hstuck
  have huses : run.uses = [(0, kemko.rules[0], (offset : Int))] := by
    rw [Run.uses, hending, ← hfired]
    rfl
  refine ⟨rfl, ?_, ?_, ?_⟩
  . rw [Run.image, Run.image, ← hfired]
    rfl
  . have hmissed : run.missed = [] := by
      rw [Run.missed, ← hfired]
      rfl
    have hreached : run.endReached = false := by
      rw [Run.endReached, ← hfired]
      rfl
    have hcopies : run.truncatedCopies = [] := by
      rw [Run.truncatedCopies, ← hfired]
      rfl
    have hhits : run.discouraged = [] := by
      rw [Run.discouraged, huses]
      rfl
    simp only [Tally.observe, hending, ← hcursor, hmissed, hreached, hcopies, hhits, Int.add_zero]
    rfl
  . simp only [Tally.observe, huses]
    rfl

/-- What a decode of a stream reports of which nothing is valid, and one of the empty stream. -/
theorem kemko_usage_take_ne
    : ∃ image tally tally',
        kemko.decodeWith {} #[0xFF] 0 (0x00 : UInt8).toNat
          = (.error (.stuck kemko.name 0 [some 0xFF, none, none] image), tally) ∧
        kemko.decodeWith {} (Array.take #[0xFF] 0) 0 (0x00 : UInt8).toNat = (.ok image, tally') ∧
        tally.usage ≠ tally'.usage := by
  have hstuck : (kemko.run #[0xFF] (0 : Nat)).ending = .stuck := by decide +kernel
  have hposition : (kemko.run #[0xFF] (0 : Nat)).cursor.position = (0 : Nat) := by decide +kernel
  obtain ⟨hending, himage, htally, husage⟩ := kemko_observe_take 0x00 hstuck hposition
  refine ⟨(kemko.run #[0xFF] (0 : Nat)).image 0x00,
    Tally.observe {} (0 : Nat) (kemko.run #[0xFF] (0 : Nat)),
    Tally.observe {} (0 : Nat) (kemko.run (Array.take #[0xFF] 0) (0 : Nat)), ?_, ?_, ?_⟩
  . have := kemko.decodeWith_eq_outcome {} #[0xFF] (Int.natCast_nonneg 0) 0x00
    rw [outcome, hstuck] at this
    dsimp only at this
    rw [hposition] at this
    exact this
  . have := kemko.decodeWith_eq_outcome {} (Array.take #[0xFF] 0) (Int.natCast_nonneg 0) 0x00
    rw [outcome, hending] at this
    dsimp only at this
    rw [himage] at this
    exact this
  . rw [husage, htally]
    simp

/-- The part of the input before the place where a decode got stuck is decoded to what was written
until then, and to the same tally. If nothing of a Kemko stream is valid, its start is still counted
as used, which it is not for the empty input. -/
theorem decodeWith_take_of_stuck {format : Format} (hformat : format ∈ Catalog.builtIn.formats)
    {name : String} {position : Int} {look : Lookahead} {image : Image} {tally : Tally}
    (h : format.decodeWith {} data offset fill.toNat
      = (.error (.stuck name position look image), tally))
    : offset ≤ position ∧
      position < data.size ∧
      look = data.lookahead position ∧
      tally.endOffset = position ∧
      ∃ tally',
        format.decodeWith {} (data.take position.toNat) offset fill.toNat = (.ok image, tally') ∧
        (¬(format = kemko ∧ position = offset) → tally' = tally) ∧
        (format = kemko ∧ position = offset →
          tally' = { tally with usage := [] } ∧
          tally.usage = [⟨0, kemko.rules[0].describe, 1⟩]) := by
  have hreports := reports_of_decodeWith h
  obtain ⟨hstuck, hposition, hlook, himage, htally⟩ := hreports
  have hle := (Run.position_le data (builtIn_selfContained hformat) (Int.natCast_nonneg offset)).1
  obtain ⟨passes, last, -, hlt, -, hrun⟩ := Run.exists_passes_of_stuck hstuck
  change format.run data offset = _ at hrun
  subst hposition himage htally
  refine ⟨hle, ?_, hlook, ?_, ?_⟩
  . rw [hrun]
    exact hlt
  . simp [Tally.observe, hstuck]
  . by_cases hplace : format = kemko ∧ (format.run data offset).cursor.position = offset
    . obtain ⟨heq, hoffset⟩ := hplace
      subst heq
      obtain ⟨hending, hcutImage, hcutTally, husage⟩ := kemko_observe_take fill hstuck hoffset
      refine ⟨_, ?_, fun hother => absurd ⟨rfl, hoffset⟩ hother, fun _ => ⟨hcutTally, husage⟩⟩
      rw [hoffset, Int.toNat_natCast]
      rw [kemko.decodeWith_eq_outcome {} (data.take offset) (by omega) fill]
      rw [outcome, hending]
      dsimp only
      rw [hcutImage]
    . refine ⟨_, decodeWith_take_of_agrees (agrees_take hformat hstuck hplace) hstuck, ?_, ?_⟩
      . intro _
        rfl
      . intro hkemko
        exact absurd hkemko hplace

/-- A stream that is cut off within the run of its second packet. -/
theorem stripe_decodeWith_take_seven
    : let data : Bytes := #[0x11, 0x20, 0x00, 0x41, 0x55, 0x21, 0x00, 0x40]
      ∃ image tally,
        stripe.decodeWith {} data 1 (0x24 : UInt8).toNat
          = (.error (.stuck stripe.name 7 [some 0x40, none, none] image), tally) ∧
        tally.endOffset = 7 ∧
        stripe.decodeWith {} (data.take 7) 1 (0x24 : UInt8).toNat = (.ok image, tally) := by
  intro data
  have hstuck : (stripe.run data (1 : Nat)).ending = .stuck := by decide +kernel
  have hposition : (stripe.run data (1 : Nat)).cursor.position = 7 := by decide +kernel
  have hdecode : stripe.decodeWith {} data (1 : Nat) (0x24 : UInt8).toNat
      = (.error (.stuck stripe.name 7 [some 0x40, none, none]
          ((stripe.run data (1 : Nat)).image 0x24)),
        Tally.observe {} (1 : Nat) (stripe.run data (1 : Nat))) := by
    rw [stripe.decodeWith_eq_outcome {} data (by decide)]
    rw [outcome, hstuck]
    dsimp only
    rw [hposition]
    rfl
  have hformat : stripe ∈ Catalog.builtIn.formats := by simp [Catalog.builtIn]
  obtain ⟨-, -, -, hend, tally', htake, htally, -⟩ := decodeWith_take_of_stuck hformat hdecode
  rw [htally (fun h => by simp at h)] at htake
  exact ⟨_, _, hdecode, hend, htake⟩

end Format

end PpuCodec
