import PpuCodec.Proofs.Decode.Layout

/-!
What a decode returns and what its tally shows, given what its firings did to the pen.
-/

namespace PpuCodec

namespace Draws

variable {fired : List Firing} {pen pen' : Pen} {hits : List Int}

theorem image_eq (h : Draws fired pen pen' hits)
    : fired.foldl (fun image firing => firing.effect.apply image) pen.image = pen'.image := by
  rw [← h.follow]
  exact (Pen.image_foldl_follow fired pen).symm

theorem dropped_eq (h : Draws fired pen pen' hits)
    : pen.dropped ++ fired.flatMap (·.effect.missed) = pen'.dropped := by
  rw [← h.follow]
  exact (Pen.dropped_foldl_follow fired pen).symm

theorem effect_ne_stop (h : Draws fired pen pen' hits) {firing : Firing} (hmem : firing ∈ fired)
    : firing.effect ≠ .stop := by
  intro heq
  have := h.finishes firing hmem
  simp [heq, Effect.finishes] at this

end Draws

def Pen.fresh (fill : UInt8) : Pen where
  image := .blank fill
  address := Image.defaultAddress

namespace Run

/-- The run comes to its end at `position`, having done to memory filled with `fill` what the pen
shows. -/
structure Completes (run : Run) (fill : UInt8) (pen : Pen) (position : Int) (hits : List Int)
    (reached : Bool) : Prop where
  ending : run.ending = .complete
  position : run.cursor.position = position
  address : run.cursor.address = pen.address
  image : run.image fill = pen.image
  missed : run.missed = pen.dropped
  truncatedCopies : run.truncatedCopies = []
  hits : run.discouraged.map Prod.fst = hits
  endReached : run.endReached = reached

theorem map_fst_discouraged {run : Run} (h : run.ending = .complete)
    : run.discouraged.map Prod.fst
        =
      (run.fired.filter (·.rule.discouraged)).map (·.cursor.position) := by
  simp only [discouraged, uses, h, List.append_nil]
  induction run.fired with
  | nil => rfl
  | cons firing fired ih =>
    cases hrule : firing.rule.discouraged with
    | false => simpa [hrule] using ih
    | true => simpa [hrule] using ih

variable {run : Run} {fired : List Firing} {fill : UInt8} {pen : Pen} {hits : List Int}

theorem completes_of_draws (hending : run.ending = .complete) (hfired : run.fired = fired)
    (hdraws : Draws fired (.fresh fill) pen hits) (haddress : run.cursor.address = pen.address)
    : run.Completes fill pen run.cursor.position hits false := by
  constructor
  . exact hending
  . rfl
  . exact haddress
  . rw [image, hfired]
    exact hdraws.image_eq
  . rw [missed, hfired]
    rw [← hdraws.dropped_eq]
    simp [Pen.fresh]
  . rw [truncatedCopies, hfired]
    rw [List.filterMap_eq_nil_iff]
    intro firing hmem
    have := hdraws.finishes firing hmem
    split
    . next heq => simp [heq, Effect.finishes] at this
    . rfl
  . rw [map_fst_discouraged hending]
    rw [hfired]
    exact hdraws.hits
  . rw [endReached, hfired]
    rw [List.any_eq_false]
    intro firing hmem
    simp [hdraws.effect_ne_stop hmem]

theorem completes_of_stop {firing : Firing} (hending : run.ending = .complete)
    (hfired : run.fired = fired ++ [firing]) (hdraws : Draws fired (.fresh fill) pen hits)
    (hstop : firing.effect = .stop) (hhit : firing.rule.discouraged = false)
    (haddress : run.cursor.address = pen.address)
    : run.Completes fill pen run.cursor.position hits true := by
  -- The stop writes nothing, so all but the end is as if the input had ended before it.
  have hbefore : Run.fired ⟨[fired], run.cursor, .complete⟩ = fired := by simp [Run.fired]
  have hcompletes := completes_of_draws rfl hbefore hdraws haddress
  constructor
  . exact hending
  . rfl
  . exact haddress
  . rw [← hcompletes.image]
    simp [image, hfired, hbefore, hstop, Effect.apply]
  . rw [← hcompletes.missed]
    simp [missed, hfired, hbefore, hstop, Effect.missed]
  . rw [← hcompletes.truncatedCopies]
    simp [truncatedCopies, hfired, hbefore, hstop]
  . rw [← hcompletes.hits]
    rw [map_fst_discouraged hending, map_fst_discouraged hcompletes.ending]
    simp [hfired, hbefore, hhit]
  . simp [endReached, hfired, hstop]

end Run

/-- The tally of a single decode from `offset` up to `position` that wrote what the pen shows. -/
structure Tally.Shows (tally : Tally) (offset position : Int) (pen : Pen) : Prop where
  startOffset : tally.startOffset = offset
  endOffset : tally.endOffset = position
  finalAddress : tally.finalAddress = pen.address
  skippedWrites : tally.skippedWrites = pen.dropped.length
  skippedAddresses : tally.skippedAddresses = pen.dropped.take Tally.keptAddresses
  truncatedCopy : tally.truncatedCopy = none

theorem Format.checkedFill_toNat {offset : Int} (hoffset : 0 ≤ offset) (fill : UInt8)
    : checkedFill offset fill.toNat = .ok fill := by
  have hlt := fill.toNat_lt
  have hle : (fill.toNat : Int) ≤ 0xFF := by omega
  have hoff : ¬ offset < 0 := by omega
  simp [checkedFill, Image.fillByte, hoff, hle]
  rfl

theorem Format.decode_eq_outcome (format : Format) (data : Bytes) {offset : Int}
    (hoffset : 0 ≤ offset) (fill : UInt8)
    : format.decode data offset fill.toNat
        =
      format.outcome data fill (format.run data offset) := by
  simp [decode, checkedFill_toNat hoffset, bind, Except.bind]

theorem Format.decodeWith_eq_outcome (format : Format) (tally : Tally) (data : Bytes) {offset : Int}
    (hoffset : 0 ≤ offset) (fill : UInt8)
    : format.decodeWith tally data offset fill.toNat
        =
      (format.outcome data fill (format.run data offset),
        tally.observe offset (format.run data offset)) := by
  simp [decodeWith, checkedFill_toNat hoffset]

theorem Format.exists_decodeWith_eq (format : Format) (data : Bytes) (offset fill : Int)
    : ∃ tally, format.decodeWith {} data offset fill = (format.decode data offset fill, tally) := by
  unfold decodeWith decode
  cases checkedFill offset fill with
  | error error => exact ⟨{}, rfl⟩
  | ok fill => exact ⟨_, rfl⟩

theorem Format.complete_of_decodeWith {format : Format} {data : Bytes} {offset : Int}
    (hoffset : 0 ≤ offset) {fill : UInt8} {image : Image} {tally : Tally}
    (h : format.decodeWith {} data offset fill.toNat = (.ok image, tally))
    : (format.run data offset).ending = .complete ∧
      tally = Tally.observe {} offset (format.run data offset) := by
  rw [format.decodeWith_eq_outcome {} data hoffset] at h
  rw [Prod.mk.injEq] at h
  obtain ⟨houtcome, htally⟩ := h
  unfold outcome at houtcome
  split at houtcome
  . next hending => exact ⟨hending, htally.symm⟩
  . simp at houtcome
  . simp at houtcome

theorem Run.Completes.decodeWith (format : Format) {data : Bytes} {offset position : Int}
    {fill : UInt8} {pen : Pen} {hits : List Int} {reached : Bool} (hoffset : 0 ≤ offset)
    (h : (format.run data offset).Completes fill pen position hits reached)
    : ∃ tally,
        format.decodeWith {} data offset fill.toNat = (.ok pen.image, tally) ∧
        tally.Shows offset position pen ∧
        tally.endReached = reached ∧
        tally.discouraged.map Prod.fst = hits := by
  refine ⟨Tally.observe {} offset (format.run data offset), ?_, ?_, ?_, ?_⟩
  . rw [Format.decodeWith_eq_outcome format {} data hoffset]
    simp only [Format.outcome]
    rw [h.ending, h.image]
  . constructor
    all_goals simp [Tally.observe, h.ending, h.position, h.address, h.missed, h.truncatedCopies]
  . simp [Tally.observe, h.endReached]
  . simp [Tally.observe, h.hits]

end PpuCodec
