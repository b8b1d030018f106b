import PpuCodec.Proofs.Decode.Contiguous
import PpuCodec.Proofs.Decode.Forward
import PpuCodec.Proofs.Format.SelfContained

/-!
The formats that have no address in their records write one block, from the first nametable on. So
the address that a decode came to says all of it: where the block ends, and how much of it was
dropped.
-/

namespace PpuCodec

namespace Format

/-- The formats that always begin to write at the first nametable, and never move from there. -/
def unaddressed : List Format := [konami, kemko, packBits]

theorem unaddressed_builtIn {format : Format} (h : format ∈ unaddressed)
    : format ∈ Catalog.builtIn.formats := by
  simp only [unaddressed, List.mem_cons, List.not_mem_nil, or_false] at h
  rcases h with rfl | rfl | rfl
  all_goals simp [Catalog.builtIn]

theorem unaddressed_writesOn
    : ∀ format ∈ unaddressed, ∀ rule ∈ format.rules, rule.writesOn = true := by
  decide

/-- A decode in which no rule can fail leaves a memory and a tally, whether it returns or gets
stuck. -/
theorem exists_decodeWith_of_selfContained {format : Format}
    (hrules : ∀ rule ∈ format.rules, rule.SelfContained) (data : Bytes) (offset : Nat)
    (fill : UInt8)
    : let run := format.run data offset
      ∃ result tally,
        format.decodeWith {} data offset fill.toNat = (result, tally) ∧
        (result = .ok (run.image fill) ∨
          ∃ position look, result = .error (.stuck format.name position look (run.image fill))) ∧
        tally.finalAddress = run.cursor.address ∧
        tally.skippedWrites = run.missed.length ∧
        tally.skippedAddresses = run.missed.take Tally.keptAddresses := by
  intro run
  have hoffset : 0 ≤ (offset : Int) := Int.natCast_nonneg offset
  refine ⟨_, _, format.decodeWith_eq_outcome {} data hoffset fill, ?_, ?_, ?_, ?_⟩
  . rw [outcome]
    cases hending : (format.run data offset).ending with
    | complete => exact .inl rfl
    | stuck => exact .inr ⟨_, _, rfl⟩
    | failed _ _ _ => exact absurd hending (Run.ending_ne_failed hrules hoffset)
  . cases hending : (format.run data offset).ending with
    | complete => simp [Tally.observe, hending, run]
    | stuck => simp [Tally.observe, hending, run]
    | failed _ _ _ => exact absurd hending (Run.ending_ne_failed hrules hoffset)
  . simp [Tally.observe, run]
  . simp [Tally.observe, run]

/-- Such a decode lays one block over the memory, from the first nametable up to the address that it
came to, also if it gets stuck. In front of the block and behind it the memory is as it was, and as
many writes were dropped as that address is past the end of the memory. -/
theorem decodeWith_contiguous {format : Format} (hformat : format ∈ unaddressed) (data : Bytes)
    (offset : Nat) (fill : UInt8)
    : ∃ result image tally,
        format.decodeWith {} data offset fill.toNat = (result, tally) ∧
        (result = .ok image ∨
          ∃ position look, result = .error (.stuck format.name position look image)) ∧
        (∃ block : List UInt8,
          image = (Image.blank fill).overlay 0x2000 block ∧
          tally.finalAddress = 0x2000 + block.length) ∧
        0x2000 ≤ tally.finalAddress ∧
        (∀ (x : Nat) (hx : x < 0x4000), x < 0x2000 → image.cells[x] = 0) ∧
        (∀ (x : Nat) (hx : x < 0x4000), tally.finalAddress ≤ x →
          image.cells[x] = (Image.blank fill).cells[x]) ∧
        tally.skippedWrites = max 0 (tally.finalAddress - 0x4000) ∧
        tally.skippedAddresses
          = ((List.range tally.skippedWrites).map fun (i : Nat) => (0x4000 + i : Int)).take 16 := by
  obtain ⟨result, tally, hdecode, hresult, haddress, hwrites, haddresses⟩ :=
    exists_decodeWith_of_selfContained (builtIn_selfContained (unaddressed_builtIn hformat)) data
      offset fill
  obtain ⟨block, himage, hcursor, hmissed⟩ :=
    Run.exists_block (unaddressed_writesOn format hformat) data offset fill
  change (format.run data offset).image fill = _ at himage
  change (format.run data offset).cursor.address = _ at hcursor
  change (format.run data offset).missed = _ at hmissed
  have hfinal : tally.finalAddress = 0x2000 + block.length := by rw [haddress, hcursor]
  have hdropped : tally.skippedWrites = block.length - 0x2000 := by
    rw [hwrites, hmissed, List.length_map, List.length_range]
  refine ⟨result, _, tally, hdecode, hresult, ⟨block, himage, hfinal⟩, ?_, ?_, ?_, ?_, ?_⟩
  . omega
  . intro x hx hbelow
    rw [himage, Image.cells_overlay_of_lt _ hx hbelow]
    exact Image.cells_blank_of_lt fill hx hbelow
  . intro x hx hbehind
    rw [himage, Image.cells_overlay_of_le _ hx (by omega)]
  . omega
  . rw [haddresses, hmissed, hdropped]
    rfl

/-- A run of three, and a copy of two of which the second byte is missing. -/
theorem konami_decodeWith_contiguous_cut
    : let data : Bytes := #[0xAA, 0x03, 0x41, 0x82, 0x55]
      ∃ (image : Image) (tally : Tally),
        konami ∈ unaddressed ∧
        konami.decodeWith {} data (1 : Nat) (0x24 : UInt8).toNat = (.ok image, tally) ∧
        tally.finalAddress = 0x2004 ∧
        tally.skippedWrites = 0 ∧
        image.cells[0x1FFF] = 0 ∧
        image.cells[0x2004] = 0x24 := by
  intro data
  have hkonami : konami ∈ unaddressed := by simp [unaddressed]
  obtain ⟨result, image, tally, hdecode, hresult, -, -, hbelow, hbehind, hwrites, -⟩ :=
    decodeWith_contiguous hkonami data 1 0x24
  have hfinal : (konami.decodeWith {} data (1 : Nat) (0x24 : UInt8).toNat).2.finalAddress
      = 0x2004 := by
    decide +kernel
  have hok : (konami.decodeWith {} data (1 : Nat) (0x24 : UInt8).toNat).1.isOk = true := by
    decide +kernel
  rw [hdecode] at hfinal hok
  rcases hresult with rfl | ⟨position, look, rfl⟩
  . dsimp only at hfinal
    refine ⟨image, tally, hkonami, hdecode, hfinal, by omega, ?_, ?_⟩
    . exact hbelow 0x1FFF (by decide) (by decide)
    . rw [hbehind 0x2004 (by decide) (by omega)]
      simp [Image.blank, Image.isTileCell]
  . simp [Except.isOk, Except.toBool] at hok

end Format

end PpuCodec
