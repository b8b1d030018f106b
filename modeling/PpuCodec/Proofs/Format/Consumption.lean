import PpuCodec.Proofs.Decode.Consumption
import PpuCodec.Proofs.Decode.Outcome
import PpuCodec.Proofs.Format.SelfContained

/-!
How much of its input a decode in a built-in format reports as read. If no copy was cut short it is
no more than there was, with one exception. The rule that ends a dump of the picture memory checks
no byte, but uses one up, also behind the last one.
-/

namespace PpuCodec

namespace Rule.Covered

variable {rule : Rule}

/-- A rule that uses up the same number of bytes each time, and checks the last of them. -/
theorem of_size (size : Nat) (hsize : rule.size.parts = [.literal size] := by rfl)
    (hslot : size = 0 ∨ ∃ i : Fin 3, (rule.slots.get i).isSome = true ∧ size ≤ i + 1 := by decide)
    : rule.Covered := by
  intro rest atStart used haccepts hused
  simp only [Template.value, hsize, Expr.eval, Except.ok.injEq] at hused
  subst hused
  cases hslot with
  | inl hzero =>
    rw [hzero]
    exact .inl (Int.natCast_nonneg _)
  | inr hlast =>
    obtain ⟨i, hi, hle⟩ := hlast
    have := lt_length_of_accepts haccepts hi
    exact .inl (by omega)

theorem of_counted {low high : Nat} (h : rule.Counted low high) : rule.Covered := by
  intro rest atStart used haccepts hused
  obtain ⟨count, n, size, haction, hcount, hsize, hpos, hsum⟩ := h.exists_of_accepts haccepts
  rw [hsize, Except.ok.injEq] at hused
  refine .inr ?_
  rw [haction]
  exact ⟨n, 1, hcount, rfl, by decide, hpos, by omega⟩

end Rule.Covered

namespace Format

open Rule.Covered (of_size of_counted)

theorem konami_covered : ∀ rule ∈ konami.rules, rule.Covered := by
  simp only [konami, List.forall_mem_cons]
  exact ⟨of_size 2, of_counted konami_counted, of_size 1, by simp⟩

theorem konami2_covered : ∀ rule ∈ konami2.rules, rule.Covered := by
  simp only [konami2, List.forall_mem_cons]
  exact ⟨of_size 2, of_size 2, of_size 2, of_size 2, of_size 3, of_counted konami_counted,
    of_size 1, by simp⟩

theorem kemko_covered : ∀ rule ∈ kemko.rules, rule.Covered := by
  simp only [kemko, List.forall_mem_cons]
  exact ⟨of_size 0, of_size 3, of_size 3, of_size 1, by simp⟩

theorem stripe_covered : ∀ rule ∈ stripe.rules, rule.Covered := by
  simp only [stripe, List.forall_mem_cons]
  exact ⟨of_size 1, of_size 1, of_size 2, of_counted stripe_counted_across, of_size 2,
    of_counted stripe_counted_down, of_size 2, by simp⟩

theorem packBits_covered : ∀ rule ∈ packBits.rules, rule.Covered := by
  simp only [packBits, List.forall_mem_cons]
  exact ⟨of_size 2, of_counted packBits_counted, by simp⟩

section

variable {data : Bytes} {offset : Int}

theorem ppuDump_firstPass (data : Bytes) (offset : Int)
    : Pass.ofRules data 0 ppuDump.rules (Run.start offset)
        =
      ⟨[⟨0, ppuDump.rules[0], Run.start offset, 0, .seek 0⟩], ⟨offset, 0, false⟩, none⟩ := by
  have hpass : Pass.ofRules data 0 ppuDump.rules (Run.start offset)
      = ⟨[⟨0, ppuDump.rules[0], Run.start offset, 0, .seek 0⟩], ⟨offset + 0, 0, false⟩, none⟩ := by
    rfl
  rw [hpass, Int.add_zero]

theorem ppuDump_effect_copy {cursor : Cursor} {rest : List UInt8}
    (hreads : data.ReadsAt cursor.position rest)
    : ppuDump.rules[1].effect data cursor 1
        =
      .ok (.paint ⟨cursor.address, 1, rest.take 0x4000⟩ (rest.length < 0x4000)) := by
  have hcopy : ppuDump.rules[1].effect data cursor 1 = _ :=
    Rule.effect_copy_of_reads 1 rfl hreads rfl rfl (Int.le_refl 0)
  have hcut : (rest.take 0x4000).length < 0x4000 ↔ rest.length < 0x4000 := by
    rw [List.length_take]
    omega
  rw [hcopy]
  simp only [← hcut]
  rfl

/-- The copy takes what there is of the dump. If that is all of it, the same pass goes on with the
rule that ends the dump, wherever the copy has led. -/
theorem ppuDump_secondPass (address : Int) {rest : List UInt8} (hreads : data.ReadsAt offset rest)
    (hrest : rest ≠ [])
    : let cursor : Cursor := ⟨offset, address, false⟩
      let stroke : Stroke := ⟨address, 1, rest.take 0x4000⟩
      let cut := decide (rest.length < 0x4000)
      let copied : Firing := ⟨1, ppuDump.rules[1], cursor, 0x4000, .paint stroke cut⟩
      Pass.ofRules data 0 ppuDump.rules cursor
        =
      if cut then ⟨[copied], copied.next, some .complete⟩
      else
        ⟨[copied, ⟨2, ppuDump.rules[2], copied.next, 1, .stop⟩],
          ⟨copied.next.position + 1, copied.next.address, false⟩, some .complete⟩ := by
  intro cursor stroke cut copied
  have hlook : data.lookahead cursor.position = _ := hreads.lookahead_eq
  have hfirst : Rule.FirstAt ppuDump.rules (data.lookahead cursor.position) cursor.atStart 1
      ppuDump.rules[1] := by
    rw [hlook]
    match rest with
    | b :: rest =>
      constructor
      . rfl
      . simp [ppuDump]
      . simp [ppuDump]
  have hfire : ppuDump.rules[1].fire (0 + 1) data cursor = .ok copied := by
    exact Rule.fire_eq 1 rfl rfl (.inl (by decide)) rfl (ppuDump_effect_copy hreads)
  rw [Pass.ofRules_of_firstAt hfirst hfire]
  change (if cut = true then _ else _) = _
  by_cases hcut : cut = true
  . rw [if_pos hcut, if_pos hcut]
  . rw [if_neg hcut, if_neg hcut]
    rfl

theorem ppuDump_run_eq {fired : List Firing} {last : Cursor} {ending : Ending}
    (hlt : offset < data.size)
    (hpass : Pass.ofRules data 0 ppuDump.rules ⟨offset, 0, false⟩ = ⟨fired, last, some ending⟩)
    : ppuDump.run data offset
        =
      ⟨[[⟨0, ppuDump.rules[0], Run.start offset, 0, .seek 0⟩], fired], last, ending⟩ := by
  have hopen := Run.ofCursor_of_open hlt (by simp) (ppuDump_firstPass data offset)
  rw [Run.ofCursor, Run.ofCursor, Run.go_of_ending hlt hpass #[]] at hopen
  exact hopen

theorem ppuDump_truncatedCopies_of_short (hoffset : 0 ≤ offset) (hlt : offset < data.size)
    (hshort : data.size < offset + 0x4000)
    : (ppuDump.run data offset).truncatedCopies = [offset] := by
  have hreads := data.readsAt_drop hoffset
  have hlength := hreads.length_eq (Int.le_of_lt hlt)
  have hpass := ppuDump_secondPass 0 hreads (hreads.ne_nil hlt)
  dsimp only at hpass
  rw [decide_eq_true (by omega), if_pos rfl] at hpass
  rw [ppuDump_run_eq hlt hpass]
  rfl

/-- A whole dump is followed by its end, which counts as one byte more. -/
theorem ppuDump_run_of_whole (data : Bytes) (hoffset : 0 ≤ offset)
    (hle : offset + 0x4000 ≤ data.size)
    : (ppuDump.run data offset).ending = .complete ∧
      (ppuDump.run data offset).truncatedCopies = [] ∧
      (ppuDump.run data offset).cursor.position = offset + 0x4000 + 1 := by
  have hlt : offset < data.size := by omega
  have hreads := data.readsAt_drop hoffset
  have hlength := hreads.length_eq (Int.le_of_lt hlt)
  have hpass := ppuDump_secondPass 0 hreads (hreads.ne_nil hlt)
  dsimp only at hpass
  rw [decide_eq_false (by omega), if_neg Bool.false_ne_true] at hpass
  rw [ppuDump_run_eq hlt hpass]
  exact ⟨rfl, rfl, rfl⟩

theorem ppuDump_position_le_size (hoffset : 0 ≤ offset) (hle : offset ≤ data.size)
    (hwhole : (ppuDump.run data offset).truncatedCopies = [])
    (hbehind : data.size ≠ offset + 0x4000)
    : (ppuDump.run data offset).cursor.position ≤ data.size := by
  by_cases hlt : offset < data.size
  . by_cases hshort : data.size < offset + 0x4000
    . rw [ppuDump_truncatedCopies_of_short hoffset hlt hshort] at hwhole
      simp at hwhole
    . rw [(ppuDump_run_of_whole data hoffset (by omega)).2.2]
      omega
  . have hend : data.size ≤ offset := by omega
    have hrun : ppuDump.run data offset = _ := Run.go_of_size_le hend #[]
    rw [hrun]
    exact hle

theorem builtIn_position_le_size {format : Format} (hformat : format ∈ Catalog.builtIn.formats)
    (hoffset : 0 ≤ offset) (hle : offset ≤ data.size)
    (hwhole : (format.run data offset).truncatedCopies = [])
    (hbehind : ¬ (format = ppuDump ∧ data.size = offset + 0x4000))
    : (format.run data offset).cursor.position ≤ data.size := by
  have hrules := builtIn_selfContained hformat
  have hcovered := fun h => Run.position_le_size hrules h hoffset hle hwhole
  simp only [Catalog.builtIn, List.mem_cons, List.not_mem_nil, or_false] at hformat
  rcases hformat with rfl | rfl | rfl | rfl | rfl | rfl
  . exact hcovered konami_covered
  . exact hcovered konami2_covered
  . exact hcovered kemko_covered
  . exact hcovered stripe_covered
  . apply ppuDump_position_le_size hoffset hle hwhole
    simpa using hbehind
  . exact hcovered packBits_covered

end

/-- What a tally of one decode says of how far it came. -/
theorem observe_of_complete {run : Run} (h : run.ending = .complete) (offset : Int)
    : let tally := Tally.observe {} offset run
      tally.endOffset = run.cursor.position ∧
      tally.bytesConsumed = run.cursor.position - offset ∧
      (tally.truncatedCopy = none ↔ run.truncatedCopies = []) := by
  simp [Tally.bytesConsumed, Tally.observe, h]

/-- A decode that returns and has not cut a copy short has used no more than there was. But a dump
that stands right at the end of the input is taken to be one byte longer. -/
theorem endOffset_le_size {format : Format} (hformat : format ∈ Catalog.builtIn.formats)
    {data : Bytes} {offset : Nat} (hle : offset ≤ data.size) {fill : UInt8} {image : Image}
    {tally : Tally}
    (h : format.decodeWith {} data offset fill.toNat = (.ok image, tally))
    (hwhole : tally.truncatedCopy = none)
    : offset ≤ tally.endOffset ∧
      (¬ (format = ppuDump ∧ data.size = offset + 0x4000) →
        tally.endOffset ≤ data.size ∧ tally.bytesConsumed ≤ data.size - offset) ∧
      (format = ppuDump ∧ data.size = offset + 0x4000 →
        tally.endOffset = data.size + 1 ∧ tally.bytesConsumed = data.size - offset + 1) := by
  have hoffset : 0 ≤ (offset : Int) := Int.natCast_nonneg offset
  have hplace : (offset : Int) ≤ data.size := by omega
  obtain ⟨hending, htally⟩ := complete_of_decodeWith hoffset h
  obtain ⟨hend, hconsumed, hcopies⟩ := observe_of_complete hending offset
  rw [← htally] at hend hconsumed hcopies
  rw [hcopies] at hwhole
  rw [hconsumed, hend]
  refine ⟨(Run.position_le data (builtIn_selfContained hformat) hoffset).1, ?_, ?_⟩
  . intro hbehind
    have := builtIn_position_le_size hformat hoffset hplace hwhole (by
      rintro ⟨hdump, hsize⟩
      exact hbehind ⟨hdump, by omega⟩)
    omega
  . rintro ⟨hdump, hsize⟩
    subst hdump
    have := (ppuDump_run_of_whole data hoffset (by omega)).2.2
    omega

/-- A stream without an end mark, of which the last byte is that of a run. -/
theorem stripe_endOffset_le_five
    : let data : Bytes := #[0x11, 0x20, 0x00, 0x41, 0x55]
      ∃ image tally,
        stripe ∈ Catalog.builtIn.formats ∧
        stripe.decodeWith {} data (1 : Nat) (0x24 : UInt8).toNat = (.ok image, tally) ∧
        tally.truncatedCopy = none ∧
        1 ≤ tally.endOffset ∧
        tally.endOffset ≤ 5 ∧
        tally.bytesConsumed ≤ 4 := by
  intro data
  have hstripe : stripe ∈ Catalog.builtIn.formats := by simp [Catalog.builtIn]
  have hending : (stripe.run data (1 : Nat)).ending = .complete := by decide +kernel
  have hcopies : (stripe.run data (1 : Nat)).truncatedCopies = [] := by decide +kernel
  have hdecode := stripe.decodeWith_eq_outcome {} data (Int.natCast_nonneg 1) 0x24
  rw [outcome, hending] at hdecode
  have hwhole := (observe_of_complete hending (1 : Nat)).2.2.mpr hcopies
  obtain ⟨hle, hwithin, -⟩ := endOffset_le_size hstripe (by decide) hdecode hwhole
  obtain ⟨hend, hconsumed⟩ := hwithin (fun hdump => absurd hdump.2 (by decide))
  exact ⟨_, _, hstripe, hdecode, hwhole, hle, hend, hconsumed⟩

/-- A file that holds a dump and nothing else is read up to one byte behind its end. -/
theorem ppuDump_endOffset_behind
    : let data : Bytes := Array.replicate 0x4000 0
      ∃ image tally,
        ppuDump ∈ Catalog.builtIn.formats ∧
        ppuDump.decodeWith {} data (0 : Nat) (0x00 : UInt8).toNat = (.ok image, tally) ∧
        tally.truncatedCopy = none ∧
        data.size = 0x4000 ∧
        tally.endOffset = 0x4001 ∧
        tally.bytesConsumed = 0x4001 := by
  intro data
  have hsize : data.size = 0x4000 := Array.size_replicate
  obtain ⟨hending, hcopies, hposition⟩ :=
    ppuDump_run_of_whole data (Int.natCast_nonneg 0) (by rw [hsize]; decide)
  have hdecode := ppuDump.decodeWith_eq_outcome {} data (Int.natCast_nonneg 0) 0x00
  rw [outcome, hending] at hdecode
  obtain ⟨hend, hconsumed, hwhole⟩ := observe_of_complete hending (0 : Nat)
  refine ⟨_, _, by simp [Catalog.builtIn], hdecode, hwhole.mpr hcopies, hsize, ?_, ?_⟩
  . rw [hend, hposition]
    rfl
  . rw [hconsumed, hposition]
    rfl

end Format

end PpuCodec
