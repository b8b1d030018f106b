import PpuCodec.Proofs.Decode.Forward
import PpuCodec.Proofs.Decode.Outcome
import PpuCodec.Proofs.Format.SelfContained

/-!
Where the tables of the built-in formats have gaps. All but one are at the end of the input, where a
record is cut off.
-/

namespace PpuCodec

namespace Format

/-- A decode returns, or no rule applies and what is left of the input is a gap. -/
def FailsOnlyIn (format : Format) (gap : List UInt8 → Prop) : Prop :=
  ∀ (data : Bytes) (offset : Nat) (fill : UInt8),
    (∃ image, format.decode data offset fill.toNat = .ok image) ∨
    ∃ position rest image,
      format.decode data offset fill.toNat
        = .error (.stuck format.name position (data.lookahead position) image) ∧
      offset ≤ position ∧
      data.ReadsAt position rest ∧
      gap rest

theorem failsOnlyIn_of_rejects {format : Format} {gap : List UInt8 → Prop}
    (hrules : ∀ rule ∈ format.rules, rule.SelfContained)
    (hgap : ∀ {rest atStart}, rest ≠ [] →
      (∀ rule ∈ format.rules, rule.accepts (Bytes.lookaheadOf rest) atStart = false) → gap rest)
    : format.FailsOnlyIn gap := by
  intro data offset fill
  have hoffset : 0 ≤ (offset : Int) := Int.natCast_nonneg offset
  rw [format.decode_eq_outcome data hoffset fill]
  rw [outcome]
  cases hending : (format.run data offset).ending with
  | complete => exact .inl ⟨_, rfl⟩
  | failed _ _ _ => exact absurd hending (Run.ending_ne_failed hrules hoffset)
  | stuck =>
    obtain ⟨passes, last, hpasses, hlt, hrejects, hrun⟩ := Run.exists_passes_of_stuck hending
    have hposition := (Run.position_le data hrules hoffset).1
    change format.run data offset = _ at hrun
    change (offset : Int) ≤ (format.run data offset).cursor.position at hposition
    rw [hrun] at hposition ⊢
    dsimp only at hposition
    have hreads := data.readsAt_drop (Int.le_trans hoffset hposition)
    refine .inr ⟨last.position, _, _, rfl, hposition, hreads, ?_⟩
    apply hgap
    . exact hreads.ne_nil hlt
    . rw [← hreads.lookahead_eq]
      exact hrejects

theorem konami_failsOnlyIn
    : konami.FailsOnlyIn fun rest => ∃ b, rest = [b] ∧ b.toNat ≤ 0x80 := by
  apply failsOnlyIn_of_rejects konami_selfContained
  intro rest atStart hne hrejects
  match rest with
  | [b] =>
    have := b.toNat_lt
    simp [konami] at hrejects
    exact ⟨b, rfl, by omega⟩
  | a :: b :: rest =>
    have := a.toNat_lt
    simp [konami] at hrejects
    omega

theorem konami2_failsOnlyIn
    : konami2.FailsOnlyIn fun rest =>
        (∃ b, rest = [b] ∧ b.toNat ≤ 0x80) ∨ ∃ b, rest = [0x7F, b] := by
  apply failsOnlyIn_of_rejects konami2_selfContained
  intro rest atStart hne hrejects
  match rest with
  | [b] =>
    have := b.toNat_lt
    simp [konami2] at hrejects
    exact .inl ⟨b, rfl, by omega⟩
  | [a, b] =>
    have := a.toNat_lt
    simp [konami2] at hrejects
    have ha : a.toNat = (0x7F : UInt8).toNat := by
      change a.toNat = 127
      omega
    rw [UInt8.toNat_inj.mp ha]
    exact .inr ⟨b, rfl⟩
  | a :: b :: c :: rest =>
    have := a.toNat_lt
    simp [konami2] at hrejects
    omega

theorem kemko_head_of_rejects {a : UInt8} {more : List UInt8} {atStart : Bool}
    (h : ∀ rule ∈ kemko.rules, rule.accepts (Bytes.lookaheadOf (a :: more)) atStart = false)
    : a = 0xFF := by
  have := a.toNat_lt
  simp [kemko] at h
  apply UInt8.toNat_inj.mp
  change a.toNat = 255
  omega

theorem kemko_failsOnlyIn
    : kemko.FailsOnlyIn fun rest => rest = [0xFF] ∨ ∃ b, rest = [0xFF, b] := by
  apply failsOnlyIn_of_rejects kemko_selfContained
  intro rest atStart hne hrejects
  match rest with
  | [a] => exact .inl (by rw [kemko_head_of_rejects hrejects])
  | [a, b] => exact .inr ⟨b, by rw [kemko_head_of_rejects hrejects]⟩
  | a :: b :: c :: rest =>
    rw [kemko_head_of_rejects hrejects] at hrejects
    simp [kemko] at hrejects

theorem stripe_failsOnlyIn
    : stripe.FailsOnlyIn fun rest => ∃ b, rest = [b] ∧ 0x40 ≤ b.toNat ∧ b.toNat ≤ 0x7F := by
  apply failsOnlyIn_of_rejects stripe_selfContained
  intro rest atStart hne hrejects
  match rest with
  | [b] =>
    have := b.toNat_lt
    simp [stripe] at hrejects
    exact ⟨b, rfl, by omega, by omega⟩
  | a :: b :: rest => simp [stripe] at hrejects

theorem ppuDump_failsOnlyIn : ppuDump.FailsOnlyIn fun _ => False := by
  apply failsOnlyIn_of_rejects ppuDump_selfContained
  intro rest atStart hne hrejects
  simp [ppuDump] at hrejects

theorem packBits_failsOnlyIn
    : packBits.FailsOnlyIn fun rest =>
        (∃ more, rest = 0x80 :: more) ∨ ∃ b, rest = [b] ∧ 0x81 ≤ b.toNat := by
  apply failsOnlyIn_of_rejects packBits_selfContained
  intro rest atStart hne hrejects
  match rest with
  | a :: more =>
    by_cases ha : a = 0x80
    . rw [ha]
      exact .inl ⟨more, rfl⟩
    . have hne : a.toNat ≠ 0x80 := fun heq => ha (UInt8.toNat_inj.mp heq)
      have := a.toNat_lt
      match more with
      | [] =>
        simp [packBits] at hrejects
        exact .inr ⟨a, rfl, by omega⟩
      | b :: more =>
        simp [packBits] at hrejects
        omega

/-- No decode in a built-in format fails but by getting stuck in a gap of the table. -/
theorem builtIn_failsOnlyIn_gaps
    : Catalog.builtIn.formats = [konami, konami2, kemko, stripe, ppuDump, packBits] ∧
      konami.FailsOnlyIn (fun rest => ∃ b, rest = [b] ∧ b.toNat ≤ 0x80) ∧
      konami2.FailsOnlyIn (fun rest =>
        (∃ b, rest = [b] ∧ b.toNat ≤ 0x80) ∨ ∃ b, rest = [0x7F, b]) ∧
      kemko.FailsOnlyIn (fun rest => rest = [0xFF] ∨ ∃ b, rest = [0xFF, b]) ∧
      stripe.FailsOnlyIn (fun rest => ∃ b, rest = [b] ∧ 0x40 ≤ b.toNat ∧ b.toNat ≤ 0x7F) ∧
      packBits.FailsOnlyIn (fun rest =>
        (∃ more, rest = 0x80 :: more) ∨ ∃ b, rest = [b] ∧ 0x81 ≤ b.toNat) ∧
      ppuDump.FailsOnlyIn (fun _ => False) := by
  exact ⟨rfl, konami_failsOnlyIn, konami2_failsOnlyIn, kemko_failsOnlyIn, stripe_failsOnlyIn,
    packBits_failsOnlyIn, ppuDump_failsOnlyIn⟩

end Format

end PpuCodec
