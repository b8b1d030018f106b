import PpuCodec.Proofs.Rule.SelfContained

/-!
The rules of the built-in formats get by with the bytes that they use up.
-/

namespace PpuCodec

namespace Rule

variable {rule : Rule}

/-- Nothing is copied, and the operands are made without a division. -/
def Action.plain : Action → Bool
  | .seek address => !address.divides
  | .fill value count => !value.divides && !count.divides
  | .copy _ _ => false
  | .stop => true

theorem spends_of_plain {rest : List UInt8} {atStart : Bool} {size : Int}
    (hplain : rule.action.plain = true) (hchecked : rule.Checked)
    (haccepts : rule.accepts (Bytes.lookaheadOf rest) atStart = true)
    : rule.action.Spends (Bytes.lookaheadOf rest) size := by
  have heval := fun {e : Expr} => exists_eval_eq_ok_of_accepts haccepts hchecked (e := e)
  cases haction : rule.action with
  | seek address =>
    simp only [haction, Action.plain, Bool.not_eq_true'] at hplain
    apply heval _ hplain
    simp [haction, Action.mentions]
  | fill value count =>
    simp only [haction, Action.plain, Bool.and_eq_true, Bool.not_eq_true'] at hplain
    obtain ⟨v, hv⟩ := heval (by simp +contextual [haction, Action.mentions]) hplain.1
    obtain ⟨n, hn⟩ := heval (by simp +contextual [haction, Action.mentions]) hplain.2
    exact ⟨v, n, hv, hn⟩
  | copy count relative => simp [haction, Action.plain] at hplain
  | stop => trivial

/-- A rule that copies bytes from behind the first one, which says how many they are. -/
structure Counted (rule : Rule) (low high : Nat) : Prop where
  slots : (∃ h h', rule.slots.get 0 = Format.between low high h h') ∧
    rule.slots.get 1 = none ∧ rule.slots.get 2 = none
  copies : ∀ (b : UInt8) rest, low ≤ b.toNat → b.toNat ≤ high →
    ∃ count, ∃ n size : Int,
      rule.action = .copy count 1 ∧
      count.eval (Bytes.lookaheadOf (b :: rest)) = .ok n ∧
      rule.size.value (Bytes.lookaheadOf (b :: rest)) = .ok size ∧
      0 < n ∧ n + 1 = size

theorem Counted.exists_of_accepts {low high : Nat} (h : rule.Counted low high)
    {rest : List UInt8} {atStart : Bool}
    (haccepts : rule.accepts (Bytes.lookaheadOf rest) atStart = true)
    : ∃ count, ∃ n size : Int,
        rule.action = .copy count 1 ∧
        count.eval (Bytes.lookaheadOf rest) = .ok n ∧
        rule.size.value (Bytes.lookaheadOf rest) = .ok size ∧
        0 < n ∧ n + 1 = size := by
  obtain ⟨⟨hle, hle', hslot⟩, -, -⟩ := h.slots
  have hadmits := admits_of_accepts haccepts 0
  rw [hslot] at hadmits
  match rest with
  | [] => simp at hadmits
  | b :: rest =>
    change ByteRange.admits _ (some b) = true at hadmits
    rw [ByteRange.admits_between, decide_eq_true_eq] at hadmits
    exact h.copies b rest hadmits.1 hadmits.2

namespace SelfContained

/-- A rule that uses up the same number of bytes each time. -/
theorem of_size (size : Nat) (hsize : rule.size.parts = [.literal size] := by rfl)
    (hmoves : 0 < size ∨ rule.mayStay = true := by decide)
    (hslots : ∀ i : Fin 3, (rule.slots.get i).isSome = true → i.val < size := by decide)
    (hchecked : rule.Checked := by decide) {step : Nat}
    (hstep : rule.step.parts = [.literal step] := by rfl)
    (haction : ∀ {rest atStart}, rule.accepts (Bytes.lookaheadOf rest) atStart = true →
      rule.action.Spends (Bytes.lookaheadOf rest) size)
    : rule.SelfContained := by
  constructor
  . exact hchecked
  . intro rest atStart haccepts
    refine ⟨size, ?_⟩
    constructor
    . simp [Template.value, hsize, Expr.eval]
    . omega
    . simpa using hmoves
    . simpa using hslots
    . exact ⟨step, by simp [Template.value, hstep, Expr.eval]⟩
    . exact haction haccepts

theorem of_plain (size : Nat) (hplain : rule.action.plain = true := by decide)
    (hsize : rule.size.parts = [.literal size] := by rfl)
    (hmoves : 0 < size ∨ rule.mayStay = true := by decide)
    (hslots : ∀ i : Fin 3, (rule.slots.get i).isSome = true → i.val < size := by decide)
    (hchecked : rule.Checked := by decide) {step : Nat}
    (hstep : rule.step.parts = [.literal step] := by rfl)
    : rule.SelfContained := by
  apply of_size size hsize hmoves hslots hchecked hstep
  intro rest atStart haccepts
  exact spends_of_plain hplain hchecked haccepts

theorem of_counted {low high : Nat} (hcounted : rule.Counted low high)
    (hchecked : rule.Checked := by decide) {step : Int}
    (hstep : ∀ look, rule.step.value look = .ok step := by exact fun _ => rfl)
    : rule.SelfContained := by
  constructor
  . exact hchecked
  . intro rest atStart haccepts
    obtain ⟨count, n, size, haction, hcount, hsize, hpos, hsum⟩ :=
      hcounted.exists_of_accepts haccepts
    refine ⟨size, ?_⟩
    constructor
    . exact hsize
    . omega
    . exact .inl (by omega)
    . intro i hi
      match i with
      | 0 => rw [Fin.val_zero]; omega
      | 1 => simp [hcounted.slots.2.1] at hi
      | 2 => simp [hcounted.slots.2.2] at hi
    . exact ⟨step, hstep _⟩
    . rw [haction]
      exact ⟨n, 1, hcount, rfl, by decide, by omega⟩

end SelfContained

end Rule

namespace Format

open Rule.SelfContained (of_size of_plain of_counted)

theorem konami_counted : konami.rules[1].Counted 0x81 0xFE := by
  constructor
  . exact ⟨⟨by decide, by decide, rfl⟩, rfl, rfl⟩
  . intro b rest hlow hhigh
    exact ⟨_, b.toNat - (128 : Nat), b.toNat - (127 : Nat), rfl, rfl, rfl, by omega, by omega⟩

theorem konami_selfContained : ∀ rule ∈ konami.rules, rule.SelfContained := by
  simp only [konami, List.forall_mem_cons]
  exact ⟨of_plain 2, of_counted konami_counted, of_plain 1, by simp⟩

theorem konami2_selfContained : ∀ rule ∈ konami2.rules, rule.SelfContained := by
  simp only [konami2, List.forall_mem_cons]
  exact ⟨of_plain 2, of_plain 2, of_plain 2, of_plain 2, of_plain 3, of_counted konami_counted,
    of_plain 1, by simp⟩

theorem kemko_selfContained : ∀ rule ∈ kemko.rules, rule.SelfContained := by
  simp only [kemko, List.forall_mem_cons]
  refine ⟨of_plain 0, of_plain 3, of_plain 3, ?_, by simp⟩
  apply of_size 1
  intro rest atStart _
  exact ⟨1, 0, rfl, rfl, by decide, by decide⟩

theorem stripe_counted_across : stripe.rules[3].Counted 0x00 0x3F := by
  constructor
  . exact ⟨⟨by decide, by decide, rfl⟩, rfl, rfl⟩
  . intro b rest hlow hhigh
    exact ⟨_, b.toNat + (1 : Nat), b.toNat + (2 : Nat), rfl, rfl, rfl, by omega, by omega⟩

theorem stripe_counted_down : stripe.rules[5].Counted 0x80 0xBF := by
  constructor
  . exact ⟨⟨by decide, by decide, rfl⟩, rfl, rfl⟩
  . intro b rest hlow hhigh
    exact ⟨_, b.toNat - (127 : Nat), b.toNat - (126 : Nat), rfl, rfl, rfl, by omega, by omega⟩

theorem stripe_selfContained : ∀ rule ∈ stripe.rules, rule.SelfContained := by
  simp only [stripe, List.forall_mem_cons]
  exact ⟨of_plain 1, of_plain 1, of_plain 2, of_counted stripe_counted_across, of_plain 2,
    of_counted stripe_counted_down, of_plain 2, by simp⟩

theorem ppuDump_selfContained : ∀ rule ∈ ppuDump.rules, rule.SelfContained := by
  simp only [ppuDump, List.forall_mem_cons]
  refine ⟨of_plain 0, ?_, of_plain 1, by simp⟩
  apply of_size 0x4000
  intro rest atStart _
  exact ⟨0x4000, 0, rfl, rfl, by decide, by decide⟩

theorem packBits_counted : packBits.rules[1].Counted 0x00 0x7F := by
  constructor
  . exact ⟨⟨by decide, by decide, rfl⟩, rfl, rfl⟩
  . intro b rest hlow hhigh
    exact ⟨_, b.toNat + (1 : Nat), b.toNat + (2 : Nat), rfl, rfl, rfl, by omega, by omega⟩

theorem packBits_selfContained : ∀ rule ∈ packBits.rules, rule.SelfContained := by
  simp only [packBits, List.forall_mem_cons]
  exact ⟨of_plain 2, of_counted packBits_counted, by simp⟩

theorem builtIn_selfContained {format : Format} (h : format ∈ Catalog.builtIn.formats)
    : ∀ rule ∈ format.rules, rule.SelfContained := by
  simp only [Catalog.builtIn, List.mem_cons, List.not_mem_nil, or_false] at h
  rcases h with rfl | rfl | rfl | rfl | rfl | rfl
  . exact konami_selfContained
  . exact konami2_selfContained
  . exact kemko_selfContained
  . exact stripe_selfContained
  . exact ppuDump_selfContained
  . exact packBits_selfContained

end Format

end PpuCodec
