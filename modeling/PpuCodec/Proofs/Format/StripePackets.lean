import PpuCodec.Proofs.Decode.Forward
import PpuCodec.Proofs.Decode.Succession
import PpuCodec.Proofs.Format.SelfContained
import PpuCodec.Proofs.Records.Stripe

/-!
How far the stripe decoder keeps to packets on input that is none. An address is followed by a run,
and a run comes behind an address, up to the last byte of the input. There a run that lacks its
value is taken for the end mark that has the same code, and the high byte of an address for a run.
-/

namespace PpuCodec

/-- The byte at the cursor is the last one of the input, and such a byte. -/
def Firing.AtLastByte (data : Bytes) (firing : Firing) (isSuch : UInt8 → Prop) : Prop :=
  ∃ b, data.ReadsAt firing.cursor.position [b] ∧ isSuch b

namespace Stripe

theorem kind_of_mem_runRules
    : ∀ rule ∈ runRules, rule.kind = .copy ∨ rule.kind = .fill := by
  decide

theorem index_of_seek {index : Nat} {rule : Rule} (h : Format.stripe.rules[index]? = some rule)
    (hrule : rule.kind = .seek ∨ rule.continues = true)
    : index = 2 ∧ rule = Format.stripe.rules[2] := by
  obtain ⟨hlt, heq⟩ := List.getElem?_eq_some_iff.mp h
  have honly : ∀ (i : Nat) (hi : i < Format.stripe.rules.length),
      Format.stripe.rules[i].kind = .seek ∨ Format.stripe.rules[i].continues = true → i = 2 := by
    decide
  have hindex := honly index hlt (by rw [heq]; exact hrule)
  subst hindex
  exact ⟨rfl, heq.symm⟩

theorem rejects_nil (atStart : Bool)
    : ∀ rule ∈ Format.stripe.rules, rule.accepts (Bytes.lookaheadOf []) atStart = false := by
  simp [Format.stripe]

/-- What the table comes to when it is gone through from the top. -/
inductive AtTop : List UInt8 → Rule → Prop where
  | mark {b : UInt8} {more : List UInt8} {rule : Rule} (hkind : rule.kind = .stop)
      (hb : b.toNat = 0x00 ∨ 0x80 ≤ b.toNat)
      : AtTop (b :: more) rule
  | address {a b : UInt8} {more : List UInt8} {rule : Rule} (hkind : rule.kind = .seek)
      : AtTop (a :: b :: more) rule
  | last {b : UInt8} (hb : 0x01 ≤ b.toNat ∧ b.toNat ≤ 0x3F) : AtTop [b] runRules[0]

theorem atTop_of_firstAt {rest : List UInt8} {atStart : Bool} {index : Nat} {rule : Rule}
    (h : Rule.FirstAt Format.stripe.rules (Bytes.lookaheadOf rest) atStart index rule)
    : AtTop rest rule := by
  have haccepts := h.accepts
  have hrejects := h.rejects
  obtain ⟨hlt, heq⟩ := List.getElem?_eq_some_iff.mp h.getElem?
  subst heq
  match rest, index with
  | [], index =>
    have := rejects_nil atStart _ (List.getElem_mem hlt)
    simp [haccepts] at this
  | b :: more, 0 =>
    simp [Format.stripe] at haccepts
    exact .mark rfl (.inl haccepts)
  | b :: more, 1 =>
    simp [Format.stripe] at haccepts
    exact .mark rfl (.inr (by omega))
  | a :: b :: more, 2 => exact .address rfl
  | [b], 2 => simp [Format.stripe] at haccepts
  | [b], 3 =>
    simp [Format.stripe] at haccepts hrejects
    exact .last (by omega)
  | [b], 4 => simp [Format.stripe] at haccepts
  | [b], 5 =>
    simp [Format.stripe] at haccepts hrejects
    omega
  | [b], 6 => simp [Format.stripe] at haccepts
  | [b], index + 7 =>
    have : Format.stripe.rules.length = 7 := by rfl
    omega
  -- The rule for an address applies wherever there are two bytes.
  | a :: b :: more, index + 3 => simp [Format.stripe] at hrejects

/-- No run begins here: there is one byte left, and it asks for a value behind it. -/
theorem eq_nil_of_runRules_reject {b : UInt8} {more : List UInt8} {atStart : Bool}
    (h : ∀ rule ∈ runRules, rule.accepts (Bytes.lookaheadOf (b :: more)) atStart = false)
    : more = [] ∧ (0x40 ≤ b.toNat ∧ b.toNat ≤ 0x7F ∨ 0xC0 ≤ b.toNat) := by
  have := b.toNat_lt
  match more with
  | [] =>
    simp [runRules, Format.stripe] at h
    exact ⟨rfl, by omega⟩
  | c :: more =>
    simp [runRules, Format.stripe] at h
    omega

theorem runRules_reject {b : UInt8} (hb : 0xC0 ≤ b.toNat) (atStart : Bool)
    : ∀ rule ∈ runRules, rule.accepts (Bytes.lookaheadOf [b]) atStart = false := by
  simp [runRules, Format.stripe]
  omega

variable {data : Bytes} {firing : Firing}

theorem stop_iff_of_follows_seek {previous : Firing}
    (h : Follows data Format.stripe.rules (some previous) firing)
    (hprevious : previous.Of data Format.stripe.rules) (hseek : previous.rule.kind = .seek)
    (hposition : 0 ≤ firing.cursor.position)
    : firing.rule.kind = .stop ↔ firing.AtLastByte data (0xC0 ≤ ·.toNat) := by
  obtain ⟨hindex, hrule⟩ := index_of_seek hprevious.getElem? (.inl hseek)
  have hreads := data.readsAt_drop hposition
  generalize data.toList.drop firing.cursor.position.toNat = rest at hreads
  have hlook := hreads.lookahead_eq
  cases h with
  | below hcontinues hcursor hfirst =>
    rw [hindex, hlook] at hfirst
    have hmem : firing.rule ∈ runRules := List.mem_of_getElem? hfirst.getElem?
    constructor
    . intro hstop
      have := kind_of_mem_runRules firing.rule hmem
      simp [hstop] at this
    -- A run that lacks its value is no run.
    . rintro ⟨b, hlast, hb⟩
      rw [hreads.2.symm.trans hlast.2] at hfirst
      have := runRules_reject hb firing.cursor.atStart firing.rule hmem
      simp [hfirst.accepts] at this
  | top hsettled hfirst =>
    have hrejects := (hsettled previous rfl).2 (by rw [hrule]; rfl)
    rw [hindex, hlook] at hrejects
    rw [hlook] at hfirst
    generalize firing.rule = rule at hfirst ⊢
    cases atTop_of_firstAt hfirst with
    | @mark b more rule hkind hb =>
      obtain ⟨rfl, hcode⟩ := eq_nil_of_runRules_reject hrejects
      exact ⟨fun _ => ⟨b, hreads, by omega⟩, fun _ => hkind⟩
    | address _ =>
      have := (eq_nil_of_runRules_reject hrejects).1
      simp at this
    | last hb =>
      obtain ⟨-, hcode⟩ := eq_nil_of_runRules_reject hrejects
      omega

/-- A run that does not come behind an address is taken for one because nothing else is left. -/
theorem follows_seek_or_last {previous : Option Firing}
    (h : Follows data Format.stripe.rules previous firing)
    (hprevious : ∀ other, previous = some other → other.Of data Format.stripe.rules)
    (hkind : firing.rule.kind = .copy ∨ firing.rule.kind = .fill)
    (hposition : 0 ≤ firing.cursor.position)
    : (∃ other, previous = some other ∧ other.rule.kind = .seek ∧ firing.cursor = other.next) ∨
      firing.rule = runRules[0] ∧
        firing.AtLastByte data (fun b => 0x01 ≤ b.toNat ∧ b.toNat ≤ 0x3F) := by
  cases h with
  | @below previous firing index hcontinues hcursor hfirst =>
    obtain ⟨-, hrule⟩ := index_of_seek (hprevious previous rfl).getElem? (.inr hcontinues)
    refine .inl ⟨previous, rfl, ?_, hcursor⟩
    rw [hrule]
    rfl
  | top hsettled hfirst =>
    have hreads := data.readsAt_drop hposition
    generalize data.toList.drop firing.cursor.position.toNat = rest at hreads
    rw [hreads.lookahead_eq] at hfirst
    generalize firing.rule = rule at hfirst hkind ⊢
    cases atTop_of_firstAt hfirst with
    | mark hstop _ => simp [hstop] at hkind
    | address hseek => simp [hseek] at hkind
    | @last b hb => exact .inr ⟨rfl, b, hreads, hb⟩

theorem position_lt (h : firing.Of data Format.stripe.rules)
    (hposition : 0 ≤ firing.cursor.position)
    : firing.cursor.position < data.size := by
  have hreads := data.readsAt_drop hposition
  apply hreads.lt_size
  intro hnil
  have hrejects := rejects_nil firing.cursor.atStart _ (List.mem_of_getElem? h.getElem?)
  rw [← hnil, ← hreads.lookahead_eq] at hrejects
  simp [h.accepts] at hrejects

/-- A block of which only the count is left writes nothing, and is as long as the count says. -/
theorem eq_of_runRules_zero {b : UInt8} (h : firing.Of data Format.stripe.rules)
    (hrule : firing.rule = runRules[0]) (hreads : data.ReadsAt firing.cursor.position [b])
    : firing.effect = .paint ⟨firing.cursor.address, 1, []⟩ true ∧
      firing.next.position = firing.cursor.position + (b.toNat + 2) := by
  obtain ⟨size, step, effect, hsize, -, hstep, heffect, heq⟩ := Rule.exists_of_fire_eq_ok h.fire
  rw [hrule] at hsize hstep heffect
  rw [hreads.lookahead_eq] at hsize hstep
  have hsize : size = (b.toNat : Int) + 2 := (Except.ok.inj hsize).symm
  have hstep : step = 1 := (Except.ok.inj hstep).symm
  have haction : runRules[0].action = .copy (.byte 0 + 1) 1 := by rfl
  have hcount : (Expr.byte 0 + 1).eval (Bytes.lookaheadOf [b]) = .ok ((b.toNat : Int) + 1) := by rfl
  rw [Rule.effect_copy_of_reads step haction hreads hcount rfl Int.one_nonneg] at heffect
  constructor
  . rw [heq, ← Except.ok.inj heffect]
    rw [hstep]
    simp
  . rw [heq, hsize]
    rfl

end Stripe

/-- In a stripe stream a stop never comes behind an address, and a run comes behind one at the place
the address leads to, but for what the last byte of the input is taken for. -/
theorem Format.stripe_fired_packets {data : Bytes} {offset : Nat} {before after : List Firing}
    {firing : Firing} (h : (stripe.run data offset).fired = before ++ firing :: after)
    : (∀ previous, before.getLast? = some previous → previous.rule.kind = .seek →
        firing.cursor = previous.next ∧
        (firing.rule.kind = .stop ↔ firing.AtLastByte data (0xC0 ≤ ·.toNat))) ∧
      (firing.rule.kind = .copy ∨ firing.rule.kind = .fill →
        (∃ previous, before.getLast? = some previous ∧ previous.rule.kind = .seek ∧
          firing.cursor = previous.next) ∨
        firing.AtLastByte data (fun b => 0x01 ≤ b.toNat ∧ b.toNat ≤ 0x3F) ∧
          firing.effect = .paint ⟨firing.cursor.address, 1, []⟩ true ∧
          after = []) := by
  have hfollows := (Run.follows h).1
  have hof : ∀ other ∈ before ++ firing :: after, other.Of data stripe.rules := by
    rw [← h]
    exact Run.of_mem_fired stripe.rules data offset
  have hprevious : ∀ previous, before.getLast? = some previous → previous.Of data stripe.rules := by
    intro previous hlast
    exact hof previous (by simp [List.mem_of_getLast? hlast])
  have hposition : 0 ≤ firing.cursor.position := by
    have hmem : firing ∈ (stripe.run data offset).fired := by simp [h]
    have := (Run.position_le data stripe_selfContained (Int.natCast_nonneg offset)).2 firing hmem
    omega
  constructor
  . intro previous hlast hseek
    rw [hlast] at hfollows
    exact ⟨hfollows.cursor_eq,
      Stripe.stop_iff_of_follows_seek hfollows (hprevious previous hlast) hseek hposition⟩
  . intro hkind
    cases Stripe.follows_seek_or_last hfollows hprevious hkind hposition with
    | inl hseek => exact .inl hseek
    | inr hlast =>
      obtain ⟨hrule, b, hreads, hb⟩ := hlast
      obtain ⟨heffect, hnext⟩ := Stripe.eq_of_runRules_zero (hof firing (by simp)) hrule hreads
      refine .inr ⟨⟨b, hreads, hb⟩, heffect, ?_⟩
      -- The block ends behind the end of the input, where no rule of the table applies.
      cases after with
      | nil => rfl
      | cons next after =>
        rw [List.append_cons] at h
        have hcursor := (Run.follows h).1
        rw [List.getLast?_concat] at hcursor
        have hlt := Stripe.position_lt (hof next (by simp)) (by rw [hcursor.cursor_eq]; omega)
        have hlength := congrArg List.length hreads.2
        rw [hcursor.cursor_eq] at hlt
        simp at hlength
        omega

/-- The code of a repeat down a column whose value is cut off ends the stream, as if an address had
been due. The code of a block, if it is all there is, is a block, though it has no address. -/
theorem Format.stripe_fired_cut_off
    : (∃ address mark,
        (stripe.run #[0x20, 0x00, 0xC0] (0 : Nat)).fired = [address, mark] ∧
        address.rule.kind = .seek ∧
        mark.rule.kind = .stop ∧
        mark.cursor = address.next ∧
        (stripe.run #[0x20, 0x00, 0xC0] (0 : Nat)).ending = .complete) ∧
      (stripe.run #[0x20, 0x00, 0x40] (0 : Nat)).ending = .stuck ∧
      (stripe.run #[0x05] (0 : Nat)).fired.map (·.rule.kind) = [.copy] := by
  refine ⟨⟨⟨2, stripe.rules[2], Run.start 0, 2, .seek 0x2000⟩,
    ⟨1, stripe.rules[1], ⟨2, 0x2000, false⟩, 1, .stop⟩, ?_, rfl, rfl, rfl, ?_⟩, ?_, ?_⟩
  . decide +kernel
  . decide +kernel
  . decide +kernel
  . decide +kernel

theorem Format.stripe_fired_packets_cut_fill
    : ∃ address mark,
        (stripe.run #[0x20, 0x00, 0xC0] (0 : Nat)).fired = [address] ++ [mark] ∧
        address.rule.kind = .seek ∧
        mark.rule.kind = .stop ∧
        mark.cursor = address.next ∧
        mark.AtLastByte #[0x20, 0x00, 0xC0] (0xC0 ≤ ·.toNat) := by
  have hfired : (stripe.run #[0x20, 0x00, 0xC0] (0 : Nat)).fired
      = [⟨2, stripe.rules[2], Run.start 0, 2, .seek 0x2000⟩] ++
        [⟨1, stripe.rules[1], ⟨2, 0x2000, false⟩, 1, .stop⟩] := by
    decide +kernel
  obtain ⟨hcursor, hstop⟩ := (stripe_fired_packets hfired).1 _ rfl rfl
  exact ⟨_, _, hfired, rfl, rfl, hcursor, hstop.mp rfl⟩

end PpuCodec
