import PpuCodec.Proofs.Decode.Dispatch

/-!
The bytes that a rule depends on. What a template comes to depends only on the bytes that it
mentions, and a rule mentions only bytes that it checks. So inputs that are alike in the checked
bytes are alike to the rule.
-/

namespace PpuCodec

theorem Expr.eval_congr {look look' : Lookahead} {e : Expr}
    (h : ∀ i : Fin 3, e.mentions i = true → look[i.val]?.join = look'[i.val]?.join)
    : e.eval look = e.eval look' := by
  induction e with
  | literal n => rfl
  | byte i =>
    have hi := h i (by simp [mentions])
    simp only [eval, hi]
  | binary op left right ihl ihr =>
    have hleft := ihl (fun i hi => h i (by simp [mentions, hi]))
    have hright := ihr (fun i hi => h i (by simp [mentions, hi]))
    simp only [eval, hleft, hright]

/-- If the bytes that it mentions are there, an expression fails at most in a division. -/
theorem Expr.eval_eq_ok_or_divisionByZero {look : Lookahead} {e : Expr}
    (h : ∀ i : Fin 3, e.mentions i = true → ∃ b, look[i.val]?.join = some b)
    : (∃ v, e.eval look = .ok v) ∨ e.eval look = .error .divisionByZero := by
  induction e with
  | literal n => exact .inl ⟨n, rfl⟩
  | byte i =>
    obtain ⟨b, hb⟩ := h i (by simp [mentions])
    refine .inl ⟨b, ?_⟩
    simp only [eval, hb]
  | binary op left right ihl ihr =>
    rcases ihl (fun i hi => h i (by simp [mentions, hi])) with ⟨a, hleft⟩ | hleft
    . rcases ihr (fun i hi => h i (by simp [mentions, hi])) with ⟨b, hright⟩ | hright
      . simp only [eval, hleft, hright, bind, Except.bind]
        cases op with
        | add => exact .inl ⟨_, rfl⟩
        | sub => exact .inl ⟨_, rfl⟩
        | mul => exact .inl ⟨_, rfl⟩
        | div =>
          rw [Operator.apply]
          split
          . exact .inr rfl
          . exact .inl ⟨_, rfl⟩
      . simp [eval, hleft, hright, bind, Except.bind]
    . simp [eval, hleft, bind, Except.bind]

def Expr.divides : Expr → Bool
  | .literal _ => false
  | .byte _ => false
  | .binary op left right => op == .div || left.divides || right.divides

theorem Expr.eval_ne_divisionByZero {look : Lookahead} {e : Expr} (h : e.divides = false)
    : e.eval look ≠ .error .divisionByZero := by
  induction e with
  | literal n => simp [eval]
  | byte i =>
    rw [eval]
    split
    . simp
    . simp
  | binary op left right ihl ihr =>
    simp only [divides, Bool.or_eq_false_iff] at h
    have hleft := ihl h.1.2
    have hright := ihr h.2
    cases hl : left.eval look with
    | error error =>
      simp only [eval, hl, bind, Except.bind]
      rwa [hl] at hleft
    | ok a =>
      cases hr : right.eval look with
      | error error =>
        simp only [eval, hl, hr, bind, Except.bind]
        rwa [hr] at hright
      | ok b =>
        simp only [eval, hl, hr, bind, Except.bind]
        cases op with
        | add => simp [Operator.apply]
        | sub => simp [Operator.apply]
        | mul => simp [Operator.apply]
        | div => simp at h

theorem Template.value_congr {look look' : Lookahead} {template : Template}
    (h : ∀ i : Fin 3, template.mentions i = true → look[i.val]?.join = look'[i.val]?.join)
    : template.value look = template.value look' := by
  unfold value
  split
  . next e hparts =>
    apply Expr.eval_congr
    intro i hi
    apply h
    simp [mentions, hparts, hi]
  . rfl

theorem Bytes.getElem?_lookaheadOf (rest : List UInt8) (i : Fin 3)
    : (lookaheadOf rest)[i.val]?.join = rest[i.val]?.map fun b => (b.toNat : Int) := by
  match i with
  | 0 => rfl
  | 1 => rfl
  | 2 => rfl

namespace Rule

open ByteRange (admits)

def Action.mentions (i : Fin 3) : Action → Bool
  | .seek address => address.mentions i
  | .fill value count => value.mentions i || count.mentions i
  | .copy count relative => count.mentions i || relative.mentions i
  | .stop => false

def mentions (rule : Rule) (i : Fin 3) : Bool :=
  rule.size.mentions i || rule.step.mentions i || rule.action.mentions i

/-- The rule only uses bytes that it checks, as a rule does that was made from a draft. -/
def Checked (rule : Rule) : Prop :=
  ∀ i, rule.mentions i = true → (rule.slots.get i).isSome = true

instance (rule : Rule) : Decidable rule.Checked :=
  inferInstanceAs (Decidable (∀ i, rule.mentions i = true → (rule.slots.get i).isSome = true))

/-- The inputs have the same bytes where the rule checks them. -/
def Alike (rule : Rule) (rest rest' : List UInt8) : Prop :=
  ∀ i : Fin 3, (rule.slots.get i).isSome = true → rest[i.val]? = rest'[i.val]?

variable {rule : Rule} {rest rest' : List UInt8}

theorem Alike.of_take_eq {size : Nat}
    (hslots : ∀ i : Fin 3, (rule.slots.get i).isSome = true → i < size)
    (h : rest.take size = rest'.take size)
    : rule.Alike rest rest' := by
  intro i hi
  have hlt := hslots i hi
  rw [← List.getElem?_take_of_lt hlt, h]
  rw [List.getElem?_take_of_lt hlt]

namespace Alike

theorem admits_eq (h : rule.Alike rest rest') (i : Fin 3)
    : admits (rule.slots.get i) rest[i.val]? = admits (rule.slots.get i) rest'[i.val]? := by
  cases hslot : rule.slots.get i with
  | none => simp
  | some range =>
    have hi : (rule.slots.get i).isSome = true := by simp [hslot]
    rw [h i hi]

theorem accepts_eq (h : rule.Alike rest rest') (atStart : Bool)
    : rule.accepts (Bytes.lookaheadOf rest) atStart
        =
      rule.accepts (Bytes.lookaheadOf rest') atStart := by
  have h0 : admits rule.slots[0] rest[0]? = admits rule.slots[0] rest'[0]? := h.admits_eq 0
  have h1 : admits rule.slots[1] rest[1]? = admits rule.slots[1] rest'[1]? := h.admits_eq 1
  have h2 : admits rule.slots[2] rest[2]? = admits rule.slots[2] rest'[2]? := h.admits_eq 2
  rw [accepts_lookaheadOf, accepts_lookaheadOf]
  rw [h0, h1, h2]

theorem lookahead_eq (h : rule.Alike rest rest') (hchecked : rule.Checked) {i : Fin 3}
    (hi : rule.mentions i = true)
    : (Bytes.lookaheadOf rest)[i.val]?.join = (Bytes.lookaheadOf rest')[i.val]?.join := by
  rw [Bytes.getElem?_lookaheadOf, Bytes.getElem?_lookaheadOf]
  rw [h i (hchecked i hi)]

theorem size_eq (h : rule.Alike rest rest') (hchecked : rule.Checked)
    : rule.size.value (Bytes.lookaheadOf rest) = rule.size.value (Bytes.lookaheadOf rest') := by
  apply Template.value_congr
  intro i hi
  exact h.lookahead_eq hchecked (by simp [mentions, hi])

theorem step_eq (h : rule.Alike rest rest') (hchecked : rule.Checked)
    : rule.step.value (Bytes.lookaheadOf rest) = rule.step.value (Bytes.lookaheadOf rest') := by
  apply Template.value_congr
  intro i hi
  exact h.lookahead_eq hchecked (by simp [mentions, hi])

theorem eval_eq (h : rule.Alike rest rest') (hchecked : rule.Checked) {e : Expr}
    (he : ∀ i, e.mentions i = true → rule.action.mentions i = true)
    : e.eval (Bytes.lookaheadOf rest) = e.eval (Bytes.lookaheadOf rest') := by
  apply Expr.eval_congr
  intro i hi
  exact h.lookahead_eq hchecked (by simp [mentions, he i hi])

end Alike

theorem admits_of_accepts {atStart : Bool}
    (h : rule.accepts (Bytes.lookaheadOf rest) atStart = true) (i : Fin 3)
    : admits (rule.slots.get i) rest[i.val]? = true := by
  rw [accepts_lookaheadOf] at h
  simp only [Bool.and_eq_true] at h
  match i with
  | 0 => exact h.2.1
  | 1 => exact h.2.2.1
  | 2 => exact h.2.2.2

theorem exists_byte_of_accepts {atStart : Bool}
    (h : rule.accepts (Bytes.lookaheadOf rest) atStart = true) {i : Fin 3}
    (hi : (rule.slots.get i).isSome = true)
    : ∃ b, rest[i.val]? = some b := by
  have hadmits := admits_of_accepts h i
  obtain ⟨range, hslot⟩ := Option.isSome_iff_exists.mp hi
  rw [hslot] at hadmits
  cases hbyte : rest[i.val]? with
  | none => simp [hbyte, ByteRange.admits, ByteRange.contains] at hadmits
  | some b => exact ⟨b, rfl⟩

theorem exists_eval_eq_ok_of_accepts {atStart : Bool}
    (h : rule.accepts (Bytes.lookaheadOf rest) atStart = true) (hchecked : rule.Checked) {e : Expr}
    (he : ∀ i, e.mentions i = true → rule.action.mentions i = true) (hdivides : e.divides = false)
    : ∃ v, e.eval (Bytes.lookaheadOf rest) = .ok v := by
  have hpresent : ∀ i : Fin 3, e.mentions i = true →
      ∃ b, (Bytes.lookaheadOf rest)[i.val]?.join = some b := by
    intro i hi
    obtain ⟨b, hb⟩ := exists_byte_of_accepts h (hchecked i (by simp [mentions, he i hi]))
    rw [Bytes.getElem?_lookaheadOf, hb]
    exact ⟨_, rfl⟩
  cases Expr.eval_eq_ok_or_divisionByZero hpresent with
  | inl hvalue => exact hvalue
  | inr herror => exact absurd herror (Expr.eval_ne_divisionByZero hdivides)

/-- What is cut off from the input cannot make a rule apply. -/
theorem accepts_of_accepts_take {atStart : Bool} {count : Nat}
    (h : rule.accepts (Bytes.lookaheadOf (rest.take count)) atStart = true)
    : rule.accepts (Bytes.lookaheadOf rest) atStart = true := by
  have halike : rule.Alike (rest.take count) rest := by
    intro i hi
    obtain ⟨b, hbyte⟩ := exists_byte_of_accepts h hi
    rw [List.getElem?_take] at hbyte ⊢
    split at hbyte
    . next hlt => rw [if_pos hlt]
    . simp at hbyte
  rw [← halike.accepts_eq]
  exact h

end Rule

end PpuCodec
