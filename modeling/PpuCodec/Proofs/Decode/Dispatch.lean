import PpuCodec.Decode.Run
import PpuCodec.Format.BuiltIn
import PpuCodec.Proofs.Decode.Input

/-!
Which rule of a table a pass comes to, and what it does. The conditions of a rule are read as
conditions on the bytes that are left of the input.
-/

namespace PpuCodec

namespace ByteRange

def admits (slot : Option ByteRange) (b : Option UInt8) : Bool :=
  slot.all (·.contains (b.map fun b => (b.toNat : Int)))

@[simp]
theorem admits_none (b : Option UInt8) : admits none b = true := by
  rfl

@[simp]
theorem admits_between (low high : Nat) (h h') (b : UInt8)
    : admits (Format.between low high h h') (some b)
        =
      decide (low ≤ b.toNat ∧ b.toNat ≤ high) := by
  simp [admits, Format.between, contains]

@[simp]
theorem admits_exactly (value : Nat) (h) (b : UInt8)
    : admits (Format.exactly value h) (some b) = decide (b.toNat = value) := by
  simp only [admits, Format.exactly, contains, Option.all_some, Option.map_some]
  rw [Bool.eq_iff_iff]
  simp only [Bool.and_eq_true, decide_eq_true_eq]
  omega

@[simp]
theorem admits_present (b : UInt8) : admits Format.present (some b) = true := by
  have := b.toNat_lt
  simp only [admits, Format.present, any, contains, Option.all_some, Option.map_some,
    Bool.and_eq_true, decide_eq_true_eq]
  omega

@[simp]
theorem admits_between_none (low high : Nat) (h h')
    : admits (Format.between low high h h') none = false := by
  rfl

@[simp]
theorem admits_exactly_none (value : Nat) (h) : admits (Format.exactly value h) none = false := by
  rfl

@[simp]
theorem admits_present_none : admits Format.present none = false := by
  rfl

end ByteRange

namespace Rule

open ByteRange (admits)

@[simp]
theorem accepts_lookaheadOf (rule : Rule) (rest : List UInt8) (atStart : Bool)
    : rule.accepts (Bytes.lookaheadOf rest) atStart
        =
      ((!rule.startOnly || atStart) && (admits rule.slots[0] rest[0]? &&
        (admits rule.slots[1] rest[1]? && admits rule.slots[2] rest[2]?))) := by
  rcases rule with ⟨_, ⟨⟨slots⟩, hsize⟩, _, _, _, _, _, _⟩
  match slots with
  | [_, _, _] => simp [accepts, Bytes.lookaheadOf, admits]

/-- The rule at `index` is the first of the table that applies. -/
structure FirstAt (rules : List Rule) (look : Lookahead) (atStart : Bool) (index : Nat)
    (rule : Rule) : Prop where
  getElem? : rules[index]? = some rule
  accepts : rule.accepts look atStart = true
  rejects : ∀ other ∈ rules.take index, other.accepts look atStart = false

theorem mapError_ok {ε ε' α : Type} (f : ε → ε') (a : α)
    : (Except.ok a).mapError f = Except.ok a := by
  rfl

theorem mapError_error {ε ε' α : Type} (f : ε → ε') (e : ε)
    : (Except.error e : Except ε α).mapError f = Except.error (f e) := by
  rfl

theorem exists_of_bind_eq_ok {ε α β : Type} {x : Except ε α} {f : α → Except ε β} {b : β}
    (h : x >>= f = .ok b)
    : ∃ a, x = .ok a ∧ f a = .ok b := by
  cases x with
  | error e => simp [bind, Except.bind] at h
  | ok a => exact ⟨a, rfl, h⟩

theorem exists_of_mapError_bind_eq_ok {ε ε' α β : Type} {x : Except ε α} {f : ε → ε'}
    {g : α → Except ε' β} {b : β} (h : (x.mapError f >>= g) = .ok b)
    : ∃ a, x = .ok a ∧ g a = .ok b := by
  cases x with
  | error error => simp [mapError_error, bind, Except.bind] at h
  | ok a => exact ⟨a, rfl, h⟩

theorem eq_of_mapError_bind_eq_error {ε ε' α β : Type} {x : Except ε α} {f : ε → ε'}
    {g : α → Except ε' β} {e : ε'} (h : (x.mapError f >>= g) = .error e)
    : (∃ error, x = .error error ∧ e = f error) ∨ ∃ a, x = .ok a ∧ g a = .error e := by
  cases x with
  | error error => exact .inl ⟨error, rfl, (Except.error.inj h).symm⟩
  | ok a => exact .inr ⟨a, rfl, h⟩

section

variable {rule : Rule} {data : Bytes} {cursor : Cursor} {look : Lookahead} {step : Int}

theorem effect_seek {address : Expr} {target : Int} (haction : rule.action = .seek address)
    (hlook : data.lookahead cursor.position = look) (htarget : address.eval look = .ok target)
    : rule.effect data cursor step = .ok (.seek target) := by
  unfold effect
  rw [haction, hlook]
  dsimp only
  rw [htarget]
  rfl

theorem effect_fill {value count : Expr} {v n : Int} (haction : rule.action = .fill value count)
    (hlook : data.lookahead cursor.position = look) (hvalue : value.eval look = .ok v)
    (hcount : count.eval look = .ok n)
    : rule.effect data cursor step
        =
      .ok (.paint ⟨cursor.address, step, List.replicate n.toNat (UInt8.ofInt v)⟩ false) := by
  unfold effect
  rw [haction, hlook]
  dsimp only
  rw [hvalue, hcount]
  rfl

theorem effect_copy {count relative : Expr} {n r : Int} {bytes : List UInt8}
    (haction : rule.action = .copy count relative)
    (hlook : data.lookahead cursor.position = look) (hcount : count.eval look = .ok n)
    (hrelative : relative.eval look = .ok r)
    (hsource : data.readFrom? (cursor.position + r) n.toNat = some bytes)
    (hlength : bytes.length = n.toNat)
    : rule.effect data cursor step = .ok (.paint ⟨cursor.address, step, bytes⟩ false) := by
  unfold effect
  rw [haction, hlook]
  dsimp only
  rw [hcount, hrelative]
  simp only [mapError_ok, bind, Except.bind, hsource, hlength, Nat.lt_irrefl, decide_false]
  rfl

theorem fire_eq (index : Nat) {size : Int} {effect : Effect}
    (hlook : data.lookahead cursor.position = look) (hsize : rule.size.value look = .ok size)
    (hmoves : 0 < size ∨ rule.mayStay = true) (hstep : rule.step.value look = .ok step)
    (heffect : rule.effect data cursor step = .ok effect)
    : rule.fire index data cursor = .ok ⟨index, rule, cursor, size, effect⟩ := by
  have hstays : ¬ (size ≤ 0 ∧ rule.mayStay = false) := by
    rintro ⟨hle, hmay⟩
    rw [hmay] at hmoves
    simp only [Bool.false_eq_true, or_false] at hmoves
    omega
  unfold fire
  rw [hlook]
  dsimp only
  rw [hsize, hstep]
  simp only [mapError_ok, bind, Except.bind, hstays, if_false, heffect]
  rfl

/-- What a rule that applied came from. -/
theorem exists_of_fire_eq_ok {index : Nat} {firing : Firing}
    (h : rule.fire index data cursor = .ok firing)
    : ∃ size step effect,
        rule.size.value (data.lookahead cursor.position) = .ok size ∧
        (0 < size ∨ rule.mayStay = true) ∧
        rule.step.value (data.lookahead cursor.position) = .ok step ∧
        rule.effect data cursor step = .ok effect ∧
        firing = ⟨index, rule, cursor, size, effect⟩ := by
  unfold fire at h
  obtain ⟨size, hsize, h⟩ := exists_of_mapError_bind_eq_ok h
  split at h
  . simp [throw, throwThe, MonadExceptOf.throw] at h
  . next hmoves =>
    obtain ⟨step, hstep, h⟩ := exists_of_mapError_bind_eq_ok h
    cases heffect : rule.effect data cursor step with
    | error fault => simp [heffect, bind, Except.bind] at h
    | ok effect =>
      simp only [heffect, bind, Except.bind, pure, Except.pure, Except.ok.injEq] at h
      refine ⟨size, step, effect, hsize, ?_, hstep, heffect, h.symm⟩
      cases hmay : rule.mayStay with
      | true => simp
      | false =>
        simp only [hmay, and_true] at hmoves
        exact .inl (by omega)

theorem action_eq_stop_of_effect (h : rule.effect data cursor step = .ok .stop)
    : rule.action = .stop := by
  unfold effect at h
  cases haction : rule.action with
  | seek address =>
    rw [haction] at h
    obtain ⟨target, -, h⟩ := exists_of_mapError_bind_eq_ok h
    simp [pure, Except.pure] at h
  | fill value count =>
    rw [haction] at h
    obtain ⟨v, -, h⟩ := exists_of_mapError_bind_eq_ok h
    obtain ⟨n, -, h⟩ := exists_of_mapError_bind_eq_ok h
    simp [pure, Except.pure] at h
  | copy count relative =>
    rw [haction] at h
    obtain ⟨n, -, h⟩ := exists_of_mapError_bind_eq_ok h
    obtain ⟨r, -, h⟩ := exists_of_mapError_bind_eq_ok h
    split at h
    . simp [pure, Except.pure] at h
    . simp [throw, throwThe, MonadExceptOf.throw] at h
  | stop => rfl

end

end Rule

namespace Pass

variable {data : Bytes} {rules : List Rule} {cursor : Cursor}

theorem ofRules_drop (start index : Nat)
    (h : ∀ other ∈ rules.take index,
      other.accepts (data.lookahead cursor.position) cursor.atStart = false)
    : ofRules data start rules cursor = ofRules data (start + index) (rules.drop index) cursor := by
  induction index generalizing start rules with
  | zero => simp
  | succ index ih =>
    cases rules with
    | nil => simp [ofRules]
    | cons rule below =>
      have hrule := h rule (by simp)
      rw [ofRules]
      rw [hrule]
      simp only [Bool.false_eq_true, if_false]
      rw [ih]
      . simp only [List.drop_succ_cons]
        congr 1
        omega
      . intro other hother
        apply h
        simp [hother]

variable {start index : Nat} {rule : Rule} {firing : Firing}

theorem ofRules_of_firstAt
    (h : Rule.FirstAt rules (data.lookahead cursor.position) cursor.atStart index rule)
    (hfire : rule.fire (start + index) data cursor = .ok firing)
    : ofRules data start rules cursor
        =
      if firing.effect.finishes then ⟨[firing], firing.next, some .complete⟩
      else if rule.continues then
        (ofRules data (start + index + 1) (rules.drop (index + 1)) firing.next).after firing
      else ⟨[firing], firing.next, none⟩ := by
  have hlt := (List.getElem?_eq_some_iff.mp h.getElem?).1
  have hrule := (List.getElem?_eq_some_iff.mp h.getElem?).2
  rw [ofRules_drop start index h.rejects]
  rw [List.drop_eq_getElem_cons hlt]
  rw [hrule]
  rw [ofRules]
  rw [h.accepts]
  simp only [if_true, hfire]

theorem ofRules_of_breaks
    (h : Rule.FirstAt rules (data.lookahead cursor.position) cursor.atStart index rule)
    (hfire : rule.fire (start + index) data cursor = .ok firing) (hbreaks : rule.continues = false)
    : ofRules data start rules cursor
        =
      ⟨[firing], firing.next, if firing.effect.finishes then some .complete else none⟩ := by
  rw [ofRules_of_firstAt h hfire, hbreaks]
  cases firing.effect.finishes with
  | true => rfl
  | false => rfl

end Pass

end PpuCodec
