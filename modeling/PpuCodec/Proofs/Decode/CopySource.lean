import PpuCodec.Proofs.Decode.Linked
import PpuCodec.Proofs.Decode.Outcome

/-!
Where the bytes come from that a copy writes. Behind the end of the input there is nothing to copy.
Before its front a place is counted back from the end, and only if that leads out of the input as
well is the copy refused.
-/

namespace PpuCodec

namespace Bytes

variable {data : Bytes} {start : Int} {count : Nat} {bytes : List UInt8}

/-- The index at which a byte is found whose place may lie before the front of the input. -/
structure FoundAt (data : Bytes) (place : Int) (k : Nat) : Prop where
  lt_size : k < data.size
  place_eq : (k : Int) = place ∨ place < 0 ∧ (k : Int) = place + data.size

theorem readFrom?_eq_none_iff
    : data.readFrom? start count = none ↔ start < -(data.size : Int) ∧ 0 < count := by
  unfold readFrom?
  split
  . simp
    omega
  . split
    . simp
      omega
    . split
      . simp
        omega
      . simp
        omega

theorem length_of_readFrom? (h : data.readFrom? start count = some bytes)
    : bytes.length = min count (data.size - start).toNat := by
  unfold readFrom? at h
  split at h
  . rw [← Option.some.inj h]
    simp only [Array.length_toList, Array.size_extract]
    omega
  . split at h
    . rw [← Option.some.inj h]
      simp only [Array.length_toList, Array.size_extract, Array.size_append]
      omega
    . split at h
      . next hcount =>
        rw [← Option.some.inj h]
        simp [hcount]
      . simp at h

theorem foundAt_of_readFrom? (h : data.readFrom? start count = some bytes) {j : Nat}
    (hj : j < bytes.length)
    : ∃ k, data.FoundAt (start + j) k ∧ bytes[j]? = data[k]? := by
  unfold readFrom? at h
  split at h
  . next hstart =>
    rw [← Option.some.inj h] at hj ⊢
    simp only [Array.length_toList, Array.size_extract] at hj
    refine ⟨start.toNat + j, ⟨by omega, .inl (by omega)⟩, ?_⟩
    rw [Array.getElem?_toList]
    rw [Array.getElem?_extract]
    rw [if_pos hj]
  . split at h
    . next hstart hback =>
      rw [← Option.some.inj h] at hj ⊢
      simp only [Array.length_toList, Array.size_extract, Array.size_append] at hj
      rw [Array.getElem?_toList]
      rw [Array.getElem?_extract]
      rw [if_pos (by simpa only [Array.size_append, Array.size_extract] using hj)]
      rw [Nat.zero_add]
      -- The copy begins with the last bytes of the input and goes on at its front.
      by_cases hfront : start + j < 0
      . refine ⟨(data.size + start).toNat + j, ⟨by omega, .inr ⟨hfront, by omega⟩⟩, ?_⟩
        rw [Array.getElem?_append_left (by simp only [Array.size_extract]; omega)]
        rw [Array.getElem?_extract]
        rw [if_pos (by omega)]
      . refine ⟨(start + j).toNat, ⟨by omega, .inl (by omega)⟩, ?_⟩
        rw [Array.getElem?_append_right (by simp only [Array.size_extract]; omega)]
        congr 1
        simp only [Array.size_extract]
        omega
    . split at h
      . rw [← Option.some.inj h] at hj
        simp at hj
      . simp at h

end Bytes

namespace Rule

theorem exists_of_mapError_bind_eq_sourceOutside {α β : Type} {x : Except Expr.Error α}
    {f : α → Except Fault β} (h : (x.mapError Fault.expr >>= f) = .error .sourceOutside)
    : ∃ a, x = .ok a ∧ f a = .error .sourceOutside := by
  rcases eq_of_mapError_bind_eq_error h with ⟨error, -, hfault⟩ | hvalue
  . simp at hfault
  . exact hvalue

variable {rule : Rule} {data : Bytes} {cursor : Cursor} {step : Int}

theorem exists_of_effect_copy {count relative : Expr} {done : Effect}
    (haction : rule.action = .copy count relative)
    (h : rule.effect data cursor step = .ok done)
    : ∃ n r bytes,
        count.eval (data.lookahead cursor.position) = .ok n ∧
        relative.eval (data.lookahead cursor.position) = .ok r ∧
        data.readFrom? (cursor.position + r) n.toNat = some bytes ∧
        done = .paint ⟨cursor.address, step, bytes⟩ (bytes.length < n.toNat) := by
  unfold effect at h
  rw [haction] at h
  obtain ⟨n, hcount, h⟩ := exists_of_mapError_bind_eq_ok h
  obtain ⟨r, hrelative, h⟩ := exists_of_mapError_bind_eq_ok h
  split at h
  . next bytes hsource => exact ⟨n, r, bytes, hcount, hrelative, hsource, (Except.ok.inj h).symm⟩
  . simp [throw, throwThe, MonadExceptOf.throw] at h

/-- The rule copies from a place that is before the front of the input, also when it is counted
back from the end. -/
def CopiesOutside (rule : Rule) (data : Bytes) (position : Int) : Prop :=
  ∃ count relative n r,
    rule.action = .copy count relative ∧
    count.eval (data.lookahead position) = .ok n ∧
    relative.eval (data.lookahead position) = .ok r ∧
    0 < n ∧
    position + r < -(data.size : Int)

theorem copiesOutside_of_effect (h : rule.effect data cursor step = .error .sourceOutside)
    : rule.CopiesOutside data cursor.position := by
  unfold effect at h
  cases haction : rule.action with
  | seek address =>
    rw [haction] at h
    obtain ⟨target, -, h⟩ := exists_of_mapError_bind_eq_sourceOutside h
    simp [pure, Except.pure] at h
  | fill value count =>
    rw [haction] at h
    obtain ⟨v, -, h⟩ := exists_of_mapError_bind_eq_sourceOutside h
    obtain ⟨n, -, h⟩ := exists_of_mapError_bind_eq_sourceOutside h
    simp [pure, Except.pure] at h
  | copy count relative =>
    rw [haction] at h
    obtain ⟨n, hcount, h⟩ := exists_of_mapError_bind_eq_sourceOutside h
    obtain ⟨r, hrelative, h⟩ := exists_of_mapError_bind_eq_sourceOutside h
    split at h
    . simp [pure, Except.pure] at h
    . next hsource =>
      obtain ⟨hplace, hpos⟩ := Bytes.readFrom?_eq_none_iff.mp hsource
      exact ⟨count, relative, n, r, haction, hcount, hrelative, by omega, hplace⟩
  | stop => simp [haction, pure, Except.pure] at h

theorem copiesOutside_of_fire {index : Nat} (h : rule.fire index data cursor = .error .sourceOutside)
    : rule.CopiesOutside data cursor.position := by
  unfold fire at h
  obtain ⟨size, -, h⟩ := exists_of_mapError_bind_eq_sourceOutside h
  split at h
  . simp [throw, throwThe, MonadExceptOf.throw] at h
  . obtain ⟨step, -, h⟩ := exists_of_mapError_bind_eq_sourceOutside h
    cases heffect : rule.effect data cursor step with
    | error fault =>
      rw [heffect] at h
      have hfault : fault = .sourceOutside := Except.error.inj h
      rw [hfault] at heffect
      exact copiesOutside_of_effect heffect
    | ok effect => simp [heffect, pure, Except.pure, bind, Except.bind] at h

end Rule

/-- No rule applies, or one that applies has no values for its templates or would use up nothing. -/
def Decode.Error.isForeseen : Decode.Error → Bool
  | .stuck _ _ _ _ => true
  | .fault (.expr _) => true
  | .fault (.noProgress _ _ _) => true
  | _ => false

theorem Firing.Of.exists_of_copy {data : Bytes} {rules : List Rule} {firing : Firing}
    {count relative : Expr} (h : firing.Of data rules)
    (haction : firing.rule.action = .copy count relative)
    : ∃ n r step bytes,
        count.eval (data.lookahead firing.cursor.position) = .ok n ∧
        relative.eval (data.lookahead firing.cursor.position) = .ok r ∧
        firing.effect = .paint ⟨firing.cursor.address, step, bytes⟩ (bytes.length < n.toNat) ∧
        bytes.length = min n.toNat (data.size - (firing.cursor.position + r)).toNat ∧
        ∀ j < bytes.length,
          ∃ k, data.FoundAt (firing.cursor.position + j + r) k ∧ bytes[j]? = data[k]? := by
  obtain ⟨size, step, effect, -, -, -, heffect, heq⟩ := Rule.exists_of_fire_eq_ok h.fire
  obtain ⟨n, r, bytes, hcount, hrelative, hsource, hpaint⟩ :=
    Rule.exists_of_effect_copy haction heffect
  refine ⟨n, r, step, bytes, hcount, hrelative, ?_, Bytes.length_of_readFrom? hsource, ?_⟩
  . rw [heq]
    exact hpaint
  . intro j hj
    rw [Int.add_right_comm]
    exact Bytes.foundAt_of_readFrom? hsource hj

/-- Each byte stands for the one that is so many places before it. -/
def Rule.lookBack (back : Nat) : Rule where
  action := .copy 1 (0 - .literal back)
  slots := #v[some .any, none, none]

/-- How the rule is written down. -/
def Rule.Draft.lookBack (back : Nat) : Rule.Draft where
  kind := .copy
  slots := #v[some .any, none, none]
  operand := .ofExprs [1, 0 - .literal back]
  size := .single 1
  step := .single 1
  startOnly := false
  continues := false
  discouraged := false
  note := ""

theorem Rule.Draft.toRule_lookBack (back : Nat) : (lookBack back).toRule = .ok (.lookBack back) := by
  rfl

def Format.lookBack (back : Nat) : Format where
  name := "Look back"
  key := "lookback"
  description := ""
  rules := [.lookBack back]

namespace Format

/-- A decode fails as foreseen, unless a copy leads out of the front of the input. The bytes that a
copy writes are all in the input, at their places or as far before its end as those are before its
front. -/
theorem decode_copies_foundAt (format : Format) (data : Bytes) (offset : Nat) (fill : UInt8)
    : let run := format.run data offset
      (∀ error, format.decode data offset fill.toNat = .error error →
        error.isForeseen = true ∨
        error = .fault .sourceOutside ∧
          ∃ index rule,
            run.ending = .failed index rule .sourceOutside ∧
            rule.CopiesOutside data run.cursor.position) ∧
      ∀ firing ∈ run.fired, ∀ count relative, firing.rule.action = .copy count relative →
        ∃ n r step bytes,
          count.eval (data.lookahead firing.cursor.position) = .ok n ∧
          relative.eval (data.lookahead firing.cursor.position) = .ok r ∧
          firing.effect = .paint ⟨firing.cursor.address, step, bytes⟩ (bytes.length < n.toNat) ∧
          bytes.length = min n.toNat (data.size - (firing.cursor.position + r)).toNat ∧
          ∀ j < bytes.length,
            ∃ k, data.FoundAt (firing.cursor.position + j + r) k ∧ bytes[j]? = data[k]? := by
  intro run
  constructor
  . intro error herror
    rw [format.decode_eq_outcome data (by omega)] at herror
    unfold outcome at herror
    split at herror
    . simp at herror
    . rw [← Except.error.inj herror]
      exact .inl rfl
    . next index rule fault hending =>
      rw [← Except.error.inj herror]
      cases fault with
      | expr error => exact .inl rfl
      | noProgress pattern position size => exact .inl rfl
      | sourceOutside =>
        have hfails := Run.failsAt format.rules data offset hending
        exact .inr ⟨rfl, index, rule, hending, Rule.copiesOutside_of_fire hfails.fire⟩
  . intro firing hmem count relative haction
    have hof := Run.of_mem_fired format.rules data offset firing hmem
    apply hof.exists_of_copy haction

/-- A byte before the front of the input is taken from its end, and one before that fails the
decode in a way that is not foreseen. -/
theorem lookBack_not_in_input
    : (∃ firing,
        ((lookBack 1).run #[0x41, 0x42] (0 : Nat)).fired.head? = some firing ∧
        firing.rule.action = .copy 1 (0 - 1) ∧
        firing.cursor.position = 0 ∧
        firing.effect = .paint ⟨0x2000, 1, [0x42]⟩ false) ∧
      ∃ error,
        (lookBack 2).decode #[0x41] (0 : Nat) (0x00 : UInt8).toNat = .error error ∧
        error.isForeseen = false := by
  constructor
  . refine ⟨⟨0, .lookBack 1, Run.start 0, 1, .paint ⟨0x2000, 1, [0x42]⟩ false⟩, ?_, rfl, rfl, rfl⟩
    decide +kernel
  . refine ⟨.fault .sourceOutside, ?_, rfl⟩
    have hending : ((lookBack 2).run #[0x41] (0 : Nat)).ending
        = .failed 0 (.lookBack 2) .sourceOutside := by
      decide +kernel
    rw [(lookBack 2).decode_eq_outcome #[0x41] (by decide)]
    rw [outcome, hending]

theorem lookBack_copies_foundAt
    : ∃ firing ∈ ((lookBack 1).run #[0x41, 0x42] (0 : Nat)).fired,
        ∃ step bytes k,
          firing.effect = .paint ⟨firing.cursor.address, step, bytes⟩ false ∧
          Bytes.FoundAt #[0x41, 0x42] (-1) k ∧
          bytes[0]? = (#[0x41, 0x42] : Bytes)[k]? := by
  have hfired : ⟨0, .lookBack 1, Run.start 0, 1, .paint ⟨0x2000, 1, [0x42]⟩ false⟩
      ∈ ((lookBack 1).run #[0x41, 0x42] (0 : Nat)).fired := by
    decide +kernel
  obtain ⟨n, r, step, bytes, hcount, hrelative, heffect, hlength, hbytes⟩ :=
    (decode_copies_foundAt (lookBack 1) #[0x41, 0x42] 0 0x00).2 _ hfired 1 (0 - 1) rfl
  have hn : n = 1 := (Except.ok.inj hcount).symm
  have hr : r = -1 := (Except.ok.inj hrelative).symm
  subst hn hr
  obtain ⟨k, hfound, hbyte⟩ := hbytes 0 (by rw [hlength]; decide)
  refine ⟨_, hfired, step, bytes, k, ?_, hfound, hbyte⟩
  rw [heffect, hlength]
  rfl

end Format

end PpuCodec
