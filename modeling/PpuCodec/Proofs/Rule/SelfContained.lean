import PpuCodec.Proofs.Rule.Checked

/-!
Rules that get by with the bytes that they use up. When such a rule applies it does not fail, it
does not look behind the bytes it uses up, and it copies none but these. So it does the same on
every input that begins with them.
-/

namespace PpuCodec.Rule

/-- The operands have values, and a copy is made from the first `size` bytes. -/
def Action.Spends (look : Lookahead) (size : Int) : Action → Prop
  | .seek address => ∃ target, address.eval look = .ok target
  | .fill value count => ∃ v n, value.eval look = .ok v ∧ count.eval look = .ok n
  | .copy count relative => ∃ n r, count.eval look = .ok n ∧ relative.eval look = .ok r ∧
      0 ≤ r ∧ r + n.toNat ≤ size
  | .stop => True

/-- On this input the rule uses up `size` bytes, and needs no others. -/
structure Spends (rule : Rule) (look : Lookahead) (size : Int) : Prop where
  value : rule.size.value look = .ok size
  size_nonneg : 0 ≤ size
  moves : 0 < size ∨ rule.mayStay = true
  slots : ∀ i : Fin 3, (rule.slots.get i).isSome = true → (i.val : Int) < size
  step : ∃ step, rule.step.value look = .ok step
  action : rule.action.Spends look size

structure SelfContained (rule : Rule) : Prop where
  checked : rule.Checked
  spends : ∀ {rest : List UInt8} {atStart : Bool},
    rule.accepts (Bytes.lookaheadOf rest) atStart = true →
      ∃ size, rule.Spends (Bytes.lookaheadOf rest) size

section

variable {rule rule' : Rule} {data data' : Bytes} {cursor cursor' : Cursor}
variable {rest rest' : List UInt8}

/-- A copy from in front of the cursor takes what is there, and is cut if that is too little. -/
theorem effect_copy_of_reads {count relative : Expr} {n r : Int} (step : Int)
    (haction : rule.action = .copy count relative) (hreads : data.ReadsAt cursor.position rest)
    (hcount : count.eval (Bytes.lookaheadOf rest) = .ok n)
    (hrelative : relative.eval (Bytes.lookaheadOf rest) = .ok r) (hr : 0 ≤ r)
    : let bytes := (rest.drop r.toNat).take n.toNat
      rule.effect data cursor step
        =
      .ok (.paint ⟨cursor.address, step, bytes⟩ (bytes.length < n.toNat)) := by
  intro bytes
  have hsource := hreads.readFrom?_eq r.toNat n.toNat
  rw [Int.toNat_of_nonneg hr] at hsource
  unfold effect
  rw [haction, hreads.lookahead_eq]
  dsimp only
  rw [hcount, hrelative]
  simp only [mapError_ok, bind, Except.bind, hsource]
  rfl

theorem exists_effect_eq_ok {size : Int} (step : Int) (hreads : data.ReadsAt cursor.position rest)
    (haction : rule.action.Spends (Bytes.lookaheadOf rest) size)
    : ∃ effect, rule.effect data cursor step = .ok effect := by
  have hlook := hreads.lookahead_eq
  cases hrule : rule.action with
  | seek address =>
    rw [hrule] at haction
    obtain ⟨target, htarget⟩ := haction
    exact ⟨_, effect_seek hrule hlook htarget⟩
  | fill value count =>
    rw [hrule] at haction
    obtain ⟨v, n, hvalue, hcount⟩ := haction
    exact ⟨_, effect_fill hrule hlook hvalue hcount⟩
  | copy count relative =>
    rw [hrule] at haction
    obtain ⟨n, r, hcount, hrelative, hr, -⟩ := haction
    exact ⟨_, effect_copy_of_reads step hrule hreads hcount hrelative hr⟩
  | stop => exact ⟨.stop, effect_of_stop (by simp [kind, hrule, Action.kind]) data cursor step⟩

theorem take_drop_congr {skip count size : Nat} (h : rest.take size = rest'.take size)
    (hle : skip + count ≤ size)
    : (rest.drop skip).take count = (rest'.drop skip).take count := by
  have htake : rest.take (skip + count) = rest'.take (skip + count) := by
    have := congrArg (List.take (skip + count)) h
    simpa [List.take_take, Nat.min_eq_left hle] using this
  rw [List.take_drop, List.take_drop]
  rw [htake]

/-- What a copy takes is the same from both inputs. -/
def Action.SourceAlike (look : Lookahead) (rest rest' : List UInt8) : Action → Prop
  | .copy count relative => ∃ n r, count.eval look = .ok n ∧ relative.eval look = .ok r ∧
      0 ≤ r ∧ (rest.drop r.toNat).take n.toNat = (rest'.drop r.toNat).take n.toNat
  | _ => True

theorem Action.Spends.sourceAlike {look : Lookahead} {action : Action} {size : Int}
    (h : action.Spends look size) (htake : rest.take size.toNat = rest'.take size.toNat)
    : action.SourceAlike look rest rest' := by
  cases action with
  | seek address => trivial
  | fill value count => trivial
  | copy count relative =>
    obtain ⟨n, r, hcount, hrelative, hr, hle⟩ := h
    exact ⟨n, r, hcount, hrelative, hr, take_drop_congr htake (by omega)⟩
  | stop => trivial

theorem effect_congr {step : Int} (hreads : data.ReadsAt cursor.position rest)
    (hreads' : data'.ReadsAt cursor'.position rest') (haddress : cursor'.address = cursor.address)
    (haction : rule'.action = rule.action) (hchecked : rule.Checked) (halike : rule.Alike rest rest')
    (hsource : rule.action.SourceAlike (Bytes.lookaheadOf rest) rest rest')
    : rule'.effect data' cursor' step = rule.effect data cursor step := by
  unfold effect
  rw [hreads.lookahead_eq, hreads'.lookahead_eq, haddress, haction]
  have heval := fun {e : Expr} => halike.eval_eq hchecked (e := e)
  cases hrule : rule.action with
  | seek address =>
    dsimp only
    rw [heval]
    simp [hrule, Action.mentions]
  | fill value count =>
    dsimp only
    rw [heval (e := value), heval (e := count)]
    . simp +contextual [hrule, Action.mentions]
    . simp +contextual [hrule, Action.mentions]
  | copy count relative =>
    rw [hrule] at hsource
    obtain ⟨n, r, hcount, hrelative, hr, hbytes⟩ := hsource
    have hcount' := hcount
    have hrelative' := hrelative
    rw [heval (by simp +contextual [hrule, Action.mentions])] at hcount' hrelative'
    dsimp only
    rw [hcount, hcount', hrelative, hrelative']
    simp only [mapError_ok, bind, Except.bind]
    have hread : data'.readFrom? (cursor'.position + r) n.toNat
        = data.readFrom? (cursor.position + r) n.toNat := by
      rw [← Int.toNat_of_nonneg hr]
      rw [hreads.readFrom?_eq, hreads'.readFrom?_eq]
      rw [hbytes]
    rw [hread]
  | stop => rfl

/-- Rules that differ at most in where they apply, and in what is noted of them. -/
structure Twins (rule rule' : Rule) : Prop where
  action : rule'.action = rule.action
  size : rule'.size = rule.size
  step : rule'.step = rule.step
  startOnly : rule'.startOnly = rule.startOnly

theorem Twins.refl (rule : Rule) : rule.Twins rule := by
  constructor
  all_goals rfl

theorem Twins.mayStay_eq (h : rule.Twins rule') : rule'.mayStay = rule.mayStay := by
  unfold mayStay kind
  rw [h.action, h.startOnly]

theorem fire_congr {index : Nat} {firing : Firing} (hfire : rule.fire index data cursor = .ok firing)
    (hreads : data.ReadsAt cursor.position rest) (hreads' : data'.ReadsAt cursor'.position rest')
    (haddress : cursor'.address = cursor.address) (htwins : rule.Twins rule')
    (hchecked : rule.Checked) (halike : rule.Alike rest rest')
    (hsource : rule.action.SourceAlike (Bytes.lookaheadOf rest) rest rest') (index' : Nat)
    : rule'.fire index' data' cursor'
        =
      .ok ⟨index', rule', cursor', firing.size, firing.effect⟩ := by
  obtain ⟨size, step, effect, hsize, hmoves, hstep, heffect, heq⟩ := exists_of_fire_eq_ok hfire
  rw [hreads.lookahead_eq, halike.size_eq hchecked, ← htwins.size] at hsize
  rw [hreads.lookahead_eq, halike.step_eq hchecked, ← htwins.step] at hstep
  rw [← htwins.mayStay_eq] at hmoves
  rw [← effect_congr hreads hreads' haddress htwins.action hchecked halike hsource] at heffect
  rw [heq]
  exact fire_eq index' hreads'.lookahead_eq hsize hmoves hstep heffect

namespace SelfContained

theorem exists_fire (h : rule.SelfContained) (index : Nat) {atStart : Bool}
    (hreads : data.ReadsAt cursor.position rest)
    (haccepts : rule.accepts (Bytes.lookaheadOf rest) atStart = true)
    : ∃ firing, rule.fire index data cursor = .ok firing ∧
        rule.Spends (Bytes.lookaheadOf rest) firing.size := by
  obtain ⟨size, hspends⟩ := h.spends haccepts
  obtain ⟨step, hstep⟩ := hspends.step
  obtain ⟨effect, heffect⟩ := exists_effect_eq_ok step hreads hspends.action
  refine ⟨⟨index, rule, cursor, size, effect⟩, ?_, hspends⟩
  exact fire_eq index hreads.lookahead_eq hspends.value hspends.moves hstep heffect

theorem spends_of_fire (h : rule.SelfContained) {index : Nat} {atStart : Bool} {firing : Firing}
    (hreads : data.ReadsAt cursor.position rest)
    (haccepts : rule.accepts (Bytes.lookaheadOf rest) atStart = true)
    (hfire : rule.fire index data cursor = .ok firing)
    : rule.Spends (Bytes.lookaheadOf rest) firing.size := by
  obtain ⟨other, hother, hspends⟩ := h.exists_fire index hreads haccepts
  rw [hfire] at hother
  rw [Except.ok.inj hother]
  exact hspends

/-- Another input that begins with the bytes that are used up is used in the same way. -/
theorem fire_of_take_eq (h : rule.SelfContained) {index : Nat} {atStart : Bool} {firing : Firing}
    (hreads : data.ReadsAt cursor.position rest) (hreads' : data'.ReadsAt cursor'.position rest')
    (haddress : cursor'.address = cursor.address)
    (haccepts : rule.accepts (Bytes.lookaheadOf rest) atStart = true)
    (hfire : rule.fire index data cursor = .ok firing)
    (htake : rest.take firing.size.toNat = rest'.take firing.size.toNat)
    : rule.accepts (Bytes.lookaheadOf rest') atStart = true ∧
      rule.fire index data' cursor' = .ok ⟨index, rule, cursor', firing.size, firing.effect⟩ := by
  have hspends := h.spends_of_fire hreads haccepts hfire
  have halike : rule.Alike rest rest' := by
    apply Alike.of_take_eq _ htake
    intro i hi
    have := hspends.slots i hi
    omega
  constructor
  . rw [← halike.accepts_eq]
    exact haccepts
  . exact fire_congr hfire hreads hreads' haddress (.refl rule) h.checked halike
      (hspends.action.sourceAlike htake) index

end SelfContained

end

end PpuCodec.Rule
