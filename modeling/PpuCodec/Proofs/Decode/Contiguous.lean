import PpuCodec.Proofs.Decode.Progress

/-!
Runs that write one block. If each rule writes on where the one before it stopped, one cell after
the other, then a run lays a single row of bytes over the memory. What the row leaves free stays as
it was, and its bytes past the end of the memory are the writes that are dropped.
-/

namespace PpuCodec

namespace Image

theorem cells_overlay_of_lt (image : Image) {address x : Nat} (hx : x < 0x4000) (h : x < address)
    (bytes : List UInt8)
    : (image.overlay address bytes).cells[x] = image.cells[x] := by
  have : ¬ address ≤ x := by omega
  simp [overlay, this]

theorem cells_overlay_of_le (image : Image) {address x : Nat} {bytes : List UInt8}
    (hx : x < 0x4000) (h : address + bytes.length ≤ x)
    : (image.overlay address bytes).cells[x] = image.cells[x] := by
  have : bytes.length ≤ x - address := by omega
  simp [overlay, this]

theorem cells_blank_of_lt (fill : UInt8) {x : Nat} (hx : x < 0x4000) (h : x < 0x2000)
    : (blank fill).cells[x] = 0 := by
  have : ¬ 0x2000 ≤ x := by omega
  simp [blank, isTileCell, this]

end Image

/-- Of a row of cells that begins inside the memory, those that are outside come behind its end. -/
theorem Stroke.missed_one {address : Nat} (h : address ≤ 0x4000) (bytes : List UInt8)
    : missed ⟨address, 1, bytes⟩
        =
      (List.range (bytes.length - (0x4000 - address))).map fun (i : Nat) => (0x4000 + i : Int) := by
  simp only [missed, addresses, Int.mul_one]
  generalize bytes.length = count
  induction count with
  | zero => simp
  | succ count ih =>
    rw [List.range_succ, List.map_append, List.filter_append, ih]
    by_cases hin : address + count < 0x4000
    . have hholds : Image.holds ((address : Int) + count) = true := by
        simp only [Image.holds, Bool.and_eq_true, decide_eq_true_eq]
        omega
      have hnone : count + 1 - (0x4000 - address) = count - (0x4000 - address) := by omega
      simp [hholds, hnone]
    . have hholds : Image.holds ((address : Int) + count) = false := by
        simp only [Image.holds, Bool.and_eq_false_iff, decide_eq_false_iff_not]
        omega
      have hone : count + 1 - (0x4000 - address) = count - (0x4000 - address) + 1 := by omega
      have hlast : (address : Int) + count = 0x4000 + (count - (0x4000 - address) : Nat) := by
        omega
      rw [hlast] at hholds
      rw [hone, List.range_succ, List.map_append]
      simp [hlast, hholds]

theorem Pen.dropped_write (pen : Pen) (step : Int) (bytes : List UInt8)
    : (pen.write step bytes).dropped = pen.dropped ++ Stroke.missed ⟨pen.address, step, bytes⟩ := by
  rw [← pen.follow_paint step bytes false]
  rfl

/-- The rule writes cell after cell. It moves the pen at most at the start of a decode, and then to
where it is. -/
def Rule.writesOn (rule : Rule) : Bool :=
  rule.step.parts == [1] &&
    match rule.action with
    | .seek address => rule.startOnly && address == 0x2000
    | _ => true

/-- The effect of the firing is to write bytes one after the other. -/
def Firing.WritesOn (firing : Firing) : Prop :=
  ∀ pen : Pen, pen.address = firing.cursor.address →
    ∃ bytes, pen.follow firing.effect = pen.write 1 bytes

theorem Rule.effect_eq_seek {rule : Rule} {data : Bytes} {cursor : Cursor} {step : Int}
    {address : Expr} {done : Effect} (haction : rule.action = .seek address)
    (h : rule.effect data cursor step = .ok done)
    : ∃ target,
        address.eval (data.lookahead cursor.position) = .ok target ∧
        done = .seek target := by
  unfold effect at h
  rw [haction] at h
  obtain ⟨target, htarget, h⟩ := exists_of_mapError_bind_eq_ok h
  exact ⟨target, htarget, (Except.ok.inj h).symm⟩

theorem Firing.Of.writesOn {data : Bytes} {rules : List Rule} {firing : Firing}
    (h : firing.Of data rules) (hrule : firing.rule.writesOn = true)
    (hstart : firing.cursor.atStart = true → firing.cursor.address = 0x2000)
    : firing.WritesOn := by
  obtain ⟨size, step, effect, -, -, hstep, heffect, heq⟩ := Rule.exists_of_fire_eq_ok h.fire
  simp only [Rule.writesOn, Bool.and_eq_true, beq_iff_eq] at hrule
  obtain ⟨hparts, haction⟩ := hrule
  have hone : step = 1 := by
    simp only [Template.value, hparts] at hstep
    exact (Except.ok.inj hstep).symm
  subst hone
  have hdone : firing.effect = effect := by rw [heq]
  intro pen hpen
  rw [hdone]
  cases hkind : firing.rule.action with
  | seek address =>
    simp only [hkind, Bool.and_eq_true, beq_iff_eq] at haction
    obtain ⟨target, htarget, hseek⟩ := Rule.effect_eq_seek hkind heffect
    rw [haction.2] at htarget
    have haccepts := h.accepts
    simp only [Rule.accepts, haction.1, Bool.and_eq_true, Bool.not_true, Bool.false_or] at haccepts
    have haddress : pen.address = target := by
      rw [hpen, hstart haccepts.1]
      exact Except.ok.inj htarget
    refine ⟨[], ?_⟩
    rw [hseek, Pen.follow_seek, ← haddress]
    rfl
  | fill value count =>
    obtain ⟨v, n, -, -, hpaint⟩ := Rule.exists_of_effect_fill hkind heffect
    rw [hpaint, ← hpen, Pen.follow_paint]
    exact ⟨_, rfl⟩
  | copy count relative =>
    obtain ⟨n, r, bytes, -, -, -, hpaint⟩ := Rule.exists_of_effect_copy hkind heffect
    rw [hpaint, ← hpen, Pen.follow_paint]
    exact ⟨_, rfl⟩
  | stop =>
    have hstop : firing.rule.kind = .stop := by simp [Rule.kind, hkind, Rule.Action.kind]
    rw [Rule.effect_of_stop hstop] at heffect
    rw [← Except.ok.inj heffect]
    refine ⟨[], ?_⟩
    simp [Pen.follow, Pen.write, Effect.apply, Effect.addressAfter, Effect.missed]

/-- The rows of the firings join to one. -/
theorem Linked.exists_write {cursor last : Cursor} {fired : List Firing}
    (h : Linked cursor fired last) (hfired : ∀ firing ∈ fired, firing.WritesOn) (pen : Pen)
    (hpen : pen.address = cursor.address)
    : ∃ bytes,
        fired.foldl (fun pen firing => pen.follow firing.effect) pen = pen.write 1 bytes ∧
        last.address = (pen.write 1 bytes).address := by
  induction fired generalizing cursor pen with
  | nil =>
    refine ⟨[], rfl, ?_⟩
    rw [← h]
    exact hpen.symm
  | cons firing fired ih =>
    obtain ⟨hcursor, hrest⟩ := h
    rw [List.forall_mem_cons] at hfired
    rw [← hcursor] at hpen
    obtain ⟨bytes, hbytes⟩ := hfired.1 pen hpen
    have hnext : (pen.follow firing.effect).address = firing.next.address := by
      simp only [Pen.follow, Firing.next, hpen]
    obtain ⟨more, hmore, hlast⟩ := ih hrest hfired.2 (pen.follow firing.effect) hnext
    rw [hbytes, ← Pen.write_append] at hmore hlast
    refine ⟨bytes ++ more, ?_, hlast⟩
    rw [List.foldl_cons, hbytes]
    exact hmore

namespace Run

variable {rules : List Rule}

/-- Only the first of the firings can stand at the start, and there nothing has moved the pen. -/
theorem address_of_atStart {data : Bytes} {offset : Int} {firing : Firing}
    (hmem : firing ∈ (ofRules rules data offset).fired) (hstart : firing.cursor.atStart = true)
    : firing.cursor.address = 0x2000 := by
  have hlinked := linked rules data offset
  generalize (ofRules rules data offset).fired = fired at hmem hlinked
  cases fired with
  | nil => simp at hmem
  | cons first fired =>
    cases List.mem_cons.mp hmem with
    | inl heq =>
      rw [heq, hlinked.1]
      rfl
    | inr hlater => simp [hlinked.atStart_tail firing hlater] at hstart

/-- The bytes that the run has written are one block from the default address on. -/
theorem exists_block (hrules : ∀ rule ∈ rules, rule.writesOn = true) (data : Bytes) (offset : Int)
    (fill : UInt8)
    : let run := ofRules rules data offset
      ∃ block : List UInt8,
        run.image fill = (Image.blank fill).overlay 0x2000 block ∧
        run.cursor.address = 0x2000 + block.length ∧
        run.missed
          = (List.range (block.length - 0x2000)).map fun (i : Nat) => (0x4000 + i : Int) := by
  intro run
  have hlinked : Linked (start offset) run.fired run.cursor := linked rules data offset
  have hfired : ∀ firing ∈ run.fired, firing.WritesOn := by
    intro firing hmem
    have hof := of_mem_fired rules data offset firing hmem
    apply hof.writesOn (hrules _ (List.mem_of_getElem? hof.getElem?))
    exact address_of_atStart hmem
  obtain ⟨block, hblock, haddress⟩ := hlinked.exists_write hfired (.fresh fill) rfl
  refine ⟨block, ?_, ?_, ?_⟩
  . have himage := Pen.image_foldl_follow run.fired (.fresh fill)
    rw [hblock, Pen.image_write_one (.fresh fill) 0x2000 rfl] at himage
    exact himage.symm
  . rw [haddress, Pen.address_write, Int.mul_one]
    rfl
  . have hdropped := Pen.dropped_foldl_follow run.fired (.fresh fill)
    rw [hblock, Pen.dropped_write] at hdropped
    have hmissed : run.missed = Stroke.missed ⟨(0x2000 : Nat), 1, block⟩ := hdropped.symm
    rw [hmissed, Stroke.missed_one (by decide)]

end Run

end PpuCodec
