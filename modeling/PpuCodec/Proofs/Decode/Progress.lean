import PpuCodec.Proofs.Decode.CopySource
import PpuCodec.Proofs.Decode.Records
import PpuCodec.Proofs.Decode.Succession

/-!
How a run stands after each of its firings, and what the next one makes of that. A rule that fills or
copies writes to cells that are `step` apart, forwards, backwards or all to one. The last write to a
cell stays, and writes outside of the memory are counted.
-/

namespace PpuCodec

namespace Stroke

theorem length_missed (address step : Int) (bytes : List UInt8)
    : (missed ⟨address, step, bytes⟩).length
        =
      (List.range bytes.length).countP fun (i : Nat) => !Image.holds (address + i * step) := by
  rw [missed, addresses, ← List.countP_eq_length_filter, List.countP_map]
  rfl

end Stroke

namespace Image

variable {address step : Int} {bytes : List UInt8} {x : Nat} (hx : x < 0x4000)

theorem cells_paintFrom_of_ne (image : Image)
    (hne : ∀ i < bytes.length, address + i * step ≠ x)
    : (image.paintFrom address step bytes).cells[x] = image.cells[x] := by
  induction bytes generalizing image address with
  | nil => rfl
  | cons b bytes ih =>
    rw [paintFrom, ih, cells_write, if_neg]
    . simpa using hne 0
    . intro i hi
      rw [← Stroke.place_succ]
      exact hne (i + 1) (by simpa using hi)

/-- No write to the cell comes after the one that stays. -/
theorem cells_paintFrom_of_last (image : Image) {i : Nat} (hi : i < bytes.length)
    (hplace : address + i * step = x)
    (hlast : ∀ j, i < j → j < bytes.length → address + j * step ≠ x)
    : bytes[i]? = some (image.paintFrom address step bytes).cells[x] := by
  induction bytes generalizing image address i with
  | nil => simp at hi
  | cons b bytes ih =>
    have hrest : ∀ j, i < j + 1 → j < bytes.length → address + step + j * step ≠ x := by
      intro j hij hj
      rw [← Stroke.place_succ]
      exact hlast (j + 1) hij (by simpa using hj)
    rw [paintFrom]
    cases i with
    | zero =>
      rw [cells_paintFrom_of_ne hx]
      . rw [cells_write, if_pos (by simpa using hplace)]
        rfl
      . intro j hj
        exact hrest j (by omega) hj
    | succ i =>
      rw [Stroke.place_succ] at hplace
      rw [List.getElem?_cons_succ]
      apply ih _ (by simpa using hi) hplace
      intro j hij hj
      exact hrest j (by omega) hj

end Image

namespace Linked

variable {cursor last : Cursor} {before after fired : List Firing} {firing : Firing}

theorem foldl_next (h : Linked cursor fired last)
    : fired.foldl (fun _ firing => firing.next) cursor = last := by
  induction fired generalizing cursor with
  | nil => exact h
  | cons firing fired ih => exact ih h.2

theorem left (h : Linked cursor (before ++ firing :: after) last)
    : Linked cursor before firing.cursor := by
  induction before generalizing cursor with
  | nil => exact h.1.symm
  | cons first before ih => exact ⟨h.1, ih h.2⟩

end Linked

namespace Run

/-- The run as it stands after the first `count` of its firings. -/
def upTo (run : Run) (offset : Int) (count : Nat) : Run where
  passes := [run.fired.take count]
  cursor := (run.fired.take count).foldl (fun _ firing => firing.next) (start offset)
  ending := .complete

/-- What a run has come to, `count` writes later. Each of them goes `step` cells further than the one
before, and `byte?` are the bytes. -/
structure Writes (past present : Run) (step : Int) (count : Nat) (byte? : Nat → Option UInt8)
    : Prop where
  address : present.cursor.address = past.cursor.address + count * step
  size : ∀ fill, (present.image fill).toBytes.size = 0x4000
  last : ∀ fill, ∀ (x : Nat) (hx : x < 0x4000), ∀ i < count,
    past.cursor.address + i * step = x →
      (∀ j, i < j → j < count → past.cursor.address + j * step ≠ x) →
        byte? i = some (present.image fill).cells[x]
  others : ∀ fill, ∀ (x : Nat) (hx : x < 0x4000),
    (∀ i < count, past.cursor.address + i * step ≠ x) →
      (present.image fill).cells[x] = (past.image fill).cells[x]
  skipped : ∀ (tally : Tally) (offset : Int),
    (tally.observe offset present).skippedWrites
      = (tally.observe offset past).skippedWrites
        + (List.range count).countP fun (i : Nat) => !Image.holds (past.cursor.address + i * step)

/-- The firing at `index` is the last one and completes the run if it has `finished` it. If not, the
run does not end there unless the input is used up or a rule is missing or fails. -/
structure EndsBy (run : Run) (data : Bytes) (index : Nat) (finished : Prop) : Prop where
  ends : finished → run.fired.length = index + 1 ∧ run.ending = .complete
  goesOn : ¬ finished → run.fired.length = index + 1 → run.ending = .complete →
    data.size ≤ run.cursor.position

section

variable {run : Run} {offset : Int} {index : Nat} {firing : Firing}

theorem fired_upTo : (run.upTo offset index).fired = run.fired.take index := by
  simp [upTo, fired]

theorem fired_upTo_succ (h : run.fired[index]? = some firing)
    : (run.upTo offset (index + 1)).fired = (run.upTo offset index).fired ++ [firing] := by
  rw [fired_upTo, fired_upTo, List.take_add_one, h]
  rfl

theorem fired_eq_of_getElem? (h : run.fired[index]? = some firing)
    : run.fired = run.fired.take index ++ firing :: run.fired.drop (index + 1) := by
  obtain ⟨hlt, heq⟩ := List.getElem?_eq_some_iff.mp h
  rw [← heq, List.getElem_cons_drop, List.take_append_drop]

theorem cursor_upTo_succ (h : run.fired[index]? = some firing)
    : (run.upTo offset (index + 1)).cursor = firing.next := by
  rw [upTo, List.take_add_one, h]
  simp

end

section

variable {past present : Run} {firing : Firing}

theorem truncatedCopy_observe_paint {stroke : Stroke} {cut : Bool}
    (hfired : present.fired = past.fired ++ [firing]) (heffect : firing.effect = .paint stroke cut)
    (tally : Tally) (offset : Int)
    : (tally.observe offset present).truncatedCopy
        =
      if cut then some firing.cursor.position else (tally.observe offset past).truncatedCopy := by
  simp only [Tally.observe, truncatedCopies, hfired, List.filterMap_append, List.filterMap_cons,
    heffect, List.filterMap_nil]
  cases cut with
  | true => simp
  | false => simp

theorem writes_of_paint {step : Int} {bytes : List UInt8} {cut : Bool}
    {byte? : Nat → Option UInt8} (hfired : present.fired = past.fired ++ [firing])
    (hpast : past.cursor = firing.cursor) (hpresent : present.cursor = firing.next)
    (heffect : firing.effect = .paint ⟨firing.cursor.address, step, bytes⟩ cut)
    (hbytes : ∀ i < bytes.length, byte? i = bytes[i]?)
    : past.Writes present step bytes.length byte? := by
  have himage : ∀ fill, present.image fill
      = (past.image fill).paintFrom past.cursor.address step bytes := by
    intro fill
    rw [image, hfired, List.foldl_append, hpast]
    simp only [List.foldl_cons, List.foldl_nil, heffect, Effect.apply]
    rfl
  constructor
  . rw [hpresent, hpast, Firing.next, heffect]
    rfl
  . intro fill
    exact (present.image fill).cells.size_toArray
  . intro fill x hx i hi hplace hlast
    rw [hbytes i hi, himage]
    exact Image.cells_paintFrom_of_last hx (past.image fill) hi hplace hlast
  . intro fill x hx hne
    rw [himage]
    exact Image.cells_paintFrom_of_ne hx (past.image fill) hne
  . intro tally offset
    have hmissed : present.missed = past.missed ++ firing.effect.missed := by
      simp [missed, hfired]
    simp only [Tally.observe, hmissed, List.length_append, heffect, Effect.missed, hpast,
      Stroke.length_missed, Nat.add_assoc]

end

section

variable {rules : List Rule} {data : Bytes} {offset : Int} {index : Nat} {firing : Firing}

theorem cursor_upTo (h : (ofRules rules data offset).fired[index]? = some firing)
    : ((ofRules rules data offset).upTo offset index).cursor = firing.cursor := by
  have hlinked := linked rules data offset
  rw [fired_eq_of_getElem? h] at hlinked
  exact hlinked.left.foldl_next

theorem cursor_upTo_length
    : ((ofRules rules data offset).upTo offset (ofRules rules data offset).fired.length).cursor
        =
      (ofRules rules data offset).cursor := by
  rw [upTo, List.take_length]
  exact (linked rules data offset).foldl_next

theorem complete_of_finishes (hmem : firing ∈ (ofRules rules data offset).fired)
    (hfinishes : firing.effect.finishes = true)
    : (ofRules rules data offset).ending = .complete := by
  obtain ⟨passes, last, final, hpasses, hfinal, hrun⟩ := exists_passes rules data offset
  rw [hrun] at hmem ⊢
  simp only [fired, after, List.flatten_append] at hmem ⊢
  cases List.mem_append.mp hmem with
  | inl hbefore => simp [hpasses.finishes_of_mem_fired firing hbefore] at hfinishes
  | inr hlast =>
    cases hfinal with
    | exhausted _ => rfl
    | ended _ hpass =>
      have hfired := by simpa using hlast
      exact Option.some.inj ((Pass.scan_of_eq hpass).ending_of_finishes hfired hfinishes)
    | stuck _ _ => simp at hlast

theorem length_fired_of_finishes (h : (ofRules rules data offset).fired[index]? = some firing)
    (hfinishes : firing.effect.finishes = true)
    : (ofRules rules data offset).fired.length = index + 1 := by
  have hlt := (List.getElem?_eq_some_iff.mp h).1
  have hafter := (follows (fired_eq_of_getElem? h)).2 hfinishes
  rw [List.drop_eq_nil_iff] at hafter
  omega

theorem endsBy_finishes (h : (ofRules rules data offset).fired[index]? = some firing)
    : (ofRules rules data offset).EndsBy data index (firing.effect.finishes = true) := by
  constructor
  . intro hfinishes
    constructor
    . exact length_fired_of_finishes h hfinishes
    . exact complete_of_finishes (List.mem_of_getElem? h) hfinishes
  . intro hopen hlength hending
    apply size_le_of_forall_open hending
    intro other hmem
    obtain ⟨i, hi⟩ := List.mem_iff_getElem?.mp hmem
    cases hother : other.effect.finishes with
    | false => rfl
    | true =>
      -- Only the last of the firings can finish the run, and that one has not.
      have := length_fired_of_finishes hi hother
      have heq : i = index := by omega
      rw [heq, h] at hi
      rw [Option.some.inj hi] at hopen
      exact absurd hother hopen

end

end Run

theorem Rule.exists_of_effect_fill {rule : Rule} {data : Bytes} {cursor : Cursor} {step : Int}
    {value count : Expr} {done : Effect} (haction : rule.action = .fill value count)
    (h : rule.effect data cursor step = .ok done)
    : ∃ v n,
        value.eval (data.lookahead cursor.position) = .ok v ∧
        count.eval (data.lookahead cursor.position) = .ok n ∧
        done = .paint ⟨cursor.address, step, List.replicate n.toNat (UInt8.ofInt v)⟩ false := by
  unfold effect at h
  rw [haction] at h
  obtain ⟨v, hvalue, h⟩ := exists_of_mapError_bind_eq_ok h
  obtain ⟨n, hcount, h⟩ := exists_of_mapError_bind_eq_ok h
  exact ⟨v, n, hvalue, hcount, (Except.ok.inj h).symm⟩

theorem Bytes.byte?_of_readFrom? {data : Bytes} {start : Int} {count : Nat}
    {bytes : List UInt8} (h : data.readFrom? start count = some bytes) (hstart : 0 ≤ start)
    {i : Nat} (hi : i < bytes.length)
    : data.byte? (start + i) = bytes[i]? := by
  obtain ⟨k, hfound, hbyte⟩ := foundAt_of_readFrom? h hi
  have hplace : start + i = (k : Int) := by
    have := hfound.place_eq
    omega
  rw [hbyte, hplace, byte?, if_pos (by omega), Int.toNat_natCast]

namespace Format

/-- A fill writes as often as it says, and a copy as often as there are bytes for it. Each write moves
the address by the step, also where it is skipped. A copy that finds too few bytes finishes the run.
The last of the states is the one that the decode returns and that its tally shows. -/
theorem run_writes (format : Format) (data : Bytes) (offset : Nat)
    : let run := format.run data offset
      let final := run.upTo offset run.fired.length
      (final.cursor = run.cursor ∧
        ∀ (tally : Tally) (fill : UInt8),
          let (_, shown) := format.decodeWith tally data offset fill.toNat
          final.image fill = run.image fill ∧
          (tally.observe offset final).skippedWrites = shown.skippedWrites ∧
          (tally.observe offset final).truncatedCopy = shown.truncatedCopy) ∧
      ∀ index firing, run.fired[index]? = some firing →
        let look := data.lookahead firing.cursor.position
        let past := run.upTo offset index
        let present := run.upTo offset (index + 1)
        past.cursor = firing.cursor ∧
        present.cursor = firing.next ∧
        (∀ value count, firing.rule.action = .fill value count →
          ∃ v n step,
            value.eval look = .ok v ∧
            count.eval look = .ok n ∧
            firing.rule.step.value look = .ok step ∧
            past.Writes present step n.toNat (fun _ => some (UInt8.ofInt v)) ∧
            (∀ tally : Tally, (tally.observe offset present).truncatedCopy
              = (tally.observe offset past).truncatedCopy) ∧
            run.EndsBy data index False) ∧
        ∀ count relative, firing.rule.action = .copy count relative →
          ∃ n r step,
            count.eval look = .ok n ∧
            relative.eval look = .ok r ∧
            firing.rule.step.value look = .ok step ∧
            (0 ≤ firing.cursor.position + r →
              let source := firing.cursor.position + r
              let done := min n.toNat (data.size - source).toNat
              past.Writes present step done (fun i => data.byte? (source + i)) ∧
              (∀ tally : Tally, (tally.observe offset present).truncatedCopy
                = if done < n then some firing.cursor.position
                  else (tally.observe offset past).truncatedCopy) ∧
              run.EndsBy data index (done < n)) := by
  intro run final
  have hfinal : final.fired = run.fired := by
    rw [Run.fired_upTo, List.take_length]
  refine ⟨⟨Run.cursor_upTo_length, ?_⟩, ?_⟩
  . intro tally fill
    rw [format.decodeWith_eq_outcome tally data (by omega)]
    simp only [Run.image, Tally.observe, Run.missed, Run.truncatedCopies, hfinal]
    exact ⟨trivial, rfl, rfl⟩
  intro index firing h look past present
  have hpast : past.cursor = firing.cursor := Run.cursor_upTo h
  have hpresent : present.cursor = firing.next := Run.cursor_upTo_succ h
  have hfired : present.fired = past.fired ++ [firing] := Run.fired_upTo_succ h
  have hends : run.EndsBy data index (firing.effect.finishes = true) := Run.endsBy_finishes h
  have hof := Run.of_mem_fired format.rules data offset firing (List.mem_of_getElem? h)
  obtain ⟨size, step, effect, -, -, hstep, heffect, heq⟩ := Rule.exists_of_fire_eq_ok hof.fire
  have hdone : firing.effect = effect := by rw [heq]
  refine ⟨hpast, hpresent, ?_, ?_⟩
  . intro value count haction
    obtain ⟨v, n, hvalue, hcount, hpaint⟩ := Rule.exists_of_effect_fill haction heffect
    rw [← hdone] at hpaint
    refine ⟨v, n, step, hvalue, hcount, hstep, ?_, ?_, ?_⟩
    . have hwrites : past.Writes present step (List.replicate n.toNat (UInt8.ofInt v)).length
          fun _ => some (UInt8.ofInt v) := by
        apply Run.writes_of_paint hfired hpast hpresent hpaint
        intro i hi
        rw [List.length_replicate] at hi
        rw [List.getElem?_replicate_of_lt hi]
      rwa [List.length_replicate] at hwrites
    . intro tally
      exact Run.truncatedCopy_observe_paint hfired hpaint tally offset
    . rw [hpaint] at hends
      simpa [Effect.finishes] using hends
  . intro count relative haction
    obtain ⟨n, r, bytes, hcount, hrelative, hsource, hpaint⟩ :=
      Rule.exists_of_effect_copy haction heffect
    rw [← hdone] at hpaint
    refine ⟨n, r, step, hcount, hrelative, hstep, ?_⟩
    intro hfront source done
    have hlength : bytes.length = done := Bytes.length_of_readFrom? hsource
    have hcut : bytes.length < n.toNat ↔ (done : Int) < n := by omega
    refine ⟨?_, ?_, ?_⟩
    . rw [← hlength]
      apply Run.writes_of_paint hfired hpast hpresent hpaint
      intro i hi
      exact Bytes.byte?_of_readFrom? hsource hfront hi
    . intro tally
      rw [Run.truncatedCopy_observe_paint hfired hpaint tally offset]
      simp only [decide_eq_true_eq, hcut]
    . rw [hpaint] at hends
      simpa only [Effect.finishes, decide_eq_true_eq, hcut] using hends

/-- A copy down a column that leaves the memory with its second byte and finds no third one. -/
theorem stripe_run_writes_cut_copy
    : let run := stripe.run #[0x3F, 0xF0, 0x85, 1, 2] (0 : Nat)
      let past := run.upTo (0 : Nat) 1
      let present := run.upTo (0 : Nat) 2
      past.cursor.address = 0x3FF0 ∧
        present.cursor.address = 0x3FF0 + 2 * 32 ∧
        (present.image 0x20).cells[0x3FF0] = 1 ∧
        (present.image 0x20).cells[0x2000] = (past.image 0x20).cells[0x2000] ∧
        (Tally.observe {} (0 : Nat) present).skippedWrites = 1 ∧
        (Tally.observe {} (0 : Nat) present).truncatedCopy = some 2 ∧
        run.ending = .complete := by
  intro run past present
  have hfired : run.fired[1]?
      = some ⟨5, stripe.rules[5], ⟨2, 0x3FF0, false⟩, 7, .paint ⟨0x3FF0, 32, [1, 2]⟩ true⟩ := by
    decide +kernel
  obtain ⟨hpast, -, -, hcopy⟩ := (run_writes stripe #[0x3F, 0xF0, 0x85, 1, 2] 0).2 1 _ hfired
  obtain ⟨n, r, step, hcount, hrelative, hstep, hwrites⟩ := hcopy (.byte 0 - 127) 1 rfl
  have hn : n = 6 := (Except.ok.inj hcount).symm
  have hr : r = 1 := (Except.ok.inj hrelative).symm
  have hs : step = 32 := (Except.ok.inj hstep).symm
  subst hn hr hs
  obtain ⟨hwrites, htruncated, hends⟩ := hwrites (by decide)
  change past.Writes present 32 2 _ at hwrites
  have haddress : past.cursor.address = 0x3FF0 := congrArg Cursor.address hpast
  have hskipped : (Tally.observe {} (0 : Nat) past).skippedWrites = 0 := by decide +kernel
  refine ⟨haddress, ?_, ?_, ?_, ?_, htruncated {}, (hends.ends (by decide)).2⟩
  . rw [hwrites.address, haddress]
    rfl
  . have hfirst := hwrites.last 0x20 0x3FF0 (by decide) 0 (by decide)
    rw [haddress] at hfirst
    exact (Option.some.inj (hfirst (by decide) (by omega))).symm
  . apply hwrites.others
    rw [haddress]
    omega
  . rw [hwrites.skipped, haddress, hskipped]
    decide

end Format

end PpuCodec
