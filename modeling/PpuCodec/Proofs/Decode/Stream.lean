import PpuCodec.Proofs.Decode.Dispatch
import PpuCodec.Proofs.Decode.Outcome

/-!
A whole stream: what a format makes of its beginning, the records, and a mark that ends them.
-/

namespace PpuCodec

/-- Wherever `mark` stands, a pass over the rules stops the decode right behind it. -/
structure StoppedBy (rules : List Rule) (mark : List UInt8) : Prop where
  mark_ne_nil : mark ≠ []
  pass : ∀ {data : Bytes} {cursor : Cursor} {rest : List UInt8},
    Underway rules cursor.atStart → data.ReadsAt cursor.position (mark ++ rest) →
      ∃ firing : Firing,
        firing.cursor = cursor ∧
        firing.effect = .stop ∧
        firing.rule.discouraged = false ∧
        Pass.ofRules data 0 rules cursor =
          ⟨[firing], ⟨cursor.position + mark.length, cursor.address, false⟩, some .complete⟩

theorem StoppedBy.of_firstAt {rules : List Rule} {mark : List UInt8} (index : Nat) (rule : Rule)
    {step : Int} (hmark : mark ≠ []) (haction : rule.action = .stop)
    (hhit : rule.discouraged = false)
    (hfirst : ∀ {atStart : Bool} (rest : List UInt8), Underway rules atStart →
      Rule.FirstAt rules (Bytes.lookaheadOf (mark ++ rest)) atStart index rule)
    (hsize : ∀ rest, rule.size.value (Bytes.lookaheadOf (mark ++ rest)) = .ok (mark.length : Int))
    (hstep : ∀ rest, rule.step.value (Bytes.lookaheadOf (mark ++ rest)) = .ok step)
    : StoppedBy rules mark := by
  constructor
  . exact hmark
  . intro data cursor rest hunderway hreads
    have hlook := hreads.lookahead_eq
    have hkind : rule.kind = .stop := by simp [Rule.kind, haction, Rule.Action.kind]
    have hfire := Rule.fire_eq (0 + index) hlook (hsize rest) (.inr (by simp [Rule.mayStay, hkind]))
      (hstep rest) (Rule.effect_of_stop hkind data cursor step)
    have hfirst := hfirst rest hunderway
    rw [← hlook] at hfirst
    refine ⟨⟨0 + index, rule, cursor, mark.length, .stop⟩, rfl, rfl, hhit, ?_⟩
    rw [Pass.ofRules_of_firstAt hfirst hfire]
    simp [Effect.finishes, Firing.next, Effect.addressAfter]

/-- The passes over the beginning of a stream, after which `pen` stands where the first record
begins to write. -/
structure Opens (data : Bytes) (rules : List Rule) (offset : Int) (fill : UInt8) (first : Cursor)
    (pen : Pen) : Prop where
  underway : Underway rules first.atStart
  address : first.address = pen.address
  passes : ∃ passes, Passes data rules (Run.start offset) passes first ∧
    Draws passes.flatten (.fresh fill) pen []

theorem Opens.of_startOnly_eq_false {rules : List Rule}
    (h : ∀ rule ∈ rules, rule.startOnly = false) (data : Bytes) (offset : Int) (fill : UInt8)
    : Opens data rules offset fill (Run.start offset) (.fresh fill) := by
  constructor
  . intro _
    exact h
  . rfl
  . exact ⟨[], .none, .nil _⟩

section

variable {data : Bytes} {rules : List Rule} {offset target step : Int} {head rest : List UInt8}

/-- The first pass of a decode that begins with an address. -/
theorem Pass.ofRules_of_seek (index : Nat) (rule : Rule) {address : Expr}
    (hreads : data.ReadsAt offset (head ++ rest))
    (hfirst : Rule.FirstAt rules (Bytes.lookaheadOf (head ++ rest)) true index rule)
    (hstart : rule.startOnly = true) (haction : rule.action = .seek address)
    (hcontinues : rule.continues = false)
    (hsize : rule.size.value (Bytes.lookaheadOf (head ++ rest)) = .ok (head.length : Int))
    (hstep : rule.step.value (Bytes.lookaheadOf (head ++ rest)) = .ok step)
    (htarget : address.eval (Bytes.lookaheadOf (head ++ rest)) = .ok target)
    : Pass.ofRules data 0 rules (Run.start offset)
        =
      ⟨[⟨0 + index, rule, Run.start offset, head.length, .seek target⟩],
        ⟨offset + head.length, target, false⟩, none⟩ := by
  have hlook : data.lookahead (Run.start offset).position = _ := hreads.lookahead_eq
  have hfire := Rule.fire_eq (0 + index) hlook hsize (.inr (by simp [Rule.mayStay, hstart])) hstep
    (Rule.effect_seek haction hlook htarget)
  rw [← hlook] at hfirst
  exact Pass.ofRules_of_breaks hfirst hfire hcontinues

theorem Opens.of_seek (index : Nat) (rule : Rule) {address : Expr}
    (hreads : data.ReadsAt offset (head ++ rest)) (hrest : rest ≠ [])
    (hfirst : Rule.FirstAt rules (Bytes.lookaheadOf (head ++ rest)) true index rule)
    (hstart : rule.startOnly = true) (haction : rule.action = .seek address)
    (hcontinues : rule.continues = false) (hhit : rule.discouraged = false)
    (hsize : rule.size.value (Bytes.lookaheadOf (head ++ rest)) = .ok (head.length : Int))
    (hstep : rule.step.value (Bytes.lookaheadOf (head ++ rest)) = .ok step)
    (htarget : address.eval (Bytes.lookaheadOf (head ++ rest)) = .ok target) (fill : UInt8)
    : Opens data rules offset fill ⟨offset + head.length, target, false⟩
        ((Pen.fresh fill).moveTo target) := by
  have hlt := hreads.lt_size (by simp [hrest])
  have hpass := Pass.ofRules_of_seek index rule hreads hfirst hstart haction hcontinues hsize hstep
    htarget
  constructor
  . simp [Underway]
  . rfl
  . refine ⟨[_], .pass hlt (by simp) hpass .none, ?_⟩
    constructor
    . simp
    . simp [Effect.finishes]
    . simp [hhit]

end

variable {R : Type} {layout : Layout R} {rules : List Rule} {data : Bytes} {offset : Int}
variable {fill : UInt8} {first : Cursor} {pen : Pen} {records : List R} {mark rest : List UInt8}

theorem Opens.passes_records (hopens : Opens data rules offset fill first pen)
    (hread : ∀ record ∈ records, layout.ReadBy rules record)
    (hreads : data.ReadsAt first.position (layout.encode records ++ rest))
    : ∃ passes last,
        Passes data rules (Run.start offset) passes last ∧
        Underway rules last.atStart ∧
        last.position = first.position + (layout.encode records).length ∧
        last.address = (layout.drawAll records pen).address ∧
        Draws passes.flatten (.fresh fill) (layout.drawAll records pen)
          (layout.discouragedAt first.position records) := by
  obtain ⟨opening, hopening, hdraws⟩ := hopens.passes
  obtain ⟨passes, last, hpasses, hunderway, hposition, haddress, hrecords⟩ :=
    Layout.passes_of_readBy first pen hread hopens.underway hopens.address hreads
  refine ⟨opening ++ passes, last, hopening.trans hpasses, hunderway, hposition, haddress, ?_⟩
  rw [List.flatten_append]
  exact hdraws.append hrecords

/-- A stream that ends with a mark is decoded up to it, and it alone is taken for the end. -/
theorem Opens.completes_of_stoppedBy (hopens : Opens data rules offset fill first pen)
    (hread : ∀ record ∈ records, layout.ReadBy rules record) (hstop : StoppedBy rules mark)
    (hreads : data.ReadsAt first.position (layout.encode records ++ (mark ++ rest)))
    : (Run.ofRules rules data offset).Completes fill (layout.drawAll records pen)
        (first.position + (layout.encode records).length + mark.length)
        (layout.discouragedAt first.position records) true ∧
      ∀ firing ∈ (Run.ofRules rules data offset).fired, firing.effect = .stop →
        firing.cursor.position = first.position + (layout.encode records).length := by
  obtain ⟨passes, last, hpasses, hunderway, hposition, haddress, hdraws⟩ :=
    hopens.passes_records hread hreads
  have hlast : data.ReadsAt last.position (mark ++ rest) := by
    rw [hposition]
    exact hreads.advance
  have hlt := hlast.lt_size (by simp [hstop.mark_ne_nil])
  -- The passes over the records leave the run open, and the pass over the mark ends it.
  obtain ⟨firing, hcursor, heffect, hhit, hpass⟩ := hstop.pass hunderway hlast
  have hrun : Run.ofRules rules data offset
      = ⟨passes ++ [[firing]], ⟨last.position + mark.length, last.address, false⟩, .complete⟩ := by
    have hend := Run.go_of_ending hlt hpass #[]
    have hchain := hpasses.ofCursor_eq
    rw [Run.ofCursor, Run.ofCursor, hend] at hchain
    exact hchain
  have hfired : (Run.ofRules rules data offset).fired = passes.flatten ++ [firing] := by
    simp [hrun, Run.fired]
  constructor
  . have := Run.completes_of_stop (by rw [hrun]) hfired hdraws heffect hhit (by rw [hrun, haddress])
    rw [hrun] at this ⊢
    rw [← hposition]
    exact this
  . intro other hmem hother
    rw [hfired] at hmem
    cases List.mem_append.mp hmem with
    | inl hbefore => exact absurd hother (hdraws.effect_ne_stop hbefore)
    | inr hfiring =>
      rw [List.mem_singleton.mp hfiring]
      rw [hcursor, hposition]

/-- A stream without an end mark is decoded up to the end of the input. -/
theorem Opens.completes_of_exhausted (hopens : Opens data rules offset fill first pen)
    (hread : ∀ record ∈ records, layout.ReadBy rules record)
    (hreads : data.ReadsAt first.position (layout.encode records))
    : (Run.ofRules rules data offset).Completes fill (layout.drawAll records pen)
        (first.position + (layout.encode records).length)
        (layout.discouragedAt first.position records) false := by
  rw [← List.append_nil (layout.encode records)] at hreads
  obtain ⟨passes, last, hpasses, hunderway, hposition, haddress, hdraws⟩ :=
    hopens.passes_records hread hreads
  have hlast : data.ReadsAt last.position [] := by
    rw [hposition]
    exact hreads.advance
  have hrun : Run.ofRules rules data offset = ⟨passes, last, .complete⟩ := by
    have hend : Run.go data rules last #[] = _ := Run.go_of_size_le hlast.size_le #[]
    have hchain := hpasses.ofCursor_eq
    rw [Run.ofCursor, Run.ofCursor, hend] at hchain
    rw [Run.after, List.append_nil] at hchain
    exact hchain
  have hfired : (Run.ofRules rules data offset).fired = passes.flatten := by
    rw [hrun]
    rfl
  have := Run.completes_of_draws (by rw [hrun]) hfired hdraws (by rw [hrun, haddress])
  rw [hrun] at this ⊢
  rw [← hposition]
  exact this

theorem Opens.decodeWith (format : Format)
    (hopens : Opens data format.rules offset fill first pen) (hoffset : 0 ≤ offset)
    (hread : ∀ record ∈ records, layout.ReadBy format.rules record)
    (hstop : StoppedBy format.rules mark)
    (hreads : data.ReadsAt first.position (layout.encode records ++ (mark ++ rest)))
    : ∃ tally,
        format.decodeWith {} data offset fill.toNat
          = (.ok (layout.drawAll records pen).image, tally) ∧
        tally.Shows offset (first.position + (layout.encode records).length + mark.length)
          (layout.drawAll records pen) ∧
        tally.endReached = true ∧
        tally.discouraged.map Prod.fst = layout.discouragedAt first.position records := by
  have hcompletes := (hopens.completes_of_stoppedBy hread hstop hreads).1
  exact hcompletes.decodeWith format hoffset

end PpuCodec
