import PpuCodec.Proofs.Decode.Dispatch
import PpuCodec.Proofs.Decode.Layout

/-!
Records that one rule takes. What has to be known of such a rule is that it is the first to apply to
the bytes of the record, that it uses up just these, and what its templates come to on them.
-/

namespace PpuCodec

def addressOf (low high : UInt8) : Int :=
  high.toNat * 256 + low.toNat

theorem ofInt_toNat (b : UInt8) : UInt8.ofInt (b.toNat : Int) = b := by
  have hlt := b.toNat_lt
  have hmod : ((b.toNat : Int) % 2 ^ 8).toNat = b.toNat := by omega
  rw [UInt8.ofInt]
  rw [hmod]
  rw [UInt8.ofNat_toNat]

namespace Layout

variable {R : Type} {layout : Layout R} {rules : List Rule} {record : R} {index : Nat} {rule : Rule}

/-- The rule is the first to apply to the record, and uses up its bytes and no more. -/
structure Selects (layout : Layout R) (rules : List Rule) (record : R) (index : Nat)
    (rule : Rule) : Prop where
  bytes_ne_nil : layout.bytes record ≠ []
  first : ∀ {atStart : Bool} (rest : List UInt8), Underway rules atStart →
    Rule.FirstAt rules (Bytes.lookaheadOf (layout.bytes record ++ rest)) atStart index rule
  size : ∀ rest, rule.size.value (Bytes.lookaheadOf (layout.bytes record ++ rest))
    = .ok ((layout.bytes record).length : Int)
  continues : rule.continues = false
  discouraged : rule.discouraged = layout.discouraged record

namespace Selects

theorem readBy_of_effect (h : layout.Selects rules record index rule) {step : Int}
    (hstep : ∀ rest, rule.step.value (Bytes.lookaheadOf (layout.bytes record ++ rest)) = .ok step)
    (heffect : ∀ {data : Bytes} {cursor : Cursor} {pen : Pen} {rest : List UInt8},
      cursor.address = pen.address →
        data.ReadsAt cursor.position (layout.bytes record ++ rest) →
          ∃ effect, rule.effect data cursor step = .ok effect ∧
            effect.finishes = false ∧
            pen.follow effect = layout.draw record pen)
    : layout.ReadBy rules record := by
  constructor
  . exact h.bytes_ne_nil
  . intro data start cursor pen rest hunderway haddress hreads
    obtain ⟨effect, heffect, hopen, hfollow⟩ := heffect haddress hreads
    have hlook := hreads.lookahead_eq
    have hfirst := h.first rest hunderway
    rw [← hlook] at hfirst
    have hpos : 0 < ((layout.bytes record).length : Int) := by
      have := List.length_pos_iff.mpr h.bytes_ne_nil
      omega
    have hfire := Rule.fire_eq (start + index) hlook (h.size rest) (.inl hpos) (hstep rest) heffect
    refine ⟨[⟨start + index, rule, cursor, (layout.bytes record).length, effect⟩], by simp, ?_, ?_⟩
    . rw [Pass.ofRules_of_firstAt hfirst hfire]
      simp only [hopen, h.continues, Bool.false_eq_true, if_false, Firing.next, haddress]
      rw [← hfollow]
      rfl
    . constructor
      . simpa using hfollow
      . simpa using hopen
      . rw [← h.discouraged]
        cases hhit : rule.discouraged with
        | false => simp [hhit]
        | true => simp [hhit]

theorem readBy_seek (h : layout.Selects rules record index rule) {address : Expr} {target : Int}
    (haction : rule.action = .seek address)
    (htarget : ∀ rest, address.eval (Bytes.lookaheadOf (layout.bytes record ++ rest)) = .ok target)
    {step : Int}
    (hstep : ∀ rest, rule.step.value (Bytes.lookaheadOf (layout.bytes record ++ rest)) = .ok step)
    (hdraw : ∀ pen, layout.draw record pen = pen.moveTo target)
    : layout.ReadBy rules record := by
  apply h.readBy_of_effect hstep
  intro data cursor pen rest haddress hreads
  refine ⟨.seek target, ?_, rfl, ?_⟩
  . exact Rule.effect_seek haction hreads.lookahead_eq (htarget rest)
  . rw [Pen.follow_seek]
    rw [hdraw]

theorem readBy_fill (h : layout.Selects rules record index rule) {value count : Expr}
    {v : UInt8} {n : Nat} (haction : rule.action = .fill value count)
    (hvalue : ∀ rest, value.eval (Bytes.lookaheadOf (layout.bytes record ++ rest))
      = .ok (v.toNat : Int))
    (hcount : ∀ rest, count.eval (Bytes.lookaheadOf (layout.bytes record ++ rest)) = .ok (n : Int))
    {step : Int}
    (hstep : ∀ rest, rule.step.value (Bytes.lookaheadOf (layout.bytes record ++ rest)) = .ok step)
    (hdraw : ∀ pen, layout.draw record pen = pen.write step (List.replicate n v))
    : layout.ReadBy rules record := by
  apply h.readBy_of_effect hstep
  intro data cursor pen rest haddress hreads
  refine ⟨_, Rule.effect_fill haction hreads.lookahead_eq (hvalue rest) (hcount rest), rfl, ?_⟩
  rw [ofInt_toNat, haddress, Int.toNat_natCast]
  rw [Pen.follow_paint]
  rw [hdraw]

theorem readBy_copy (h : layout.Selects rules record index rule) {count relative : Expr}
    (head : List UInt8) {block : List UInt8} (hbytes : layout.bytes record = head ++ block)
    (haction : rule.action = .copy count relative)
    (hcount : ∀ rest, count.eval (Bytes.lookaheadOf (layout.bytes record ++ rest))
      = .ok (block.length : Int))
    (hrelative : ∀ rest, relative.eval (Bytes.lookaheadOf (layout.bytes record ++ rest))
      = .ok (head.length : Int))
    {step : Int}
    (hstep : ∀ rest, rule.step.value (Bytes.lookaheadOf (layout.bytes record ++ rest)) = .ok step)
    (hdraw : ∀ pen, layout.draw record pen = pen.write step block)
    : layout.ReadBy rules record := by
  apply h.readBy_of_effect hstep
  intro data cursor pen rest haddress hreads
  have hsource : data.readFrom? (cursor.position + head.length) (block.length : Int).toNat
      = some block := by
    rw [hreads.readFrom?_eq]
    rw [hbytes]
    simp
  refine ⟨_, Rule.effect_copy haction hreads.lookahead_eq (hcount rest) (hrelative rest) hsource
    (by simp), rfl, ?_⟩
  rw [haddress]
  rw [Pen.follow_paint]
  rw [hdraw]

end Selects

theorem readBy_pair (index : Nat) (rule : Rule) {code n : Nat} {value : UInt8} {step : Int}
    {count : Expr} (hcode : code < 0x100) (hbytes : layout.bytes record = [UInt8.ofNat code, value])
    (hdraw : ∀ pen, layout.draw record pen = pen.write step (List.replicate n value))
    (haction : rule.action = .fill (.byte 1) count) (hsize : rule.size = .single 2)
    (hstep : ∀ look, rule.step.value look = .ok step) (hcontinues : rule.continues = false)
    (hhit : rule.discouraged = layout.discouraged record)
    (hcount : ∀ (b : UInt8) rest, b.toNat = code →
      count.eval (Bytes.lookaheadOf (b :: rest)) = .ok (n : Int))
    (hfirst : ∀ {atStart : Bool} (b : UInt8) rest, b.toNat = code → Underway rules atStart →
      Rule.FirstAt rules (Bytes.lookaheadOf (b :: value :: rest)) atStart index rule)
    : layout.ReadBy rules record := by
  have hb : (UInt8.ofNat code).toNat = code := UInt8.toNat_ofNat_of_lt hcode
  have hselects : layout.Selects rules record index rule := by
    constructor
    . simp [hbytes]
    . rw [hbytes]
      intro atStart rest
      exact hfirst _ rest hb
    . rw [hbytes, hsize]
      intro rest
      rfl
    . exact hcontinues
    . exact hhit
  apply hselects.readBy_fill (v := value) (n := n) haction
  . rw [hbytes]
    intro rest
    rfl
  . rw [hbytes]
    intro rest
    exact hcount _ (value :: rest) hb
  . intro rest
    apply hstep
  . exact hdraw

theorem readBy_counted (index : Nat) (rule : Rule) {code : Nat} {block : List UInt8} {step : Int}
    {count : Expr} (hcode : code < 0x100) (hbytes : layout.bytes record = UInt8.ofNat code :: block)
    (hdraw : ∀ pen, layout.draw record pen = pen.write step block)
    (haction : rule.action = .copy count 1) (hstep : ∀ look, rule.step.value look = .ok step)
    (hcontinues : rule.continues = false) (hhit : rule.discouraged = layout.discouraged record)
    (hcount : ∀ (b : UInt8) rest, b.toNat = code →
      count.eval (Bytes.lookaheadOf (b :: rest)) = .ok (block.length : Int))
    (hsize : ∀ (b : UInt8) rest, b.toNat = code →
      rule.size.value (Bytes.lookaheadOf (b :: rest)) = .ok ((block.length : Int) + 1))
    (hfirst : ∀ {atStart : Bool} (b : UInt8) rest, b.toNat = code → Underway rules atStart →
      Rule.FirstAt rules (Bytes.lookaheadOf (b :: rest)) atStart index rule)
    : layout.ReadBy rules record := by
  have hb : (UInt8.ofNat code).toNat = code := UInt8.toNat_ofNat_of_lt hcode
  have hselects : layout.Selects rules record index rule := by
    constructor
    . simp [hbytes]
    . rw [hbytes]
      intro atStart rest
      exact hfirst _ (block ++ rest) hb
    . rw [hbytes]
      intro rest
      rw [List.length_cons, Int.natCast_add, Int.natCast_one]
      exact hsize _ (block ++ rest) hb
    . exact hcontinues
    . exact hhit
  apply hselects.readBy_copy [UInt8.ofNat code] hbytes haction
  . rw [hbytes]
    intro rest
    exact hcount _ (block ++ rest) hb
  . intro rest
    rfl
  . intro rest
    apply hstep
  . exact hdraw

theorem ReadBy.congr {S : Type} {other : Layout S} {twin : S} (h : layout.ReadBy rules record)
    (hbytes : other.bytes twin = layout.bytes record)
    (hdraw : other.draw twin = layout.draw record)
    (hhit : other.discouraged twin = layout.discouraged record)
    : other.ReadBy rules twin := by
  constructor
  . rw [hbytes]
    exact h.bytes_ne_nil
  . rw [hbytes, hdraw, hhit]
    exact h.pass

/-- A record that begins with an address, and goes on as a record of the rules below. -/
theorem readBy_of_continues {S : Type} {below : Layout S} {tail : S} {head : List UInt8}
    (index : Nat) (rule : Rule) {address : Expr} {target step : Int}
    (hbytes : layout.bytes record = head ++ below.bytes tail) (hhead : head ≠ [])
    (hdraw : ∀ pen, layout.draw record pen = below.draw tail (pen.moveTo target))
    (hhits : layout.discouraged record = false) (hbelowHits : below.discouraged tail = false)
    (hbelow : below.ReadBy (rules.drop (index + 1)) tail)
    (haction : rule.action = .seek address) (hcontinues : rule.continues = true)
    (hhit : rule.discouraged = false)
    (htarget : ∀ rest, address.eval (Bytes.lookaheadOf (head ++ rest)) = .ok target)
    (hsize : ∀ rest, rule.size.value (Bytes.lookaheadOf (head ++ rest)) = .ok (head.length : Int))
    (hstep : ∀ look, rule.step.value look = .ok step)
    (hfirst : ∀ {atStart : Bool} (rest : List UInt8), Underway rules atStart →
      Rule.FirstAt rules (Bytes.lookaheadOf (head ++ rest)) atStart index rule)
    : layout.ReadBy rules record := by
  constructor
  . simp [hbytes, hhead]
  . intro data start cursor pen rest hunderway haddress hreads
    rw [hbytes, List.append_assoc] at hreads
    have hlook := hreads.lookahead_eq
    have hfirst := hfirst (below.bytes tail ++ rest) hunderway
    rw [← hlook] at hfirst
    have hpos : 0 < (head.length : Int) := by
      have := List.length_pos_iff.mpr hhead
      omega
    have hfire := Rule.fire_eq (start + index) hlook (hsize _) (.inl hpos) (hstep _)
      (Rule.effect_seek haction hlook (htarget _))
    have hpass := Pass.ofRules_of_firstAt hfirst hfire
    simp only [Effect.finishes, hcontinues, Bool.false_eq_true, if_false, if_true, Firing.next,
      Effect.addressAfter] at hpass
    -- The same pass goes on below, with the cursor behind the address.
    obtain ⟨fired, _, hbelowPass, hdraws⟩ := hbelow.pass (start + index + 1)
      ⟨cursor.position + head.length, target, false⟩ (pen.moveTo target) (by simp [Underway]) rfl
      hreads.advance
    refine ⟨⟨start + index, rule, cursor, head.length, .seek target⟩ :: fired, by simp, ?_, ?_⟩
    . rw [hpass, hbelowPass]
      simp only [Pass.after, hbytes, hdraw, List.length_append, Int.natCast_add, Int.add_assoc]
    . have hseek : Draws [⟨start + index, rule, cursor, head.length, .seek target⟩] pen
          (pen.moveTo target) [] := by
        constructor
        . simp
        . simp [Effect.finishes]
        . simp [hhit]
      rw [hbelowHits] at hdraws
      rw [hdraw, hhits]
      exact hseek.append hdraws

end Layout

end PpuCodec
