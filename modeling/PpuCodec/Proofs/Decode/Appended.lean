import PpuCodec.Proofs.Decode.Forward
import PpuCodec.Proofs.Decode.Outcome
import PpuCodec.Proofs.Rule.Settled

/-!
A decode of a stream that has other bytes behind it. If a rule stops the decode of the stream alone,
then no copy was cut. So each rule that applied does the same if more bytes follow, and if these do
not change which rule is chosen, the decode is the same.
-/

namespace PpuCodec

namespace Rule

variable {rule : Rule} {data data' : Bytes} {cursor : Cursor} {rest : List UInt8}

/-- A copy that is not cut takes nothing from what follows the input. -/
theorem sourceAlike_append {size step : Int} {effect : Effect}
    (hreads : data.ReadsAt cursor.position rest)
    (haction : rule.action.Spends (Bytes.lookaheadOf rest) size)
    (heffect : rule.effect data cursor step = .ok effect)
    (hwhole : ∀ stroke, effect ≠ .paint stroke true) (more : List UInt8)
    : rule.action.SourceAlike (Bytes.lookaheadOf rest) rest (rest ++ more) := by
  cases hrule : rule.action with
  | seek address => trivial
  | fill value count => trivial
  | copy count relative =>
    rw [hrule] at haction
    obtain ⟨n, r, hcount, hrelative, hr, -⟩ := haction
    have hpaint := effect_copy_of_reads step hrule hreads hcount hrelative hr
    rw [heffect, Except.ok.injEq] at hpaint
    have hcut := hwhole ⟨cursor.address, step, (rest.drop r.toNat).take n.toNat⟩
    simp only [hpaint, ne_eq, Effect.paint.injEq, true_and, decide_eq_true_eq, List.length_take,
      List.length_drop] at hcut
    refine ⟨n, r, hcount, hrelative, hr, ?_⟩
    rw [List.drop_append]
    rw [List.take_append_of_le_length (by rw [List.length_drop]; omega)]
  | stop => trivial

theorem fire_append (hself : rule.SelfContained) {index : Nat} {firing : Firing} {atStart : Bool}
    {more : List UInt8} (hreads : data.ReadsAt cursor.position rest)
    (hreads' : data'.ReadsAt cursor.position (rest ++ more))
    (haccepts : rule.accepts (Bytes.lookaheadOf rest) atStart = true)
    (hfire : rule.fire index data cursor = .ok firing)
    (hwhole : ∀ stroke, firing.effect ≠ .paint stroke true)
    : rule.fire index data' cursor = .ok firing := by
  have hspends := hself.spends_of_fire hreads haccepts hfire
  obtain ⟨size, step, effect, -, -, -, heffect, heq⟩ := exists_of_fire_eq_ok hfire
  have hsource : rule.action.SourceAlike (Bytes.lookaheadOf rest) rest (rest ++ more) := by
    apply sourceAlike_append hreads hspends.action heffect
    rwa [heq] at hwhole
  have hfire' := fire_congr hfire hreads hreads' rfl (.refl rule) hself.checked
    (alike_append_of_accepts haccepts more) hsource index
  rw [hfire', heq]

theorem FirstAt.fire_append {rules : List Rule} {top index : Nat} {firing : Firing}
    (h : FirstAt (rules.drop top) (data.lookahead cursor.position) cursor.atStart index rule)
    (hfire : rule.fire (top + index) data cursor = .ok firing) (hself : rule.SelfContained)
    (hposition : 0 ≤ cursor.position)
    (hlasts : Lasts (rules.drop top) (data.toList.drop cursor.position.toNat) cursor.atStart)
    (hwhole : ∀ stroke, firing.effect ≠ .paint stroke true) (after : Bytes)
    : FirstAt (rules.drop top) (Bytes.lookahead (data ++ after) cursor.position) cursor.atStart
        index rule ∧
      rule.fire (top + index) (data ++ after) cursor = .ok firing := by
  have hreads := data.readsAt_drop hposition
  obtain ⟨more, hreads'⟩ := hreads.append after
  rw [hreads.lookahead_eq] at h
  constructor
  . rw [hreads'.lookahead_eq]
    exact hlasts index rule more h
  . exact Rule.fire_append hself hreads hreads' h.accepts hfire hwhole

end Rule

theorem Effect.ne_cut_of_open {effect : Effect} (h : effect.finishes = false)
    : ∀ stroke, effect ≠ .paint stroke true := by
  rintro stroke rfl
  simp [finishes] at h

/-- The pass leaves the run open, or a rule has stopped it. -/
def Pass.IsWhole (pass : Pass) : Prop :=
  pass.ending = none ∨ ∃ firing ∈ pass.fired, firing.effect = .stop

theorem Pass.IsWhole.below {pass : Pass} {firing : Firing} (h : (pass.after firing).IsWhole)
    (hopen : firing.effect.finishes = false)
    : pass.IsWhole := by
  cases h with
  | inl hending => exact .inl hending
  | inr hstop =>
    obtain ⟨other, hmem, heffect⟩ := hstop
    cases List.mem_cons.mp hmem with
    | inl heq => simp [← heq, heffect, Effect.finishes] at hopen
    | inr hbelow => exact .inr ⟨other, hbelow, heffect⟩

section

variable {data : Bytes} {rules : List Rule}

namespace Scan

variable {top : Nat} {cursor : Cursor} {pass : Pass}

theorem fired_ne_nil (h : Scan data rules top cursor pass) (hwhole : pass.IsWhole) {lower : Rule}
    (hhead : rules[top]? = some lower) (htakes : lower.TakesAny) (hposition : 0 ≤ cursor.position)
    : pass.fired ≠ [] := by
  cases h with
  | runsOut hrejects =>
    have hmem : lower ∈ rules.drop top := by
      apply List.mem_of_getElem? (i := 0)
      simpa using hhead
    have := hrejects lower hmem
    rw [data.lookahead_eq_lookaheadOf hposition, htakes.accepts] at this
    simp at this
  | fails _ _ => simp [Pass.IsWhole] at hwhole
  | ends _ _ _ => simp
  | breaks _ _ _ _ => simp
  | goesOn _ _ _ _ _ => simp [Pass.after]

/-- Bytes that are added do not change a pass in which a rule applied, if it is whole. -/
theorem ofRules_append (h : Scan data rules top cursor pass) (after : Bytes) {least : Nat}
    (hrules : ∀ rule ∈ rules, rule.SelfContained) (hsettled : Rule.Settled rules least)
    (hposition : 0 ≤ cursor.position)
    (hlasts : Rule.Lasts (rules.drop top) (data.toList.drop cursor.position.toNat) cursor.atStart)
    (hfired : pass.fired ≠ []) (hwhole : pass.IsWhole)
    : Pass.ofRules (data ++ after) top (rules.drop top) cursor = pass := by
  induction h with
  | runsOut _ => simp at hfired
  | fails _ _ => simp at hfired
  | @ends top index cursor rule firing hfirst hfire hfinishes =>
    have hstop : firing.effect = .stop := by simpa [Pass.IsWhole] using hwhole
    obtain ⟨hfirst', hfire'⟩ := hfirst.fire_append hfire (hrules _ hfirst.mem) hposition hlasts
      (by simp [hstop]) after
    rw [Pass.ofRules_of_firstAt hfirst' hfire']
    simp [hfinishes]
  | breaks hfirst hfire hopen hbreaks =>
    obtain ⟨hfirst', hfire'⟩ := hfirst.fire_append hfire (hrules _ hfirst.mem) hposition hlasts
      (Effect.ne_cut_of_open hopen) after
    rw [Pass.ofRules_of_firstAt hfirst' hfire']
    simp [hopen, hbreaks]
  | @goesOn top index cursor rule firing pass hfirst hfire hopen hcontinues below ih =>
    obtain ⟨hfirst', hfire'⟩ := hfirst.fire_append hfire (hrules _ hfirst.mem) hposition hlasts
      (Effect.ne_cut_of_open hopen) after
    have hnext : 0 ≤ firing.next.position := by
      have := hfirst.position_le hfire hrules hposition
      omega
    -- Below there may be no input left, but there the first rule takes anything.
    have hrule := hfirst.getElem?
    rw [List.getElem?_drop] at hrule
    obtain ⟨lower, hlower, htakes⟩ := hsettled.exists_takesAny hrule hcontinues
    have hbelow := hwhole.below hopen
    rw [Pass.ofRules_of_firstAt hfirst' hfire']
    rw [List.drop_drop, ← Nat.add_assoc]
    rw [ih hnext _ (below.fired_ne_nil hbelow hlower htakes hnext) hbelow]
    . simp [hopen, hcontinues]
    . apply htakes.lasts
      simpa using hlower

end Scan

/-- A run in which a rule has stopped it is one that has made whole passes, the last of them with
that rule. -/
theorem Run.exists_passes_of_endReached {offset : Int}
    (h : (ofRules rules data offset).endReached = true)
    : ∃ passes last fired next,
        Passes data rules (start offset) passes last ∧
        last.position < data.size ∧
        Pass.ofRules data 0 rules last = ⟨fired, next, some .complete⟩ ∧
        (∃ firing ∈ fired, firing.effect = .stop) ∧
        ofRules rules data offset = ⟨passes ++ [fired], next, .complete⟩ := by
  obtain ⟨passes, last, final, hpasses, hfinal, hrun⟩ := exists_passes rules data offset
  rw [hrun] at h ⊢
  obtain ⟨firing, hmem, hstop⟩ : ∃ firing ∈ (final.after passes).fired, firing.effect = .stop := by
    simpa [endReached] using h
  have hlast : firing ∈ final.fired := by
    simp only [fired, after, List.flatten_append] at hmem
    cases List.mem_append.mp hmem with
    | inl hbefore =>
      have := hpasses.finishes_of_mem_fired firing hbefore
      simp [hstop, Effect.finishes] at this
    | inr hlast => exact hlast
  cases hfinal with
  | exhausted _ => simp [fired] at hlast
  | stuck _ _ => simp [fired] at hlast
  | @ended fired next ending hlt hpass =>
    have hmem : firing ∈ fired := by simpa [Run.fired] using hlast
    have hending : ending = .complete :=
      Option.some.inj ((Pass.scan_of_eq hpass).ending_of_finishes hmem (by rw [hstop]; rfl))
    rw [hending] at hpass ⊢
    exact ⟨passes, last, fired, next, hpasses, hlt, hpass, ⟨firing, hmem, hstop⟩, rfl⟩

variable {least : Nat} (hrules : ∀ rule ∈ rules, rule.SelfContained)
variable (hsettled : Rule.Settled rules least)

include hrules hsettled

theorem Pass.ofRules_append {cursor : Cursor} {pass : Pass}
    (hpass : ofRules data 0 rules cursor = pass) (after : Bytes) (hposition : 0 ≤ cursor.position)
    (hlt : cursor.position < data.size)
    (hbegin : cursor.atStart = true → cursor.position + least ≤ data.size)
    (hfired : pass.fired ≠ []) (hwhole : pass.IsWhole)
    : ofRules (data ++ after) 0 rules cursor = pass := by
  have hreads := data.readsAt_drop hposition
  have hlength := hreads.length_eq (Int.le_of_lt hlt)
  apply (Pass.scan_of_eq hpass).ofRules_append after hrules hsettled hposition _ hfired hwhole
  apply hsettled.lasts
  split
  . next hstart =>
    have := hbegin hstart
    omega
  . exact hreads.ne_nil hlt

theorem Passes.append {cursor last : Cursor} {passes : List (List Firing)}
    (h : Passes data rules cursor passes last) (after : Bytes) (hposition : 0 ≤ cursor.position)
    (hbegin : cursor.atStart = true → cursor.position < data.size →
      cursor.position + least ≤ data.size)
    : Passes (data ++ after) rules cursor passes last := by
  induction h with
  | none => exact .none
  | @pass cursor next last fired passes hlt hfired hpass hrest ih =>
    have hnext : cursor.position ≤ next.position :=
      (Pass.scan_of_eq hpass).position_le hrules hposition
    have hpass' := Pass.ofRules_append hrules hsettled hpass after hposition hlt
      (fun hstart => hbegin hstart hlt) hfired (.inl rfl)
    apply Passes.pass _ hfired hpass'
    . exact ih (by omega) (by simp [(Pass.next_of_eq hpass hfired).1])
    . rw [Array.size_append]
      omega

theorem Run.ofRules_append {offset : Int} (after : Bytes) (hoffset : 0 ≤ offset)
    (hbegin : offset < data.size → offset + least ≤ data.size)
    (hreached : (ofRules rules data offset).endReached = true)
    : ofRules rules (data ++ after) offset = ofRules rules data offset := by
  obtain ⟨passes, last, fired, next, hpasses, hlt, hpass, hstop, hrun⟩ :=
    exists_passes_of_endReached hreached
  have hposition : 0 ≤ last.position := by
    have := (hpasses.linked.position_le hpasses.of_mem_fired hrules hoffset).1
    exact Int.le_trans hoffset this
  have hleast : last.atStart = true → last.position + least ≤ data.size := by
    intro hstart
    by_cases hnil : passes = []
    . rw [hnil] at hpasses
      cases hpasses
      exact hbegin hlt
    . rw [hpasses.atStart_eq_false hnil] at hstart
      simp at hstart
  have hfired : fired ≠ [] := by
    obtain ⟨firing, hmem, -⟩ := hstop
    exact List.ne_nil_of_mem hmem
  have hpass' := Pass.ofRules_append hrules hsettled hpass after hposition hlt hleast hfired
    (.inr hstop)
  have hpasses' := hpasses.append hrules hsettled after hoffset (fun _ => hbegin)
  rw [hrun]
  change ofCursor (data ++ after) rules (start offset) = _
  rw [hpasses'.ofCursor_eq]
  rw [ofCursor]
  rw [go_of_ending _ hpass']
  . rfl
  . rw [Array.size_append]
    omega

end

theorem Format.le_of_checkedFill {offset fill : Int} {value : UInt8}
    (h : checkedFill offset fill = .ok value)
    : 0 ≤ offset := by
  unfold checkedFill at h
  split at h
  . simp at h
  . omega

theorem Format.decodeWith_append {format : Format} {data : Bytes} {least : Nat}
    (hrules : ∀ rule ∈ format.rules, rule.SelfContained)
    (hsettled : Rule.Settled format.rules least) {offset fill : Int}
    (hbegin : offset < data.size → offset + least ≤ data.size)
    (hreached : (format.decodeWith {} data offset fill).2.endReached = true) (after : Bytes)
    (tally : Tally)
    : format.decodeWith tally (data ++ after) offset fill
        =
      format.decodeWith tally data offset fill := by
  unfold decodeWith at hreached ⊢
  cases hfill : checkedFill offset fill with
  | error error => simp [hfill] at hreached
  | ok value =>
    have hoffset := le_of_checkedFill hfill
    simp only [hfill, Tally.observe, Bool.false_or] at hreached ⊢
    have hrun : format.run (data ++ after) offset = format.run data offset :=
      Run.ofRules_append hrules hsettled after hoffset hbegin hreached
    obtain ⟨passes, last, fired, next, -, -, -, -, heq⟩ := Run.exists_passes_of_endReached hreached
    have hending : (format.run data offset).ending = .complete := congrArg Run.ending heq
    rw [hrun]
    unfold outcome
    rw [hending]

end PpuCodec
