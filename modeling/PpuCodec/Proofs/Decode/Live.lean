import PpuCodec.Proofs.Decode.Linked
import PpuCodec.Proofs.Decode.Pen
import PpuCodec.Proofs.Tally.Steps

/-!
A decode that writes to the memory and to a tally as it goes along, one write at a time and each rule
at the moment when it applies. It comes to what is read off the finished run. What a decode returns
depends neither on whether a tally is kept nor on what was in it before.
-/

namespace PpuCodec

/-- The memory in the middle of a decode, and the tally if one is kept. -/
structure Live where
  image : Image
  tally : Option Tally

namespace Live

def note (live : Live) (entry : Tally → Tally) : Live :=
  { live with tally := live.tally.map entry }

/-- A write outside of the memory leaves a trace only in a tally. -/
def write (live : Live) (address : Int) (b : UInt8) : Live :=
  if Image.holds address then { live with image := live.image.write address b }
  else live.note (·.recordSkipped address)

def writeFrom (live : Live) (address step : Int) : List UInt8 → Live
  | [] => live
  | b :: rest => (live.write address b).writeFrom (address + step) step rest

def perform (live : Live) (position : Int) : Effect → Live
  | .seek _ => live
  | .paint stroke cut =>
    let live := live.writeFrom stroke.address stroke.step stroke.bytes
    if cut then live.note (·.recordCut position) else live
  | .stop => live.note (·.recordEnd)

/-- What a pass over the table has come to, and whether a rule has applied in it without failing. -/
structure Sweep where
  applied : Bool
  cursor : Cursor
  ending : Option Ending
  live : Live

/-- A rule is counted when it applies, also if it then fails. -/
def sweep (data : Bytes) (index : Nat) (rules : List Rule) (cursor : Cursor) (live : Live) : Sweep :=
  match rules with
  | [] => ⟨false, cursor, none, live⟩
  | rule :: below =>
    if rule.accepts (data.lookahead cursor.position) cursor.atStart then
      let live := live.note (·.record index rule cursor.position)
      match rule.fire index data cursor with
      | .error fault => ⟨false, cursor, some (.failed index rule fault), live⟩
      | .ok firing =>
        let live := live.perform cursor.position firing.effect
        if firing.effect.finishes then ⟨true, firing.next, some .complete, live⟩
        else if rule.continues then
          { sweep data (index + 1) below firing.next live with applied := true }
        else ⟨true, firing.next, none, live⟩
    else
      sweep data (index + 1) below cursor live

/-- What firings make of the memory and of the tally, each by itself. -/
def follow (live : Live) (fired : List Firing) (cursor : Cursor) (ending : Option Ending) : Live where
  image := fired.foldl (fun image firing => firing.effect.apply image) live.image
  tally := live.tally.map fun tally => (fired.foldl Tally.step tally).stepFailed cursor ending

theorem follow_nil (live : Live) (cursor : Cursor) : live.follow [] cursor none = live := by
  rcases live with ⟨image, _ | tally⟩
  . rfl
  . rfl

theorem follow_append (live : Live) (xs ys : List Firing) (next cursor : Cursor)
    (ending : Option Ending)
    : live.follow (xs ++ ys) cursor ending = (live.follow xs next none).follow ys cursor ending := by
  rcases live with ⟨image, _ | tally⟩
  . simp [follow]
  . simp [follow, Tally.stepFailed]

theorem writeFrom_eq (live : Live) (address step : Int) (bytes : List UInt8)
    : live.writeFrom address step bytes
        =
      ⟨live.image.paintFrom address step bytes,
        live.tally.map ((Stroke.missed ⟨address, step, bytes⟩).foldl Tally.recordSkipped)⟩ := by
  induction bytes generalizing live address with
  | nil =>
    rcases live with ⟨image, _ | tally⟩
    . rfl
    . rfl
  | cons b bytes ih =>
    rw [writeFrom, ih, Stroke.missed_cons, Image.paintFrom, write]
    cases hholds : Image.holds address with
    | true => rfl
    | false =>
      -- The write is dropped, which the memory does by itself.
      have hout : ¬(0 ≤ address ∧ address < 0x4000) := by
        simpa [Image.holds] using hholds
      have hdropped : live.image.write address b = live.image := by
        rw [Image.write, dif_neg hout]
      rw [hdropped]
      rcases live with ⟨image, _ | tally⟩
      . rfl
      . rfl

theorem perform_eq (live : Live) (position : Int) (effect : Effect)
    : live.perform position effect
        =
      ⟨effect.apply live.image, live.tally.map (·.perform position effect)⟩ := by
  rcases live with ⟨image, _ | tally⟩
  all_goals
    cases effect with
    | seek target => rfl
    | paint stroke cut =>
      simp only [perform, writeFrom_eq]
      cases cut
      . rfl
      . rfl
    | stop => rfl

/-- The step that a rule makes when it applies. -/
theorem perform_of_fire {data : Bytes} {index : Nat} {rule : Rule} {cursor : Cursor}
    {firing : Firing} (hfire : rule.fire index data cursor = .ok firing) (live : Live)
    : (live.note (·.record index rule cursor.position)).perform cursor.position firing.effect
        =
      live.follow [firing] firing.next none := by
  obtain ⟨size, step, effect, -, -, -, -, heq⟩ := Rule.exists_of_fire_eq_ok hfire
  subst heq
  rw [perform_eq]
  rcases live with ⟨image, _ | tally⟩
  . rfl
  . rfl

/-- What one pass does as it goes along is what its firings come to. -/
theorem sweep_eq (data : Bytes) (index : Nat) (rules : List Rule) (cursor : Cursor) (live : Live)
    : sweep data index rules cursor live
        =
      let made := Pass.ofRules data index rules cursor
      ⟨!made.fired.isEmpty, made.cursor, made.ending,
        live.follow made.fired made.cursor made.ending⟩ := by
  fun_induction Pass.ofRules data index rules cursor generalizing live with
  | case1 index cursor =>
    simp only [sweep, follow_nil]
    rfl
  | case2 index cursor rule below haccepts fault hfire =>
    simp only [sweep, haccepts, hfire]
    rfl
  | case3 index cursor rule below haccepts firing hfire hfinishes =>
    simp only [sweep, haccepts, hfire, perform_of_fire hfire, hfinishes, if_true]
    rfl
  | case4 index cursor rule below haccepts firing hfire hopen hcontinues ih =>
    simp only [sweep, haccepts, hfire, perform_of_fire hfire, hopen, hcontinues, if_true, ih]
    rw [← follow_append]
    rfl
  | case5 index cursor rule below haccepts firing hfire hopen hbreaks =>
    simp only [sweep, haccepts, hfire, perform_of_fire hfire, hopen, hbreaks, if_true]
    rfl
  | case6 index cursor rule below hrejects ih =>
    simp only [sweep, hrejects]
    exact ih live

theorem sweep_of_eq {data : Bytes} {rules : List Rule} {cursor next : Cursor}
    {fired : List Firing} {ending : Option Ending}
    (hpass : Pass.ofRules data 0 rules cursor = ⟨fired, next, ending⟩) (live : Live)
    : sweep data 0 rules cursor live
        =
      ⟨!fired.isEmpty, next, ending, live.follow fired next ending⟩ := by
  rw [sweep_eq, hpass]

/-- What a whole decode has come to. -/
structure Halt where
  cursor : Cursor
  ending : Ending
  live : Live

/-- Makes passes until the decode ends. -/
def go (data : Bytes) (rules : List Rule) (cursor : Cursor) (live : Live) : Halt :=
  if cursor.position < data.size then
    match _hsweep : sweep data 0 rules cursor live with
    | ⟨_, next, some ending, live⟩ => ⟨next, ending, live⟩
    | ⟨false, next, none, live⟩ => ⟨next, .stuck, live⟩
    | ⟨true, next, none, live⟩ => go data rules next live
  else
    ⟨cursor, .complete, live⟩
termination_by Run.bound data rules cursor
decreasing_by
  rw [sweep_eq] at _hsweep
  simp only [Sweep.mk.injEq] at _hsweep
  obtain ⟨hfired, hnext, hending, -⟩ := _hsweep
  have := Run.bound_lt (by assumption) hending (by simpa using hfired)
  rwa [hnext] at this

section

variable {data : Bytes} {rules : List Rule} {cursor next : Cursor} {fired : List Firing}

theorem go_of_ending {ending : Ending} (hlt : cursor.position < data.size)
    (hpass : Pass.ofRules data 0 rules cursor = ⟨fired, next, some ending⟩) (live : Live)
    : go data rules cursor live = ⟨next, ending, live.follow fired next (some ending)⟩ := by
  have hsweep := sweep_of_eq hpass live
  unfold go
  rw [if_pos hlt]
  split
  . simp_all
  . simp_all
  . simp_all

theorem go_of_stuck (hlt : cursor.position < data.size)
    (hpass : Pass.ofRules data 0 rules cursor = ⟨[], next, none⟩) (live : Live)
    : go data rules cursor live = ⟨next, .stuck, live⟩ := by
  have hsweep := sweep_of_eq hpass live
  unfold go
  rw [if_pos hlt]
  split
  . simp_all
  . simp_all [follow_nil]
  . simp_all

theorem go_of_open {firing : Firing} (hlt : cursor.position < data.size)
    (hpass : Pass.ofRules data 0 rules cursor = ⟨firing :: fired, next, none⟩) (live : Live)
    : go data rules cursor live
        =
      go data rules next (live.follow (firing :: fired) next none) := by
  have hsweep := sweep_of_eq hpass live
  rw [go]
  rw [if_pos hlt]
  split
  . simp_all
  . simp_all
  . simp_all

theorem go_of_size_le (hle : data.size ≤ cursor.position) (live : Live)
    : go data rules cursor live = ⟨cursor, .complete, live⟩ := by
  have : ¬ cursor.position < data.size := by omega
  unfold go
  rw [if_neg this]

end

theorem go_of_final {data : Bytes} {rules : List Rule} {last : Cursor} {final : Run}
    (h : Run.Final data rules last final) (live : Live)
    : go data rules last live
        =
      ⟨final.cursor, final.ending, live.follow final.fired final.cursor (some final.ending)⟩ := by
  cases h with
  | exhausted hle =>
    rw [go_of_size_le hle]
    exact congrArg (Halt.mk last .complete) (follow_nil live last).symm
  | ended hlt hpass =>
    rw [go_of_ending hlt hpass]
    simp [Run.fired]
  | stuck hlt hpass =>
    rw [go_of_stuck hlt hpass]
    exact congrArg (Halt.mk last .stuck) (follow_nil live last).symm

theorem go_of_passes {data : Bytes} {rules : List Rule} {cursor last : Cursor}
    {passes : List (List Firing)} (h : Passes data rules cursor passes last) (live : Live)
    : go data rules cursor live
        =
      go data rules last (live.follow passes.flatten last none) := by
  induction h generalizing live with
  | none => rw [List.flatten_nil, follow_nil]
  | @pass cursor next last fired passes hlt hfired hpass _ ih =>
    obtain ⟨firing, fired, rfl⟩ := List.exists_cons_of_ne_nil hfired
    rw [go_of_open hlt hpass]
    rw [ih]
    rw [List.flatten_cons, follow_append _ _ _ next]

theorem go_eq (data : Bytes) (rules : List Rule) (cursor : Cursor) (live : Live)
    : go data rules cursor live
        =
      let run := Run.ofCursor data rules cursor
      ⟨run.cursor, run.ending, live.follow run.fired run.cursor (some run.ending)⟩ := by
  obtain ⟨passes, last, final, hpasses, hfinal, hrun⟩ := Run.exists_final data rules cursor
  rw [go_of_passes hpasses]
  rw [go_of_final hfinal]
  rw [← follow_append]
  simp [hrun, Run.after, Run.fired]

end Live

namespace Format

/-- Decodes while writing to the tally if one is given. -/
def decodeLive (format : Format) (tally : Option Tally) (data : Bytes) (offset fill : Int) :
    Except Decode.Error Image × Option Tally :=
  match checkedFill offset fill with
  | .error error => (.error error, tally)
  | .ok fill =>
    let opened := ⟨.blank fill, tally.map (·.openAt offset)⟩
    let ⟨cursor, ending, live⟩ := Live.go data format.rules (Run.start offset) opened
    let left := live.tally.map (·.leave cursor ending)
    match ending with
    | .complete => (.ok live.image, left)
    | .stuck =>
      let look := data.lookahead cursor.position
      (.error (.stuck format.name cursor.position look live.image), left)
    | .failed _ _ fault => (.error (.fault fault), left)

variable (format : Format) (data : Bytes) (offset fill : Int)

theorem decodeLive_of_fill {byte : UInt8} (h : checkedFill offset fill = .ok byte)
    (tally : Option Tally)
    : let run := format.run data offset
      format.decodeLive tally data offset fill
        =
      (format.outcome data byte run,
        tally.map fun tally =>
          ((run.fired.foldl Tally.step (tally.openAt offset)).stepFailed run.cursor
            (some run.ending)).leave run.cursor run.ending) := by
  intro run
  have hrun : run = Run.ofCursor data format.rules (Run.start offset) := by rfl
  unfold decodeLive
  simp only [h, Live.go_eq, ← hrun]
  unfold outcome
  cases hending : run.ending with
  | complete =>
    simp only [Live.follow, Run.image, Option.map_map]
    rfl
  | stuck =>
    simp only [Live.follow, Run.image, Option.map_map]
    rfl
  | failed index rule fault =>
    simp only [Live.follow, Option.map_map]
    rfl

theorem decodeWith_fst (tally : Tally)
    : (format.decodeWith tally data offset fill).1 = format.decode data offset fill := by
  unfold decodeWith decode
  cases checkedFill offset fill with
  | error error => rfl
  | ok byte => rfl

theorem decodeLive_fst (tally : Option Tally)
    : (format.decodeLive tally data offset fill).1 = format.decode data offset fill := by
  cases hfill : checkedFill offset fill with
  | error error =>
    simp only [decodeLive, decode, hfill]
    rfl
  | ok byte =>
    rw [decodeLive_of_fill format data offset fill hfill]
    simp only [decode, hfill]
    rfl

theorem decodeLive_none
    : format.decodeLive none data offset fill = (format.decode data offset fill, none) := by
  apply Prod.ext
  . exact decodeLive_fst format data offset fill none
  . cases hfill : checkedFill offset fill with
    | error error => simp only [decodeLive, hfill]
    | ok byte =>
      rw [decodeLive_of_fill format data offset fill hfill]
      rfl

/-- It comes to the same if the tally is written to at each step or at the end of all. -/
theorem decodeLive_some {tally : Tally} (h : tally.Sound)
    : format.decodeLive (some tally) data offset fill
        =
      (format.decodeWith tally data offset fill).map id some := by
  cases hfill : checkedFill offset fill with
  | error error =>
    simp only [decodeLive, decodeWith, hfill]
    rfl
  | ok byte =>
    rw [decodeLive_of_fill format data offset fill hfill]
    rw [Option.map_some, Tally.observe_eq h.skippedAddresses]
    simp only [decodeWith, hfill]
    rfl

variable {offset fill}

theorem checkedFill_of_neg (h : offset < 0)
    : checkedFill offset fill = .error (.negativeOffset offset) := by
  rw [checkedFill, if_pos h]

theorem checkedFill_of_outside (hoffset : 0 ≤ offset) (h : fill < 0 ∨ 255 < fill)
    : checkedFill offset fill = .error (.image (.fill fill)) := by
  have hfill : ¬(0 ≤ fill ∧ fill ≤ 0xFF) := by omega
  rw [checkedFill, if_neg (by omega)]
  rw [Image.fillByte, if_neg hfill]
  rfl

theorem decode_of_checkedFill {error : Decode.Error} (h : checkedFill offset fill = .error error)
    (tally : Tally)
    : format.decodeWith tally data offset fill = (.error error, tally) ∧
      format.decodeLive (some tally) data offset fill = (.error error, some tally) := by
  simp only [decodeWith, decodeLive, h]
  exact ⟨trivial, trivial⟩

variable (offset fill)

/-- A decode returns the same without a tally and with any, be it written to at the end or at each
step on the way. If there is no decode because the offset or the fill is impossible, the tally stays
as it was. -/
theorem decode_whatever_tally
    : (∀ tally, (format.decodeWith tally data offset fill).1 = format.decode data offset fill) ∧
      (∀ tally, (format.decodeLive tally data offset fill).1 = format.decode data offset fill) ∧
      format.decodeLive none data offset fill = (format.decode data offset fill, none) ∧
      (∀ tally, Tally.Reachable tally →
        format.decodeLive (some tally) data offset fill
          =
        (format.decode data offset fill,
          some (format.decodeWith tally data offset fill).2)) ∧
      (offset < 0 → ∀ tally,
        format.decodeWith tally data offset fill = (.error (.negativeOffset offset), tally) ∧
        format.decodeLive (some tally) data offset fill
          = (.error (.negativeOffset offset), some tally)) ∧
      (0 ≤ offset → fill < 0 ∨ 255 < fill → ∀ tally,
        format.decodeWith tally data offset fill = (.error (.image (.fill fill)), tally) ∧
        format.decodeLive (some tally) data offset fill
          = (.error (.image (.fill fill)), some tally)) := by
  refine ⟨?_, ?_, ?_, ?_, ?_, ?_⟩
  . exact format.decodeWith_fst data offset fill
  . exact format.decodeLive_fst data offset fill
  . exact format.decodeLive_none data offset fill
  . intro tally htally
    rw [format.decodeLive_some data offset fill htally.consistent.toSound]
    rw [← format.decodeWith_fst data offset fill tally]
    rfl
  . intro hoffset
    exact format.decode_of_checkedFill data (checkedFill_of_neg hoffset)
  . intro hoffset hfill
    exact format.decode_of_checkedFill data (checkedFill_of_outside hoffset hfill)

/-- Nineteen bytes that miss the memory leave a tally with addresses in it. A decode into it that is
written step by step leaves what one leaves that is added at its end, and a decode from before the
input, or with a fill that is no byte, leaves it alone. -/
theorem decode_whatever_tally_dropped
    : let data : Bytes := #[0xFF, 0x3F, 20, 7, 0xFF]
      let tally := (konami2.decodeWith {} data 0 0).2
      tally.skippedWrites = 19 ∧
        konami2.decodeLive (some tally) data 0 0
          = (konami2.decode data 0 0, some (konami2.decodeWith tally data 0 0).2) ∧
        konami2.decodeWith tally data (-1) 0 = (.error (.negativeOffset (-1)), tally) ∧
        konami2.decodeLive (some tally) data 0 256
          = (.error (.image (.fill 256)), some tally) := by
  intro data tally
  have h : tally.Reachable := .decode .empty ..
  have hwrites : tally.skippedWrites = 19 := by decide +kernel
  obtain ⟨-, -, -, hreachable, -, -⟩ := konami2.decode_whatever_tally data 0 0
  obtain ⟨-, -, -, -, hnegative, -⟩ := konami2.decode_whatever_tally data (-1) 0
  obtain ⟨-, -, -, -, -, hfill⟩ := konami2.decode_whatever_tally data 0 256
  refine ⟨hwrites, hreachable tally h, ?_, ?_⟩
  . exact (hnegative (by decide) tally).1
  . exact (hfill (by decide) (by decide) tally).2

end Format

end PpuCodec
