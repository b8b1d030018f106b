import PpuCodec.Proofs.Decode.Forward
import PpuCodec.Proofs.Decode.Mirror
import PpuCodec.Proofs.Decode.Stream
import PpuCodec.Proofs.Format.SelfContained

/-!
The two Konami tables on streams in which they mean the same. The second one has other readings for
three of the codes and wants an address first. If none of these codes is come to, and the address is
the one at which the first format starts, the decodes write the same.
-/

namespace PpuCodec

namespace Format

open Rule (FirstAt Twins)

/-- The code is read alike by both tables. -/
def KonamiShared (code : UInt8) : Prop :=
  code ≠ 0x00 ∧ code ≠ 0x7F ∧ code ≠ 0x80

instance (code : UInt8) : Decidable (KonamiShared code) :=
  inferInstanceAs (Decidable (code ≠ 0x00 ∧ code ≠ 0x7F ∧ code ≠ 0x80))

section

variable {rest : List UInt8} {atStart : Bool}

theorem KonamiShared.toNat_ne {code : UInt8} (h : KonamiShared code)
    : code.toNat ≠ 0x00 ∧ code.toNat ≠ 0x7F ∧ code.toNat ≠ 0x80 := by
  obtain ⟨hzero, hseek, hlong⟩ := h
  exact ⟨fun heq => hzero (UInt8.toNat_inj.mp heq), fun heq => hseek (UInt8.toNat_inj.mp heq),
    fun heq => hlong (UInt8.toNat_inj.mp heq)⟩

/-- What the first table does with a shared code, the second one does as well. -/
theorem konami2_firstAt_of_konami {index : Nat} {rule : Rule}
    (h : FirstAt konami.rules (Bytes.lookaheadOf rest) atStart index rule)
    (hshared : ∀ code, rest[0]? = some code → KonamiShared code)
    : ∃ index' rule',
        FirstAt konami2.rules (Bytes.lookaheadOf rest) false index' rule' ∧
        rule.Twins rule' ∧
        rule'.continues = false := by
  have haccepts := h.accepts
  have hmem : rule ∈ konami.rules := List.mem_of_getElem? h.getElem?
  simp only [konami, List.mem_cons, List.not_mem_nil, or_false] at hmem
  cases rest with
  | nil =>
    rcases hmem with rfl | rfl | rfl
    all_goals simp at haccepts
  | cons code more =>
    have hcode := (hshared code rfl).toNat_ne
    rcases hmem with rfl | rfl | rfl
    . refine ⟨2, konami2.rules[2], ?_, ⟨rfl, rfl, rfl, rfl⟩, rfl⟩
      cases more with
      | nil => simp at haccepts
      | cons value more =>
        simp at haccepts
        constructor
        . rfl
        . simp [konami2]
          omega
        . simp [konami2]
          omega
    . refine ⟨5, konami2.rules[5], ?_, ⟨rfl, rfl, rfl, rfl⟩, rfl⟩
      simp at haccepts
      constructor
      . rfl
      . simp [konami2]
        omega
      . simp [konami2]
        grind
    . refine ⟨6, konami2.rules[6], ?_, ⟨rfl, rfl, rfl, rfl⟩, rfl⟩
      simp at haccepts
      constructor
      . rfl
      . simp [konami2]
        omega
      . simp [konami2]
        grind

theorem konami2_rejects_of_konami (hrest : rest ≠ [])
    (h : ∀ rule ∈ konami.rules, rule.accepts (Bytes.lookaheadOf rest) atStart = false)
    : ∀ rule ∈ konami2.rules, rule.accepts (Bytes.lookaheadOf rest) false = false := by
  match rest with
  | [code] =>
    have := code.toNat_lt
    simp [konami] at h
    simp [konami2]
    omega
  | code :: value :: more =>
    have := code.toNat_lt
    simp [konami] at h
    omega

end

variable (data : Bytes)

def konamiMirror : Mirror (Int × Effect) where
  related cursor cursor' := 0 ≤ cursor.position ∧ cursor'.position = cursor.position + 2 ∧
    cursor'.address = cursor.address ∧ cursor'.atStart = false
  covers firing := ∀ code, data.byte? firing.cursor.position = some code → KonamiShared code
  view firing := (firing.cursor.position + 2, firing.effect)
  view' firing := (firing.cursor.position, firing.effect)

theorem konami_continues : ∀ rule ∈ konami.rules, rule.continues = false := by
  simp [konami]

variable {data} {data' : Bytes} {rest : List UInt8} {cursor cursor' : Cursor}

/-- A pass in which a rule of the first table applies, and the one that its twin makes. -/
theorem konamiMirror_passes_of_firstAt (hrelated : (konamiMirror data).related cursor cursor')
    (hreads : data.ReadsAt cursor.position rest) (hreads' : data'.ReadsAt cursor'.position rest)
    {index : Nat} {rule : Rule}
    (hfirst : FirstAt konami.rules (data.lookahead cursor.position) cursor.atStart index rule)
    (hcovers : ∀ firing ∈ (Pass.ofRules data 0 konami.rules cursor).fired,
      (konamiMirror data).covers firing)
    : (konamiMirror data).Passes (Pass.ofRules data 0 konami.rules cursor)
        (Pass.ofRules data' 0 konami2.rules cursor') := by
  obtain ⟨hposition, hposition', haddress, hstart⟩ := hrelated
  have hmem : rule ∈ konami.rules := List.mem_of_getElem? hfirst.getElem?
  have hself := konami_selfContained rule hmem
  have haccepts := hfirst.accepts
  rw [hreads.lookahead_eq] at haccepts
  obtain ⟨firing, hfire, hspends⟩ := hself.exists_fire (0 + index) hreads haccepts
  have hcursor := (Rule.fire_eq_ok hfire).1
  have hpass := Pass.ofRules_of_breaks hfirst hfire (konami_continues rule hmem)
  have hshared : ∀ code, rest[0]? = some code → KonamiShared code := by
    intro code hcode
    apply hcovers firing
    . simp [hpass]
    . rw [hcursor, ← hcode]
      simpa using hreads.byte?_eq 0
  rw [hreads.lookahead_eq] at hfirst
  obtain ⟨index', rule', hfirst', htwins, hcontinues'⟩ := konami2_firstAt_of_konami hfirst hshared
  have hfire' := Rule.fire_congr hfire hreads hreads' haddress htwins hself.checked
    (fun _ _ => rfl) (hspends.action.sourceAlike rfl) (0 + index')
  rw [← hreads'.lookahead_eq, ← hstart] at hfirst'
  have hpass' := Pass.ofRules_of_breaks hfirst' hfire' hcontinues'
  rw [hpass, hpass']
  constructor
  . simp [konamiMirror, hcursor, hposition']
  . have := hspends.size_nonneg
    simp only [konamiMirror, Firing.next, hcursor, hposition', haddress]
    exact ⟨by omega, by omega, trivial, trivial⟩
  . rfl

theorem konamiMirror_inStep (data : Bytes)
    : (konamiMirror data).InStep data (#[0x00, 0x20] ++ data) konami.rules konami2.rules := by
  constructor
  . intro cursor cursor' hrelated
    simp only [konamiMirror] at hrelated
    simp only [Array.size_append, List.size_toArray, List.length_cons, List.length_nil]
    omega
  . intro cursor cursor' hrelated hlt hcovers
    have hposition : 0 ≤ cursor.position := hrelated.1
    have hreads := data.readsAt_drop hposition
    have hreads' := hreads.prepend #[0x00, 0x20]
    have hposition' : cursor.position + (2 : Nat) = cursor'.position := hrelated.2.1.symm
    change Bytes.ReadsAt _ (cursor.position + (2 : Nat)) _ at hreads'
    rw [hposition'] at hreads'
    cases Rule.forall_rejects_or_exists_firstAt konami.rules (data.lookahead cursor.position)
        cursor.atStart with
    | inl hrejects =>
      rw [Pass.ofRules_of_rejects 0 hrejects]
      rw [Pass.ofRules_of_rejects 0]
      . exact ⟨rfl, hrelated, rfl⟩
      . rw [hreads.lookahead_eq] at hrejects
        rw [hreads'.lookahead_eq, hrelated.2.2.2]
        exact konami2_rejects_of_konami (hreads.ne_nil hlt) hrejects
    | inr hexists =>
      obtain ⟨index, rule, hfirst⟩ := hexists
      exact konamiMirror_passes_of_firstAt hrelated hreads hreads' hfirst hcovers

/-- The second table sets the address, and then stands where the first one begins. -/
theorem konami2_firstPass (data : Bytes)
    : Pass.ofRules (#[0x00, 0x20] ++ data) 0 konami2.rules (Run.start 0)
        =
      ⟨[⟨0, konami2.rules[0], Run.start 0, 2, .seek 0x2000⟩], ⟨2, 0x2000, false⟩, none⟩ := by
  have hreads : Bytes.ReadsAt (#[0x00, 0x20] ++ data) 0 ([0x00, 0x20] ++ data.toList) := by
    constructor
    . decide
    . simp
  apply Pass.ofRules_of_seek 0 konami2.rules[0] hreads ?_ rfl rfl rfl rfl rfl rfl
  constructor
  . rfl
  . simp [konami2]
  . simp

theorem konami2_run_eq (data : Bytes)
    : konami2.run (#[0x00, 0x20] ++ data) 0
        =
      (Run.ofCursor (#[0x00, 0x20] ++ data) konami2.rules ⟨2, 0x2000, false⟩).after
        [[⟨0, konami2.rules[0], Run.start 0, 2, .seek 0x2000⟩]] := by
  apply Run.ofCursor_of_open _ (by simp) (konami2_firstPass data)
  simp only [Array.size_append, List.size_toArray, List.length_cons, List.length_nil, Run.start]
  omega

theorem konami2_echoes {data : Bytes}
    (hshared : ∀ firing ∈ (konami.run data 0).fired, (konamiMirror data).covers firing)
    : (konami.run data 0).Echoes 2 (konami2.run (#[0x00, 0x20] ++ data) 0) ∧
      0 ≤ (konami.run data 0).cursor.position := by
  have hstart : (konamiMirror data).related (Run.start 0) ⟨2, 0x2000, false⟩ :=
    ⟨Int.le_refl _, rfl, rfl, rfl⟩
  have hruns := (konamiMirror_inStep data).runs hstart hshared
  obtain ⟨hposition, hposition', haddress, -⟩ := hruns.cursor
  rw [konami2_run_eq]
  refine ⟨?_, hposition⟩
  apply Run.Echoes.after_seek _ rfl
  exact Run.echoes_of_fired hruns.ending hposition' haddress hruns.fired

theorem konami2_decodeWith_of_konami (data : Bytes) (fill : UInt8)
    (hshared : ∀ firing ∈ (konami.run data 0).fired, ∀ code,
      data.byte? firing.cursor.position = some code → KonamiShared code)
    : ∃ tally tally',
        tally.Echoes 2 tally' ∧
        ((∃ image,
          konami.decodeWith {} data 0 fill.toNat = (.ok image, tally) ∧
          konami2.decodeWith {} (#[0x00, 0x20] ++ data) 0 fill.toNat = (.ok image, tally')) ∨
        ∃ position look image,
          konami.decodeWith {} data 0 fill.toNat
            = (.error (.stuck konami.name position look image), tally) ∧
          konami2.decodeWith {} (#[0x00, 0x20] ++ data) 0 fill.toNat
            = (.error (.stuck konami2.name (position + 2) look image), tally')) := by
  obtain ⟨hechoes, hposition⟩ := konami2_echoes hshared
  have hnever : ∀ index rule fault, (konami.run data 0).ending ≠ .failed index rule fault := by
    intro index rule fault
    exact Run.ending_ne_failed konami_selfContained (Int.le_refl 0)
  rw [konami.decodeWith_eq_outcome {} data (Int.le_refl 0) fill]
  rw [konami2.decodeWith_eq_outcome {} _ (Int.le_refl 0) fill]
  refine ⟨_, _, hechoes.observe hnever 0 0, ?_⟩
  rcases outcome_of_echoes konami konami2 hechoes hnever
    (Bytes.lookahead_prepend #[0x00, 0x20] data hposition) fill with
    ⟨image, h, h'⟩ | ⟨position, look, image, h, h'⟩
  . rw [h, h']
    exact .inl ⟨image, rfl, rfl⟩
  . rw [h, h']
    exact .inr ⟨position, look, image, rfl, rfl⟩

/-- A run, and a block of which most is missing. -/
theorem konami2_decodeWith_cutBlock
    : let data : Bytes := #[0x03, 0x41, 0x85, 0x10]
      ∃ image tally tally',
        konami.decodeWith {} data 0 (0x00 : UInt8).toNat = (.ok image, tally) ∧
        konami2.decodeWith {} (#[0x00, 0x20] ++ data) 0 (0x00 : UInt8).toNat = (.ok image, tally') ∧
        tally.truncatedCopy = some 2 ∧
        tally'.truncatedCopy = some 4 := by
  intro data
  have hcodes : (konami.run data 0).fired.map (fun firing => data.byte? firing.cursor.position)
      = [some 0x03, some 0x85] := by
    decide +kernel
  have hending : (konami.run data 0).ending = .complete := by decide +kernel
  have hcut : (konami.run data 0).truncatedCopies = [2] := by decide +kernel
  obtain ⟨tally, tally', hechoes, hdecode⟩ := konami2_decodeWith_of_konami data 0x00 (by
    intro firing hmem code hcode
    have hcodes : some code ∈ [some 0x03, some 0x85] := by
      rw [← hcodes, ← hcode]
      exact List.mem_map_of_mem hmem
    simp only [List.mem_cons, Option.some.injEq, List.not_mem_nil, or_false] at hcodes
    rcases hcodes with rfl | rfl
    . decide
    . decide)
  have htally : konami.decodeWith {} data 0 (0x00 : UInt8).toNat
      = (.ok ((konami.run data 0).image 0x00), Tally.observe {} 0 (konami.run data 0)) := by
    rw [konami.decodeWith_eq_outcome {} data (Int.le_refl 0), outcome, hending]
  rcases hdecode with ⟨image, hfirst, hsecond⟩ | ⟨position, look, image, hfirst, -⟩
  . rw [hfirst] at htally
    have hplace : tally.truncatedCopy = some 2 := by
      rw [(Prod.mk.inj htally).2]
      simp [Tally.observe, hcut]
    refine ⟨image, tally, tally', hfirst, hsecond, hplace, ?_⟩
    rw [hechoes.truncatedCopy, hplace]
    rfl
  . rw [htally] at hfirst
    simp at hfirst

end Format

end PpuCodec
