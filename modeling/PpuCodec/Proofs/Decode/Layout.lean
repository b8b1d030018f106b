import PpuCodec.Decode
import PpuCodec.Proofs.Decode.Input
import PpuCodec.Proofs.Decode.Passes
import PpuCodec.Proofs.Decode.Pen

/-!
Streams of records. A table of rules reads a record if, wherever the bytes of the record stand, one
pass over the table does to the pen what the record says. If it reads each record of a stream then
it reads the stream, whatever comes before and after it.
-/

namespace PpuCodec

/-- How records are written down, what each does to the pen, and which ones are discouraged. -/
structure Layout (R : Type) where
  bytes : R → List UInt8
  draw : R → Pen → Pen
  discouraged : R → Bool := fun _ => false

namespace Layout

variable {R : Type}

def encode (layout : Layout R) (records : List R) : List UInt8 :=
  records.flatMap layout.bytes

def drawAll (layout : Layout R) (records : List R) (pen : Pen) : Pen :=
  records.foldl (fun pen record => layout.draw record pen) pen

def discouragedAt (layout : Layout R) (place : Int) : List R → List Int
  | [] => []
  | record :: records =>
    (if layout.discouraged record then [place] else []) ++
      layout.discouragedAt (place + (layout.bytes record).length) records

end Layout

/-- No rule of the table waits for the start of the decode any more. -/
def Underway (rules : List Rule) (atStart : Bool) : Prop :=
  atStart = true → ∀ rule ∈ rules, rule.startOnly = false

theorem Underway.atStart_eq_false {rules : List Rule} {atStart : Bool}
    (h : Underway rules atStart) (hstart : ∃ rule ∈ rules, rule.startOnly = true)
    : atStart = false := by
  obtain ⟨rule, hmem, hrule⟩ := hstart
  cases atStart with
  | false => rfl
  | true =>
    have := h rfl rule hmem
    simp [hrule] at this

/-- Firings that take the pen from one state to another and leave the decode open. The places of the
discouraged ones are `hits`. -/
structure Draws (fired : List Firing) (pen pen' : Pen) (hits : List Int) : Prop where
  follow : fired.foldl (fun pen firing => pen.follow firing.effect) pen = pen'
  finishes : ∀ firing ∈ fired, firing.effect.finishes = false
  hits : (fired.filter (·.rule.discouraged)).map (·.cursor.position) = hits

namespace Draws

theorem nil (pen : Pen) : Draws [] pen pen [] := by
  constructor
  . simp
  . simp
  . simp

theorem append {xs ys : List Firing} {pen₁ pen₂ pen₃ : Pen} {hx hy : List Int}
    (h₁ : Draws xs pen₁ pen₂ hx) (h₂ : Draws ys pen₂ pen₃ hy)
    : Draws (xs ++ ys) pen₁ pen₃ (hx ++ hy) := by
  constructor
  . rw [List.foldl_append]
    rw [h₁.follow]
    rw [h₂.follow]
  . intro firing hmem
    cases List.mem_append.mp hmem with
    | inl h => exact h₁.finishes firing h
    | inr h => exact h₂.finishes firing h
  . rw [List.filter_append, List.map_append]
    rw [h₁.hits, h₂.hits]

end Draws

namespace Layout

variable {R : Type} {layout : Layout R} {rules : List Rule} {data : Bytes}

/-- Wherever the bytes of the record stand, a pass over the rules does what the record says. -/
structure ReadBy (layout : Layout R) (rules : List Rule) (record : R) : Prop where
  bytes_ne_nil : layout.bytes record ≠ []
  pass : ∀ {data : Bytes} (start : Nat) (cursor : Cursor) (pen : Pen) {rest : List UInt8},
    Underway rules cursor.atStart → cursor.address = pen.address →
      data.ReadsAt cursor.position (layout.bytes record ++ rest) →
        ∃ fired, fired ≠ [] ∧
          Pass.ofRules data start rules cursor =
            ⟨fired, ⟨cursor.position + (layout.bytes record).length,
              (layout.draw record pen).address, false⟩, none⟩ ∧
          Draws fired pen (layout.draw record pen)
            (if layout.discouraged record then [cursor.position] else [])

theorem passes_of_readBy {records : List R} (cursor : Cursor) (pen : Pen) {rest : List UInt8}
    (hread : ∀ record ∈ records, layout.ReadBy rules record)
    (hunderway : Underway rules cursor.atStart) (haddress : cursor.address = pen.address)
    (hreads : data.ReadsAt cursor.position (layout.encode records ++ rest))
    : ∃ passes last,
        Passes data rules cursor passes last ∧
        Underway rules last.atStart ∧
        last.position = cursor.position + (layout.encode records).length ∧
        last.address = (layout.drawAll records pen).address ∧
        Draws passes.flatten pen (layout.drawAll records pen)
          (layout.discouragedAt cursor.position records) := by
  -- Cursor and pen agree on the address after every record, and this is what carries the induction.
  induction records generalizing cursor pen with
  | nil =>
    refine ⟨[], cursor, .none, hunderway, ?_, haddress, .nil pen⟩
    simp [encode]
  | cons record records ih =>
    have hrecord := hread record (by simp)
    simp only [encode, List.flatMap_cons, List.append_assoc] at hreads
    obtain ⟨fired, hfired, hpass, hdraws⟩ := hrecord.pass 0 cursor pen hunderway haddress hreads
    have hlt := hreads.lt_size (by simp [hrecord.bytes_ne_nil])
    obtain ⟨passes, last, hpasses, hlast, hposition, hlastAddress, hrest⟩ :=
      ih ⟨_, _, false⟩ (layout.draw record pen) (fun other hother => hread other (by simp [hother]))
        (by simp [Underway]) rfl hreads.advance
    refine ⟨fired :: passes, last, .pass hlt hfired hpass hpasses, hlast, ?_, hlastAddress, ?_⟩
    . rw [hposition]
      simp only [encode, List.flatMap_cons, List.length_append]
      omega
    . rw [List.flatten_cons]
      exact hdraws.append hrest

end Layout

end PpuCodec
