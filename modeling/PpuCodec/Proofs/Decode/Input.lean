import PpuCodec.Bytes

/-!
What a decoder sees of its input from a place on. All that it reads there, the bytes it looks ahead
to and the source of a copy, follows from the bytes that are left.
-/

namespace PpuCodec.Bytes

/-- The bytes of the input from `position` on are `rest`. -/
def ReadsAt (data : Bytes) (position : Int) (rest : List UInt8) : Prop :=
  0 ≤ position ∧ data.toList.drop position.toNat = rest

theorem readsAt_append (before after : Bytes) (stream : List UInt8)
    : ReadsAt (before ++ stream.toArray ++ after) before.size (stream ++ after.toList) := by
  unfold ReadsAt
  constructor
  . omega
  . simp

def lookaheadOf (rest : List UInt8) : Lookahead :=
  [rest[0]?, rest[1]?, rest[2]?].map fun b => b.map fun b => (b.toNat : Int)

namespace ReadsAt

variable {data : Bytes} {position : Int} {rest : List UInt8}

theorem advance {front : List UInt8} (h : data.ReadsAt position (front ++ rest))
    : data.ReadsAt (position + front.length) rest := by
  rcases h with ⟨hpos, hdrop⟩
  constructor
  . omega
  . have : (position + front.length).toNat = position.toNat + front.length := by omega
    rw [this]
    rw [← List.drop_drop]
    rw [hdrop]
    simp

theorem lt_size (h : data.ReadsAt position rest) (hrest : rest ≠ [])
    : position < data.size := by
  rcases h with ⟨hpos, hdrop⟩
  have hlen := congrArg List.length hdrop
  have := List.length_pos_iff.mpr hrest
  simp only [List.length_drop, Array.length_toList] at hlen
  omega

theorem size_le (h : data.ReadsAt position []) : data.size ≤ position := by
  rcases h with ⟨hpos, hdrop⟩
  rw [List.drop_eq_nil_iff, Array.length_toList] at hdrop
  omega

theorem length_eq (h : data.ReadsAt position rest) (hle : position ≤ data.size)
    : (rest.length : Int) = data.size - position := by
  rcases h with ⟨hpos, hdrop⟩
  have hlen := congrArg List.length hdrop
  simp only [List.length_drop, Array.length_toList] at hlen
  omega

theorem ne_nil (h : data.ReadsAt position rest) (hlt : position < data.size)
    : rest ≠ [] := by
  have hlength := h.length_eq (Int.le_of_lt hlt)
  apply List.ne_nil_of_length_pos
  omega

theorem byte?_eq (h : data.ReadsAt position rest) (i : Nat)
    : data.byte? (position + i) = rest[i]? := by
  rcases h with ⟨hpos, hdrop⟩
  have hle : 0 ≤ position + i := by omega
  have hnat : (position + i).toNat = position.toNat + i := by omega
  unfold byte?
  rw [if_pos hle]
  rw [hnat]
  rw [← hdrop]
  rw [List.getElem?_drop]
  rw [Array.getElem?_toList]

theorem lookahead_eq (h : data.ReadsAt position rest)
    : data.lookahead position = lookaheadOf rest := by
  have h0 : data.byte? position = rest[0]? := by simpa using h.byte?_eq 0
  have h1 : data.byte? (position + 1) = rest[1]? := h.byte?_eq 1
  have h2 : data.byte? (position + 2) = rest[2]? := h.byte?_eq 2
  simp [lookahead, lookaheadOf, h0, h1, h2]

theorem readFrom?_eq (h : data.ReadsAt position rest) (skip count : Nat)
    : data.readFrom? (position + skip) count = some ((rest.drop skip).take count) := by
  rcases h with ⟨hpos, hdrop⟩
  have hle : 0 ≤ position + skip := by omega
  have hnat : (position + skip).toNat = position.toNat + skip := by omega
  unfold readFrom?
  rw [if_pos hle]
  rw [hnat]
  rw [Array.toList_extract]
  rw [List.extract_eq_take_drop]
  rw [← hdrop]
  rw [List.drop_drop]
  simp

theorem take (h : data.ReadsAt position rest) (count : Nat)
    : Bytes.ReadsAt (data.take count) position (rest.take (count - position.toNat)) := by
  constructor
  . exact h.1
  . rw [Array.take_eq_extract, Array.toList_extract, List.extract_eq_take_drop]
    rw [List.drop_zero, Nat.sub_zero, List.drop_take]
    rw [h.2]

theorem prepend (h : data.ReadsAt position rest) (before : Bytes)
    : Bytes.ReadsAt (before ++ data) (position + before.size) rest := by
  rcases h with ⟨hpos, hdrop⟩
  have hnat : (position + before.size).toNat = before.size + position.toNat := by omega
  constructor
  . omega
  . rw [hnat, ← hdrop]
    simp [List.drop_append]

/-- What is added to the input is not seen before the input ends. -/
theorem append (h : data.ReadsAt position rest) (after : Bytes)
    : ∃ more, Bytes.ReadsAt (data ++ after) position (rest ++ more) := by
  rcases h with ⟨hpos, hdrop⟩
  refine ⟨after.toList.drop (position.toNat - data.size), hpos, ?_⟩
  rw [Array.toList_append, List.drop_append, hdrop, Array.length_toList]

end ReadsAt

end PpuCodec.Bytes
