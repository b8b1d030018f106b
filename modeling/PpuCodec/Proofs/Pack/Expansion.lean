import Mathlib.Algebra.Ring.Parity
import Mathlib.Data.List.Range
import PpuCodec.Proofs.Pack.Greedy
import PpuCodec.Proofs.Pack.Runs

/-!
How much longer than its data a stream can get. The Konami formats spend a byte on every block, but a
block that is not full has a run behind it, which makes up for it, or is the last one. The Kemko format
spends three bytes on a marker that stands alone, but the bytes next to it are no markers then.
-/

namespace PpuCodec.Pack

theorem startsRun_of_isChain_ne {data : List UInt8} (h : data.IsChain (· ≠ ·))
    : startsRun data = false := by
  rw [← Bool.not_eq_true, startsRun_iff]
  rintro ⟨b, hprefix⟩
  have := h.prefix hprefix
  simp at this

namespace Konami

/-- Segments take a byte more than their data for every full block and for a last one. If the first
of them is a run, not all of this is used. -/
theorem GreedyCut.length_le {records : List Segment} (h : GreedyCut records)
    : let size := (records.flatMap Segment.expand).length
      (records.flatMap encodeSegment).length ≤ size + (size + 125) / 126 ∧
        ∀ value count after, records = .run value count :: after →
          (records.flatMap encodeSegment).length < size + (size + 125) / 126 := by
  induction records with
  | nil => simp
  | cons record after ih =>
    obtain ⟨hfirst, hafter⟩ := greedyCut_cons.mp h
    obtain ⟨hall, hspare⟩ := ih hafter
    cases record with
    | run value count =>
      obtain ⟨hmin, -⟩ := hfirst
      simp only [List.flatMap_cons, List.length_append, encodeSegment, Segment.expand,
        List.length_replicate, List.length_cons, List.length_nil]
      refine ⟨by omega, ?_⟩
      intro _ _ _ _
      omega
    | block bytes =>
      obtain ⟨hmin, hcap, -, hadjacent⟩ := hfirst
      simp only [List.flatMap_cons, List.length_append, encodeSegment, Segment.expand,
        List.length_cons]
      refine ⟨?_, by simp⟩
      -- What follows decides if the block is full, or if there is a byte to spare behind it.
      cases after with
      | nil =>
        simp only [List.flatMap_nil, List.length_nil]
        omega
      | cons next others =>
        cases next with
        | run value count =>
          have := hspare value count others rfl
          omega
        | block more =>
          have := hadjacent more others rfl
          omega

theorem length_body_le (data : List UInt8)
    : (body data).length ≤ data.length + (data.length + 125) / 126 + 1 := by
  have := (greedyCut_segments data).length_le.1
  rw [flatMap_expand_segments] at this
  rw [body, List.length_append, List.length_singleton]
  omega

theorem length_blockBytes_of_isChain_ne (limit : Nat) {data : List UInt8}
    (h : data.IsChain (· ≠ ·))
    : (blockBytes limit data).length = min limit data.length := by
  fun_induction blockBytes limit data with
  | case1 => simp
  | case2 => simp
  | case3 limit b rest hstarts => simp [startsRun_of_isChain_ne h] at hstarts
  | case4 limit b rest hstarts ih =>
    rw [List.length_cons, List.length_cons, ih h.tail]
    omega

/-- Without a run there are only blocks, and all but the last one are full. -/
theorem length_body_of_isChain_ne {data : List UInt8} (h : data.IsChain (· ≠ ·))
    : (body data).length = data.length + (data.length + 125) / 126 + 1 := by
  have hsegments : ((segments data).flatMap encodeSegment).length
      = data.length + (data.length + 125) / 126 := by
    fun_induction segments data with
    | case1 => rfl
    | case2 b rest count hrun ih =>
      have := startsRun_iff_minRun_le.mpr hrun
      simp [startsRun_of_isChain_ne h] at this
    | case3 b rest count hrun more ih =>
      have hlimit : maxLength - 1 = 125 := by rfl
      have hmore : more.length = min 125 rest.length := by
        rw [← hlimit]
        exact length_blockBytes_of_isChain_ne _ h.tail
      rw [List.flatMap_cons, List.length_append, ih (h.tail.drop more.length)]
      simp only [encodeSegment, List.length_cons, List.length_drop, hmore]
      omega
  rw [body, List.length_append, List.length_singleton, hsegments]

theorem isChain_ne_range (n : Nat)
    : ((List.range n).map UInt8.ofNat).IsChain (· ≠ ·) := by
  rw [List.isChain_map, List.isChain_range]
  intro m hm heq
  have := congrArg UInt8.toNat heq
  simp only [UInt8.toNat_ofNat'] at this
  omega

/-- What is packed at an address of the memory is the body, which ends with the end mark, and before
it two bytes of header if there is one. -/
theorem exists_encode_eq (data : List UInt8) {address : Int} (hlow : 0 ≤ address)
    (hhigh : address < 0x4000) (withHeader : Bool)
    : ∃ packed,
        encode data address withHeader = .ok packed ∧
        packed.length + 1 = (body data).length + if withHeader then 3 else 1 := by
  have hholds : Image.checkAddress address = .ok address := by
    simp [Image.checkAddress, Image.holds, hlow, hhigh]
  rw [encode, hholds]
  refine ⟨_, rfl, ?_⟩
  cases withHeader with
  | true =>
    simp only [header, if_true, List.length_append, List.length_cons, List.length_nil]
    omega
  | false => simp

/-- Packed data is at most as much longer than the data as there are blocks of 126 bytes in it, the
last one counted in full, and the header and the end mark. Data of any length can get that long. -/
theorem encode_length_le_blocks
    : (∀ data address withHeader, 0 ≤ address → address < 0x4000 →
        ∃ packed,
          encode data address withHeader = .ok packed ∧
          packed.length
            ≤ data.length + (data.length + 125) / 126 + if withHeader then 3 else 1) ∧
      ∀ n, ∃ data, data.length = n ∧
        ∀ address withHeader, 0 ≤ address → address < 0x4000 →
          ∃ packed,
            encode data address withHeader = .ok packed ∧
            packed.length = n + (n + 125) / 126 + if withHeader then 3 else 1 := by
  constructor
  . intro data address withHeader hlow hhigh
    obtain ⟨packed, hencode, hlength⟩ := exists_encode_eq data hlow hhigh withHeader
    refine ⟨packed, hencode, ?_⟩
    have := length_body_le data
    omega
  . intro n
    refine ⟨(List.range n).map UInt8.ofNat, by simp, ?_⟩
    intro address withHeader hlow hhigh
    obtain ⟨packed, hencode, hlength⟩ :=
      exists_encode_eq ((List.range n).map UInt8.ofNat) hlow hhigh withHeader
    refine ⟨packed, hencode, ?_⟩
    rw [length_body_of_isChain_ne (isChain_ne_range n)] at hlength
    rw [List.length_map, List.length_range] at hlength
    omega

/-- One byte more than a block can hold, two bytes of header and one that ends the data. -/
theorem encode_length_le_blocks_two_blocks
    : ∃ data, data.length = 127 ∧
        ∃ packed, encode data 0x3FFF true = .ok packed ∧ packed.length = 127 + 2 + 3 := by
  obtain ⟨data, hlength, hpacked⟩ := encode_length_le_blocks.2 127
  exact ⟨data, hlength, hpacked 0x3FFF true (by decide) (by decide)⟩

end Konami

namespace Kemko

/-- A run of the marker takes at most a byte more than twice its length, any other run no more than its
length. -/
theorem length_encodeRun_le (value : UInt8) (count : Nat)
    : (encodeRun value count).length
        ≤ if value = 0xFF then 2 * count + min count 1 else count := by
  fun_induction encodeRun value count with
  | case1 count hleast ih =>
    rw [leastRun] at hleast
    rw [List.length_append]
    simp only [List.length_cons, List.length_nil]
    split
    . next hvalue =>
      simp only [if_pos hvalue] at ih hleast
      omega
    . next hvalue =>
      simp only [if_neg hvalue] at ih hleast
      omega
  | case2 count hleast =>
    rw [List.length_replicate]
    split
    . omega
    . exact Nat.le_refl count

/-- Runs of the marker do not follow each other, so the byte that one of them may cost is made up for by
what stands behind it, unless it is the first. -/
theorem length_body_le_double (data : List UInt8)
    : (body data).length ≤ 2 * data.length + if data.head? = some 0xFF then 1 else 0 := by
  induction data using run_induction with
  | nil => simp [body, segments]
  | run value count rest hpos hrest ih =>
    have hrun := length_encodeRun_le value count
    have hhead : (List.replicate count value ++ rest).head? = some value := by
      rw [List.head?_append, List.head?_replicate, if_neg (by omega)]
      rfl
    rw [body_replicate_append hrest, List.length_append, List.length_append,
      List.length_replicate, hhead]
    by_cases hvalue : value = 0xFF
    . rw [if_pos hvalue] at hrun
      rw [hvalue] at hrest
      rw [if_neg hrest] at ih
      rw [if_pos (by rw [hvalue])]
      omega
    . rw [if_neg hvalue] at hrun
      split at ih
      . omega
      . omega

theorem body_cons {b : UInt8} {rest : List UInt8} (h : rest.head? ≠ some b)
    : body (b :: rest) = encodeRun b 1 ++ body rest := by
  exact @body_replicate_append b 1 rest h

/-- Single markers with a byte between each two of them. -/
def markers (count : Nat) : List UInt8 :=
  0xFF :: (List.replicate count [0x00, 0xFF]).flatten

theorem markers_succ (count : Nat) : markers (count + 1) = 0xFF :: 0x00 :: markers count := by
  simp [markers, List.replicate_succ]

theorem length_markers (count : Nat) : (markers count).length = 2 * count + 1 := by
  simp [markers]
  omega

theorem length_body_markers (count : Nat) : (body (markers count)).length = 4 * count + 3 := by
  induction count with
  | zero => decide +kernel
  | succ count ih =>
    have hmarker : (encodeRun 0xFF 1).length = 3 := by decide +kernel
    have hbetween : (encodeRun 0x00 1).length = 1 := by decide +kernel
    rw [markers_succ, body_cons (by simp), body_cons (by simp [markers])]
    rw [List.length_append, List.length_append, hmarker, hbetween, ih]
    omega

/-- Packed data is at most twice as long as the data, the end mark and a byte more. Data of any odd
length can get that long. -/
theorem encode_length_le_double
    : (∀ data, (encode data).length ≤ 2 * data.length + 4) ∧
      ∀ n, Odd n → ∃ data, data.length = n ∧ (encode data).length = 2 * n + 4 := by
  have hlength : ∀ data, (encode data).length = (body data).length + 3 := by
    intro data
    rw [encode, List.length_append]
    rfl
  constructor
  . intro data
    have := length_body_le_double data
    rw [hlength]
    split at this
    . omega
    . omega
  . rintro n ⟨count, rfl⟩
    refine ⟨markers count, length_markers count, ?_⟩
    rw [hlength, length_body_markers]
    omega

theorem encode_length_le_double_three_markers
    : Odd 5 ∧ ∃ data, data.length = 5 ∧ (encode data).length = 14 := by
  have hodd : Odd 5 := by decide
  exact ⟨hodd, encode_length_le_double.2 5 hodd⟩

end Kemko

end PpuCodec.Pack
