import PpuCodec.Proofs.Decode.Input
import PpuCodec.Proofs.Files.Split
import PpuCodec.Proofs.Files.Tidy

/-!
Files that are named with an offset, and what a write does to them.
-/

namespace PpuCodec

namespace FileSpec

variable {path number : String}

theorem parse_path (hne : path ≠ "") (hcolon : ':' ∉ path.toList)
    : parse path = .ok ⟨path, 0, 0⟩ := by
  unfold parse
  rw [Text.pieces_eq_of_not_mem hcolon]
  simp [takeNumbers, Text.join, hne]

theorem ne_empty_of_parse {text : String} {spec : FileSpec} (h : parse text = .ok spec)
    : text ≠ "" := by
  rintro rfl
  have hempty : parse "" = .error (.missingName "") := by rfl
  rw [hempty] at h
  injection h

theorem read_path {store : Store} {data : Bytes} (h : store.read path = .ok data)
    : read ⟨path, 0, 0⟩ store = .ok data := by
  have hall : readAll ⟨path, 0, 0⟩ store = .ok data := by
    rw [readAll, h]
    rfl
  simp only [read, hall, bind, Except.bind, Nat.not_lt_zero, if_false, if_true]
  rw [Array.extract_size]
  rfl

theorem parse_path_number (hne : path ≠ "") (hcolon : ':' ∉ path.toList) {offset : Nat}
    (hnumber : Numeral.parse? number = some offset)
    : parse (path ++ ":" ++ number) = .ok ⟨path, offset, 0⟩ :=
  parse_one_number hne hnumber (.inl hcolon)

end FileSpec

/-- How a file changes when bytes are put into it at an offset: what lies outside of them stays, and
zeros fill the gap if the file ended before the offset. -/
structure Patched (old : Bytes) (offset : Nat) (chunk new : Bytes) : Prop where
  size_eq : new.size = max old.size (offset + chunk.size)
  outside : ∀ i < old.size, i < offset ∨ offset + chunk.size ≤ i → new[i]? = old[i]?
  inside : ∀ i < chunk.size, new[offset + i]? = chunk[i]?
  gap : ∀ i < offset, old.size ≤ i → new[i]? = some 0

/-- What was put into a file is read from the offset on, in front of what was behind it. -/
theorem Patched.readsAt {old chunk new : Bytes} {offset : Nat} (h : Patched old offset chunk new)
    : new.ReadsAt offset (chunk.toList ++ new.toList.drop (offset + chunk.size)) := by
  have hchunk : (new.toList.drop offset).take chunk.size = chunk.toList := by
    apply List.ext_getElem?
    intro i
    rw [List.getElem?_take, List.getElem?_drop, Array.getElem?_toList, Array.getElem?_toList]
    split
    . next hi => exact h.inside i hi
    . next hi => exact (Array.getElem?_eq_none (Nat.le_of_not_lt hi)).symm
  constructor
  . omega
  . rw [Int.toNat_natCast, ← List.drop_drop, ← hchunk, List.take_append_drop]

namespace Target

theorem patched_splice (old : Bytes) (offset : Nat) (chunk : Bytes)
    : Patched old offset chunk (splice old offset chunk) := by
  unfold splice
  generalize hfilled : old ++ Array.replicate (offset - old.size) 0 = filled
  have hsize : filled.size = max old.size offset := by
    rw [← hfilled, Array.size_append, Array.size_replicate]
    omega
  have hold : ∀ i < old.size, filled[i]? = old[i]? := by
    intro i hi
    rw [← hfilled, Array.getElem?_append, if_pos hi]
  have hzero : ∀ i < offset, old.size ≤ i → filled[i]? = some 0 := by
    intro i hi hle
    rw [← hfilled, Array.getElem?_append, if_neg (by omega)]
    rw [Array.getElem?_replicate, if_pos (by omega)]
  have hfront : (filled.extract 0 offset).size = offset := by
    rw [Array.size_extract]
    omega
  have hbefore : ∀ i < offset, (filled.extract 0 offset ++ chunk
      ++ filled.extract (offset + chunk.size) filled.size)[i]? = filled[i]? := by
    intro i hi
    rw [Array.append_assoc, Array.getElem?_append, hfront, if_pos hi]
    rw [Array.getElem?_extract, if_pos (by omega), Nat.zero_add]
  constructor
  . rw [Array.size_append, Array.size_append, hfront, Array.size_extract]
    omega
  . intro i hi hside
    by_cases hlt : i < offset
    . rw [hbefore i hlt, hold i hi]
    . rw [Array.getElem?_append, Array.size_append, hfront, if_neg (by omega)]
      rw [Array.getElem?_extract, if_pos (by omega), ← hold i hi]
      congr 1
      omega
  . intro i hi
    rw [Array.getElem?_append, Array.size_append, hfront, if_pos (by omega)]
    rw [Array.getElem?_append, hfront, if_neg (by omega), Nat.add_sub_cancel_left]
  . intro i hi hle
    rw [hbefore i hi, hzero i hi hle]

variable {store : Store} {path : String} {location : Location} {old : Bytes}

theorem write_fresh (h : store.WritableAt (tidy path) location) (data : Bytes)
    : (fresh path).write store data = .ok (store.put location (.bytes data), data.size) := by
  simp only [write, h.write_eq, bind, Except.bind]
  rfl

theorem write_patch (h : store.WritableAt path location) (hread : store.read path = .ok old)
    (offset limit : Nat) (data : Bytes)
    : (patch path offset limit).write store data
        =
      .ok (store.put location (.bytes (splice old offset (chunk data limit))),
        (chunk data limit).size) := by
  simp only [write, hread, h.tidy.write_eq, bind, Except.bind]
  rfl

end Target

namespace FileSpec

variable {store : Store} {path number : String} {location : Location} {old : Bytes}

theorem ne_empty_of_read (h : store.read path = .ok old) : path ≠ "" := by
  rintro rfl
  obtain ⟨location, hwritable⟩ := Store.exists_writableAt_of_read h
  exact hwritable.leadsTo.ne_empty rfl

theorem target_zero (path : String) : target ⟨path, 0, 0⟩ = .fresh path := by rfl

theorem target_of_pos {offset : Nat} (h : 0 < offset) (path : String)
    : target ⟨path, offset, 0⟩ = .patch path offset 0 := by
  rw [target, if_neg]
  intro hboth
  exact Nat.ne_of_gt h hboth.1

theorem exists_write_target (hread : store.read path = .ok old) {offset : Nat} (hoffset : 0 < offset)
    (data : Bytes)
    : ∃ after new,
        (target ⟨path, offset, 0⟩).write store data = .ok (after, data.size) ∧
        after.read path = .ok new ∧
        Patched old offset data new ∧
        store.SameButAt after path ∧
        ∀ other place, store.WritableAt other place → after.WritableAt other place := by
  obtain ⟨location, hwritable⟩ := Store.exists_writableAt_of_read hread
  rw [target_of_pos hoffset]
  refine ⟨_, _, Target.write_patch hwritable hread offset 0 data, hwritable.read_put _,
    Target.patched_splice old offset data, hwritable.sameButAt _, ?_⟩
  intro other place hother
  exact hwritable.put hother

/-- What is written to a file at an offset goes into the file that is there. An offset of zero is
no offset: the file is replaced. -/
theorem write_at_offset (hcolon : ':' ∉ path.toList) (hread : store.read path = .ok old)
    {offset : Nat} (hnumber : Numeral.parse? number = some offset) (data : Bytes)
    : ∃ spec after new,
        parse (path ++ ":" ++ number) = .ok spec ∧
        spec.target.write store data = .ok (after, data.size) ∧
        after.read path = .ok new ∧
        store.SameButAt after path ∧
        (0 < offset → Patched old offset data new) ∧
        (offset = 0 → new = data) := by
  have hparse := parse_path_number (ne_empty_of_read hread) hcolon hnumber
  cases Nat.eq_zero_or_pos offset with
  | inl hzero =>
    obtain ⟨location, hwritable⟩ := Store.exists_writableAt_of_read hread
    subst hzero
    refine ⟨_, _, data, hparse, ?_, hwritable.read_put (.bytes data), hwritable.sameButAt _, ?_, ?_⟩
    . rw [target_zero]
      exact Target.write_fresh hwritable.tidy data
    . omega
    . intro _
      rfl
  | inr hpos =>
    obtain ⟨after, new, hwrite, hnew, hpatched, hsame, _⟩ := exists_write_target hread hpos data
    refine ⟨_, after, new, hparse, hwrite, hnew, hsame, ?_, ?_⟩
    . intro _
      exact hpatched
    . omega

/-- A file of three bytes. -/
def threeBytes : Store :=
  { entries := [(["rom"], .file (.bytes #[1, 2, 3]))] }

theorem write_at_offset_one
    : ∃ spec after new,
        parse "rom:$1" = .ok spec ∧
        spec.target.write threeBytes #[9] = .ok (after, 1) ∧
        after.read "rom" = .ok new ∧
        Patched #[1, 2, 3] 1 #[9] new := by
  have hold : threeBytes.read "rom" = .ok #[1, 2, 3] := by rfl
  have hnumber : Numeral.parse? "$1" = some 1 := by rfl
  obtain ⟨spec, after, new, hparse, hwrite, hread, _, hpatched, _⟩ :=
    write_at_offset (by decide) hold hnumber #[9]
  exact ⟨spec, after, new, hparse, hwrite, hread, hpatched (by decide)⟩

theorem write_at_zero_replaces
    : ∃ spec after,
        parse "rom:0" = .ok spec ∧
        spec.target.write threeBytes #[9] = .ok (after, 1) ∧
        threeBytes.read "rom" = .ok #[1, 2, 3] ∧
        after.read "rom" = .ok #[9] ∧
        ¬Patched #[1, 2, 3] 0 #[9] #[9] := by
  refine ⟨⟨"rom", 0, 0⟩, _, by rfl, by rfl, by rfl, by rfl, ?_⟩
  intro hpatched
  have := hpatched.size_eq
  simp at this

end FileSpec

end PpuCodec
