import PpuCodec.Proofs.Files.Absent
import PpuCodec.Proofs.Files.Patch
import PpuCodec.Proofs.Files.Replace

/-!
Bytes that are put into a file that is there: what becomes of the file, of the other files, and what
is wrong if there is no file.
-/

namespace PpuCodec

variable {old piece new : Bytes} {offset limit : Nat} {store : Store} {path : String}

theorem Patched.extract_eq (h : Patched old offset piece new)
    : new.extract offset (offset + piece.size) = piece := by
  have hsize := h.size_eq
  apply Array.ext_getElem?
  intro i
  rw [Array.getElem?_extract]
  split
  . next hi => exact h.inside i (by omega)
  . next hi =>
    rw [Array.getElem?_eq_none]
    omega

namespace Target

theorem toList_chunk (data : Bytes) (limit : Nat)
    : (chunk data limit).toList = if limit = 0 then data.toList else data.toList.take limit := by
  unfold chunk
  split
  . rfl
  . simp

theorem write_patch_of_error {error : Store.Error} (h : store.read path = .error error)
    (offset limit : Nat) (data : Bytes)
    : (patch path offset limit).write store data = .error error := by
  simp only [write, h, bind, Except.bind]

theorem read_patched {after : Store} (hread : after.read path = .ok new)
    (hpatched : Patched old offset piece new) (hpiece : 0 < piece.size)
    : FileSpec.read ⟨path, offset, piece.size⟩ after = .ok piece := by
  have hsize := hpatched.size_eq
  unfold FileSpec.read FileSpec.readAll
  simp only [hread, Except.mapError, bind, Except.bind]
  rw [if_neg (by omega), if_neg (by omega), hpatched.extract_eq]
  rfl

open FileSpec (threeBytes)

/-- The way to `rom/x` passes a file, and nothing is there. -/
theorem threeBytes_under_rom : threeBytes.PassesFile "rom/x" ∧ ¬threeBytes.Present "rom/x" := by
  have hrom : threeBytes.entry? ([] ++ ["rom"]) = some (.file (.bytes #[1, 2, 3])) := by rfl
  have hhalts : threeBytes.Halts [] ([] ++ "rom" :: ["x"]) ([] ++ ["rom"]) ["x"] := by
    refine .intro ["x"] (by decide) (by decide) ?_ .here
    rw [hrom]
    simp
  constructor
  . exact ⟨["rom"], ["x"], .bytes #[1, 2, 3], hhalts, hrom, .inl (by simp)⟩
  . exact Store.not_present_of_errors (by rfl) (by rfl)

end Target

end PpuCodec
