import Mathlib.Data.List.Induction
import Mathlib.Data.List.Pairwise
import PpuCodec.Proofs.Files.Patch
import PpuCodec.Proofs.Files.Replace

/-!
Patches that are written into one file. If no byte is written by two of them, the file comes out the
same whatever their order, and a patch that is written again changes nothing.
-/

namespace PpuCodec

/-- Bytes for a file, and where they go. -/
structure Patch where
  path : String
  offset : Nat
  limit : Nat
  data : Bytes

namespace Patch

def chunk (patch : Patch) : Bytes :=
  Target.chunk patch.data patch.limit

def stop (patch : Patch) : Nat :=
  patch.offset + patch.chunk.size

/-- The byte at this offset is written by the patch. -/
def Covers (patch : Patch) (i : Nat) : Prop :=
  patch.offset ≤ i ∧ i < patch.stop

/-- No byte is written by both patches. -/
def Apart (first second : Patch) : Prop :=
  ∀ i, ¬(first.Covers i ∧ second.Covers i)

def write (patch : Patch) (store : Store) : Except Store.Error (Store × Nat) :=
  (Target.patch patch.path patch.offset patch.limit).write store patch.data

def writeAll (patches : List Patch) (store : Store) : Except Store.Error Store :=
  patches.foldlM (fun store patch => (patch.write store).map Prod.fst) store

/-- The contents of a file with the bytes of the patch in it. -/
def apply (contents : Bytes) (patch : Patch) : Bytes :=
  Target.splice contents patch.offset patch.chunk

instance : Std.Symm Apart where
  symm first second h := by
    intro i hboth
    exact h i hboth.symm

end Patch

/-- What patches make of a file, said without an order of them: every byte that one of them covers is
its byte, every other one is the old byte, or zero where the file was not that long. -/
structure Overlaid (old : Bytes) (patches : List Patch) (new : Bytes) : Prop where
  lt_size_iff : ∀ i, i < new.size ↔ i < old.size ∨ ∃ patch ∈ patches, i < patch.stop
  covered : ∀ patch ∈ patches, ∀ i, patch.Covers i → new[i]? = patch.chunk[i - patch.offset]?
  kept : ∀ i < old.size, (∀ patch ∈ patches, ¬patch.Covers i) → new[i]? = old[i]?
  gap : ∀ i < new.size, old.size ≤ i → (∀ patch ∈ patches, ¬patch.Covers i) → new[i]? = some 0

namespace Overlaid

variable {old new other : Bytes} {patches order : List Patch} {patch : Patch}

theorem nil (old : Bytes) : Overlaid old [] old := by
  constructor
  . simp
  . simp
  . intro i _ _
    rfl
  . omega

theorem unique (h : Overlaid old patches new) (hother : Overlaid old order other)
    (hsame : ∀ patch, patch ∈ order ↔ patch ∈ patches)
    : other = new := by
  have hsize : ∀ i, i < other.size ↔ i < new.size := by
    intro i
    rw [h.lt_size_iff, hother.lt_size_iff]
    simp only [hsame]
  apply Array.ext_getElem?
  intro i
  by_cases hcovered : ∃ patch ∈ patches, patch.Covers i
  . obtain ⟨patch, hmem, hcovers⟩ := hcovered
    rw [h.covered patch hmem i hcovers, hother.covered patch ((hsame patch).mpr hmem) i hcovers]
  . push Not at hcovered
    have hfree : ∀ patch ∈ order, ¬patch.Covers i := by
      intro patch hmem
      exact hcovered patch ((hsame patch).mp hmem)
    by_cases hold : i < old.size
    . rw [h.kept i hold hcovered, hother.kept i hold hfree]
    . by_cases hnew : i < new.size
      . rw [h.gap i hnew (by omega) hcovered, hother.gap i ((hsize i).mpr hnew) (by omega) hfree]
      . have hnone := (hsize i).not.mpr hnew
        rw [Array.getElem?_eq_none (by omega), Array.getElem?_eq_none (by omega)]

/-- One patch more, which covers no byte of another one. -/
theorem concat (h : Overlaid old patches new)
    (hapart : ∀ earlier ∈ patches, earlier = patch ∨ earlier.Apart patch)
    : Overlaid old (patches ++ [patch]) (patch.apply new) := by
  have hpatched := Target.patched_splice new patch.offset patch.chunk
  have hsize : (patch.apply new).size = max new.size patch.stop := hpatched.size_eq
  have hinside : ∀ i, patch.Covers i → (patch.apply new)[i]? = patch.chunk[i - patch.offset]? := by
    intro i hcovers
    obtain ⟨hfrom, hstop⟩ := hcovers
    have := hpatched.inside (i - patch.offset) (by unfold Patch.stop at hstop; omega)
    rwa [Nat.add_sub_cancel' hfrom] at this
  have houtside : ∀ i < new.size, ¬patch.Covers i → (patch.apply new)[i]? = new[i]? := by
    intro i hi hcovers
    apply hpatched.outside i hi
    unfold Patch.Covers Patch.stop at hcovers
    omega
  constructor
  . intro i
    have hmax : i < max new.size patch.stop ↔ i < new.size ∨ i < patch.stop := by omega
    rw [hsize, hmax, h.lt_size_iff]
    simp only [List.mem_append, List.mem_singleton, or_and_right, exists_or, exists_eq_left, or_assoc]
  . rw [List.forall_mem_append, List.forall_mem_singleton]
    refine ⟨?_, hinside⟩
    intro earlier hmem i hcovers
    cases hapart earlier hmem with
    | inl heq =>
      rw [heq] at hcovers ⊢
      exact hinside i hcovers
    | inr hfree =>
      have hi : i < new.size := (h.lt_size_iff i).mpr (.inr ⟨earlier, hmem, hcovers.2⟩)
      rw [houtside i hi, h.covered earlier hmem i hcovers]
      intro hboth
      exact hfree i ⟨hcovers, hboth⟩
  . intro i hi hfree
    rw [List.forall_mem_append, List.forall_mem_singleton] at hfree
    rw [houtside i ((h.lt_size_iff i).mpr (.inl hi)) hfree.2, h.kept i hi hfree.1]
  . intro i hi hlong hfree
    rw [List.forall_mem_append, List.forall_mem_singleton] at hfree
    by_cases hnew : i < new.size
    . rw [houtside i hnew hfree.2, h.gap i hnew hlong hfree.1]
    . -- The patch begins behind the end of the file, and this is in front of it.
      apply hpatched.gap
      . have hcovers := hfree.2
        unfold Patch.Covers at hcovers
        omega
      . omega

theorem foldl_apply (old : Bytes)
    (hapart : ∀ first ∈ patches, ∀ second ∈ patches, first = second ∨ first.Apart second)
    (hmem : ∀ patch ∈ order, patch ∈ patches)
    : Overlaid old order (order.foldl Patch.apply old) := by
  induction order using List.reverseRecOn with
  | nil => exact nil old
  | append_singleton front patch ih =>
    rw [List.forall_mem_append, List.forall_mem_singleton] at hmem
    rw [List.foldl_append]
    apply (ih hmem.1).concat
    intro earlier hearlier
    exact hapart earlier (hmem.1 earlier hearlier) patch hmem.2

/-- What patches make of a file of which no two cover the same byte depends on nothing but which
patches they are. -/
theorem foldl_apply_eq (old : Bytes)
    (hapart : ∀ first ∈ patches, ∀ second ∈ patches, first = second ∨ first.Apart second)
    (hsame : ∀ patch, patch ∈ order ↔ patch ∈ patches)
    : order.foldl Patch.apply old = patches.foldl Patch.apply old := by
  have hall : Overlaid old patches (patches.foldl Patch.apply old) := by
    apply foldl_apply old hapart
    intro patch hmem
    exact hmem
  have horder : Overlaid old order (order.foldl Patch.apply old) := by
    apply foldl_apply old hapart
    intro patch hmem
    exact (hsame patch).mp hmem
  exact hall.unique horder hsame

theorem apply_foldl_apply (old : Bytes)
    (hapart : ∀ first ∈ patches, ∀ second ∈ patches, first = second ∨ first.Apart second)
    (hmem : patch ∈ patches)
    : Patch.apply (patches.foldl Patch.apply old) patch = patches.foldl Patch.apply old := by
  have hsame : ∀ other, other ∈ patches ++ [patch] ↔ other ∈ patches := by
    intro other
    rw [List.mem_append, List.mem_singleton, or_iff_left_iff_imp]
    rintro rfl
    exact hmem
  have htwice := foldl_apply_eq old hapart hsame
  rwa [List.foldl_append] at htwice

end Overlaid

namespace Patch

variable {store : Store} {location : Location} {old : Content} {patch : Patch} {patches : List Patch}

theorem write_eq (hfile : store.HasFile location old) (h : store.WritableAt patch.path location)
    : patch.write store
        =
      .ok (store.put location (.bytes (patch.apply old.toBytes)), patch.chunk.size) := by
  have hread : store.read patch.path = .ok old.toBytes := by
    rw [Store.read_eq_ok_iff]
    exact ⟨location, old, h.leadsTo, h.endsInSlash_eq, hfile.entry?_eq, rfl⟩
  exact Target.write_patch h hread patch.offset patch.limit patch.data

/-- Of the files that are written on the way only the last one is left. -/
theorem writeAll_eq (hfile : store.HasFile location old)
    (h : ∀ patch ∈ patches, store.WritableAt patch.path location) (hne : patches ≠ [])
    : writeAll patches store
        =
      .ok (store.put location (.bytes (patches.foldl apply old.toBytes))) := by
  induction patches generalizing store old with
  | nil => contradiction
  | cons patch rest ih =>
    rw [List.forall_mem_cons] at h
    have hput : ∀ later ∈ rest,
        (store.put location (.bytes (patch.apply old.toBytes))).WritableAt later.path location := by
      intro later hmem
      exact h.1.put (h.2 later hmem)
    have hfirst : writeAll (patch :: rest) store
        = writeAll rest (store.put location (.bytes (patch.apply old.toBytes))) := by
      rw [writeAll, List.foldlM_cons, write_eq hfile h.1]
      rfl
    rw [hfirst]
    by_cases hrest : rest = []
    . rw [hrest]
      rfl
    . rw [ih (hfile.put _) hput hrest, Store.put_put]
      rfl

theorem eq_or_apart (h : patches.Pairwise Apart)
    : ∀ first ∈ patches, ∀ second ∈ patches, first = second ∨ first.Apart second := by
  intro first hfirst second hsecond
  by_cases heq : first = second
  . exact .inl heq
  . exact .inr (h.forall hfirst hsecond heq)

/-- The files after all of the patches, in any order and each of them once or more. -/
theorem exists_writeAll_eq (hfile : store.HasFile location old)
    (hwritable : ∀ patch ∈ patches, store.WritableAt patch.path location)
    (hapart : ∀ first ∈ patches, ∀ second ∈ patches, first = second ∨ first.Apart second)
    : ∃ after,
        (∀ order, (∀ patch, patch ∈ order ↔ patch ∈ patches) → writeAll order store = .ok after) ∧
        ∀ patch ∈ patches, patch.write after = .ok (after, patch.chunk.size) := by
  by_cases hne : patches = []
  . refine ⟨store, ?_, by simp [hne]⟩
    intro order hsame
    have hnil : order = [] := by
      rw [List.eq_nil_iff_forall_not_mem]
      simpa [hne] using hsame
    rw [hnil]
    rfl
  . refine ⟨store.put location (.bytes (patches.foldl apply old.toBytes)), ?_, ?_⟩
    . intro order hsame
      have horder : ∀ patch ∈ order, store.WritableAt patch.path location := by
        intro patch hmem
        exact hwritable patch ((hsame patch).mp hmem)
      rw [writeAll_eq hfile horder, Overlaid.foldl_apply_eq old.toBytes hapart hsame]
      rintro rfl
      apply hne
      rw [List.eq_nil_iff_forall_not_mem]
      simpa using hsame
    . intro patch hmem
      have hagain := Overlaid.apply_foldl_apply old.toBytes hapart hmem
      have hput : (store.put location (.bytes (patches.foldl apply old.toBytes))).WritableAt
          patch.path location :=
        (hwritable patch hmem).put (hwritable patch hmem)
      rw [write_eq (hfile.put _) hput, Store.put_put]
      change Except.ok (store.put location
        (.bytes (apply (patches.foldl apply old.toBytes) patch)), patch.chunk.size) = _
      rw [hagain]

/-- Patches of one file of which no two write to the same byte: the files afterwards are the same for
every order of them, and if some are written more than once. After all of them each one changes
nothing. -/
theorem writeAll_any_order {path : String} {data : Bytes}
    (hplace : store.locate path = .ok location) (hread : store.read path = .ok data)
    (hpatches : ∀ patch ∈ patches,
      store.locate patch.path = .ok location ∧ store.read patch.path = .ok data)
    (hapart : patches.Pairwise Apart)
    : ∃ after,
        (∀ order, order.Perm patches → writeAll order store = .ok after) ∧
        (∀ order, (∀ patch, patch ∈ order ↔ patch ∈ patches) → writeAll order store = .ok after) ∧
        ∀ patch ∈ patches, patch.write after = .ok (after, patch.chunk.size) := by
  obtain ⟨_, old, hfile, _⟩ := Store.hasFile_of_read hplace hread
  have hwritable : ∀ patch ∈ patches, store.WritableAt patch.path location := by
    intro patch hmem
    obtain ⟨hsame, hdata⟩ := hpatches patch hmem
    exact (Store.hasFile_of_read hsame hdata).1
  obtain ⟨after, hset, hagain⟩ := exists_writeAll_eq hfile hwritable (eq_or_apart hapart)
  refine ⟨after, ?_, hset, hagain⟩
  intro order hperm
  apply hset
  intro patch
  exact hperm.mem_iff

theorem writeAll_any_order_gap
    : ∃ after,
        writeAll [⟨"rom", 5, 0, #[9]⟩, ⟨"./rom", 1, 1, #[7, 8]⟩] FileSpec.threeBytes = .ok after ∧
        writeAll [⟨"./rom", 1, 1, #[7, 8]⟩, ⟨"rom", 5, 0, #[9]⟩] FileSpec.threeBytes = .ok after ∧
        write ⟨"rom", 5, 0, #[9]⟩ after = .ok (after, 1) := by
  have hpatches : ∀ patch ∈ [(⟨"rom", 5, 0, #[9]⟩ : Patch), ⟨"./rom", 1, 1, #[7, 8]⟩],
      FileSpec.threeBytes.locate patch.path = .ok ["rom"] ∧
      FileSpec.threeBytes.read patch.path = .ok #[1, 2, 3] := by
    rw [List.forall_mem_cons, List.forall_mem_singleton]
    exact ⟨⟨by rfl, by rfl⟩, ⟨by rfl, by rfl⟩⟩
  have hapart : [(⟨"rom", 5, 0, #[9]⟩ : Patch), ⟨"./rom", 1, 1, #[7, 8]⟩].Pairwise Apart := by
    rw [List.pairwise_pair]
    rintro i ⟨hfirst, hsecond⟩
    have hfrom : 5 ≤ i := hfirst.1
    have hstop : i < 2 := hsecond.2
    omega
  have hplace : FileSpec.threeBytes.locate "rom" = .ok ["rom"] := by rfl
  have hread : FileSpec.threeBytes.read "rom" = .ok #[1, 2, 3] := by rfl
  obtain ⟨after, horders, _, hagain⟩ := writeAll_any_order hplace hread hpatches hapart
  exact ⟨after, horders _ (.refl _), horders _ (.swap ..), hagain _ List.mem_cons_self⟩

end Patch

end PpuCodec
