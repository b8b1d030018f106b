import PpuCodec.Proofs.Files.Store

/-!
A file that is put where a file was. Every path leads where it led before, and what is read under a
path that leads elsewhere is the same, or the same is wrong with it.
-/

namespace PpuCodec.Store

variable {store : Store} {location : Location} {content old : Content} {path : String}

/-- A file is at this place, in a directory that is there. -/
structure HasFile (store : Store) (location : Location) (old : Content) : Prop where
  hasDirectory : store.HasDirectory location
  entry?_eq : store.entry? location = some (.file old)

namespace HasFile

theorem put (h : store.HasFile location old) (content : Content)
    : (store.put location content).HasFile location content := by
  constructor
  . exact h.hasDirectory.put location content
  . rw [h.hasDirectory.entry?_put, if_pos rfl]

theorem descend_put (h : store.HasFile location old) (content : Content) (path : String)
    (directory : Location) (names : List String)
    : (store.put location content).descend path directory names
        =
      store.descend path directory names := by
  induction names generalizing directory with
  | nil => rfl
  | cons name rest ih =>
    rw [descend, descend, ih, ih]
    dsimp only
    rw [h.hasDirectory.entry?_put]
    by_cases hnext : directory ++ [name] = location
    . rw [if_pos hnext, hnext, h.entry?_eq]
    . rw [if_neg hnext, ih]

theorem locate_put (h : store.HasFile location old) (content : Content) (path : String)
    : (store.put location content).locate path = store.locate path := by
  unfold locate
  simp only [h.descend_put]
  rfl

theorem read_put_of_ne (h : store.HasFile location old) (content : Content)
    (hother : store.locate path ≠ .ok location)
    : (store.put location content).read path = store.read path := by
  unfold read
  rw [h.locate_put]
  cases hlocate : store.locate path with
  | error error => rfl
  | ok place =>
    rw [hlocate] at hother
    simp only [bind, Except.bind, h.hasDirectory.entry?_put]
    rw [if_neg]
    intro heq
    rw [heq] at hother
    exact hother rfl

end HasFile

theorem exists_locate_of_read {data : Bytes} (h : store.read path = .ok data)
    : ∃ location, store.locate path = .ok location := by
  obtain ⟨location, _, hleads, _⟩ := read_eq_ok_iff.mp h
  exact ⟨location, locate_eq_ok_iff.mpr hleads⟩

/-- A file that can be read can also be written. -/
theorem hasFile_of_read {data : Bytes} (hplace : store.locate path = .ok location)
    (hread : store.read path = .ok data)
    : store.WritableAt path location ∧ ∃ old, store.HasFile location old ∧ old.toBytes = data := by
  obtain ⟨place, old, hleads, hslash, hentry, hdata⟩ := read_eq_ok_iff.mp hread
  rw [locate_eq_ok_iff.mpr hleads] at hplace
  injection hplace with hplace
  subst hplace
  refine ⟨⟨hleads, hslash, ?_⟩, old, ⟨hleads.hasDirectory, hentry⟩, hdata⟩
  rw [hentry]
  simp

theorem putEntry_putEntry (location : Location) (first second : Entry)
    (entries : List (Location × Entry))
    : putEntry location second (putEntry location first entries)
        =
      putEntry location second entries := by
  induction entries with
  | nil => simp [putEntry]
  | cons entry rest ih =>
    obtain ⟨other, old⟩ := entry
    by_cases hother : other = location
    . simp [putEntry, hother]
    . simp [putEntry, hother, ih]

/-- Of two files at one place the second is left. -/
theorem put_put (store : Store) (location : Location) (first second : Content)
    : (store.put location first).put location second = store.put location second := by
  unfold put
  simp only [putEntry_putEntry]

end PpuCodec.Store
