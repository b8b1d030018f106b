import PpuCodec.Proofs.Files.Store

/-!
Files that are written one after the other, each at a place of its own. All of them are found there
afterwards, and everywhere else nothing is different.
-/

namespace PpuCodec.Store

variable {store : Store} {location other : Location} {content : Content} {path : String}
  {data : Bytes} {files : List (Location × Content)}

/-- A place at which a file can be written, under whatever path it is reached. -/
structure Takes (store : Store) (location : Location) : Prop where
  hasDirectory : store.HasDirectory location
  entry?_ne : store.entry? location ≠ some .directory

theorem WritableAt.takes (h : store.WritableAt path location) : store.Takes location := by
  constructor
  . exact h.leadsTo.hasDirectory
  . exact h.entry?_ne

theorem Takes.put (h : store.Takes location) (hother : store.Takes other) (content : Content)
    : (store.put location content).Takes other := by
  constructor
  . exact hother.hasDirectory.put location content
  . rw [h.hasDirectory.entry?_put]
    split
    . simp
    . exact hother.entry?_ne

def putAll (store : Store) : List (Location × Content) → Store
  | [] => store
  | (location, content) :: rest => (store.put location content).putAll rest

/-- What holds of a store and is kept by every write to such a place holds after all of them. -/
theorem putAll_induction {motive : Store → Prop} (hstore : motive store)
    (hput : ∀ {current : Store}, ∀ file ∈ files, current.Takes file.1 → motive current →
      motive (current.put file.1 file.2))
    (hfiles : ∀ file ∈ files, store.Takes file.1)
    : motive (store.putAll files) := by
  induction files generalizing store with
  | nil => exact hstore
  | cons file rest ih =>
    have hfirst := hfiles file List.mem_cons_self
    apply ih
    . exact hput file List.mem_cons_self hfirst hstore
    . intro current other hmem
      exact hput other (List.mem_cons_of_mem _ hmem)
    . intro other hmem
      exact hfirst.put (hfiles other (List.mem_cons_of_mem _ hmem)) file.2

theorem entry?_putAll_of_not_mem (hfiles : ∀ file ∈ files, store.Takes file.1)
    (hother : other ∉ files.map Prod.fst)
    : entry? (store.putAll files) other = store.entry? other := by
  apply putAll_induction (motive := fun current => current.entry? other = store.entry? other) rfl
    _ hfiles
  intro current file hmem htakes hsame
  rw [htakes.hasDirectory.entry?_put, if_neg, hsame]
  rintro rfl
  exact hother (List.mem_map_of_mem hmem)

theorem entry?_putAll_of_mem (hfiles : ∀ file ∈ files, store.Takes file.1)
    (hapart : (files.map Prod.fst).Nodup) (hmem : (location, content) ∈ files)
    : entry? (store.putAll files) location = some (.file content) := by
  induction files generalizing store with
  | nil => contradiction
  | cons file rest ih =>
    have hfirst := hfiles file List.mem_cons_self
    have hrest : ∀ other ∈ rest, (store.put file.1 file.2).Takes other.1 := by
      intro other hother
      exact hfirst.put (hfiles other (List.mem_cons_of_mem _ hother)) file.2
    rw [List.map_cons, List.nodup_cons] at hapart
    cases List.mem_cons.mp hmem with
    | inl heq =>
      subst heq
      -- None of the files behind it comes to the same place.
      change entry? ((store.put location content).putAll rest) location = _
      rw [entry?_putAll_of_not_mem hrest hapart.1, hfirst.hasDirectory.entry?_put, if_pos rfl]
    | inr hlater => exact ih hrest hapart.2 hlater

theorem LeadsTo.putAll (h : store.LeadsTo path location)
    (hfiles : ∀ file ∈ files, store.Takes file.1)
    : (store.putAll files).LeadsTo path location := by
  apply putAll_induction (motive := fun current => current.LeadsTo path location) h _ hfiles
  intro current file _ htakes hleads
  exact hleads.put htakes.hasDirectory htakes.entry?_ne

theorem WritableAt.read_putAll (h : store.WritableAt path location)
    (hfiles : ∀ file ∈ files, store.Takes file.1) (hapart : (files.map Prod.fst).Nodup)
    (hmem : (location, content) ∈ files)
    : (store.putAll files).read path = .ok content.toBytes := by
  rw [read_eq_ok_iff]
  refine ⟨location, content, h.leadsTo.putAll hfiles, h.endsInSlash_eq, ?_, rfl⟩
  exact entry?_putAll_of_mem hfiles hapart hmem

theorem read_putAll_of_not_leadsTo (hfiles : ∀ file ∈ files, store.Takes file.1)
    (hother : ∀ file ∈ files, ¬store.LeadsTo path file.1) (hread : store.read path = .ok data)
    : (store.putAll files).read path = .ok data := by
  obtain ⟨location, content, hleads, hslash, hentry, hdata⟩ := read_eq_ok_iff.mp hread
  rw [read_eq_ok_iff]
  refine ⟨location, content, hleads.putAll hfiles, hslash, ?_, hdata⟩
  rw [entry?_putAll_of_not_mem hfiles]
  . exact hentry
  . intro hmem
    obtain ⟨file, hfile, heq⟩ := List.mem_map.mp hmem
    apply hother file hfile
    rw [heq]
    exact hleads

end PpuCodec.Store
