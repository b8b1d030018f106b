import PpuCodec.Files.Store

/-!
What a write to a store changes. A file that is put in a directory that is there is found at its
place, and everywhere else nothing is different: the same paths lead to the same places.
-/

namespace PpuCodec.Store

variable {store : Store} {location other : Location} {content : Content} {path otherPath : String}
  {data : Bytes}

theorem lookup_cons_eq_ite (location place : Location) (entry : Entry)
    (rest : List (Location × Entry))
    : ((place, entry) :: rest).lookup location
        =
      if location = place then some entry else rest.lookup location := by
  rw [List.lookup_cons]
  split
  . next h => rw [if_pos (beq_iff_eq.mp h)]
  . next h => rw [if_neg (beq_eq_false_iff_ne.mp h)]

theorem lookup_putEntry (location other : Location) (entry : Entry)
    (entries : List (Location × Entry))
    : (putEntry location entry entries).lookup other
        =
      if other = location then some entry else entries.lookup other := by
  induction entries with
  | nil =>
    rw [putEntry, lookup_cons_eq_ite, List.lookup_nil]
  | cons first rest ih =>
    obtain ⟨place, old⟩ := first
    rw [putEntry]
    by_cases hplace : place = location
    . rw [if_pos hplace, hplace, lookup_cons_eq_ite, lookup_cons_eq_ite]
      split
      . rfl
      . rfl
    . rw [if_neg hplace, lookup_cons_eq_ite, lookup_cons_eq_ite, ih]
      split
      . next hother =>
        rw [if_neg]
        rw [hother]
        exact hplace
      . rfl

theorem any_putEntry {p : Location → Bool} (location : Location) (entry : Entry)
    (entries : List (Location × Entry))
    : (putEntry location entry entries).any (fun (place, _) => p place)
        =
      (entries.any (fun (place, _) => p place) || p location) := by
  induction entries with
  | nil => simp [putEntry]
  | cons first rest ih =>
    obtain ⟨place, old⟩ := first
    rw [putEntry]
    split
    . next hplace =>
      simp only [List.any_cons, hplace]
      rw [Bool.or_comm (p location), Bool.or_assoc, Bool.or_self]
    . simp only [List.any_cons]
      rw [ih, Bool.or_assoc]

theorem isParent_put (other : Location)
    : (store.put location content).isParent other
        =
      (store.isParent other || other.isPrefixOf location) := by
  rw [isParent, put, any_putEntry, ← Bool.or_assoc]
  rfl

theorem isParent_of_isPrefix (hparent : store.isParent location = true) (h : other <+: location)
    : store.isParent other = true := by
  rw [isParent, Bool.or_eq_true, List.isPrefixOf_iff_prefix, List.any_eq_true] at *
  cases hparent with
  | inl hhome => exact .inl (h.trans hhome)
  | inr hentry =>
    obtain ⟨entry, hmem, hprefix⟩ := hentry
    rw [List.isPrefixOf_iff_prefix] at hprefix
    refine .inr ⟨entry, hmem, ?_⟩
    rw [List.isPrefixOf_iff_prefix]
    exact h.trans hprefix

theorem isParent_of_entry?_eq (h : store.entry? location = some .directory)
    : store.isParent location = true := by
  unfold entry? at h
  split at h
  . next entry hlookup =>
    obtain ⟨before, after, hentries, _⟩ := List.lookup_eq_some_iff.mp hlookup
    simp [isParent, hentries]
  . split at h
    . assumption
    . contradiction

/-- A place for a file: it has a name, in a directory that is there. -/
def HasDirectory (store : Store) (location : Location) : Prop :=
  ∃ directory name, location = directory ++ [name] ∧ store.isParent directory = true

theorem HasDirectory.entry?_put (h : store.HasDirectory location) (content : Content)
    (other : Location)
    : entry? (store.put location content) other
        =
      if other = location then some (.file content) else store.entry? other := by
  obtain ⟨directory, name, hlocation, hparent⟩ := h
  unfold entry?
  rw [isParent_put, put, lookup_putEntry]
  by_cases hother : other = location
  . rw [if_pos hother, if_pos hother]
  . -- What lies above the place lies above its directory too, which is there already.
    have habove : other.isPrefixOf location = true → store.isParent other = true := by
      intro hprefix
      rw [List.isPrefixOf_iff_prefix, hlocation, List.prefix_concat_iff] at hprefix
      cases hprefix with
      | inl heq => exact absurd (heq.trans hlocation.symm) hother
      | inr hdirectory => exact isParent_of_isPrefix hparent hdirectory
    rw [if_neg hother, if_neg hother]
    rw [Bool.or_eq_left_iff_imp.mpr habove]

theorem HasDirectory.put (h : store.HasDirectory other) (location : Location) (content : Content)
    : (store.put location content).HasDirectory other := by
  obtain ⟨directory, name, hother, hparent⟩ := h
  refine ⟨directory, name, hother, ?_⟩
  rw [isParent_put, hparent, Bool.true_or]

theorem isParent_origin (store : Store) (path : String)
    : store.isParent (origin store.home path) = true := by
  rw [isParent, Bool.or_eq_true, List.isPrefixOf_iff_prefix]
  unfold origin
  split
  . exact .inl List.nil_prefix
  . exact .inl List.prefix_rfl

/-- Where names lead to from a directory, all of them directories. -/
inductive Leads (store : Store) : Location → List String → Location → Prop where
  | here {directory : Location} : Leads store directory [] directory
  | stay {directory goal : Location} {rest : List String} (hrest : Leads store directory rest goal)
    : Leads store directory ("." :: rest) goal
  | back {directory goal : Location} {rest : List String}
    (hrest : Leads store directory.dropLast rest goal)
    : Leads store directory (".." :: rest) goal
  | enter {directory goal : Location} {name : String} {rest : List String}
    (hdot : name ≠ ".") (hdots : name ≠ "..")
    (hentry : store.entry? (directory ++ [name]) = some .directory)
    (hrest : Leads store (directory ++ [name]) rest goal)
    : Leads store directory (name :: rest) goal

theorem descend_eq_ok_iff (path : String) {directory : Location} {names : List String}
    : store.descend path directory names = .ok location ↔ store.Leads directory names location := by
  constructor
  . intro h
    induction names generalizing directory with
    | nil =>
      injection h with h
      rw [h]
      exact .here
    | cons name rest ih =>
      rw [descend] at h
      split at h
      . next hdot =>
        rw [hdot]
        exact .stay (ih h)
      . next hdot =>
        split at h
        . next hdots =>
          rw [hdots]
          exact .back (ih h)
        . next hdots =>
          dsimp only at h
          split at h
          . next hentry => exact .enter hdot hdots hentry (ih h)
          . contradiction
          . contradiction
  . intro h
    induction h with
    | here => rfl
    | stay hrest ih => exact ih
    | back hrest ih => exact ih
    | enter hdot hdots hentry hrest ih =>
      simp only [descend, if_neg hdot, if_neg hdots, hentry]
      exact ih

theorem Leads.isParent {directory : Location} {names : List String}
    (h : store.Leads directory names location) (hparent : store.isParent directory = true)
    : store.isParent location = true := by
  induction h with
  | here => exact hparent
  | stay hrest ih => exact ih hparent
  | back hrest ih => exact ih (isParent_of_isPrefix hparent (List.dropLast_prefix _))
  | enter hdot hdots hentry hrest ih => exact ih (isParent_of_entry?_eq hentry)

theorem Leads.put {directory goal : Location} {names : List String}
    (h : store.Leads directory names goal) (hplace : store.HasDirectory location)
    (hentry : store.entry? location ≠ some .directory)
    : (store.put location content).Leads directory names goal := by
  induction h with
  | here => exact .here
  | stay hrest ih => exact .stay ih
  | back hrest ih => exact .back ih
  | enter hdot hdots hnext hrest ih =>
    apply Leads.enter hdot hdots _ ih
    rw [hplace.entry?_put, if_neg]
    . exact hnext
    . intro heq
      rw [heq] at hnext
      exact hentry hnext

theorem Leads.filter_dots {directory goal : Location} {names : List String}
    (h : store.Leads directory names goal)
    : store.Leads directory (names.filter (· != ".")) goal := by
  induction h with
  | here => exact .here
  | stay hrest ih => exact ih
  | back hrest ih => exact .back ih
  | enter hdot hdots hentry hrest ih =>
    rw [List.filter_cons_of_pos (by simp [hdot])]
    exact .enter hdot hdots hentry ih

/-- A path leads to its last name in the directory that the names before it lead to. -/
inductive LeadsTo (store : Store) (path : String) : Location → Prop where
  | last {front : List String} {name : String} {directory : Location}
    (hzero : '\x00' ∉ path.toList) (hnames : names path = front ++ [name])
    (hdot : name ≠ ".") (hdots : name ≠ "..")
    (hfront : store.Leads (origin store.home path) front directory)
    : LeadsTo store path (directory ++ [name])

theorem LeadsTo.ne_empty (h : store.LeadsTo path location) : path ≠ "" := by
  cases h with
  | last hzero hnames hdot hdots hfront =>
    rintro rfl
    simp [names, Text.pieces, Text.cut] at hnames

theorem locate_eq_ok_iff : store.locate path = .ok location ↔ store.LeadsTo path location := by
  constructor
  . intro h
    unfold locate at h
    split at h
    . contradiction
    . next hzero =>
      split at h
      . contradiction
      . cases hdescend : store.descend path (origin store.home path) (names path).dropLast with
        | error e =>
          simp only [hdescend] at h
          contradiction
        | ok directory =>
          simp only [hdescend, bind, Except.bind] at h
          split at h
          . contradiction
          . contradiction
          . contradiction
          . next name hdot hdots hlast =>
            injection h with h
            obtain ⟨front, hnames⟩ := List.getLast?_eq_some_iff.mp hlast
            rw [hnames, List.dropLast_concat, descend_eq_ok_iff] at hdescend
            rw [← h]
            apply LeadsTo.last _ hnames _ _ hdescend
            . simpa using hzero
            . simpa using hdot
            . simpa using hdots
  . intro h
    have hne := h.ne_empty
    cases h with
    | last hzero hnames hdot hdots hfront =>
      rw [← descend_eq_ok_iff path] at hfront
      unfold locate
      rw [if_neg (by simpa using hzero), if_neg (by simpa using hne)]
      simp only [hnames, List.dropLast_concat, hfront, List.getLast?_concat]
      rfl

theorem LeadsTo.hasDirectory (h : store.LeadsTo path location) : store.HasDirectory location := by
  cases h with
  | last hzero hnames hdot hdots hfront =>
    exact ⟨_, _, rfl, hfront.isParent (isParent_origin store path)⟩

theorem LeadsTo.put (h : store.LeadsTo path other) (hplace : store.HasDirectory location)
    (hentry : store.entry? location ≠ some .directory)
    : (store.put location content).LeadsTo path other := by
  cases h with
  | last hzero hnames hdot hdots hfront =>
    exact .last hzero hnames hdot hdots (hfront.put hplace hentry)

theorem read_eq_ok_iff
    : store.read path = .ok data
        ↔
      ∃ location content,
        store.LeadsTo path location ∧ endsInSlash path = false ∧
        store.entry? location = some (.file content) ∧ content.toBytes = data := by
  unfold read
  constructor
  . intro h
    cases hlocate : store.locate path with
    | error e =>
      rw [hlocate] at h
      contradiction
    | ok location =>
      simp only [hlocate, bind, Except.bind] at h
      split at h
      . next content hentry =>
        split at h
        . contradiction
        . next hslash =>
          injection h with h
          rw [locate_eq_ok_iff] at hlocate
          exact ⟨location, content, hlocate, by simpa using hslash, hentry, h⟩
      . contradiction
      . contradiction
  . intro h
    obtain ⟨location, content, hleads, hslash, hentry, hdata⟩ := h
    rw [← locate_eq_ok_iff] at hleads
    simp only [hleads, bind, Except.bind, hentry, hslash]
    rw [← hdata]
    rfl

/-- A path under which a file can be written: no directory is at the place that it leads to. -/
structure WritableAt (store : Store) (path : String) (location : Location) : Prop where
  leadsTo : store.LeadsTo path location
  endsInSlash_eq : endsInSlash path = false
  entry?_ne : store.entry? location ≠ some .directory

theorem exists_writableAt_of_read (h : store.read path = .ok data)
    : ∃ location, store.WritableAt path location := by
  obtain ⟨location, content, hleads, hslash, hentry, hdata⟩ := read_eq_ok_iff.mp h
  refine ⟨location, hleads, hslash, ?_⟩
  rw [hentry]
  simp

namespace WritableAt

theorem write_eq (h : store.WritableAt path location) (content : Content)
    : store.write path content = .ok (store.put location content) := by
  have hlocate := locate_eq_ok_iff.mpr h.leadsTo
  unfold write
  simp only [hlocate, bind, Except.bind]
  rw [if_neg (by simp [h.endsInSlash_eq])]
  split
  . next heq => exact absurd heq h.entry?_ne
  . rfl

theorem entry?_put (h : store.WritableAt path location) (content : Content) (other : Location)
    : entry? (store.put location content) other
        =
      if other = location then some (.file content) else store.entry? other := by
  apply h.leadsTo.hasDirectory.entry?_put

/-- What is written under a path is read back under it. -/
theorem read_put (h : store.WritableAt path location) (content : Content)
    : (store.put location content).read path = .ok content.toBytes := by
  rw [read_eq_ok_iff]
  refine ⟨location, content, ?_, h.endsInSlash_eq, ?_, rfl⟩
  . exact h.leadsTo.put h.leadsTo.hasDirectory h.entry?_ne
  . rw [h.entry?_put, if_pos rfl]

theorem read_put_of_not_leadsTo (h : store.WritableAt path location) (content : Content)
    (hother : ¬store.LeadsTo otherPath location) (hread : store.read otherPath = .ok data)
    : (store.put location content).read otherPath = .ok data := by
  obtain ⟨other, old, hleads, hslash, hentry, hdata⟩ := read_eq_ok_iff.mp hread
  rw [read_eq_ok_iff]
  refine ⟨other, old, ?_, hslash, ?_, hdata⟩
  . exact hleads.put h.leadsTo.hasDirectory h.entry?_ne
  . rw [h.entry?_put, if_neg]
    . exact hentry
    . intro heq
      rw [heq] at hleads
      exact hother hleads

/-- Where a file could be written before another one was, it still can be. -/
theorem put (h : store.WritableAt path location) (hother : store.WritableAt otherPath other)
    : (store.put location content).WritableAt otherPath other := by
  constructor
  . exact hother.leadsTo.put h.leadsTo.hasDirectory h.entry?_ne
  . exact hother.endsInSlash_eq
  . rw [h.entry?_put]
    split
    . simp
    . exact hother.entry?_ne

end WritableAt

/-- All that is read under paths that lead to other places than this one is the same. -/
def SameButAt (before after : Store) (path : String) : Prop :=
  ∀ other data, before.locate other ≠ before.locate path →
    before.read other = .ok data → after.read other = .ok data

theorem WritableAt.sameButAt (h : store.WritableAt path location) (content : Content)
    : store.SameButAt (store.put location content) path := by
  intro other data hne hread
  apply h.read_put_of_not_leadsTo content _ hread
  intro hleads
  rw [locate_eq_ok_iff.mpr hleads, locate_eq_ok_iff.mpr h.leadsTo] at hne
  exact hne rfl

end PpuCodec.Store
