import PpuCodec.Proofs.Files.Store

/-!
Paths under which nothing is. Either a name on the way stands for nothing, or a file stands where a
directory is needed: what is read tells the two apart.
-/

namespace PpuCodec.Store

variable {store : Store} {directory middle goal : Location} {front rest : List String}
  {path name : String} {error : Error}

theorem Leads.append (h : store.Leads directory front middle) (hrest : store.Leads middle rest goal)
    : store.Leads directory (front ++ rest) goal := by
  induction h with
  | here => exact hrest
  | stay _ ih => exact .stay (ih hrest)
  | back _ ih => exact .back (ih hrest)
  | enter hdot hdots hentry _ ih => exact .enter hdot hdots hentry (ih hrest)

theorem descend_append (path : String) (h : store.Leads directory front middle)
    (rest : List String)
    : store.descend path directory (front ++ rest) = store.descend path middle rest := by
  induction h with
  | here => rfl
  | stay _ ih => exact ih
  | back _ ih => exact ih
  | enter hdot hdots hentry _ ih =>
    rw [List.cons_append, descend, if_neg hdot, if_neg hdots]
    simp only [hentry]
    exact ih

/-- The names up to some one lead to a place, and no further: it is not the place of a directory.
What comes behind them is the rest. -/
inductive Halts (store : Store) (directory : Location)
    : List String → Location → List String → Prop where
  | intro {front : List String} {name : String} {middle : Location} (rest : List String)
    (hdot : name ≠ ".") (hdots : name ≠ "..")
    (hentry : store.entry? (middle ++ [name]) ≠ some .directory)
    (hfront : store.Leads directory front middle)
    : Halts store directory (front ++ name :: rest) (middle ++ [name]) rest

/-- What is wrong with a place that is not the place of a directory. -/
def hindrance (store : Store) (path : String) (place : Location) : Error :=
  if (store.entry? place).isNone then .missing path else .notDirectory path

theorem hindrance_of_none {place : Location} (h : store.entry? place = none)
    : store.hindrance path place = .missing path := by
  simp [hindrance, h]

theorem hindrance_of_file {place : Location} {content : Content}
    (h : store.entry? place = some (.file content))
    : store.hindrance path place = .notDirectory path := by
  simp [hindrance, h]

theorem Halts.ne_nil {names : List String} {place : Location}
    (h : store.Halts directory names place rest)
    : names ≠ [] := by
  cases h with
  | intro rest _ _ _ _ => simp

theorem Halts.entry?_ne {names : List String} {place : Location}
    (h : store.Halts directory names place rest)
    : store.entry? place ≠ some .directory := by
  cases h with
  | intro rest _ _ hentry _ => exact hentry

theorem Halts.cons {names : List String} {place next : Location}
    (hstep : store.Leads directory [name] next) (h : store.Halts next names place rest)
    : store.Halts directory (name :: names) place rest := by
  cases h with
  | intro rest hdot hdots hentry hfront =>
    exact .intro rest hdot hdots hentry (hstep.append hfront)

theorem leads_or_halts (store : Store) (directory : Location) (names : List String)
    : (∃ goal, store.Leads directory names goal) ∨
      ∃ place rest, store.Halts directory names place rest := by
  induction names generalizing directory with
  | nil => exact .inl ⟨directory, .here⟩
  | cons name rest ih =>
    have hstep : ∀ next, store.Leads directory [name] next →
        (∃ goal, store.Leads directory (name :: rest) goal) ∨
        ∃ place behind, store.Halts directory (name :: rest) place behind := by
      intro next hnext
      cases ih next with
      | inl hleads =>
        obtain ⟨goal, hgoal⟩ := hleads
        exact .inl ⟨goal, hnext.append hgoal⟩
      | inr hhalts =>
        obtain ⟨place, behind, hplace⟩ := hhalts
        exact .inr ⟨place, behind, hplace.cons hnext⟩
    by_cases hdot : name = "."
    . rw [hdot] at hstep ⊢
      exact hstep directory (.stay .here)
    . by_cases hdots : name = ".."
      . rw [hdots] at hstep ⊢
        exact hstep directory.dropLast (.back .here)
      . by_cases hentry : store.entry? (directory ++ [name]) = some .directory
        . exact hstep _ (.enter hdot hdots hentry .here)
        . exact .inr ⟨_, rest, .intro rest hdot hdots hentry .here⟩

theorem Halts.descend_eq {names : List String} {place : Location}
    (h : store.Halts directory names place rest)
    : store.descend path directory names = .error (store.hindrance path place) := by
  cases h with
  | intro rest hdot hdots hentry hfront =>
    rw [descend_append path hfront, descend, if_neg hdot, if_neg hdots]
    dsimp only
    split
    . next hdirectory => exact absurd hdirectory hentry
    . next content hfile => rw [hindrance_of_file hfile]
    . next hnone => rw [hindrance_of_none hnone]

variable {place : Location}

theorem Halts.locate_eq (h : store.Halts (origin store.home path) (names path) place rest)
    (hzero : '\x00' ∉ path.toList)
    : store.locate path = if rest = [] then .ok place else .error (store.hindrance path place) := by
  have hempty : path ≠ "" := by
    rintro rfl
    have hnames : names "" = [] := by rfl
    exact h.ne_nil hnames
  unfold locate
  rw [if_neg (by simpa using hzero), if_neg (by simpa using hempty)]
  generalize hnames : names path = all at h
  cases h with
  | @intro front name middle rest hdot hdots hentry hfront =>
    split
    . next hrest =>
      have hdescend := (descend_eq_ok_iff path).mpr hfront
      rw [hrest]
      simp only [List.dropLast_concat, hdescend, List.getLast?_concat]
      rfl
    . next hrest =>
      have hdrop : (front ++ name :: rest).dropLast = front ++ name :: rest.dropLast := by
        rw [List.dropLast_append_of_ne_nil (by simp), List.dropLast_cons_of_ne_nil hrest]
      have hhalts := Halts.intro rest.dropLast hdot hdots hentry hfront
      dsimp only
      rw [hdrop, hhalts.descend_eq]
      rfl

theorem Halts.read_of_none (h : store.Halts (origin store.home path) (names path) place rest)
    (hzero : '\x00' ∉ path.toList) (hentry : store.entry? place = none)
    : store.read path = .error (.missing path) := by
  have hlocate := h.locate_eq hzero
  unfold read
  split at hlocate
  . simp only [hlocate, bind, Except.bind, hentry]
    rfl
  . simp only [hlocate, hindrance_of_none hentry, bind, Except.bind]

theorem Halts.read_of_file (h : store.Halts (origin store.home path) (names path) place rest)
    (hzero : '\x00' ∉ path.toList) {content : Content}
    (hentry : store.entry? place = some (.file content))
    : store.read path =
        if rest = [] ∧ endsInSlash path = false then .ok content.toBytes
        else .error (.notDirectory path) := by
  have hlocate := h.locate_eq hzero
  unfold read
  by_cases hrest : rest = []
  . rw [if_pos hrest] at hlocate
    simp only [hlocate, bind, Except.bind, hentry]
    cases endsInSlash path with
    | true => simp [throw, throwThe, MonadExceptOf.throw]
    | false => simp [hrest, pure, Except.pure]
  . rw [if_neg hrest, hindrance_of_file hentry] at hlocate
    rw [if_neg]
    . simp only [hlocate, bind, Except.bind]
    . intro hboth
      exact hrest hboth.1

/-- Something is under this path: a file that can be read, or a directory. -/
def Present (store : Store) (path : String) : Prop :=
  path ≠ "" ∧
  ((∃ data, store.read path = .ok data) ∨
    ∃ goal, store.Leads (origin store.home path) (names path) goal)

theorem not_present_of_errors {error' : Error} (hread : store.read path = .error error)
    (hdescend : store.descend path (origin store.home path) (names path) = .error error')
    : ¬store.Present path := by
  rintro ⟨_, hpresent⟩
  cases hpresent with
  | inl hfile =>
    obtain ⟨data, hdata⟩ := hfile
    rw [hread] at hdata
    contradiction
  | inr hleads =>
    obtain ⟨goal, hgoal⟩ := hleads
    rw [← descend_eq_ok_iff path, hdescend] at hgoal
    contradiction

/-- A file stands on the way: more names follow, or a slash. -/
def PassesFile (store : Store) (path : String) : Prop :=
  ∃ place rest content,
    store.Halts (origin store.home path) (names path) place rest ∧
    store.entry? place = some (.file content) ∧
    (rest ≠ [] ∨ endsInSlash path = true)

theorem PassesFile.read_eq (h : store.PassesFile path) (hzero : '\x00' ∉ path.toList)
    : store.read path = .error (.notDirectory path) := by
  obtain ⟨place, rest, content, hhalts, hentry, hmore⟩ := h
  rw [hhalts.read_of_file hzero hentry, if_neg]
  rintro ⟨hrest, hslash⟩
  cases hmore with
  | inl hne => exact hne hrest
  | inr heq => simp [hslash] at heq

theorem read_of_not_present (habsent : ¬store.Present path) (hfile : ¬store.PassesFile path)
    (hzero : '\x00' ∉ path.toList)
    : store.read path = .error (.missing path) := by
  by_cases hempty : path = ""
  . rw [hempty]
    rfl
  . cases leads_or_halts store (origin store.home path) (names path) with
    | inl hleads => exact absurd ⟨hempty, .inr hleads⟩ habsent
    | inr hhalts =>
      obtain ⟨place, rest, hhalts⟩ := hhalts
      cases hentry : store.entry? place with
      | none => exact hhalts.read_of_none hzero hentry
      | some entry =>
        cases entry with
        | directory => exact absurd hentry hhalts.entry?_ne
        | file content =>
          have hread := hhalts.read_of_file hzero hentry
          split at hread
          . exact absurd ⟨hempty, .inl ⟨_, hread⟩⟩ habsent
          . next hmore =>
            refine absurd ⟨place, rest, content, hhalts, hentry, ?_⟩ hfile
            by_cases hrest : rest = []
            . exact .inr (by simpa [hrest] using hmore)
            . exact .inl hrest

theorem read_of_zero (h : '\x00' ∈ path.toList) : store.read path = .error .zeroCharacter := by
  have hlocate : store.locate path = .error .zeroCharacter := by
    unfold locate
    rw [if_pos (by simpa using h)]
    rfl
  unfold read
  simp only [hlocate, bind, Except.bind]

end PpuCodec.Store
