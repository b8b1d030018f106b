import PpuCodec.Proofs.CommandLine.Jobs
import PpuCodec.Proofs.Decode.Forward
import PpuCodec.Proofs.Decode.Outcome
import PpuCodec.Proofs.Files.Series
import PpuCodec.Proofs.Format.SelfContained

/-!
The files that a decompression writes. Each region that was asked for is written to its file, also
if the decode gets stuck; then it is taken from what was decoded before.
-/

namespace PpuCodec

theorem Catalog.mem_of_get {catalog : Catalog} {key : String} {format : Format}
    (h : catalog.get key = .ok format)
    : format ∈ catalog.formats := by
  unfold get at h
  split at h
  . next found hfound =>
    injection h with h
    rw [← h]
    exact List.mem_of_find?_eq_some hfound
  . contradiction

theorem Image.ofBytes_toBytes (image : Image) : ofBytes image.toBytes = .ok image := by
  have hsize : image.toBytes.size = 0x4000 := image.cells.size_toArray
  rw [ofBytes, dif_pos hsize]
  rfl

namespace CommandLine

open Job

/-- The regions go by the long names of their flags. -/
theorem Flag.exists_regionName
    : ∀ region ∈ regions, ∃ name,
        "--" ++ name ∈ regionNames region ∧
        Region.Name.parse name >>= Region.Name.check = .ok region := by
  simp only [regions, List.forall_mem_cons]
  exact ⟨⟨"nt0", by decide, by rfl⟩, ⟨"nt1", by decide, by rfl⟩, ⟨"nt2", by decide, by rfl⟩,
    ⟨"nt3", by decide, by rfl⟩, ⟨"att0", by decide, by rfl⟩, ⟨"att1", by decide, by rfl⟩,
    ⟨"att2", by decide, by rfl⟩, ⟨"att3", by decide, by rfl⟩, ⟨"chr0", by decide, by rfl⟩,
    ⟨"chr1", by decide, by rfl⟩, ⟨"bkpal", by decide, by rfl⟩, ⟨"spritepal", by decide, by rfl⟩,
    ⟨"ppu", by decide, by rfl⟩, by simp⟩

theorem exists_regionNamed_eq {region : Region} (h : region ∈ Flag.regions) (image : Image)
    : ∃ name,
        "--" ++ name ∈ Flag.regionNames region ∧
        Image.regionNamed image.toBytes name = .ok (image.region region) := by
  obtain ⟨name, hmem, hname⟩ := Flag.exists_regionName region h
  refine ⟨name, hmem, ?_⟩
  unfold Image.regionNamed
  cases hparse : Region.Name.parse name with
  | error error =>
    rw [hparse] at hname
    contradiction
  | ok parsed =>
    rw [hparse] at hname
    have hcheck : parsed.check = .ok region := hname
    rw [image.ofBytes_toBytes]
    simp only [Rule.mapError_ok, bind, Except.bind, hcheck]
    rfl

def Settings.outputs (settings : Settings) : List String :=
  Flag.regions.filterMap settings.target?

/-- What is written for the regions, in their order. -/
def deliveries (settings : Settings) (place : String → Location) (image : Image)
    (regions : List Region) : List (Location × Content) :=
  regions.filterMap fun region =>
    (settings.target? region).map fun path => (place path, .bytes (image.region region))

/-- Each of the outputs can be written at a place of its own, which is not that of the input. -/
structure Deliverable (store : Store) (input : String) (outputs : List String)
    (place : String → Location) : Prop where
  colon_not_mem : ∀ path ∈ outputs, ':' ∉ path.toList
  writableAt : ∀ path ∈ outputs, store.WritableAt (Target.tidy path) (place path)
  nodup : (outputs.map place).Nodup
  locate_ne : ∀ path ∈ outputs, store.locate input ≠ .ok (place path)

section

variable {settings : Settings} {store : Store} {image : Image} {place : String → Location}
  {regions : List Region} {region : Region} {path : String}

theorem exists_of_mem_deliveries {file : Location × Content}
    (h : file ∈ deliveries settings place image regions)
    : ∃ path ∈ regions.filterMap settings.target?, place path = file.1 := by
  obtain ⟨region, hmem, hfile⟩ := List.mem_filterMap.mp h
  obtain ⟨path, htarget, heq⟩ := Option.map_eq_some_iff.mp hfile
  refine ⟨path, List.mem_filterMap.mpr ⟨region, hmem, htarget⟩, ?_⟩
  rw [← heq]

theorem map_fst_deliveries (settings : Settings) (place : String → Location) (image : Image)
    (regions : List Region)
    : (deliveries settings place image regions).map Prod.fst
        =
      (regions.filterMap settings.target?).map place := by
  rw [deliveries, List.map_filterMap, List.map_filterMap]
  congr 1
  funext region
  cases settings.target? region with
  | none => rfl
  | some path => rfl

theorem mem_deliveries (hmem : region ∈ regions) (htarget : settings.target? region = some path)
    : (place path, .bytes (image.region region)) ∈ deliveries settings place image regions := by
  rw [deliveries, List.mem_filterMap]
  refine ⟨region, hmem, ?_⟩
  rw [htarget]
  rfl

theorem yields_writeRegions
    (hcolon : ∀ path ∈ regions.filterMap settings.target?, ':' ∉ path.toList)
    (hwritable : ∀ path ∈ regions.filterMap settings.target?,
      store.WritableAt (Target.tidy path) (place path))
    : (writeRegions settings image regions).Yields store ()
        (store.putAll (deliveries settings place image regions)) := by
  induction regions generalizing store with
  | nil => exact yields_pure () store
  | cons region rest ih =>
    cases htarget : settings.target? region with
    | none =>
      rw [List.filterMap_cons_none htarget] at hcolon hwritable
      rw [writeRegions, htarget, deliveries, List.filterMap_cons_none (by rw [htarget]; rfl)]
      exact ih hcolon hwritable
    | some path =>
      rw [List.filterMap_cons_some htarget] at hcolon hwritable
      rw [writeRegions, htarget, deliveries, List.filterMap_cons_some (by rw [htarget]; rfl)]
      have hplace := hwritable path List.mem_cons_self
      have hne := Store.ne_empty_of_writableAt_tidy hplace
      have hwrite := yields_writeTo (FileSpec.parse_path hne (hcolon path List.mem_cons_self))
        (Target.write_fresh hplace (image.region region))
      apply hwrite.bind
      apply ih
      . intro other hmem
        exact hcolon other (List.mem_cons_of_mem _ hmem)
      . intro other hmem
        exact hplace.put (hwritable other (List.mem_cons_of_mem _ hmem))

namespace Deliverable

variable {input : String} (h : Deliverable store input settings.outputs place)

include h

theorem yields (image : Image)
    : (writeRegions settings image Flag.regions).Yields store ()
        (store.putAll (deliveries settings place image Flag.regions)) :=
  yields_writeRegions h.colon_not_mem h.writableAt

theorem takes (image : Image)
    : ∀ file ∈ deliveries settings place image Flag.regions, store.Takes file.1 := by
  intro file hmem
  obtain ⟨path, hpath, heq⟩ := exists_of_mem_deliveries hmem
  rw [← heq]
  exact (h.writableAt path hpath).takes

theorem read_region (image : Image) (hmem : region ∈ Flag.regions)
    (htarget : settings.target? region = some path)
    : (store.putAll (deliveries settings place image Flag.regions)).read (Target.tidy path)
        =
      .ok (image.region region) := by
  have hpath : path ∈ settings.outputs := List.mem_filterMap.mpr ⟨region, hmem, htarget⟩
  have hapart : ((deliveries settings place image Flag.regions).map Prod.fst).Nodup := by
    rw [map_fst_deliveries]
    exact h.nodup
  exact (h.writableAt path hpath).read_putAll (h.takes image) hapart (mem_deliveries hmem htarget)

theorem entry?_eq (image : Image) {location : Location}
    (hother : location ∉ settings.outputs.map place)
    : Store.entry? (store.putAll (deliveries settings place image Flag.regions)) location
        =
      store.entry? location := by
  apply Store.entry?_putAll_of_not_mem (h.takes image)
  rw [map_fst_deliveries]
  exact hother

theorem read_input (image : Image) {data : Bytes} (hread : store.read input = .ok data)
    : (store.putAll (deliveries settings place image Flag.regions)).read input = .ok data := by
  apply Store.read_putAll_of_not_leadsTo (h.takes image) _ hread
  intro file hmem hleads
  obtain ⟨path, hpath, heq⟩ := exists_of_mem_deliveries hmem
  apply h.locate_ne path hpath
  rw [heq]
  exact Store.locate_eq_ok_iff.mpr hleads

end Deliverable

end

/-- What a decode in a built-in format comes to is all or the first part of an image. -/
theorem exists_salvage {format : Format} (hformat : format ∈ Catalog.builtIn.formats)
    (data : Bytes) (offset : Nat) (fill : UInt8) (store : Store)
    : ∃ image isWhole,
        (salvage data (format.decode data offset fill.toNat)).Yields store (image, isWhole) store ∧
        ((format.decode data offset fill.toNat = .ok image ∧ isWhole = true) ∨
        ∃ position look,
          format.decode data offset fill.toNat
            = .error (.stuck format.name position look image) ∧
          isWhole = false) := by
  have hoffset : 0 ≤ (offset : Int) := Int.natCast_nonneg offset
  have hdecode := format.decode_eq_outcome data hoffset fill
  rw [hdecode]
  unfold Format.outcome
  cases hending : (format.run data offset).ending with
  | complete => exact ⟨_, true, yields_salvage_ok _ _ store, .inl ⟨rfl, rfl⟩⟩
  | stuck =>
    refine ⟨_, false, yields_salvage_stuck _ _ _ _ _ store, .inr ⟨_, _, rfl, rfl⟩⟩
  | failed _ _ _ =>
    have := Run.ending_ne_failed (Format.builtIn_selfContained hformat) hoffset hending
    contradiction

variable {settings : Settings} {store : Store} {input : String} {spec : FileSpec} {data : Bytes}
  {format : Format} {place : String → Location}

/-- Whether the decode returns or gets stuck, every region that was asked for is written to its
file, and all other files stay as they are. Only the exit status tells the two cases apart. -/
theorem decompress_delivers (hspec : FileSpec.parse input = .ok spec)
    (hread : store.read spec.path = .ok data)
    (hformat : Catalog.builtIn.get settings.method = .ok format) (hpreview : settings.preview = "")
    (houtputs : Deliverable store spec.path settings.outputs place)
    : ∃ image outcome,
        runJob store (decompress settings input) = outcome ∧
        ((format.decode (uptoEnd spec data) spec.offset settings.fill.toNat = .ok image ∧
            outcome.status = 0) ∨
          ∃ position look,
            format.decode (uptoEnd spec data) spec.offset settings.fill.toNat
              = .error (.stuck format.name position look image) ∧
            outcome.status = 1) ∧
        (∀ region ∈ Flag.regions, ∀ path, settings.target? region = some path →
          ∃ name bytes,
            "--" ++ name ∈ Flag.regionNames region ∧
            Image.regionNamed image.toBytes name = .ok bytes ∧
            outcome.store.read (Target.tidy path) = .ok bytes) ∧
        (∀ location ∉ settings.outputs.map place,
          outcome.store.entry? location = store.entry? location) ∧
        outcome.store.read spec.path = .ok data := by
  obtain ⟨image, isWhole, hsalvage, hcases⟩ :=
    exists_salvage (Catalog.mem_of_get hformat) (uptoEnd spec data) spec.offset settings.fill store
  obtain ⟨tally, hdecode⟩ :=
    format.exists_decodeWith_eq (uptoEnd spec data) spec.offset settings.fill.toNat
  have hjob := yields_decompress hspec hread hformat hdecode hsalvage (houtputs.yields image)
    hpreview
  obtain ⟨hstatus, hstore⟩ := runJob_of_yields hjob
  refine ⟨image, _, rfl, ?_, ?_, ?_, ?_⟩
  . rw [hstatus]
    rcases hcases with ⟨hok, rfl⟩ | ⟨position, look, hstuck, rfl⟩
    . exact .inl ⟨hok, rfl⟩
    . exact .inr ⟨position, look, hstuck, rfl⟩
  . intro region hmem path htarget
    obtain ⟨name, hname, hbytes⟩ := exists_regionNamed_eq hmem image
    rw [hstore]
    exact ⟨name, _, hname, hbytes, houtputs.read_region image hmem htarget⟩
  . intro location hother
    rw [hstore]
    exact houtputs.entry?_eq image hother
  . rw [hstore]
    exact houtputs.read_input image hread

/-- A stream that breaks off in its second record, within a file that goes on behind it. -/
def brokenStream : Store :=
  { entries := [
      (["stream"], .file (.bytes #[0xEE, 0x00, 0x20, 0x03, 0x41, 0x05, 0xFF])),
      (["old"], .file (.bytes #[1, 2]))] }

/-- The settings under which a nametable goes to a new file, and all of the memory to an old one. -/
def twoOutputs : Settings :=
  { targets := [(.whole, "old"), (.table .nametable 0, "new")] }

theorem tidy_new : Target.tidy "new" = "new" := by rfl

theorem tidy_old : Target.tidy "old" = "old" := by rfl

theorem deliverable_twoOutputs
    : Deliverable brokenStream "stream" twoOutputs.outputs fun path => [path] := by
  have houtputs : twoOutputs.outputs = ["new", "old"] := by rfl
  rw [houtputs]
  constructor
  . decide
  . simp only [List.forall_mem_cons, tidy_new, tidy_old]
    refine ⟨⟨Store.locate_eq_ok_iff.mp (by rfl), by rfl, ?_⟩,
      ⟨Store.locate_eq_ok_iff.mp (by rfl), by rfl, ?_⟩, by simp⟩
    . have hnone : brokenStream.entry? ["new"] = none := by rfl
      simp [hnone]
    . have hfile : brokenStream.entry? ["old"] = some (.file (.bytes #[1, 2])) := by rfl
      simp [hfile]
  . decide
  . have hinput : brokenStream.locate "stream" = .ok ["stream"] := by rfl
    simp [hinput]

theorem decompress_delivers_stuck
    : ∃ position look image outcome,
        Format.konami2.decode #[0xEE, 0x00, 0x20, 0x03, 0x41, 0x05] (1 : Nat) (0x00 : UInt8).toNat
          = .error (.stuck Format.konami2.name position look image) ∧
        runJob brokenStream (decompress twoOutputs "stream:1:5") = outcome ∧
        outcome.status = 1 ∧
        (∃ name bytes,
          "--" ++ name ∈ Flag.regionNames (.table .nametable 0) ∧
          Image.regionNamed image.toBytes name = .ok bytes ∧
          outcome.store.read "new" = .ok bytes) ∧
        (∃ name bytes,
          "--" ++ name ∈ Flag.regionNames .whole ∧
          Image.regionNamed image.toBytes name = .ok bytes ∧
          outcome.store.read "old" = .ok bytes) ∧
        outcome.store.read "stream" = .ok #[0xEE, 0x00, 0x20, 0x03, 0x41, 0x05, 0xFF] := by
  have hspec : FileSpec.parse "stream:1:5" = .ok ⟨"stream", 1, 5⟩ := by rfl
  have hread : brokenStream.read "stream"
      = .ok #[0xEE, 0x00, 0x20, 0x03, 0x41, 0x05, 0xFF] := by
    rfl
  have hformat : Catalog.builtIn.get twoOutputs.method = .ok Format.konami2 := by rfl
  have hcut : uptoEnd ⟨"stream", 1, 5⟩ #[0xEE, 0x00, 0x20, 0x03, 0x41, 0x05, 0xFF]
      = #[0xEE, 0x00, 0x20, 0x03, 0x41, 0x05] := by
    rfl
  have hending : (Format.konami2.run #[0xEE, 0x00, 0x20, 0x03, 0x41, 0x05] (1 : Nat)).ending
      = .stuck := by
    decide +kernel
  obtain ⟨image, outcome, hjob, hcases, hregions, -, hinput⟩ :=
    decompress_delivers hspec hread hformat (by rfl) deliverable_twoOutputs
  have hnew := hregions (.table .nametable 0) (by decide) "new" (by rfl)
  have hold := hregions .whole (by decide) "old" (by rfl)
  rw [tidy_new] at hnew
  rw [tidy_old] at hold
  rw [hcut] at hcases
  rcases hcases with ⟨hok, -⟩ | ⟨position, look, hstuck, hstatus⟩
  . rw [Format.decode_eq_outcome _ _ (by decide), Format.outcome, hending] at hok
    simp at hok
  . exact ⟨position, look, image, outcome, hstuck, hjob, hstatus, hnew, hold, hinput⟩

end CommandLine

end PpuCodec
