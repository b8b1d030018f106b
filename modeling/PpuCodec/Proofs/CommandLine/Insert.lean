import PpuCodec.Proofs.CommandLine.Jobs
import PpuCodec.Proofs.Pack.Konami

/-!
Data that is packed into the middle of a file, and unpacked from there.
-/

namespace PpuCodec

theorem Image.region_whole (image : Image) : image.region .whole = image.toBytes := by
  have hsize : image.toBytes.size = 0x4000 := image.cells.size_toArray
  unfold Image.region
  rw [Region.start, Region.size, Nat.zero_add, ← hsize, Array.extract_size]

namespace CommandLine

variable {settings : Settings} {store : Store} {input rom out number : String} {bytes old : Bytes}
  {offset address : Nat} {place : Location}

/-- The settings under which data is packed into a file. -/
def inserting (settings : Settings) (address : Nat) (output : String) : Settings :=
  { settings with method := "konami2", address, output }

/-- The settings under which all of the picture memory is written to a file, and nothing else. -/
def extracting (settings : Settings) (fill : UInt8) (out : String) : Settings :=
  { settings with method := "konami2", fill, targets := [(.whole, out)], preview := "" }

theorem target?_extracting (fill : UInt8) (hne : out ≠ "") (region : Region)
    : (extracting settings fill out).target? region
        =
      if region = .whole then some out else none := by
  rw [Settings.target?, extracting, List.lookup_cons]
  split
  . next h =>
    rw [if_pos (beq_iff_eq.mp h)]
    simp [hne]
  . next h =>
    rw [if_neg (beq_eq_false_iff_ne.mp h)]
    rfl

theorem yields_writeRegions_extracting {image : Image} {fill : UInt8}
    (hcolon : ':' ∉ out.toList) (hplace : store.WritableAt (Target.tidy out) place)
    : (writeRegions (extracting settings fill out) image Flag.regions).Yields store ()
        (store.put place (.bytes image.toBytes)) := by
  have hregions : Flag.regions = Flag.regions.dropLast ++ [.whole] := by rfl
  have hothers : ∀ region ∈ Flag.regions.dropLast, region ≠ .whole := by decide
  have hne := Store.ne_empty_of_writableAt_tidy hplace
  have hwhole : (extracting settings fill out).target? .whole = some out := by
    rw [target?_extracting fill hne, if_pos rfl]
  rw [hregions]
  apply yields_writeRegions_concat _ hwhole
  . rw [Image.region_whole]
    apply Job.yields_writeTo (FileSpec.parse_path hne hcolon)
    exact Target.write_fresh hplace image.toBytes
  . intro region hmem
    rw [target?_extracting fill hne, if_neg (hothers region hmem)]

theorem yields_compress_inserting (settings : Settings) {after : Store} {packed : List UInt8}
    {count : Nat} (hinput : ':' ∉ input.toList) (hrom : ':' ∉ rom.toList)
    (hbytes : store.read input = .ok bytes) (hold : store.read rom = .ok old)
    (hnumber : Numeral.parse? number = some offset)
    (hpack : pack "konami2" bytes.toList address = .ok packed)
    (hwrite : (FileSpec.target ⟨rom, offset, 0⟩).write store packed.toArray = .ok (after, count))
    : (compress (inserting settings address (rom ++ ":" ++ number)) input).Yields store ()
        after := by
  apply yields_compress
  . exact FileSpec.parse_path (FileSpec.ne_empty_of_read hbytes) hinput
  . exact FileSpec.read_path hbytes
  . exact hpack
  . exact FileSpec.parse_path_number (FileSpec.ne_empty_of_read hold) hrom hnumber
  . exact hwrite

theorem yields_decompress_extracting (settings : Settings) (fill : UInt8) {new : Bytes}
    {rest : List UInt8} (hrom : ':' ∉ rom.toList) (hout : ':' ∉ out.toList)
    (hnew : store.read rom = .ok new)
    (hnumber : Numeral.parse? number = some offset) (haddress : address < 0x4000)
    (hreads : new.ReadsAt offset
      ((Pack.Konami.header address ++ Pack.Konami.body bytes.toList) ++ rest))
    (hplace : store.WritableAt (Target.tidy out) place)
    : (decompress (extracting settings fill out) (rom ++ ":" ++ number)).Yields store true
        (store.put place
          (.bytes ((Image.blank fill).overlay address bytes.toList).toBytes)) := by
  have hget : Catalog.builtIn.get "konami2" = .ok Format.konami2 := by rfl
  rw [List.append_assoc] at hreads
  obtain ⟨tally, hdecode, _⟩ :=
    Pack.Konami.konami2_decodeWith_header_body fill (Int.natCast_nonneg offset) (by omega) hreads
  apply yields_decompress
  . exact FileSpec.parse_path_number (FileSpec.ne_empty_of_read hnew) hrom hnumber
  . exact hnew
  . exact hget
  . exact hdecode
  . apply yields_salvage_ok
  . exact yields_writeRegions_extracting hout hplace
  . rfl

/-- Data that is packed into a file at an offset changes nothing else there, and no other file. From
the same place it is unpacked into a picture memory in which nothing else was written. -/
theorem insert_then_extract (settings : Settings) (fill : UInt8)
    (hinput : ':' ∉ input.toList) (hrom : ':' ∉ rom.toList) (hout : ':' ∉ out.toList)
    (hbytes : store.read input = .ok bytes) (hold : store.read rom = .ok old)
    (hapart : store.locate input ≠ store.locate rom)
    (hnumber : Numeral.parse? number = some offset) (hoffset : 0 < offset)
    (haddress : address < 0x4000) (hplace : store.WritableAt (Target.tidy out) place)
    : ∃ packed new inserted extracted,
        pack "konami2" bytes.toList address = .ok packed ∧
        runJob store (do
            compress (inserting settings address (rom ++ ":" ++ number)) input
            return true) = inserted ∧
        inserted.status = 0 ∧
        inserted.store.read rom = .ok new ∧
        Patched old offset packed.toArray new ∧
        inserted.store.read input = .ok bytes ∧
        store.SameButAt inserted.store rom ∧
        runJob inserted.store
            (decompress (extracting settings fill out) (rom ++ ":" ++ number)) = extracted ∧
        extracted.status = 0 ∧
        extracted.store.read (Target.tidy out)
          = .ok ((Image.blank fill).overlay address bytes.toList).toBytes := by
  have hpack := pack_konami2_eq bytes.toList haddress
  obtain ⟨after, new, hwrite, hnew, hpatched, hsame, hwritable⟩ :=
    FileSpec.exists_write_target hold hoffset
      (Pack.Konami.header address ++ Pack.Konami.body bytes.toList).toArray
  have hcompress := yields_compress_inserting settings hinput hrom hbytes hold hnumber hpack hwrite
  have hjob : Job.Yields (do
      compress (inserting settings address (rom ++ ":" ++ number)) input
      return true) store true after := hcompress.bind (Job.yields_pure true after)
  have hlater := hwritable _ place hplace
  -- The stream stands between bytes of the old file, or behind them and a gap.
  have hdecompress := yields_decompress_extracting settings fill hrom hout hnew hnumber haddress
    hpatched.readsAt hlater
  obtain ⟨hinserted, hstore⟩ := runJob_of_yields hjob
  obtain ⟨hextracted, hlast⟩ := runJob_of_yields hdecompress
  rw [← hstore] at hnew hsame hextracted hlast
  refine ⟨_, new, _, _, hpack, rfl, hinserted, hnew, hpatched, ?_, hsame, rfl, hextracted, ?_⟩
  . exact hsame input bytes hapart hbytes
  . rw [hlast, hstore]
    exact hlater.read_put _

/-- Data for the picture memory, and a file that is too short for the offset that it goes to. -/
def shortFile : Store :=
  { entries := [(["data"], .file (.bytes #[7, 7, 7, 7, 1])), (["rom"], .file (.bytes #[1, 2]))] }

theorem insert_then_extract_behind_end
    : ∃ new inserted extracted,
        runJob shortFile (do
            compress (inserting {} 0x2000 ("rom" ++ ":" ++ "$4")) "data"
            return true) = inserted ∧
        inserted.status = 0 ∧
        inserted.store.read "rom" = .ok new ∧
        new[1]? = some 2 ∧ new[2]? = some 0 ∧
        runJob inserted.store
            (decompress (extracting {} 0x24 "ppu") ("rom" ++ ":" ++ "$4")) = extracted ∧
        extracted.status = 0 ∧
        extracted.store.read "ppu"
          = .ok ((Image.blank 0x24).overlay 0x2000 [7, 7, 7, 7, 1]).toBytes := by
  have hbytes : shortFile.read "data" = .ok #[7, 7, 7, 7, 1] := by rfl
  have hold : shortFile.read "rom" = .ok #[1, 2] := by rfl
  have hapart : shortFile.locate "data" ≠ shortFile.locate "rom" := by
    have hdata : shortFile.locate "data" = .ok ["data"] := by rfl
    have hrom : shortFile.locate "rom" = .ok ["rom"] := by rfl
    rw [hdata, hrom]
    simp
  have hnumber : Numeral.parse? "$4" = some 4 := by rfl
  have haddress : 0x2000 < 0x4000 := by decide
  have htidy : Target.tidy "ppu" = "ppu" := by rfl
  have hplace : shortFile.WritableAt (Target.tidy "ppu") ["ppu"] := by
    rw [htidy]
    constructor
    . apply Store.locate_eq_ok_iff.mp
      rfl
    . rfl
    . have hnone : shortFile.entry? ["ppu"] = none := by rfl
      simp [hnone]
  obtain ⟨packed, new, inserted, extracted, _, hinserted, hstatus, hnew, hpatched, _, _, hextracted,
    hdone, himage⟩ := insert_then_extract {} 0x24 (by decide) (by decide) (by decide) hbytes hold
      hapart hnumber (by decide) haddress hplace
  rw [htidy] at himage
  refine ⟨new, inserted, extracted, hinserted, hstatus, hnew, ?_, ?_, hextracted, hdone, himage⟩
  . exact hpatched.outside 1 (by decide) (.inl (by decide))
  . exact hpatched.gap 2 (by decide) (by decide)

end CommandLine

end PpuCodec
