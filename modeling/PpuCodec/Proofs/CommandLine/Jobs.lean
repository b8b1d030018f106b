import PpuCodec.Proofs.CommandLine.Session

/-!
What has to be there for a file to be compressed, or decompressed, and what is written then.
-/

namespace PpuCodec.CommandLine

open Job

variable {settings : Settings} {store after : Store} {input : String} {spec : FileSpec}
  {data : Bytes}

theorem yields_compress {packed : List UInt8} {output : FileSpec} {count : Nat}
    (hspec : FileSpec.parse input = .ok spec) (hread : spec.read store = .ok data)
    (hpack : pack settings.method data.toList settings.address = .ok packed)
    (houtput : FileSpec.parse settings.output = .ok output)
    (hwrite : output.target.write store packed.toArray = .ok (after, count))
    : (compress settings input).Yields store () after := by
  have hnamed : settings.output.isEmpty = false := by
    rw [← Bool.not_eq_true, String.isEmpty_iff]
    exact FileSpec.ne_empty_of_parse houtput
  apply (yields_parseSpec hspec store).bind
  apply (yields_say _ store).bind
  apply (yields_read hread).bind
  apply (yields_ofExcept _ hpack store).bind
  apply (yields_say _ store).bind
  apply (yields_say _ store).bind
  apply (yields_say _ store).bind
  rw [hnamed]
  exact yields_writeTo houtput hwrite

section

variable {image : Image} {regions : List Region} {region : Region} {path : String}

/-- Regions that no file was named for are passed over. -/
theorem yields_writeRegions_concat (hfront : ∀ region ∈ regions, settings.target? region = none)
    (htarget : settings.target? region = some path)
    (hwrite : (writeTo path (image.region region)).Yields store () after)
    : (writeRegions settings image (regions ++ [region])).Yields store () after := by
  induction regions with
  | nil =>
    rw [List.nil_append, writeRegions, htarget]
    exact hwrite.bind (yields_pure () after)
  | cons first rest ih =>
    simp only [List.mem_cons, forall_eq_or_imp] at hfront
    rw [List.cons_append, writeRegions, hfront.1]
    exact ih hfront.2

theorem yields_writePreview_none (h : settings.preview = "") (store : Store)
    : (writePreview settings image).Yields store () store := by
  rw [writePreview, h]
  exact yields_pure () store

theorem yields_salvage_ok (data : Bytes) (image : Image) (store : Store)
    : (salvage data (.ok image)).Yields store (image, true) store :=
  yields_pure (image, true) store

theorem yields_salvage_stuck (data : Bytes) (format : String) (position : Int) (look : Lookahead)
    (image : Image) (store : Store)
    : (salvage data (.error (.stuck format position look image))).Yields store (image, false)
        store := by
  apply (yields_complain _ store).bind
  apply (yields_forM (fun line => yields_complain line store) _).bind
  apply yields_pure

theorem yields_decompress {format : Format} {tally : Tally} {result : Except Decode.Error Image}
    {isWhole : Bool}
    (hspec : FileSpec.parse input = .ok spec) (hread : store.read spec.path = .ok data)
    (hformat : Catalog.builtIn.get settings.method = .ok format)
    (hdecode : format.decodeWith {} (uptoEnd spec data) spec.offset settings.fill.toNat
      = (result, tally))
    (hsalvage : (salvage (uptoEnd spec data) result).Yields store (image, isWhole) store)
    (hregions : (writeRegions settings image Flag.regions).Yields store () after)
    (hpreview : settings.preview = "")
    : (decompress settings input).Yields store isWhole after := by
  apply (yields_parseSpec hspec store).bind
  apply (yields_ofExcept _ hformat store).bind
  apply (yields_say _ store).bind
  apply (yields_readAll hread).bind
  have hrest : Yields (do
      (reportLines tally settings.stats).forM say
      writeRegions settings image Flag.regions
      writePreview settings image
      return isWhole) store isWhole after := by
    apply (yields_forM (fun line => yields_say line store) _).bind
    apply hregions.bind
    apply (yields_writePreview_none hpreview after).bind
    apply yields_pure
  dsimp only
  rw [hdecode]
  split
  . exact (yields_say _ store).bind (hsalvage.bind hrest)
  . exact hsalvage.bind hrest

end

end PpuCodec.CommandLine
