import PpuCodec.Proofs.Pack.Basic
import PpuCodec.Proofs.Records.Konami

/-!
What is packed for the Konami formats is decoded to the data it was packed from.
-/

namespace PpuCodec.Pack.Konami

theorem length_blockBytes_le (limit : Nat) (data : List UInt8)
    : (blockBytes limit data).length ≤ limit := by
  fun_induction blockBytes limit data with
  | case1 => simp
  | case2 => simp
  | case3 => simp
  | case4 limit b rest hstarts ih =>
    rw [List.length_cons]
    omega

theorem blockBytes_append_drop (limit : Nat) (data : List UInt8)
    : blockBytes limit data ++ data.drop (blockBytes limit data).length = data := by
  fun_induction blockBytes limit data with
  | case1 => simp
  | case2 => simp
  | case3 => simp
  | case4 limit b rest hstarts ih =>
    rw [List.length_cons, List.drop_succ_cons, List.cons_append]
    rw [ih]

theorem flatMap_expand_segments (data : List UInt8)
    : (segments data).flatMap Segment.expand = data := by
  fun_induction segments data with
  | case1 => rfl
  | case2 b rest count hrun ih =>
    rw [List.flatMap_cons, ih]
    apply replicate_runLength_append
  | case3 b rest count hrun more ih =>
    rw [List.flatMap_cons, ih]
    rw [Segment.expand, List.cons_append]
    rw [blockBytes_append_drop]

theorem fits_of_mem_segments (data : List UInt8) : ∀ segment ∈ segments data, Fits segment := by
  fun_induction segments data with
  | case1 => simp
  | case2 b rest count hrun ih =>
    intro segment hmem
    cases List.mem_cons.mp hmem with
    | inl heq =>
      rw [heq]
      constructor
      . exact runLength_pos
      . exact runLength_le_cap (by decide) b rest
    | inr hrest => exact ih segment hrest
  | case3 b rest count hrun more ih =>
    intro segment hmem
    cases List.mem_cons.mp hmem with
    | inl heq =>
      have hmore : more.length ≤ maxLength - 1 := length_blockBytes_le _ rest
      have hpos : 0 < maxLength := by decide
      rw [heq]
      simp only [Fits, List.length_cons]
      omega
    | inr hrest => exact ih segment hrest

theorem addressOf_header {address : Nat} (haddress : address < 0x10000)
    : addressOf (UInt8.ofInt address) (UInt8.ofInt (address / 0x100)) = address := by
  have hlow : (UInt8.ofInt address).toNat = address % 0x100 := by
    rw [UInt8.ofInt]
    rw [UInt8.toNat_ofNat']
    omega
  have hhigh : (UInt8.ofInt ((address : Int) / 0x100)).toNat = address / 0x100 := by
    rw [UInt8.ofInt]
    rw [UInt8.toNat_ofNat']
    omega
  rw [addressOf]
  rw [hlow, hhigh]
  omega

section

variable {data : Bytes} {offset : Int} {bytes rest : List UInt8} {address : Nat}

theorem decodeWith_body (format : Format) {fill : UInt8} {first : Cursor}
    (hopens : Opens data format.rules offset fill first ((Pen.fresh fill).moveTo address))
    (hoffset : 0 ≤ offset) (haddress : address ≤ 0x4000)
    (hread : ∀ {segment}, Fits segment →
      (Segment.layout encodeSegment).ReadBy format.rules segment)
    (hstop : StoppedBy format.rules [0xFF])
    (hreads : data.ReadsAt first.position (body bytes ++ rest))
    : ∃ tally,
        format.decodeWith {} data offset fill.toNat
          = (.ok ((Image.blank fill).overlay address bytes), tally) ∧
        tally.ShowsUnpacked (first.position + (body bytes).length) address bytes := by
  rw [body, List.append_assoc] at hreads
  have hsegments : ∀ segment ∈ segments bytes,
      (Segment.layout encodeSegment).ReadBy format.rules segment := by
    intro segment hmem
    apply hread
    exact fits_of_mem_segments bytes segment hmem
  have := Segment.decodeWith_layout format hopens hoffset haddress hsegments hstop hreads
  rw [flatMap_expand_segments] at this
  exact this

theorem konami_decodeWith_body (fill : UInt8) (hoffset : 0 ≤ offset)
    (hreads : data.ReadsAt offset (body bytes ++ rest))
    : ∃ tally,
        Format.konami.decodeWith {} data offset fill.toNat
          = (.ok ((Image.blank fill).overlay 0x2000 bytes), tally) ∧
        tally.ShowsUnpacked (offset + (body bytes).length) 0x2000 bytes := by
  have hopens : Opens data Format.konami.rules offset fill (Run.start offset) (.fresh fill) := by
    apply Opens.of_startOnly_eq_false
    simp [Format.konami]
  apply decodeWith_body Format.konami hopens hoffset (by decide) readBy_konami stoppedBy_konami
  exact hreads

theorem konami2_decodeWith_header_body (fill : UInt8) (hoffset : 0 ≤ offset)
    (haddress : address ≤ 0x4000)
    (hreads : data.ReadsAt offset (header address ++ (body bytes ++ rest)))
    : ∃ tally,
        Format.konami2.decodeWith {} data offset fill.toNat
          = (.ok ((Image.blank fill).overlay address bytes), tally) ∧
        tally.ShowsUnpacked (offset + 2 + (body bytes).length) address bytes := by
  have hopens := opens_konami2 hreads (by simp [body]) fill
  rw [addressOf_header (by omega)] at hopens
  apply decodeWith_body Format.konami2 hopens hoffset haddress readBy_konami2 stoppedBy_konami2
  exact hreads.advance

end

end PpuCodec.Pack.Konami

namespace PpuCodec

theorem pack_konami2_eq (bytes : List UInt8) {address : Nat} (haddress : address < 0x4000)
    : pack "konami2" bytes address
        =
      .ok (Pack.Konami.header address ++ Pack.Konami.body bytes) := by
  have hholds : Image.checkAddress address = .ok (address : Int) := by
    simp [Image.checkAddress, Image.holds]
    omega
  apply (pack_key .konami2 bytes address).trans
  rw [Encoder.encode, Pack.Konami.encode, hholds]
  rfl

theorem pack_konami_eq (bytes : List UInt8)
    : pack "konami" bytes 0x2000 = .ok (Pack.Konami.body bytes) := by
  apply (pack_key .konami bytes 0x2000).trans
  rfl

/-- What is packed with one of the Konami keys is decoded with it to the same data, wherever it
stands in the input. -/
theorem pack_konami_decodeWith (key : String) (address : Nat)
    (hkey : key = "konami2" ∨ key = "konami" ∧ address = 0x2000) (haddress : address < 0x4000)
    (bytes : List UInt8) (before after : Bytes) (fill : UInt8)
    : ∃ packed format tally,
        pack key bytes address = .ok packed ∧
        Catalog.builtIn.get key = .ok format ∧
        format.decodeWith {} (before ++ packed.toArray ++ after) before.size fill.toNat
          = (.ok ((Image.blank fill).overlay address bytes), tally) ∧
        tally.ShowsUnpacked (before.size + packed.length) address bytes := by
  cases hkey with
  | inl hkey =>
    subst hkey
    have hget : Catalog.builtIn.get "konami2" = .ok Format.konami2 := by rfl
    have hreads := Bytes.readsAt_append before after
      (Pack.Konami.header address ++ Pack.Konami.body bytes)
    rw [List.append_assoc] at hreads
    obtain ⟨tally, hdecode, hshows⟩ :=
      Pack.Konami.konami2_decodeWith_header_body fill (by omega) (by omega) hreads
    refine ⟨_, _, tally, pack_konami2_eq bytes haddress, hget, hdecode, ?_⟩
    rw [List.length_append, Int.natCast_add, ← Int.add_assoc]
    exact hshows
  | inr hkey =>
    obtain ⟨hkey, htarget⟩ := hkey
    subst hkey
    subst htarget
    have hget : Catalog.builtIn.get "konami" = .ok Format.konami := by rfl
    have hreads := Bytes.readsAt_append before after (Pack.Konami.body bytes)
    obtain ⟨tally, hdecode, hshows⟩ :=
      Pack.Konami.konami_decodeWith_body fill (by omega) hreads
    exact ⟨_, _, tally, pack_konami_eq bytes, hget, hdecode, hshows⟩

theorem pack_konami_decodeWith_last_cell
    : ∃ packed format tally,
        pack "konami2" [7, 8] 0x3FFF = .ok packed ∧
        Catalog.builtIn.get "konami2" = .ok format ∧
        format.decodeWith {} (#[0xFF] ++ packed.toArray ++ #[0x00]) 1 0x20
          = (.ok ((Image.blank 0x20).overlay 0x3FFF [7, 8]), tally) ∧
        tally.skippedWrites = 1 := by
  obtain ⟨packed, format, tally, hpack, hget, hdecode, hshows⟩ :=
    pack_konami_decodeWith "konami2" 0x3FFF (.inl rfl) (by decide) [7, 8] #[0xFF] #[0x00] 0x20
  exact ⟨packed, format, tally, hpack, hget, hdecode, hshows.skippedWrites⟩

end PpuCodec
