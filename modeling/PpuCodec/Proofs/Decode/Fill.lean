import PpuCodec.Proofs.Decode.Outcome

/-!
Decodes of one input into memories that are filled differently. They do the same and write the
same, so the memories differ at most where nothing was written, and there each shows its fill. The
fill shows in the tiles of the nametables only.
-/

namespace PpuCodec

namespace Image

def nametables : List Nat := [0x2000, 0x2400, 0x2800, 0x2C00]

/-- The cell is one of the 960 tiles that a nametable begins with. -/
def InTiles (address : Nat) : Prop :=
  ∃ start ∈ nametables, start ≤ address ∧ address < start + 0x3C0

theorem inTiles_of_isTileCell {address : Nat} (h : isTileCell address = true)
    : InTiles address := by
  simp only [isTileCell, Bool.and_eq_true, decide_eq_true_eq] at h
  obtain ⟨⟨hlow, hhigh⟩, htile⟩ := h
  refine ⟨0x400 * (address / 0x400), ?_, ?_, ?_⟩
  . have hindex : address / 0x400 = 8 ∨ address / 0x400 = 9 ∨ address / 0x400 = 10 ∨
        address / 0x400 = 11 := by omega
    rcases hindex with heq | heq | heq | heq
    all_goals simp [heq, nametables]
  . omega
  . omega

/-- The memories hold the same, but for tiles that show their fills. -/
def FillShows (fill fill' : UInt8) (image image' : Image) : Prop :=
  ∀ (address : Nat) (h : address < 0x4000),
    image.cells[address] = image'.cells[address] ∨
    image.cells[address] = fill ∧ image'.cells[address] = fill' ∧ InTiles address

theorem fillShows_blank (fill fill' : UInt8) : FillShows fill fill' (blank fill) (blank fill') := by
  intro address h
  simp only [blank, Vector.getElem_ofFn]
  cases htile : isTileCell address with
  | false => exact .inl rfl
  | true => exact .inr ⟨rfl, rfl, inTiles_of_isTileCell htile⟩

namespace FillShows

variable {fill fill' : UInt8} {image image' : Image}

theorem write (h : FillShows fill fill' image image') (address : Int) (b : UInt8)
    : FillShows fill fill' (image.write address b) (image'.write address b) := by
  unfold Image.write
  split
  . intro cell hcell
    rw [Vector.getElem_set, Vector.getElem_set]
    split
    . exact .inl rfl
    . exact h cell hcell
  . exact h

theorem paintFrom (h : FillShows fill fill' image image') (address step : Int)
    (bytes : List UInt8)
    : FillShows fill fill' (image.paintFrom address step bytes)
        (image'.paintFrom address step bytes) := by
  induction bytes generalizing image image' address with
  | nil => exact h
  | cons b bytes ih => exact ih (h.write address b) (address + step)

theorem apply (h : FillShows fill fill' image image') (effect : Effect)
    : FillShows fill fill' (effect.apply image) (effect.apply image') := by
  cases effect with
  | seek target => exact h
  | paint stroke cut => exact h.paintFrom stroke.address stroke.step stroke.bytes
  | stop => exact h

end FillShows

end Image

theorem Run.fillShows_image (run : Run) (fill fill' : UInt8)
    : Image.FillShows fill fill' (run.image fill) (run.image fill') := by
  unfold image
  have hblank := Image.fillShows_blank fill fill'
  generalize Image.blank fill = first at hblank ⊢
  generalize Image.blank fill' = second at hblank ⊢
  induction run.fired generalizing first second with
  | nil => exact hblank
  | cons firing fired ih => exact ih _ _ (hblank.apply firing.effect)

namespace Decode

/-- Both decodes return, or both fail in the same way; the memories that come with it are
related. -/
inductive Alike (related : Image → Image → Prop)
    : Except Error Image → Except Error Image → Prop where
  | returned {image image' : Image} (h : related image image')
      : Alike related (.ok image) (.ok image')
  | stuck {image image' : Image} (format : String) (position : Int) (look : Lookahead)
      (h : related image image')
      : Alike related (.error (.stuck format position look image))
          (.error (.stuck format position look image'))
  | fault (fault : Fault) : Alike related (.error (.fault fault)) (.error (.fault fault))

theorem Alike.message_eq {related : Image → Image → Prop} {error error' : Error}
    (h : Alike related (.error error) (.error error'))
    : error.message = error'.message := by
  cases h with
  | stuck format position look h => rfl
  | fault fault => rfl

end Decode

namespace Format

theorem outcome_alike (format : Format) (data : Bytes) {run : Run} {fill fill' : UInt8}
    {related : Image → Image → Prop} (h : related (run.image fill) (run.image fill'))
    : Decode.Alike related (format.outcome data fill run) (format.outcome data fill' run) := by
  unfold outcome
  cases run.ending with
  | complete => exact .returned h
  | stuck => exact .stuck _ _ _ h
  | failed index rule fault => exact .fault fault

/-- Decodes that differ in the fill come to the same, and leave the same in the tally. What they
write into, or wrote before they got stuck, holds the same but for tiles that show the fill. -/
theorem decodeWith_fillShows (format : Format) (tally : Tally) (data : Bytes) (offset : Nat)
    (fill fill' : UInt8)
    : ∃ result result' after,
        format.decodeWith tally data offset fill.toNat = (result, after) ∧
        format.decodeWith tally data offset fill'.toNat = (result', after) ∧
        Decode.Alike (Image.FillShows fill fill') result result' ∧
        ∀ error error', result = .error error → result' = .error error' →
          error.message = error'.message := by
  have hoffset : 0 ≤ (offset : Int) := Int.natCast_nonneg offset
  have halike := format.outcome_alike data
    ((format.run data offset).fillShows_image fill fill')
  refine ⟨_, _, _, format.decodeWith_eq_outcome tally data hoffset fill,
    format.decodeWith_eq_outcome tally data hoffset fill', halike, ?_⟩
  intro error error' herror herror'
  rw [herror, herror'] at halike
  exact halike.message_eq

end Format

end PpuCodec
