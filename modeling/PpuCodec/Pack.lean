import PpuCodec.Pack.Kemko
import PpuCodec.Pack.Konami
import PpuCodec.Text.Lowercase
import PpuCodec.Text.Quoted

/-!
Packing data in the formats that have an encoder. What an encoder writes, the format of the same key
reads.
-/

namespace PpuCodec

inductive Encoder where
  | konami
  | konami2
  | kemko
deriving Repr, DecidableEq

namespace Encoder

def all : List Encoder := [.konami, .konami2, .kemko]

def key : Encoder → String
  | .konami => "konami"
  | .konami2 => "konami2"
  | .kemko => "kemko"

inductive Error where
  | unknownFormat (key : String)
  | image (error : Image.Error)
  /-- The format holds no address, so its data can go to one place only. -/
  | konamiAddress (address : Int)
  | kemkoAddress (address : Int)
deriving Repr, DecidableEq

def refusal (name : String) (address : Int) : String :=
  s!"{name} RLE always decodes to {Numeral.address Image.defaultAddress}, cannot target {Numeral.address address}"

def Error.message : Error → String
  | .unknownFormat key =>
    s!"No compressor for format {Text.quoted key}. Compression supports: " ++
      ", ".intercalate (all.map Encoder.key)
  | .image error => error.message
  | .konamiAddress address => refusal "Konami" address ++ "; use konami2"
  | .kemkoAddress address => refusal "Kemko" address

/-- Keys are compared without regard to case. -/
def ofKey (key : String) : Except Error Encoder :=
  match all.find? (·.key == Text.lower key) with
  | some encoder => .ok encoder
  | none => .error (.unknownFormat key)

def encode (encoder : Encoder) (data : List UInt8) (address : Int) : Except Error (List UInt8) :=
  match encoder with
  | .konami =>
    if address = Image.defaultAddress then (Pack.Konami.encode data address false).mapError .image
    else .error (.konamiAddress address)
  | .konami2 => (Pack.Konami.encode data address true).mapError .image
  | .kemko =>
    if address = Image.defaultAddress then .ok (Pack.Kemko.encode data)
    else .error (.kemkoAddress address)

end Encoder

def pack (key : String) (data : List UInt8) (address : Int) :
    Except Encoder.Error (List UInt8) := do
  (← Encoder.ofKey key).encode data address

end PpuCodec
