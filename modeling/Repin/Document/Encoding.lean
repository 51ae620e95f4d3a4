import Repin.Text.Lines
/-!
# Encodings

The encoding of a file follows from its byte-order mark: UTF-16 of either byte order needs one, and
without one a file is UTF-8. The mark is not part of the text. `FileMetadata` records what is needed
to write a text the way its file was read.
-/
namespace Repin

inductive TextEncoding where
  | utf8
  | utf16le
  | utf16be
  deriving DecidableEq, Repr

namespace TextEncoding

def description : TextEncoding → String
  | utf8 => "UTF-8"
  | utf16le => "UTF-16LE"
  | utf16be => "UTF-16BE"

def name : TextEncoding → String
  | utf8 => "utf8"
  | utf16le => "utf16_le"
  | utf16be => "utf16_be"

def ofName? : String → Option TextEncoding
  | "utf8" => some .utf8
  | "utf16_le" => some .utf16le
  | "utf16_be" => some .utf16be
  | _ => none

-- The byte-order mark of an encoding.
def mark : TextEncoding → List UInt8
  | utf8 => [0xEF, 0xBB, 0xBF]
  | utf16le => [0xFF, 0xFE]
  | utf16be => [0xFE, 0xFF]

-- The encoding of a file, whether it has a mark, and the bytes behind the mark.
def sniff : List UInt8 → TextEncoding × Bool × List UInt8
  | 0xEF :: 0xBB :: 0xBF :: body => (.utf8, true, body)
  | 0xFF :: 0xFE :: body => (.utf16le, true, body)
  | 0xFE :: 0xFF :: body => (.utf16be, true, body)
  | body => (.utf8, false, body)

end TextEncoding

namespace Utf16

-- The code units of a character: itself, or a pair of surrogates.
def unitsOf (c : Char) : List Nat :=
  let n := c.toNat
  if n < 0x10000 then [n] else [0xD800 + (n - 0x10000) / 0x400, 0xDC00 + (n - 0x10000) % 0x400]

-- Reads code units; `none` for a surrogate without its partner.
def ofUnits? : List Nat → Option (List Char)
  | [] => some []
  | [u] => if u < 0xD800 ∨ 0xE000 ≤ u then some [Char.ofNat u] else none
  | u :: v :: rest =>
    if u < 0xD800 ∨ 0xE000 ≤ u then
      (ofUnits? (v :: rest)).map (Char.ofNat u :: ·)
    else if u < 0xDC00 ∧ 0xDC00 ≤ v ∧ v < 0xE000 then
      (ofUnits? rest).map (Char.ofNat (0x10000 + (u - 0xD800) * 0x400 + (v - 0xDC00)) :: ·)
    else
      none

-- The two bytes of a code unit.
def bytesOf (bigEndian : Bool) (unit : Nat) : List UInt8 :=
  let low := UInt8.ofNat (unit % 256)
  let high := UInt8.ofNat (unit / 256)
  if bigEndian then [high, low] else [low, high]

-- Reads code units from their bytes; `none` for an odd number of bytes.
def unitsOfBytes? (bigEndian : Bool) : List UInt8 → Option (List Nat)
  | [] => some []
  | [_] => none
  | a :: b :: rest =>
    let unit := if bigEndian then a.toNat * 256 + b.toNat else b.toNat * 256 + a.toNat
    (unitsOfBytes? bigEndian rest).map (unit :: ·)

def encode (bigEndian : Bool) (cs : List Char) : List UInt8 :=
  (cs.flatMap unitsOf).flatMap (bytesOf bigEndian)

def decode? (bigEndian : Bool) (bytes : List UInt8) : Option (List Char) :=
  (unitsOfBytes? bigEndian bytes).bind ofUnits?

end Utf16

-- How a file was written.
structure FileMetadata where
  encoding : TextEncoding
  -- Whether the file started with a byte-order mark.
  bom : Bool
  newline : Newline
  deriving DecidableEq, Repr

namespace FileMetadata

-- Reads the bytes behind the mark.
def decodeBody? (encoding : TextEncoding) (body : List UInt8) : Option String :=
  match encoding with
  | .utf8 => String.fromUTF8? ⟨body.toArray⟩
  | .utf16le => (Utf16.decode? false body).map String.ofList
  | .utf16be => (Utf16.decode? true body).map String.ofList

-- Reads a file; `none` for bytes that are invalid in their encoding.
def decode? (bytes : ByteArray) : Option (String × FileMetadata) :=
  let (encoding, bom, body) := TextEncoding.sniff bytes.data.toList
  (decodeBody? encoding body).map fun text =>
    (text, { encoding, bom, newline := Newline.detect text.toList })

-- The bytes of a text without a mark.
def encodeBody (encoding : TextEncoding) (text : String) : List UInt8 :=
  match encoding with
  | .utf8 => text.toUTF8.data.toList
  | .utf16le => Utf16.encode false text.toList
  | .utf16be => Utf16.encode true text.toList

-- Writes a text the way its file was read.
def encode (m : FileMetadata) (text : String) : ByteArray :=
  ⟨((if m.bom then m.encoding.mark else []) ++ encodeBody m.encoding text).toArray⟩

end FileMetadata
end Repin
