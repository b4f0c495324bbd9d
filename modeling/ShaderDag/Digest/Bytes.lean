/-!
# Byte strings fed to digests

Numbers are written least significant byte first, and texts with their length in front, so that no two
neighbouring fields can be confused.

* `Digest` — a 128-bit value in two words, with its 32-digit text;
* `littleEndian` — a number in a fixed count of bytes;
* `countedText` — a text behind its byte length.
-/

namespace ShaderDag

/-- The lowest `count` bytes of a number, least significant first. -/
def littleEndian : (count : Nat) → Nat → List UInt8
  | 0, _ => []
  | count + 1, n => n.toUInt8 :: littleEndian count (n / 256)

/-- The UTF-8 bytes of a text. -/
def utf8Bytes (s : String) : List UInt8 := s.toByteArray.data.toList

/-- A text behind its length in eight bytes. -/
def countedText (s : String) : List UInt8 :=
  littleEndian 8 (utf8Bytes s).length ++ utf8Bytes s

/-- A 128-bit hash value. -/
structure Digest where
  high : UInt64
  low : UInt64
deriving DecidableEq, Repr, Inhabited

namespace Digest

/-- The sixteen hexadecimal digits of a word. -/
def wordText (w : UInt64) : String :=
  let digits := Nat.toDigits 16 w.toNat
  String.ofList (List.replicate (16 - digits.length) '0' ++ digits)

/-- Both words in hexadecimal, high word first. -/
def text (d : Digest) : String := wordText d.high ++ wordText d.low

/-- The sixteen bytes of a digest, least significant first. -/
def bytes (d : Digest) : List UInt8 := littleEndian 8 d.low.toNat ++ littleEndian 8 d.high.toNat

end Digest

end ShaderDag
