/-!
# Characters of byte strings

A byte string that is meant to be text is read as UTF-8 up to its first malformed sequence, where a NUL
character ends it.  NUL is a character that no accepted document holds.
-/

namespace ShaderDag

/-- The six bits of a byte that continues a sequence. -/
def continuation? (b : UInt8) : Option Nat :=
  if 0x80 ≤ b ∧ b < 0xc0 then some (b.toNat - 0x80) else none

/-- The character with a code, if the code needs the sequence length it came with and is no half of a
surrogate pair. -/
def sequenceChar? (least code : Nat) : Option Char :=
  if least ≤ code ∧ code.isValidChar then some (Char.ofNat code) else none

/-- The character that starts a byte string, and the remaining bytes. -/
def nextCharacter? : List UInt8 → Option (Char × List UInt8)
  | [] => none
  | a :: rest =>
    if a < 0x80 then some (Char.ofNat a.toNat, rest)
    else if 0xc0 ≤ a ∧ a < 0xe0 then
      match rest with
      | b :: rest => do
        let code := 0x40 * (a.toNat - 0xc0) + (← continuation? b)
        return (← sequenceChar? 0x80 code, rest)
      | _ => none
    else if 0xe0 ≤ a ∧ a < 0xf0 then
      match rest with
      | b :: c :: rest => do
        let code := 0x1000 * (a.toNat - 0xe0) + 0x40 * (← continuation? b) + (← continuation? c)
        return (← sequenceChar? 0x800 code, rest)
      | _ => none
    else if 0xf0 ≤ a ∧ a < 0xf8 then
      match rest with
      | b :: c :: d :: rest => do
        let code := 0x40000 * (a.toNat - 0xf0) + 0x1000 * (← continuation? b) +
          0x40 * (← continuation? c) + (← continuation? d)
        return (← sequenceChar? 0x10000 code, rest)
      | _ => none
    else none

/-- The characters of a byte string, at most `count` of them. -/
def charactersUpTo : (count : Nat) → List UInt8 → List Char
  | 0, _ => []
  | count + 1, bytes =>
    if bytes.isEmpty then []
    else
      match nextCharacter? bytes with
      | some (c, rest) => c :: charactersUpTo count rest
      | none => ['\x00']

/-- The characters of a byte string.  Every character takes at least one byte. -/
def charactersOf (bytes : List UInt8) : List Char := charactersUpTo bytes.length bytes

end ShaderDag
