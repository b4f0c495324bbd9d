import ShaderDag.Digest.Bytes

/-!
# The 128-bit XXH3 hash

The seeded 128-bit variant of XXH3.  Short inputs are mixed by rules of their own for each class of
lengths (none, 1 to 3, 4 to 8, 9 to 16, 17 to 128 and 129 to 240 bytes); longer ones run through eight
accumulators in stripes of 64 bytes, sixteen stripes to a block.

* `Xxh3.hash` — the hash of a byte string under a seed;
* `Xxh3.shortHash`, `Xxh3.middleHash`, `Xxh3.longHash` — its length classes.
-/

namespace ShaderDag

namespace Xxh3

/-! ### Words -/

/-- The byte at an index, zero past the end. -/
def byteAt (b : Array UInt8) (i : Nat) : UInt8 := b.getD i 0

/-- The 32-bit little-endian word at an index. -/
def word32 (b : Array UInt8) (i : Nat) : UInt32 :=
  (byteAt b i).toUInt32 ||| (byteAt b (i + 1)).toUInt32 <<< 8 |||
    (byteAt b (i + 2)).toUInt32 <<< 16 ||| (byteAt b (i + 3)).toUInt32 <<< 24

/-- The 64-bit little-endian word at an index. -/
def word64 (b : Array UInt8) (i : Nat) : UInt64 :=
  (word32 b i).toUInt64 ||| (word32 b (i + 4)).toUInt64 <<< 32

/-- The bytes of a 32-bit word in reverse order. -/
def swap32 (x : UInt32) : UInt32 :=
  x <<< 24 ||| ((x <<< 8) &&& (0xff0000 : UInt32)) ||| ((x >>> 8) &&& (0xff00 : UInt32)) ||| x >>> 24

/-- The bytes of a 64-bit word in reverse order. -/
def swap64 (x : UInt64) : UInt64 :=
  (swap32 x.toUInt32).toUInt64 <<< 32 ||| (swap32 (x >>> 32).toUInt32).toUInt64

/-- The full product of two words. -/
def product (a b : UInt64) : Digest :=
  let p := a.toNat * b.toNat
  ⟨(p / 0x10000000000000000).toUInt64, p.toUInt64⟩

/-- The two halves of a product, combined. -/
def foldedProduct (a b : UInt64) : UInt64 :=
  let p := product a b
  p.high ^^^ p.low

/-! ### Constants -/

def prime32a : UInt64 := 0x9E3779B1
def prime32b : UInt64 := 0x85EBCA77
def prime32c : UInt64 := 0xC2B2AE3D
def prime64a : UInt64 := 0x9E3779B185EBCA87
def prime64b : UInt64 := 0xC2B2AE3D27D4EB4F
def prime64c : UInt64 := 0x165667B19E3779F9
def prime64d : UInt64 := 0x85EBCA77C2B2AE63
def prime64e : UInt64 := 0x27D4EB2F165667C5
def mixPrimeA : UInt64 := 0x165667919E3779F9
def mixPrimeB : UInt64 := 0x9FB21C651E98DF25

/-- The default secret. -/
def secret : Array UInt8 := #[
  0xb8, 0xfe, 0x6c, 0x39, 0x23, 0xa4, 0x4b, 0xbe, 0x7c, 0x01, 0x81, 0x2c, 0xf7, 0x21, 0xad, 0x1c,
  0xde, 0xd4, 0x6d, 0xe9, 0x83, 0x90, 0x97, 0xdb, 0x72, 0x40, 0xa4, 0xa4, 0xb7, 0xb3, 0x67, 0x1f,
  0xcb, 0x79, 0xe6, 0x4e, 0xcc, 0xc0, 0xe5, 0x78, 0x82, 0x5a, 0xd0, 0x7d, 0xcc, 0xff, 0x72, 0x21,
  0xb8, 0x08, 0x46, 0x74, 0xf7, 0x43, 0x24, 0x8e, 0xe0, 0x35, 0x90, 0xe6, 0x81, 0x3a, 0x26, 0x4c,
  0x3c, 0x28, 0x52, 0xbb, 0x91, 0xc3, 0x00, 0xcb, 0x88, 0xd0, 0x65, 0x8b, 0x1b, 0x53, 0x2e, 0xa3,
  0x71, 0x64, 0x48, 0x97, 0xa2, 0x0d, 0xf9, 0x4e, 0x38, 0x19, 0xef, 0x46, 0xa9, 0xde, 0xac, 0xd8,
  0xa8, 0xfa, 0x76, 0x3f, 0xe3, 0x9c, 0x34, 0x3f, 0xf9, 0xdc, 0xbb, 0xc7, 0xc7, 0x0b, 0x4f, 0x1d,
  0x8a, 0x51, 0xe0, 0x4b, 0xcd, 0xb4, 0x59, 0x31, 0xc8, 0x9f, 0x7e, 0xc9, 0xd9, 0x78, 0x73, 0x64,
  0xea, 0xc5, 0xac, 0x83, 0x34, 0xd3, 0xeb, 0xc3, 0xc5, 0x81, 0xa0, 0xff, 0xfa, 0x13, 0x63, 0xeb,
  0x17, 0x0d, 0xdd, 0x51, 0xb7, 0xf0, 0xda, 0x49, 0xd3, 0x16, 0x55, 0x26, 0x29, 0xd4, 0x68, 0x9e,
  0x2b, 0x16, 0xbe, 0x58, 0x7d, 0x47, 0xa1, 0xfc, 0x8f, 0xf8, 0xb8, 0xd1, 0x7a, 0xd0, 0x31, 0xce,
  0x45, 0xcb, 0x3a, 0x8f, 0x95, 0x16, 0x04, 0x28, 0xaf, 0xd7, 0xfb, 0xca, 0xbb, 0x4b, 0x40, 0x7e]

/-- The final mixing step. -/
def avalanche (h : UInt64) : UInt64 :=
  let h := (h ^^^ h >>> 37) * mixPrimeA
  h ^^^ h >>> 32

/-- The final mixing step of the shortest inputs. -/
def strongAvalanche (h : UInt64) : UInt64 :=
  let h := (h ^^^ h >>> 33) * prime64b
  let h := (h ^^^ h >>> 29) * prime64c
  h ^^^ h >>> 32

/-! ### Up to sixteen bytes -/

/-- The hash of the empty string. -/
def emptyHash (seed : UInt64) : Digest :=
  ⟨strongAvalanche (seed ^^^ word64 secret 80 ^^^ word64 secret 88),
    strongAvalanche (seed ^^^ word64 secret 64 ^^^ word64 secret 72)⟩

/-- The hash of one to three bytes. -/
def tinyHash (seed : UInt64) (b : Array UInt8) : Digest :=
  let len := b.size
  let lows : UInt32 :=
    (byteAt b 0).toUInt32 <<< 16 ||| (byteAt b (len / 2)).toUInt32 <<< 24 |||
      (byteAt b (len - 1)).toUInt32 ||| len.toUInt32 <<< 8
  let swapped := swap32 lows
  let highs := swapped <<< 13 ||| swapped >>> 19
  let flipLow := (word32 secret 0 ^^^ word32 secret 4).toUInt64 + seed
  let flipHigh := (word32 secret 8 ^^^ word32 secret 12).toUInt64 - seed
  ⟨strongAvalanche (highs.toUInt64 ^^^ flipHigh), strongAvalanche (lows.toUInt64 ^^^ flipLow)⟩

/-- The hash of four to eight bytes. -/
def smallHash (seed : UInt64) (b : Array UInt8) : Digest :=
  let len := b.size
  let seed := seed ^^^ (swap32 seed.toUInt32).toUInt64 <<< 32
  let input := (word32 b 0).toUInt64 + (word32 b (len - 4)).toUInt64 <<< 32
  let flip := (word64 secret 16 ^^^ word64 secret 24) + seed
  let p := product (input ^^^ flip) (prime64a + len.toUInt64 <<< 2)
  let high := p.high + p.low <<< 1
  let low := p.low ^^^ high >>> 3
  let low := (low ^^^ low >>> 35) * mixPrimeB
  ⟨avalanche high, low ^^^ low >>> 28⟩

/-- The hash of nine to sixteen bytes. -/
def mediumHash (seed : UInt64) (b : Array UInt8) : Digest :=
  let len := b.size
  let flipLow := (word64 secret 32 ^^^ word64 secret 40) - seed
  let flipHigh := (word64 secret 48 ^^^ word64 secret 56) + seed
  let first := word64 b 0
  let last := word64 b (len - 8)
  let p := product (first ^^^ last ^^^ flipLow) prime64a
  let low := p.low + (len - 1).toUInt64 <<< 54
  let last := last ^^^ flipHigh
  let high := p.high + last + (last &&& (0xffffffff : UInt64)) * (prime32b - 1)
  let low := low ^^^ swap64 high
  let q := product low prime64b
  ⟨avalanche (q.high + high * prime64b), avalanche q.low⟩

/-- The hash of at most sixteen bytes. -/
def shortHash (seed : UInt64) (b : Array UInt8) : Digest :=
  if 8 < b.size then mediumHash seed b
  else if 3 < b.size then smallHash seed b
  else if 0 < b.size then tinyHash seed b
  else emptyHash seed

/-! ### Up to 240 bytes -/

/-- Sixteen bytes of input against sixteen bytes of the secret. -/
def mix16 (seed : UInt64) (b : Array UInt8) (i key : Nat) : UInt64 :=
  foldedProduct (word64 b i ^^^ (word64 secret key + seed))
    (word64 b (i + 8) ^^^ (word64 secret (key + 8) - seed))

/-- Two runs of sixteen bytes, at `i` and at `j`, mixed into both words. -/
def mix32 (seed : UInt64) (b : Array UInt8) (acc : Digest) (i j key : Nat) : Digest :=
  let low := (acc.low + mix16 seed b i key) ^^^ (word64 b j + word64 b (j + 8))
  let high := (acc.high + mix16 seed b j (key + 16)) ^^^ (word64 b i + word64 b (i + 8))
  ⟨high, low⟩

/-- The last step for inputs of 17 to 240 bytes. -/
def finishMiddle (seed : UInt64) (len : Nat) (acc : Digest) : Digest :=
  let low := acc.low + acc.high
  let high := acc.low * prime64a + acc.high * prime64d + (len.toUInt64 - seed) * prime64b
  ⟨0 - avalanche high, avalanche low⟩

/-- The hash of 17 to 240 bytes: from both ends inwards up to 128 bytes, in runs of 32 above. -/
def middleHash (seed : UInt64) (b : Array UInt8) : Digest :=
  let len := b.size
  let start : Digest := ⟨0, len.toUInt64 * prime64a⟩
  if len ≤ 128 then
    let pairs := (List.range ((len - 1) / 32 + 1)).reverse
    finishMiddle seed len <| pairs.foldl
      (fun acc k => mix32 seed b acc (16 * k) (len - 16 * (k + 1)) (32 * k)) start
  else
    let head := (List.range 4).foldl
      (fun acc k => mix32 seed b acc (32 * k) (32 * k + 16) (32 * k)) start
    let head : Digest := ⟨avalanche head.high, avalanche head.low⟩
    let tail := (List.range (len / 32 - 4)).foldl
      (fun acc k => mix32 seed b acc (128 + 32 * k) (144 + 32 * k) (3 + 32 * k)) head
    finishMiddle seed len (mix32 (0 - seed) b tail (len - 16) (len - 32) 103)

/-! ### More than 240 bytes -/

/-- The secret that a seed turns the default secret into, as words at multiples of eight bytes. -/
def seededSecret (seed : UInt64) : Array UInt8 :=
  ((List.range 12).flatMap fun k =>
    littleEndian 8 (word64 secret (16 * k) + seed).toNat ++
      littleEndian 8 (word64 secret (16 * k + 8) - seed).toNat).toArray

/-- The first values of the accumulators. -/
def startAccumulators : Array UInt64 :=
  #[prime32c, prime64a, prime64b, prime64c, prime64d, prime32b, prime64e, prime32a]

/-- One stripe of 64 bytes at `i`, under the secret from `key` on. -/
def accumulate (key : Array UInt8) (b : Array UInt8) (acc : Array UInt64) (i offset : Nat) : Array UInt64 :=
  (List.range 8).foldl
    (fun (acc : Array UInt64) lane =>
      let value := word64 b (i + 8 * lane)
      let keyed := value ^^^ word64 key (offset + 8 * lane)
      let acc := acc.modify (lane ^^^ 1) (· + value)
      acc.modify lane (· + (keyed &&& (0xffffffff : UInt64)) * (keyed >>> 32)))
    acc

/-- The mixing of the accumulators at the end of a block. -/
def scramble (key : Array UInt8) (acc : Array UInt64) : Array UInt64 :=
  acc.mapIdx fun lane (a : UInt64) => (a ^^^ a >>> 47 ^^^ word64 key (128 + 8 * lane)) * prime32a

/-- The `count` stripes from byte `i` on. -/
def accumulateStripes (key b : Array UInt8) (acc : Array UInt64) (i count : Nat) : Array UInt64 :=
  (List.range count).foldl (fun acc n => accumulate key b acc (i + 64 * n) (8 * n)) acc

/-- The accumulators folded into one word. -/
def mergeAccumulators (key : Array UInt8) (acc : Array UInt64) (offset : Nat) (start : UInt64) : UInt64 :=
  avalanche <| (List.range 4).foldl
    (fun sum k =>
      sum + foldedProduct (acc.getD (2 * k) 0 ^^^ word64 key (offset + 16 * k))
        (acc.getD (2 * k + 1) 0 ^^^ word64 key (offset + 16 * k + 8)))
    start

/-- The hash of more than 240 bytes. -/
def longHash (seed : UInt64) (b : Array UInt8) : Digest :=
  let key := seededSecret seed
  let len := b.size
  let blocks := (len - 1) / 1024
  let acc := (List.range blocks).foldl
    (fun acc n => scramble key (accumulateStripes key b acc (1024 * n) 16)) startAccumulators
  let acc := accumulateStripes key b acc (1024 * blocks) ((len - 1 - 1024 * blocks) / 64)
  let acc := accumulate key b acc (len - 64) 121
  ⟨mergeAccumulators key acc 117 (~~~(len.toUInt64 * prime64b)),
    mergeAccumulators key acc 11 (len.toUInt64 * prime64a)⟩

/-- The hash of a byte string under a seed. -/
def hash (seed : UInt64) (bytes : List UInt8) : Digest :=
  let b := bytes.toArray
  if b.size ≤ 16 then shortHash seed b
  else if b.size ≤ 240 then middleHash seed b
  else longHash seed b

end Xxh3

/-- The seed of every digest of the compiler. -/
def digestSeed : UInt64 := 0x5bd1e9959e3779b9

/-- The digest of a byte string. -/
def digestOf (bytes : List UInt8) : Digest := Xxh3.hash digestSeed bytes

end ShaderDag
