/-
  Polystore/Text/Hash.lean
  ========================
  **The xxHash64 digest of a byte string.**  Four lanes take the input in
  stripes of thirty-two bytes; the tail is folded in by eight, four and single
  bytes; a final mix spreads the bits.  All arithmetic is modulo `2 ^ 64`.
-/

namespace Polystore.Text.XxHash

def prime1 : UInt64 := 0x9E3779B185EBCA87
def prime2 : UInt64 := 0xC2B2AE3D27D4EB4F
def prime3 : UInt64 := 0x165667B19E3779F9
def prime4 : UInt64 := 0x85EBCA77C2B2AE63
def prime5 : UInt64 := 0x27D4EB2F165667C5

/-- Rotate left. -/
def rotl (x : UInt64) (k : UInt64) : UInt64 := (x <<< k) ||| (x >>> (64 - k))

/-- The little-endian number of a list of bytes. -/
def littleEndian (bytes : List UInt8) : UInt64 :=
  bytes.foldr (fun b n => n * 256 + b.toUInt64) 0

/-- Feed eight bytes to a lane. -/
def round (lane input : UInt64) : UInt64 := rotl (lane + input * prime2) 31 * prime1

/-- The four lanes. -/
structure Lanes where
  a : UInt64
  b : UInt64
  c : UInt64
  d : UInt64

/-- The lanes before any input. -/
def Lanes.start (seed : UInt64) : Lanes :=
  ⟨seed + prime1 + prime2, seed + prime2, seed, seed - prime1⟩

/-- Feed a stripe of thirty-two bytes. -/
def Lanes.feed (l : Lanes) (stripe : List UInt8) : Lanes :=
  ⟨round l.a (littleEndian (stripe.take 8)),
   round l.b (littleEndian ((stripe.drop 8).take 8)),
   round l.c (littleEndian ((stripe.drop 16).take 8)),
   round l.d (littleEndian ((stripe.drop 24).take 8))⟩

/-- Fold one lane into the running digest. -/
def mergeLane (acc lane : UInt64) : UInt64 := (acc ^^^ round 0 lane) * prime1 + prime4

/-- Combine the lanes. -/
def Lanes.merge (l : Lanes) : UInt64 :=
  let acc := rotl l.a 1 + rotl l.b 7 + rotl l.c 12 + rotl l.d 18
  mergeLane (mergeLane (mergeLane (mergeLane acc l.a) l.b) l.c) l.d

/-- Feed `count` stripes and return what is left of the input. -/
def stripes : Nat → Lanes → List UInt8 → Lanes × List UInt8
  | 0, lanes, bytes => (lanes, bytes)
  | count + 1, lanes, bytes => stripes count (lanes.feed (bytes.take 32)) (bytes.drop 32)

/-- Fold in eight bytes of the tail. -/
def tail8 (acc : UInt64) (bytes : List UInt8) : UInt64 :=
  rotl (acc ^^^ round 0 (littleEndian bytes)) 27 * prime1 + prime4

/-- Fold in four bytes of the tail. -/
def tail4 (acc : UInt64) (bytes : List UInt8) : UInt64 :=
  rotl (acc ^^^ littleEndian bytes * prime1) 23 * prime2 + prime3

/-- Fold in one byte of the tail. -/
def tail1 (acc : UInt64) (byte : UInt8) : UInt64 :=
  rotl (acc ^^^ byte.toUInt64 * prime5) 11 * prime1

/-- Fold in `count` groups of eight tail bytes. -/
def tails8 : Nat → UInt64 → List UInt8 → UInt64 × List UInt8
  | 0, acc, bytes => (acc, bytes)
  | count + 1, acc, bytes => tails8 count (tail8 acc (bytes.take 8)) (bytes.drop 8)

/-- Spread the bits. -/
def avalanche (h : UInt64) : UInt64 :=
  let h := (h ^^^ (h >>> 33)) * prime2
  let h := (h ^^^ (h >>> 29)) * prime3
  h ^^^ (h >>> 32)

def digest (seed : UInt64) (bytes : List UInt8) : UInt64 :=
  let length := bytes.length
  let (lanes, rest) := stripes (length / 32) (Lanes.start seed) bytes
  let acc := if length < 32 then seed + prime5 else lanes.merge
  let (acc, rest) := tails8 (length % 32 / 8) (acc + length.toUInt64) rest
  let (acc, rest) :=
    if 4 ≤ rest.length then (tail4 acc (rest.take 4), rest.drop 4) else (acc, rest)
  avalanche (rest.foldl tail1 acc)

end Polystore.Text.XxHash
