import DatedLedger.Power

/-!
# XXH3 with 64 bits

The 64-bit hash XXH3 with seed zero and its default secret.  Inputs of at most 16
bytes, of 17 to 128, of 129 to 240, and longer ones are mixed in four ways; long
inputs are cut into blocks of 1024 bytes, which are accumulated in eight lanes.
-/

namespace DatedLedger.XXH3

/-- The default secret, as sixteen bytes a row. -/
def secret : List UInt8 :=
  [0xb8, 0xfe, 0x6c, 0x39, 0x23, 0xa4, 0x4b, 0xbe, 0x7c, 0x01, 0x81, 0x2c, 0xf7, 0x21, 0xad, 0x1c,
    0xde, 0xd4, 0x6d, 0xe9, 0x83, 0x90, 0x97, 0xdb, 0x72, 0x40, 0xa4, 0xa4, 0xb7, 0xb3, 0x67, 0x1f,
    0xcb, 0x79, 0xe6, 0x4e, 0xcc, 0xc0, 0xe5, 0x78, 0x82, 0x5a, 0xd0, 0x7d, 0xcc, 0xff, 0x72, 0x21,
    0xb8, 0x08, 0x46, 0x74, 0xf7, 0x43, 0x24, 0x8e, 0xe0, 0x35, 0x90, 0xe6, 0x81, 0x3a, 0x26, 0x4c,
    0x3c, 0x28, 0x52, 0xbb, 0x91, 0xc3, 0x00, 0xcb, 0x88, 0xd0, 0x65, 0x8b, 0x1b, 0x53, 0x2e, 0xa3,
    0x71, 0x64, 0x48, 0x97, 0xa2, 0x0d, 0xf9, 0x4e, 0x38, 0x19, 0xef, 0x46, 0xa9, 0xde, 0xac, 0xd8,
    0xa8, 0xfa, 0x76, 0x3f, 0xe3, 0x9c, 0x34, 0x3f, 0xf9, 0xdc, 0xbb, 0xc7, 0xc7, 0x0b, 0x4f, 0x1d,
    0x8a, 0x51, 0xe0, 0x4b, 0xcd, 0xb4, 0x59, 0x31, 0xc8, 0x9f, 0x7e, 0xc9, 0xd9, 0x78, 0x73, 0x64,
    0xea, 0xc5, 0xac, 0x83, 0x34, 0xd3, 0xeb, 0xc3, 0xc5, 0x81, 0xa0, 0xff, 0xfa, 0x13, 0x63, 0xeb,
    0x17, 0x0d, 0xdd, 0x51, 0xb7, 0xf0, 0xda, 0x49, 0xd3, 0x16, 0x55, 0x26, 0x29, 0xd4, 0x68, 0x9e,
    0x2b, 0x16, 0xbe, 0x58, 0x7d, 0x47, 0xa1, 0xfc, 0x8f, 0xf8, 0xb8, 0xd1, 0x7a, 0xd0, 0x31, 0xce,
    0x45, 0xcb, 0x3a, 0x8f, 0x95, 0x16, 0x04, 0x28, 0xaf, 0xd7, 0xfb, 0xca, 0xbb, 0x4b, 0x40, 0x7e]

/-! ## Primes of 32 and 64 bits -/

def prime32A : UInt64 := 0x9E3779B1

def prime32B : UInt64 := 0x85EBCA77

def prime32C : UInt64 := 0xC2B2AE3D

def prime64A : UInt64 := 0x9E3779B185EBCA87

def prime64B : UInt64 := 0xC2B2AE3D27D4EB4F

def prime64C : UInt64 := 0x165667B19E3779F9

def prime64D : UInt64 := 0x85EBCA77C2B2AE63

def prime64E : UInt64 := 0x27D4EB2F165667C5

/-! ## Words and their mixing -/

/-- The number that bytes denote, least significant first. -/
def littleEndian (bytes : List UInt8) : UInt64 :=
  bytes.foldr (fun b n => n * 256 + b.toUInt64) 0

def word32 (bytes : List UInt8) (offset : Nat) : UInt64 :=
  littleEndian ((bytes.drop offset).take 4)

/-- The eight bytes at an offset. -/
def word64 (bytes : List UInt8) (offset : Nat) : UInt64 :=
  littleEndian ((bytes.drop offset).take 8)

/-- Mixes the high bits of a word into its low ones. -/
def shiftXor (h : UInt64) (n : UInt64) : UInt64 :=
  h ^^^ (h >>> n)

def rotate (h : UInt64) (n : UInt64) : UInt64 :=
  (h <<< n) ||| (h >>> (64 - n))

/-- The bytes of a word in reverse order. -/
def swapBytes (h : UInt64) : UInt64 :=
  (List.range 8).foldl (fun (n : UInt64) (i : Nat) => n * 256 + (h >>> (8 * i).toUInt64) % 256) 0

/-- Both halves of a product of 128 bits, combined by exclusive or. -/
def foldProduct (a b : UInt64) : UInt64 :=
  let p := a.toNat * b.toNat
  p.toUInt64 ^^^ (p / 2 ^ 64).toUInt64

/-- The last mixing of short inputs. -/
def avalancheShort (h : UInt64) : UInt64 :=
  let h := shiftXor h 33 * prime64B
  let h := shiftXor h 29 * prime64C
  shiftXor h 32

/-- The last mixing of other inputs. -/
def avalanche (h : UInt64) : UInt64 :=
  let h := shiftXor h 37 * 0x165667919E3779F9
  shiftXor h 32

/-- The last mixing of inputs of four to eight bytes. -/
def mixWithLength (h length : UInt64) : UInt64 :=
  let h := (h ^^^ rotate h 49 ^^^ rotate h 24) * 0x9FB21C651E98DF25
  let h := (h ^^^ ((h >>> 35) + length)) * 0x9FB21C651E98DF25
  shiftXor h 28

/-- Mixes sixteen bytes of input with sixteen bytes of the secret. -/
def mix (bytes : List UInt8) (offset secretOffset : Nat) : UInt64 :=
  foldProduct (word64 bytes offset ^^^ word64 secret secretOffset)
    (word64 bytes (offset + 8) ^^^ word64 secret (secretOffset + 8))

/-! ## Inputs by length -/

/-- The hash of at most sixteen bytes. -/
def hashUpTo16 (bytes : List UInt8) : UInt64 :=
  let n := bytes.length
  if 8 < n then
    let low := word64 bytes 0 ^^^ (word64 secret 24 ^^^ word64 secret 32)
    let high := word64 bytes (n - 8) ^^^ (word64 secret 40 ^^^ word64 secret 48)
    avalanche (n.toUInt64 + swapBytes low + high + foldProduct low high)
  else if 4 ≤ n then
    let joined := word32 bytes (n - 4) + (word32 bytes 0 <<< 32)
    mixWithLength (joined ^^^ (word64 secret 8 ^^^ word64 secret 16)) n.toUInt64
  else if 0 < n then
    let byte (i : Nat) : UInt64 := littleEndian ((bytes.drop i).take 1)
    let joined := (byte 0 <<< 16) ||| (byte (n / 2) <<< 24) ||| byte (n - 1) |||
      (n.toUInt64 <<< 8)
    avalancheShort (joined ^^^ (word32 secret 0 ^^^ word32 secret 4))
  else avalancheShort (word64 secret 56 ^^^ word64 secret 64)

/-- The hash of 17 to 128 bytes: pairs of pieces from both ends, the outer ones first. -/
def hashUpTo128 (bytes : List UInt8) : UInt64 :=
  let n := bytes.length
  let pairs := (n - 1) / 32 + 1
  avalanche ((List.range pairs).foldl
    (fun acc i => acc + mix bytes (16 * i) (32 * i) + mix bytes (n - 16 * (i + 1)) (32 * i + 16))
    (n.toUInt64 * prime64A))

/-- The hash of 129 to 240 bytes: pieces in order, with a mixing after the eighth. -/
def hashUpTo240 (bytes : List UInt8) : UInt64 :=
  let n := bytes.length
  let head := (List.range 8).foldl (fun acc i => acc + mix bytes (16 * i) (16 * i))
    (n.toUInt64 * prime64A)
  let rest := (List.range (n / 16 - 8)).foldl
    (fun acc i => acc + mix bytes (128 + 16 * i) (16 * i + 3)) (avalanche head)
  avalanche (rest + mix bytes (n - 16) (136 - 17))

/-- The eight words at the front. -/
def lanes (bytes : List UInt8) : List UInt64 :=
  (List.range 8).map fun i => word64 bytes (8 * i)

/-- Exchanges neighbouring lanes. -/
def swapLanes : List UInt64 → List UInt64
  | a :: b :: rest => b :: a :: swapLanes rest
  | rest => rest

/-- Accumulates a stripe of 64 bytes, with the secret from an offset on. -/
def accumulate (acc : List UInt64) (stripe : List UInt8) (secretOffset : Nat) : List UInt64 :=
  let data := lanes stripe
  let keyed := data.zipWith (· ^^^ ·) (lanes (secret.drop secretOffset))
  let products := keyed.map fun (k : UInt64) => (k % 0x100000000) * (k >>> 32)
  (acc.zipWith (· + ·) (swapLanes data)).zipWith (· + ·) products

/-- Accumulates so many stripes in order. -/
def accumulateStripes (acc : List UInt64) (bytes : List UInt8) (count : Nat) : List UInt64 :=
  ((List.range count).foldl
    (fun (state : List UInt64 × List UInt8) i =>
      (accumulate state.1 (state.2.take 64) (8 * i), state.2.drop 64))
    (acc, bytes)).1

/-- Mixes the lanes after a block. -/
def scramble (acc : List UInt64) : List UInt64 :=
  acc.zipWith (fun a k => (shiftXor a 47 ^^^ k) * prime32A) (lanes (secret.drop 128))

/-- Accumulates whole blocks of sixteen stripes, and returns what follows them. -/
def accumulateBlocks (acc : List UInt64) (bytes : List UInt8) : Nat → List UInt64 × List UInt8
  | 0 => (acc, bytes)
  | count + 1 =>
    accumulateBlocks (scramble (accumulateStripes acc bytes 16)) (bytes.drop 1024) count

/-- The lanes before the first stripe. -/
def startLanes : List UInt64 :=
  [prime32C, prime64A, prime64B, prime64C, prime64D, prime32B, prime64E, prime32A]

/-- The sum of the folded products of neighbouring lanes. -/
def foldLanes : List UInt64 → UInt64
  | a :: b :: rest => foldProduct a b + foldLanes rest
  | _ => 0

/-- Folds the lanes, mixed with the secret from an offset on, into one word. -/
def mergeLanes (acc : List UInt64) (secretOffset : Nat) (start : UInt64) : UInt64 :=
  let keyed := acc.zipWith (· ^^^ ·) (lanes (secret.drop secretOffset))
  avalanche (start + foldLanes keyed)

/-- The hash of more than 240 bytes. -/
def hashLong (bytes : List UInt8) : UInt64 :=
  let n := bytes.length
  let blocks := (n - 1) / 1024
  let (acc, rest) := accumulateBlocks startLanes bytes blocks
  let acc := accumulateStripes acc rest ((n - 1 - 1024 * blocks) / 64)
  let acc := accumulate acc (bytes.drop (n - 64)) 121
  mergeLanes acc 11 (n.toUInt64 * prime64A)

/-- The hash of a list of bytes. -/
def hash (bytes : List UInt8) : UInt64 :=
  let n := bytes.length
  if n ≤ 16 then hashUpTo16 bytes
  else if n ≤ 128 then hashUpTo128 bytes
  else if n ≤ 240 then hashUpTo240 bytes
  else hashLong bytes

end DatedLedger.XXH3
