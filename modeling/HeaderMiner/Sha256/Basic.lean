import HeaderMiner.Bytes

/-!
# SHA-256

The hash function of FIPS 180-4: schedule, rounds, compression and padding, one word at a time.
This is the plain definition that the lane-parallel code of `HeaderMiner.Sha256.Lanes` is measured
against.
-/

namespace HeaderMiner.Sha256

/-- The eight chaining words. -/
abbrev State := Vector UInt32 8

/-- The sixteen message words of one block. -/
abbrev Block := Vector UInt32 16

/-- The chaining words before the first block. -/
def initialState : State :=
  #v[0x6a09e667, 0xbb67ae85, 0x3c6ef372, 0xa54ff53a, 0x510e527f, 0x9b05688c, 0x1f83d9ab, 0x5be0cd19]

/-- One additive constant for each of the 64 rounds. -/
def roundConstants : Vector UInt32 64 :=
  #v[0x428a2f98, 0x71374491, 0xb5c0fbcf, 0xe9b5dba5, 0x3956c25b, 0x59f111f1, 0x923f82a4, 0xab1c5ed5,
     0xd807aa98, 0x12835b01, 0x243185be, 0x550c7dc3, 0x72be5d74, 0x80deb1fe, 0x9bdc06a7, 0xc19bf174,
     0xe49b69c1, 0xefbe4786, 0x0fc19dc6, 0x240ca1cc, 0x2de92c6f, 0x4a7484aa, 0x5cb0a9dc, 0x76f988da,
     0x983e5152, 0xa831c66d, 0xb00327c8, 0xbf597fc7, 0xc6e00bf3, 0xd5a79147, 0x06ca6351, 0x14292967,
     0x27b70a85, 0x2e1b2138, 0x4d2c6dfc, 0x53380d13, 0x650a7354, 0x766a0abb, 0x81c2c92e, 0x92722c85,
     0xa2bfe8a1, 0xa81a664b, 0xc24b8b70, 0xc76c51a3, 0xd192e819, 0xd6990624, 0xf40e3585, 0x106aa070,
     0x19a4c116, 0x1e376c08, 0x2748774c, 0x34b0bcb5, 0x391c0cb3, 0x4ed8aa4a, 0x5b9cca4f, 0x682e6ff3,
     0x748f82ee, 0x78a5636f, 0x84c87814, 0x8cc70208, 0x90befffa, 0xa4506ceb, 0xbef9a3f7, 0xc67178f2]

/-- Rotation to the right by `k` bits, for `0 < k < 32`. -/
def rotateRight (x : UInt32) (k : UInt32) : UInt32 := (x >>> k) ||| (x <<< (32 - k))

def bigSigma0 (x : UInt32) : UInt32 := rotateRight x 2 ^^^ rotateRight x 13 ^^^ rotateRight x 22

def bigSigma1 (x : UInt32) : UInt32 := rotateRight x 6 ^^^ rotateRight x 11 ^^^ rotateRight x 25

def smallSigma0 (x : UInt32) : UInt32 := rotateRight x 7 ^^^ rotateRight x 18 ^^^ (x >>> 3)

def smallSigma1 (x : UInt32) : UInt32 := rotateRight x 17 ^^^ rotateRight x 19 ^^^ (x >>> 10)

/-- Takes each bit from `f` where `e` is set and from `g` elsewhere. -/
def choose (e f g : UInt32) : UInt32 := (e &&& f) ^^^ (~~~e &&& g)

def majority (a b c : UInt32) : UInt32 := (a &&& b) ^^^ (a &&& c) ^^^ (b &&& c)

/-- The first `t` words of a block's message schedule. -/
def schedulePrefix (block : Block) : (t : Nat) → Vector UInt32 t
  | 0 => #v[]
  | t + 1 =>
    let w := schedulePrefix block t
    w.push <|
      if h : t < 16 then block[t]
      else smallSigma1 w[t - 2] + w[t - 7] + smallSigma0 w[t - 15] + w[t - 16]

/-- The message schedule: the block's words, then 48 words made from earlier ones. -/
def schedule (block : Block) : Vector UInt32 64 := schedulePrefix block 64

/-- One round with constant `k` and schedule word `w`. -/
def round (s : State) (k w : UInt32) : State :=
  let t₁ := s[7] + bigSigma1 s[4] + choose s[4] s[5] s[6] + k + w
  let t₂ := bigSigma0 s[0] + majority s[0] s[1] s[2]
  #v[t₁ + t₂, s[0], s[1], s[2], s[3] + t₁, s[4], s[5], s[6]]

/-- The working words after the first `t` rounds. -/
def afterRounds (init : State) (w : Vector UInt32 64) : (t : Nat) → t ≤ 64 → State
  | 0, _ => init
  | t + 1, h => round (afterRounds init w t (by omega)) roundConstants[t] w[t]

/-- The compression function: all rounds, then the old chaining words added in. -/
def compress (init : State) (block : Block) : State :=
  init.zipWith (· + ·) (afterRounds init (schedule block) 64 (Nat.le_refl 64))

/-- The words of the first 64 bytes of a text, most significant byte first. -/
def Block.ofBytes (bytes : List UInt8) : Block :=
  let byte (i : Nat) : UInt8 := bytes[i]?.getD 0
  Vector.ofFn fun i =>
    wordOfBytes (byte (4 * i)) (byte (4 * i + 1)) (byte (4 * i + 2)) (byte (4 * i + 3))

/-- The 32 bytes of a state, each word most significant byte first. -/
def State.toBytes (s : State) : Bytes 32 :=
  Vector.ofFn fun i => (Bytes.ofWordBE s[i.val / 4])[i.val % 4]

/-- The length of a message in bits as eight bytes, most significant first. -/
def lengthBytes (message : List UInt8) : List UInt8 :=
  (Bytes.ofDoubleWordLE (8 * message.length).toUInt64).toList.reverse

/-- The message, a one bit, the fewest zeros that complete a block, and the length. -/
def pad (message : List UInt8) : List UInt8 :=
  message ++ 0x80 :: List.replicate ((119 - message.length % 64) % 64) 0 ++ lengthBytes message

/-- Compresses the first `k` blocks of a padded text. -/
def absorb : (k : Nat) → State → List UInt8 → State
  | 0, s, _ => s
  | k + 1, s, bytes => absorb k (compress s (Block.ofBytes bytes)) (bytes.drop 64)

def hash (message : List UInt8) : Bytes 32 :=
  let padded := pad message
  State.toBytes (absorb (padded.length / 64) initialState padded)

def doubleHash (message : List UInt8) : Bytes 32 := hash (hash message).toList

end HeaderMiner.Sha256
