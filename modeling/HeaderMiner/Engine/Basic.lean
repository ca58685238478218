import HeaderMiner.Engine.LaneWidth
import HeaderMiner.Engine.SecondBlock

/-!
# The hashing engine

An engine hashes one header with many nonces. A call works on several lanes; lane `i` of a call that
starts at `base` takes the nonce `base + i`, modulo 2³². Each lane finishes the second block from the
cached rounds and hashes the digest once more.
-/

namespace HeaderMiner

/-- The state words of a finished double hash. -/
structure Digest where
  words : Sha256.State
deriving DecidableEq

namespace Digest

def toBytes (d : Digest) : Bytes 32 := Sha256.State.toBytes d.words

def blockHash (d : Digest) : BlockHash := ⟨d.toBytes⟩

/-- The leading 32 bits of the hash as a number: the last word with its bytes swapped. -/
def topWord (d : Digest) : UInt32 := swapBytes (d.words.get (Fin.last 7))

end Digest

/-- The cached parts of one header's hash. -/
structure Engine where
  midstate : Sha256.State
  block : SecondBlock
deriving DecidableEq

namespace Engine

open Sha256.Lanes

def ofHeader (h : RawHeader) : Engine :=
  ⟨h.midstate, SecondBlock.ofHeader h h.midstate⟩

def setTime (e : Engine) (time : UInt32) : Engine :=
  { e with block := e.block.setTime time e.midstate }

/-- The nonce of lane `lane` in a call that starts at `base`. -/
def laneNonce (base : UInt32) (lane : Nat) : UInt32 := base + lane.toUInt32

/-- The message words of the second block in `n` lanes, each lane with its own nonce. -/
def laneBlock (e : Engine) (n : Nat) (base : UInt32) : Vector (Word n) 16 :=
  (e.block.words.map (Vector.replicate n)).set nonceWord
    (Vector.ofFn fun lane => swapBytes (laneNonce base lane)) (by decide)

/-- The first hash of every lane: the rounds from the nonce word on, after the cached ones. -/
def firstHash (e : Engine) (n : Nat) (base : UInt32) : State n :=
  feedForward
    (runRounds (broadcast n e.block.opening) nonceWord
      ((schedule (e.laneBlock n base)).toList.drop nonceWord))
    (broadcast n e.midstate)

/-- The single block that holds a 32-byte digest, in `n` lanes. -/
def digestBlock {n : Nat} (first : State n) : Vector (Word n) 16 :=
  Vector.ofFn fun i =>
    if h : i.val < 8 then first[i.val]
    else Vector.replicate n <|
      if i.val = 8 then 0x80000000 else if i.val = 15 then bitLength 32 else 0

def hashLanes (e : Engine) (n : Nat) (base : UInt32) : Vector Digest n :=
  let second := compress (broadcast n Sha256.initialState) (digestBlock (e.firstHash n base))
  Vector.ofFn fun lane => ⟨second.lane lane⟩

def hashOne (e : Engine) (nonce : UInt32) : Digest := (e.hashLanes 1 nonce)[0]

/-- Each lane's nonce with its digest, in lane order. -/
def hashBatch (e : Engine) (width : LaneWidth) (base : UInt32) : List (UInt32 × Digest) :=
  (e.hashLanes width.count base).toList.mapIdx fun lane d => (laneNonce base lane, d)

end Engine

end HeaderMiner
