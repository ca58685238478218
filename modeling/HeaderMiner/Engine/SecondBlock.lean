import HeaderMiner.Header.Basic
import HeaderMiner.Sha256.Lanes

/-!
# What a header's hash shares between nonces

A header fills one block of the hash and most of a second. The first block is compressed once, into
the midstate. The second is kept as message words, with the time in word 9 and the nonce in word 11,
together with the working state after the eleven rounds that do not read the nonce. A new time
changes one word and redoes those rounds; the midstate stays.
-/

namespace HeaderMiner

/-- The chaining words after a header's first block. -/
def RawHeader.midstate (h : RawHeader) : Sha256.State :=
  Sha256.compress Sha256.initialState (Sha256.Block.ofBytes h.firstBlock.toList)

def timeWord : Nat := 9

def nonceWord : Nat := 11

/-- A header's second block, ready for a nonce. -/
structure SecondBlock where
  /-- The message words, padding included. -/
  words : Sha256.Block
  /-- The working state after the rounds before the nonce word. -/
  opening : Sha256.State
deriving DecidableEq

namespace SecondBlock

/-- The working state after the first eleven rounds over the given words. -/
def openingRounds (words : Sha256.Block) (midstate : Sha256.State) : Sha256.State :=
  Sha256.Lanes.State.lane
    (Sha256.Lanes.runRounds (Sha256.Lanes.broadcast 1 midstate) 0
      ((words.toList.take nonceWord).map (Vector.replicate 1))) 0

/-- The block with the given words and its opening rounds. -/
def ofWords (words : Sha256.Block) (midstate : Sha256.State) : SecondBlock :=
  ⟨words, openingRounds words midstate⟩

/-- The 48 bytes left over by the first block, a one bit, and the header's length in bits. -/
def ofHeader (h : RawHeader) (midstate : Sha256.State) : SecondBlock :=
  let tail := Sha256.Block.ofBytes h.tail.toList
  ofWords ((tail.set 12 0x80000000).set 15 (Sha256.Lanes.bitLength headerSize)) midstate

/-- Sets the time. Its bytes are stored least significant first, so the word has them swapped. -/
def setTime (b : SecondBlock) (time : UInt32) (midstate : Sha256.State) : SecondBlock :=
  ofWords (b.words.set timeWord (swapBytes time) (by decide)) midstate

end SecondBlock

end HeaderMiner
