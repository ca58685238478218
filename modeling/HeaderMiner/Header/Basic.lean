import HeaderMiner.Target

/-!
# Block headers

A header has seven fields and 112 bytes. `Header` holds the fields, `RawHeader` the bytes that are
hashed; words are stored least significant byte first. A search sets only time and nonce of a raw
header.
-/

namespace HeaderMiner

def headerSize : Nat := 112

/-- The fields of a block header; hashes are in digest order. -/
structure Header where
  version : Int32
  prevBlockHash : Bytes 32
  merkleRoot : Bytes 32
  /-- The beat reference that the block commits to. -/
  referenceHash : Bytes 32
  /-- Seconds since 1970. -/
  time : UInt32
  /-- The target in compact form. -/
  bits : UInt32
  nonce : UInt32
deriving DecidableEq

structure RawHeader where
  bytes : Bytes 112
deriving DecidableEq

/-- A byte string of another size than a header's. -/
inductive HeaderError where
  | invalidLength (expected got : Nat)
deriving DecidableEq, Repr

def HeaderError.message : HeaderError → String
  | .invalidLength expected got =>
    "header must be " ++ toString expected ++ " bytes, got " ++ toString got

namespace RawHeader

/-- The part hashed by the first compression. -/
def firstBlock (h : RawHeader) : Bytes 64 := h.bytes.slice 0 64

/-- The part that the first compression leaves over. -/
def tail (h : RawHeader) : Bytes 48 := h.bytes.slice 64 48

def version (h : RawHeader) : Int32 := ⟨(h.bytes.slice 0 4).toWordLE⟩

def prevBlockHash (h : RawHeader) : BlockHash := ⟨h.bytes.slice 4 32⟩

def merkleRoot (h : RawHeader) : Bytes 32 := h.bytes.slice 36 32

def referenceHash (h : RawHeader) : Bytes 32 := h.bytes.slice 68 32

def time (h : RawHeader) : UInt32 := (h.bytes.slice 100 4).toWordLE

def bits (h : RawHeader) : UInt32 := (h.bytes.slice 104 4).toWordLE

def nonce (h : RawHeader) : UInt32 := (h.bytes.slice 108 4).toWordLE

def setTime (h : RawHeader) (time : UInt32) : RawHeader := ⟨h.bytes.splice 100 (Bytes.ofWordLE time)⟩

def setNonce (h : RawHeader) (nonce : UInt32) : RawHeader :=
  ⟨h.bytes.splice 108 (Bytes.ofWordLE nonce)⟩

/-- The double SHA-256 hash of the header as it stands. -/
def blockHash (h : RawHeader) : BlockHash := BlockHash.ofMessage h.bytes.toList

def toHeader (h : RawHeader) : Header where
  version := h.version
  prevBlockHash := h.prevBlockHash.bytes
  merkleRoot := h.merkleRoot
  referenceHash := h.referenceHash
  time := h.time
  bits := h.bits
  nonce := h.nonce

/-- A raw header from exactly 112 bytes. -/
def ofList (bytes : List UInt8) : Except HeaderError RawHeader :=
  if h : bytes.length = 112 then .ok ⟨⟨bytes.toArray, by simpa using h⟩⟩
  else .error (.invalidLength headerSize bytes.length)

def toHex (h : RawHeader) : String := Hex.encode h.bytes

def describe (h : RawHeader) : String :=
  "HeaderTemplate \x7b prev_block_hash: BlockHash(" ++ h.prevBlockHash.display ++ "), time: " ++
    toString h.time ++ ", bits: " ++ Hex.ofNat 8 h.bits.toNat ++ ", nonce: " ++ toString h.nonce ++
    " \x7d"

end RawHeader

namespace Header

/-- The 112 bytes of a header, field after field. -/
def serialize (h : Header) : RawHeader where
  bytes := Bytes.ofWordLE h.version.toUInt32 ++ h.prevBlockHash ++ h.merkleRoot ++ h.referenceHash ++
    Bytes.ofWordLE h.time ++ Bytes.ofWordLE h.bits ++ Bytes.ofWordLE h.nonce

def deserialize (bytes : List UInt8) : Except HeaderError Header :=
  (RawHeader.ofList bytes).map RawHeader.toHeader

def hash (h : Header) : BlockHash := h.serialize.blockHash

/-- The target that the header's compact form stands for. -/
def target (h : Header) : Target := Target.ofBits h.bits

end Header

/-- A header to be solved and the threshold for its hash. -/
structure Work where
  header : RawHeader
  target : Target
deriving DecidableEq

/-- The work of solving a header for its own target. -/
def Work.ofHeader (h : Header) : Work := ⟨h.serialize, h.target⟩

end HeaderMiner
