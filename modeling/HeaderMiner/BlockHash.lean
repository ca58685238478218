import HeaderMiner.Sha256.Basic
import HeaderMiner.Text.Hex

/-!
# Block hashes

A block hash is the double SHA-256 digest of a header. Its bytes are kept in the order in which the
hash function gives them out; as a number, and in its displayed form, the last byte leads.
-/

namespace HeaderMiner

/-- The 32 bytes of a digest, in digest order. -/
structure BlockHash where
  bytes : Bytes 32
deriving DecidableEq

namespace BlockHash

def zero : BlockHash := ⟨Bytes.zero 32⟩

instance : Inhabited BlockHash := ⟨zero⟩

def ofMessage (message : List UInt8) : BlockHash := ⟨Sha256.doubleHash message⟩

/-- The bytes most significant first. -/
def toBigEndian (h : BlockHash) : Bytes 32 := h.bytes.reverse

/-- The number that a target is compared with. -/
def toNat (h : BlockHash) : Nat := h.bytes.toNatLE

/-- The displayed form: 64 digits, most significant first. -/
def display (h : BlockHash) : String := Hex.encode h.toBigEndian

instance : ToString BlockHash := ⟨display⟩

/-- Reads the displayed form, with digits of either case. -/
def ofDisplay (s : String) : Except Hex.Error BlockHash :=
  (Hex.decode 32 s).map fun bytes => ⟨bytes.reverse⟩

end BlockHash

end HeaderMiner
