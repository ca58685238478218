import HeaderMiner.Proofs.Header.Fields
import Mathlib

/-!
# Headers and their bytes

The bytes of a header are its fields, one after the other (`Header.Layout`). So the fields can be read back from the
bytes (`toHeader_serialize`), and the bytes are those of the fields (`serialize_toHeader`): every string of 112 bytes is
the written form of one header, and no other string is (`deserialize_exact`).
-/

namespace HeaderMiner

namespace Bytes

variable {m n : Nat}

theorem slice_append_left (a : Bytes m) (b : Bytes n) (start k : Nat) (h : start + k ≤ m) :
    slice (a ++ b) start k (Nat.le_add_right_of_le h) = a.slice start k h := by
  refine Vector.ext fun i hi => ?_
  rw [getElem_slice, getElem_slice, Vector.getElem_append_left]

theorem slice_append_right (a : Bytes m) (b : Bytes n) : slice (a ++ b) m n (Nat.le_refl _) = b := by
  refine Vector.ext fun i hi => ?_
  rw [getElem_slice, Vector.getElem_append_right (by omega) (Nat.le_add_right _ _)]
  congr 1
  omega

theorem slice_self (b : Bytes n) (h : 0 + n ≤ n) : b.slice 0 n h = b := by
  refine Vector.ext fun i hi => ?_
  rw [getElem_slice]
  congr 1
  omega

/-- Two slices, of which one starts where the other ends, make up one. -/
theorem slice_append_slice (b : Bytes n) {start k next l : Nat} (hnext : start + k = next) (h : start + k ≤ n)
    (h' : next + l ≤ n) : b.slice start k h ++ b.slice next l h' = b.slice start (k + l) (by omega) := by
  refine Vector.ext fun i hi => ?_
  rw [getElem_slice]
  by_cases hik : i < k
  · rw [Vector.getElem_append_left hik, getElem_slice]
  · rw [Vector.getElem_append_right (by omega) (by omega), getElem_slice]
    congr 1
    omega

end Bytes

theorem RawHeader.serialize_toHeader (h : RawHeader) : h.toHeader.serialize = h := by
  have hversion : Bytes.ofWordLE h.version.toUInt32 = h.bytes.slice 0 4 := Bytes.ofWordLE_toWordLE _
  have htime : Bytes.ofWordLE h.time = h.bytes.slice 100 4 := Bytes.ofWordLE_toWordLE _
  have hbits : Bytes.ofWordLE h.bits = h.bytes.slice 104 4 := Bytes.ofWordLE_toWordLE _
  have hnonce : Bytes.ofWordLE h.nonce = h.bytes.slice 108 4 := Bytes.ofWordLE_toWordLE _
  refine congrArg RawHeader.mk ?_
  show Bytes.ofWordLE h.version.toUInt32 ++ h.bytes.slice 4 32 ++ h.bytes.slice 36 32 ++ h.bytes.slice 68 32 ++
    Bytes.ofWordLE h.time ++ Bytes.ofWordLE h.bits ++ Bytes.ofWordLE h.nonce = h.bytes
  rw [hversion, htime, hbits, hnonce, Bytes.slice_append_slice _ rfl, Bytes.slice_append_slice _ rfl,
    Bytes.slice_append_slice _ rfl, Bytes.slice_append_slice _ rfl, Bytes.slice_append_slice _ rfl,
    Bytes.slice_append_slice _ rfl]
  exact Bytes.slice_self _ _

namespace Header

variable (h : Header)

theorem slice_version : h.serialize.bytes.slice 0 4 = Bytes.ofWordLE h.version.toUInt32 := by
  refine (Bytes.slice_append_left _ _ 0 4 (by decide)).trans ?_
  refine (Bytes.slice_append_left _ _ 0 4 (by decide)).trans ?_
  refine (Bytes.slice_append_left _ _ 0 4 (by decide)).trans ?_
  refine (Bytes.slice_append_left _ _ 0 4 (by decide)).trans ?_
  refine (Bytes.slice_append_left _ _ 0 4 (by decide)).trans ?_
  refine (Bytes.slice_append_left _ _ 0 4 (by decide)).trans ?_
  exact Bytes.slice_self _ _

theorem slice_prevBlockHash : h.serialize.bytes.slice 4 32 = h.prevBlockHash := by
  refine (Bytes.slice_append_left _ _ 4 32 (by decide)).trans ?_
  refine (Bytes.slice_append_left _ _ 4 32 (by decide)).trans ?_
  refine (Bytes.slice_append_left _ _ 4 32 (by decide)).trans ?_
  refine (Bytes.slice_append_left _ _ 4 32 (by decide)).trans ?_
  refine (Bytes.slice_append_left _ _ 4 32 (by decide)).trans ?_
  exact Bytes.slice_append_right _ _

theorem slice_merkleRoot : h.serialize.bytes.slice 36 32 = h.merkleRoot := by
  refine (Bytes.slice_append_left _ _ 36 32 (by decide)).trans ?_
  refine (Bytes.slice_append_left _ _ 36 32 (by decide)).trans ?_
  refine (Bytes.slice_append_left _ _ 36 32 (by decide)).trans ?_
  refine (Bytes.slice_append_left _ _ 36 32 (by decide)).trans ?_
  exact Bytes.slice_append_right _ _

theorem slice_referenceHash : h.serialize.bytes.slice 68 32 = h.referenceHash := by
  refine (Bytes.slice_append_left _ _ 68 32 (by decide)).trans ?_
  refine (Bytes.slice_append_left _ _ 68 32 (by decide)).trans ?_
  refine (Bytes.slice_append_left _ _ 68 32 (by decide)).trans ?_
  exact Bytes.slice_append_right _ _

theorem slice_time : h.serialize.bytes.slice 100 4 = Bytes.ofWordLE h.time := by
  refine (Bytes.slice_append_left _ _ 100 4 (by decide)).trans ?_
  refine (Bytes.slice_append_left _ _ 100 4 (by decide)).trans ?_
  exact Bytes.slice_append_right _ _

theorem slice_bits : h.serialize.bytes.slice 104 4 = Bytes.ofWordLE h.bits :=
  (Bytes.slice_append_left _ _ 104 4 (by decide)).trans (Bytes.slice_append_right _ _)

theorem slice_nonce : h.serialize.bytes.slice 108 4 = Bytes.ofWordLE h.nonce := Bytes.slice_append_right _ _

theorem prevBlockHash_serialize : h.serialize.prevBlockHash = ⟨h.prevBlockHash⟩ :=
  congrArg BlockHash.mk h.slice_prevBlockHash

theorem bits_serialize : h.serialize.bits = h.bits := by
  rw [RawHeader.bits, slice_bits, Bytes.toWordLE_ofWordLE]

theorem toHeader_serialize : h.serialize.toHeader = h := by
  have hversion : h.serialize.version = h.version := by
    rw [RawHeader.version, slice_version, Bytes.toWordLE_ofWordLE]
  have htime : h.serialize.time = h.time := by rw [RawHeader.time, slice_time, Bytes.toWordLE_ofWordLE]
  have hnonce : h.serialize.nonce = h.nonce := by rw [RawHeader.nonce, slice_nonce, Bytes.toWordLE_ofWordLE]
  rw [RawHeader.toHeader, hversion, prevBlockHash_serialize, RawHeader.merkleRoot, slice_merkleRoot,
    RawHeader.referenceHash, slice_referenceHash, htime, bits_serialize, hnonce]

/-- Where the fields of a header stand in its bytes, the words least significant byte first. -/
structure Layout (bytes : Bytes 112) : Prop where
  version : bytes.slice 0 4 = Bytes.ofWordLE h.version.toUInt32
  prevBlockHash : bytes.slice 4 32 = h.prevBlockHash
  merkleRoot : bytes.slice 36 32 = h.merkleRoot
  referenceHash : bytes.slice 68 32 = h.referenceHash
  time : bytes.slice 100 4 = Bytes.ofWordLE h.time
  bits : bytes.slice 104 4 = Bytes.ofWordLE h.bits
  nonce : bytes.slice 108 4 = Bytes.ofWordLE h.nonce

theorem layout_serialize : h.Layout h.serialize.bytes :=
  ⟨h.slice_version, h.slice_prevBlockHash, h.slice_merkleRoot, h.slice_referenceHash, h.slice_time, h.slice_bits,
    h.slice_nonce⟩

theorem deserialize_toList (raw : RawHeader) : deserialize raw.bytes.toList = .ok raw.toHeader := by
  rw [deserialize, RawHeader.ofList, dif_pos raw.bytes.length_toList]
  rfl

theorem exists_toList_eq {bytes : List UInt8} (h : bytes.length = 112) :
    ∃ raw : RawHeader, raw.bytes.toList = bytes :=
  ⟨⟨⟨bytes.toArray, h⟩⟩, rfl⟩

theorem deserialize_of_length_ne {bytes : List UInt8} (h : bytes.length ≠ 112) :
    deserialize bytes = .error (.invalidLength 112 bytes.length) := by
  rw [deserialize, RawHeader.ofList, dif_neg h]
  rfl

/-- A string that is read has 112 bytes, and they are those of the header that it is read as. -/
theorem toList_of_deserialize {bytes : List UInt8} {h : Header} (hread : deserialize bytes = .ok h) :
    h.serialize.bytes.toList = bytes := by
  by_cases hlength : bytes.length = 112
  · obtain ⟨raw, rfl⟩ := exists_toList_eq hlength
    rw [deserialize_toList] at hread
    cases hread
    rw [raw.serialize_toHeader]
  · rw [deserialize_of_length_ne hlength] at hread
    cases hread

theorem deserialize_isOk_iff (bytes : List UInt8) : (∃ h, deserialize bytes = .ok h) ↔ bytes.length = 112 := by
  constructor
  · rintro ⟨h, hread⟩
    rw [← toList_of_deserialize hread]
    exact h.serialize.bytes.length_toList
  · intro hlength
    obtain ⟨raw, rfl⟩ := exists_toList_eq hlength
    exact ⟨raw.toHeader, deserialize_toList raw⟩

theorem serialize_injective : Function.Injective fun h : Header => h.serialize.bytes.toList := by
  intro h h' heq
  have hread := congrArg deserialize (show h.serialize.bytes.toList = h'.serialize.bytes.toList from heq)
  rw [deserialize_toList, deserialize_toList, toHeader_serialize, toHeader_serialize] at hread
  exact Except.ok.inj hread

/-- A header is written with each field at its place, and is read back from what was written, as are its hash and its
raw form. A string is read exactly if it has 112 bytes, and it is then what the header that was read is written as; any
other string is refused, by its length. -/
theorem deserialize_exact :
    (∀ h : Header, h.Layout h.serialize.bytes ∧ deserialize h.serialize.bytes.toList = .ok h ∧
      h.serialize.toHeader = h ∧ h.serialize.blockHash = h.hash) ∧
    (∀ bytes : List UInt8, (∃ h, deserialize bytes = .ok h) ↔ bytes.length = 112) ∧
    (∀ (bytes : List UInt8) (h : Header), deserialize bytes = .ok h → h.serialize.bytes.toList = bytes) ∧
    (∀ bytes : List UInt8, bytes.length ≠ 112 → deserialize bytes = .error (.invalidLength 112 bytes.length)) ∧
    Function.Injective fun h : Header => h.serialize.bytes.toList := by
  refine ⟨fun h => ⟨h.layout_serialize, ?_, h.toHeader_serialize, rfl⟩, deserialize_isOk_iff,
    fun _ _ => toList_of_deserialize, fun _ => deserialize_of_length_ne, serialize_injective⟩
  rw [deserialize_toList, toHeader_serialize]

end Header

theorem RawHeader.hash_toHeader (h : RawHeader) : h.toHeader.hash = h.blockHash := by
  rw [Header.hash, serialize_toHeader]

end HeaderMiner
