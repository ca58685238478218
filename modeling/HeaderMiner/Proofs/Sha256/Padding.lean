import HeaderMiner.Proofs.Bytes
import HeaderMiner.Sha256.Basic

/-!
# The blocks of a padded message

Padding appends bytes that depend on the length of the message only. The words of a block are read from
four bytes each (`getElem_ofBytes_toList`), so a text whose length is a number of words splits into the
words of its parts (`getElem_ofBytes_append_right`). A message of 32 bytes is padded to one block, one of
112 bytes to two.
-/

namespace HeaderMiner.Sha256

/-! ### Words of a block -/

namespace Block

theorem getElem_ofBytes (bytes : List UInt8) {i : Nat} (hi : i < 16) :
    (ofBytes bytes)[i] = wordOfBytes (bytes[4 * i]?.getD 0) (bytes[4 * i + 1]?.getD 0)
      (bytes[4 * i + 2]?.getD 0) (bytes[4 * i + 3]?.getD 0) := by
  simp [ofBytes]

/-- A word depends on its four bytes only. -/
theorem getElem_ofBytes_congr {xs ys : List UInt8} {i j : Nat} (hi : i < 16) (hj : j < 16)
    (h : ∀ k < 4, xs[4 * i + k]? = ys[4 * j + k]?) : (ofBytes xs)[i] = (ofBytes ys)[j] := by
  have h0 : xs[4 * i]? = ys[4 * j]? := h 0 (by decide)
  rw [getElem_ofBytes, getElem_ofBytes, h0, h 1 (by decide), h 2 (by decide), h 3 (by decide)]

theorem getElem_ofBytes_toList {n : Nat} (b : Bytes n) {i : Nat} (hi : i < 16) (h : 4 * i + 4 ≤ n) :
    (ofBytes b.toList)[i] = (b.slice (4 * i) 4 h).toWordBE := by
  have hb (k : Nat) (hk : 4 * i + k < n) : b.toList[4 * i + k]?.getD 0 = b[4 * i + k] := by
    rw [List.getElem?_eq_getElem (by simpa using hk), Option.getD_some, Vector.getElem_toList]
  have h0 : b.toList[4 * i]?.getD 0 = b[4 * i] := hb 0 (by omega)
  rw [getElem_ofBytes, Bytes.toWordBE, h0, hb 1 (by omega), hb 2 (by omega), hb 3 (by omega)]
  simp only [Bytes.getElem_slice, Nat.add_zero]

theorem getElem_ofBytes_of_length_le {bytes : List UInt8} {i : Nat} (hi : i < 16)
    (h : bytes.length ≤ 4 * i) : (ofBytes bytes)[i] = 0 := by
  have hnone (k : Nat) : bytes[4 * i + k]? = none := List.getElem?_eq_none (by omega)
  have h0 : bytes[4 * i]? = none := hnone 0
  rw [getElem_ofBytes, h0, hnone 1, hnone 2, hnone 3]
  rfl

theorem getElem_ofBytes_append_left (xs ys : List UInt8) {i : Nat} (hi : i < 16)
    (h : 4 * i + 4 ≤ xs.length) : (ofBytes (xs ++ ys))[i] = (ofBytes xs)[i] :=
  getElem_ofBytes_congr hi hi fun _ _ => List.getElem?_append_left (by omega)

theorem getElem_ofBytes_append_right (xs ys : List UInt8) {i k : Nat} (hi : i < 16)
    (hk : xs.length = 4 * k) (h : k ≤ i) : (ofBytes (xs ++ ys))[i] = (ofBytes ys)[i - k] :=
  getElem_ofBytes_congr hi (by omega) fun d _ => by
    rw [List.getElem?_append_right (by omega)]
    congr 1
    omega

/-- A block of sixteen words takes no notice of what follows it. -/
theorem ofBytes_append {xs : List UInt8} (ys : List UInt8) (h : xs.length = 64) :
    ofBytes (xs ++ ys) = ofBytes xs := by
  refine Vector.ext fun i hi => ?_
  exact getElem_ofBytes_append_left xs ys hi (by omega)

/-- Splicing a word into a text, least significant byte first, sets one word of the block, to the spliced
one with its bytes swapped. -/
theorem ofBytes_splice {n : Nat} (b : Bytes n) (ys : List UInt8) {k j : Nat} (hn : n = 4 * k) (hj : j < k)
    (hk : k ≤ 16) (w : UInt32) :
    ofBytes ((b.splice (4 * j) (Bytes.ofWordLE w)).toList ++ ys) =
      (ofBytes (b.toList ++ ys)).set j (swapBytes w) (by omega) := by
  refine Vector.ext fun i hi => ?_
  by_cases hik : i < k
  · have hin : 4 * i + 4 ≤ n := by omega
    rw [getElem_ofBytes_append_left _ _ hi (by simpa using hin), getElem_ofBytes_toList _ hi hin]
    by_cases hij : i = j
    · subst hij
      rw [Bytes.slice_splice, Vector.getElem_set_self, Bytes.toWordBE_ofWordLE]
    · rw [Bytes.slice_splice_disjoint _ _ _ _ _ (by omega), Vector.getElem_set_ne _ _ (Ne.symm hij),
        getElem_ofBytes_append_left _ _ hi (by simpa using hin), getElem_ofBytes_toList _ hi hin]
  · rw [getElem_ofBytes_append_right _ _ hi (by simpa using hn) (Nat.le_of_not_lt hik),
      Vector.getElem_set_ne _ _ (by omega),
      getElem_ofBytes_append_right _ _ hi (by simpa using hn) (Nat.le_of_not_lt hik)]

end Block

theorem getElem_ofBytes_toBytes (s : State) (ys : List UInt8) {i : Nat} (hi : i < 8) :
    (Block.ofBytes (s.toBytes.toList ++ ys))[i] = s[i] := by
  rw [Block.getElem_ofBytes_append_left _ _ (by omega) (by simp; omega),
    Block.getElem_ofBytes_toList _ (by omega) (by omega), ← Bytes.toWordBE_ofWordBE s[i]]
  refine congrArg Bytes.toWordBE (Vector.ext fun k hk => ?_)
  have hdiv : (4 * i + k) / 4 = i := by omega
  have hmod : (4 * i + k) % 4 = k := by omega
  simp only [Bytes.getElem_slice, State.toBytes, Vector.getElem_ofFn, hdiv, hmod]

/-! ### Padding -/

/-- What padding appends to a message of `k` bytes. -/
def padding (k : Nat) : List UInt8 :=
  0x80 :: List.replicate ((119 - k % 64) % 64) 0 ++ (Bytes.ofDoubleWordLE (8 * k).toUInt64).toList.reverse

theorem pad_eq (message : List UInt8) : pad message = message ++ padding message.length := by
  simp [pad, padding, lengthBytes]

theorem length_padding_32 : (padding 32).length = 32 := by decide

theorem length_padding_112 : (padding 112).length = 16 := by decide

theorem getElem_ofBytes_padding_32 : ∀ i : Fin 8, (Block.ofBytes (padding 32))[i.val] =
    if i.val = 0 then 0x80000000 else if i.val = 7 then 256 else 0 := by
  decide

theorem getElem_ofBytes_padding_112 : ∀ i : Fin 4, (Block.ofBytes (padding 112))[i.val] =
    if i.val = 0 then 0x80000000 else if i.val = 3 then 896 else 0 := by
  decide

/-- A message of 32 bytes is hashed in one compression. -/
theorem hash_of_length_32 {message : List UInt8} (h : message.length = 32) :
    hash message = (compress initialState (Block.ofBytes (message ++ padding 32))).toBytes := by
  have hlen : (pad message).length / 64 = 1 := by
    rw [pad_eq, h, List.length_append, length_padding_32, h]
  rw [hash, hlen, pad_eq, h]
  rfl

/-- A message of 64 and 48 bytes is hashed in two compressions. -/
theorem hash_of_length_112 {first rest : List UInt8} (hf : first.length = 64) (hr : rest.length = 48) :
    hash (first ++ rest) =
      (compress (compress initialState (Block.ofBytes first))
        (Block.ofBytes (rest ++ padding 112))).toBytes := by
  have h : (first ++ rest).length = 112 := by rw [List.length_append, hf, hr]
  have hlen : (pad (first ++ rest)).length / 64 = 2 := by
    rw [pad_eq, h, List.length_append, length_padding_112, h]
  rw [hash, hlen, pad_eq, h, List.append_assoc]
  simp only [absorb]
  rw [Block.ofBytes_append _ hf, List.drop_left' hf]

end HeaderMiner.Sha256
