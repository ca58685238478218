import HeaderMiner.Text.Hex
import Mathlib

/-!
# Bytes and their hexadecimal digits

A text is read as bytes exactly if, in lower case, it is what those bytes are written as (`decode_eq_ok_iff`). A text
that is not read has another length, or a byte that is no digit; then the first such byte is told
(`decode_eq_badDigit_iff`). Characters and bytes come to the same thing here, as every byte of a character that is not
ASCII is above all digits (`isDigit_utf8_iff`).
-/

namespace HeaderMiner.Hex

/-- The sixteen digits in lower case, in the order of their values. -/
def digits : List Char :=
  ['0', '1', '2', '3', '4', '5', '6', '7', '8', '9', 'a', 'b', 'c', 'd', 'e', 'f']

/-- The character is a digit, in lower or in upper case. -/
def IsDigit (c : Char) : Prop := c.toLower ∈ digits

instance (c : Char) : Decidable (IsDigit c) := inferInstanceAs (Decidable (_ ∈ _))

def valueOf (c : Char) : Nat := digits.idxOf c.toLower

variable {c : Char} {b : UInt8} {v i n : Nat} {s : String} {cs : List Char} {text : List UInt8}

/-! ### Digits -/

theorem toNat_ofNat (b : UInt8) : (Char.ofNat b.toNat).toNat = b.toNat := by
  have hb := b.toNat_lt
  have hvalid : b.toNat.isValidChar := Or.inl (by omega)
  rw [Char.ofNat, dif_pos hvalid]
  rfl

theorem toNat_ofNat_toNat (h : c.toNat < 128) : (UInt8.ofNat c.toNat).toNat = c.toNat :=
  UInt8.toNat_ofNat_of_lt' (h.trans (by decide))

theorem toNat_lt_of_isDigit (h : IsDigit c) : c.toNat < 128 := by
  by_contra hlarge
  -- Only the letters up to `Z` change in lower case, so it would have to be a digit as it is.
  have hlower : c.toLower = c := by
    refine dif_neg ?_
    rintro ⟨-, hz⟩
    have hle : c.toNat ≤ 90 := hz
    omega
  have hsmall : ∀ d ∈ digits, d.toNat < 128 := by simp [digits]
  rw [IsDigit, hlower] at h
  exact hlarge (hsmall c h)

theorem valueOf_lt (h : IsDigit c) : valueOf c < 16 := List.idxOf_lt_length_of_mem h

theorem digit_valueOf (h : IsDigit c) : digit (valueOf c) = c.toLower := by
  have hall : ∀ v (hv : v < digits.length), digit v = digits[v] := by decide
  rw [valueOf, hall _ (List.idxOf_lt_length_of_mem h), List.getElem_idxOf]

theorem toLower_digit (hv : v < 16) : (digit v).toLower = digit v := by
  have hall : ∀ v < 16, (digit v).toLower = digit v := by decide
  exact hall v hv

theorem isDigit_digit (hv : v < 16) : IsDigit (digit v) := by
  have hall : ∀ v < 16, IsDigit (digit v) := by decide
  exact hall v hv

theorem valueOf_digit (hv : v < 16) : valueOf (digit v) = v := by
  have hall : ∀ v < 16, valueOf (digit v) = v := by decide
  exact hall v hv

theorem digitValue_eq (b : UInt8) : digitValue b =
    if IsDigit (Char.ofNat b.toNat) then some (UInt8.ofNat (valueOf (Char.ofNat b.toNat))) else none := by
  have hall : ∀ n < 256, digitValue (UInt8.ofNat n) =
      if IsDigit (Char.ofNat n) then some (UInt8.ofNat (valueOf (Char.ofNat n))) else none := by
    decide +kernel
  have hb := hall b.toNat b.toNat_lt
  rwa [UInt8.ofNat_toNat] at hb

/-! ### Numbers -/

/-- The number that digits spell, the most significant first. -/
def numberOf (cs : List Char) : Nat := Nat.ofDigits 16 (cs.map valueOf).reverse

theorem numberOf_append (cs ds : List Char) : numberOf (cs ++ ds) = numberOf cs * 16 ^ ds.length + numberOf ds := by
  simp only [numberOf, List.map_append, List.reverse_append, Nat.ofDigits_append, List.length_reverse, List.length_map]
  ring

theorem numberOf_replicate_zero (k : Nat) : numberOf (List.replicate k '0') = 0 := by
  have hzero : valueOf '0' = 0 := rfl
  rw [numberOf, List.map_replicate, hzero, List.reverse_replicate, Nat.ofDigits_replicate_zero]

/-- A number is written in digits that spell it. -/
theorem toDigits_spec (n : Nat) : (∀ c ∈ Nat.toDigits 16 n, IsDigit c) ∧ numberOf (Nat.toDigits 16 n) = n := by
  have hlast : ∀ v < 16, numberOf [digit v] = v := by
    intro v hv
    simp [numberOf, valueOf_digit hv]
  induction n using Nat.strongRecOn with
  | ind n ih =>
    rcases Nat.lt_or_ge n 16 with hn | hn
    · rw [Nat.toDigits_of_lt_base hn]
      refine ⟨?_, hlast n hn⟩
      intro c hc
      rw [List.mem_singleton.1 hc]
      exact isDigit_digit hn
    · obtain ⟨hdigits, hnumber⟩ := ih (n / 16) (by omega)
      have hlow : n % 16 < 16 := by omega
      rw [Nat.toDigits_of_base_le (by decide) hn]
      constructor
      · intro c hc
        rcases List.mem_append.1 hc with hc | hc
        · exact hdigits c hc
        · rw [List.mem_singleton.1 hc]
          exact isDigit_digit hlow
      · have hnumber' : numberOf [Nat.digitChar (n % 16)] = n % 16 := hlast _ hlow
        rw [numberOf_append, hnumber, hnumber', List.length_singleton]
        omega

theorem ofNat_spec (width n : Nat) : (ofNat width n).toList ≠ [] ∧ (∀ c ∈ (ofNat width n).toList, IsDigit c) ∧
    numberOf (ofNat width n).toList = n := by
  obtain ⟨hdigits, hnumber⟩ := toDigits_spec n
  rw [ofNat, String.toList_ofList]
  refine ⟨?_, ?_, ?_⟩
  · simp [Nat.toDigits_ne_nil]
  · intro c hc
    rcases List.mem_append.1 hc with hc | hc
    · rw [List.eq_of_mem_replicate hc]
      decide
    · exact hdigits c hc
  · rw [numberOf_append, numberOf_replicate_zero, hnumber, Nat.zero_mul, Nat.zero_add]

/-! ### The bytes of characters -/

theorem utf8_eq (s : String) : utf8 s = s.toList.flatMap String.utf8EncodeChar := by
  simp [utf8, ← String.utf8Encode_toList, List.utf8Encode]

theorem utf8EncodeChar_of_lt (h : c.toNat < 128) : String.utf8EncodeChar c = [UInt8.ofNat c.toNat] := by
  have hle : c.val.toNat ≤ 0x7f := Nat.le_of_lt_succ h
  simp only [String.utf8EncodeChar, if_pos hle]
  rfl

/-- The bytes of a character that is not ASCII are not ASCII either. -/
theorem le_of_mem_utf8EncodeChar (h : 128 ≤ c.toNat) (hb : b ∈ String.utf8EncodeChar c) : 128 ≤ b.toNat := by
  have hlarge : ¬ c.val.toNat ≤ 0x7f := Nat.not_le_of_lt h
  simp only [String.utf8EncodeChar, if_neg hlarge] at hb
  split_ifs at hb
  all_goals
    simp only [List.mem_cons, List.not_mem_nil, or_false] at hb
    rcases hb with rfl | rfl | rfl | rfl
    all_goals
      rw [UInt8.toNat_ofNat']
      omega

theorem isDigit_utf8EncodeChar_iff (c : Char) :
    (∀ b ∈ String.utf8EncodeChar c, IsDigit (Char.ofNat b.toNat)) ↔ IsDigit c := by
  rcases Nat.lt_or_ge c.toNat 128 with hc | hc
  · simp [utf8EncodeChar_of_lt hc, toNat_ofNat_toNat hc, Char.ofNat_toNat]
  · -- Neither side can hold: the character is no digit, and its first byte is above all digits.
    constructor
    · intro hall
      obtain ⟨b, hb⟩ := List.exists_mem_of_ne_nil _ (String.utf8EncodeChar_ne_nil (c := c))
      have hlarge := le_of_mem_utf8EncodeChar hc hb
      have hsmall := toNat_lt_of_isDigit (hall b hb)
      rw [toNat_ofNat] at hsmall
      omega
    · intro h
      have hsmall := toNat_lt_of_isDigit h
      omega

/-- The bytes of a text are all digits just when its characters are. -/
theorem isDigit_utf8_iff (s : String) :
    (∀ b ∈ utf8 s, IsDigit (Char.ofNat b.toNat)) ↔ ∀ c ∈ s.toList, IsDigit c := by
  simp only [utf8_eq, List.mem_flatMap]
  constructor
  · intro h c hc
    rw [← isDigit_utf8EncodeChar_iff]
    intro b hb
    exact h b ⟨c, hc, hb⟩
  · rintro h b ⟨c, hc, hb⟩
    exact (isDigit_utf8EncodeChar_iff c).2 (h c hc) b hb

theorem utf8_of_isDigit (h : ∀ c ∈ s.toList, IsDigit c) :
    utf8 s = s.toList.map fun c => UInt8.ofNat c.toNat := by
  rw [utf8_eq]
  generalize s.toList = cs at h
  induction cs with
  | nil => rfl
  | cons c cs ih =>
    have hc := toNat_lt_of_isDigit (h c (by simp))
    rw [List.flatMap_cons, utf8EncodeChar_of_lt hc, ih fun d hd => h d (by simp [hd])]
    rfl

theorem length_utf8 (s : String) : (utf8 s).length = s.utf8ByteSize := by
  simp [utf8]

/-! ### Two digits for each byte -/

/-- The bytes whose digits these are, two for each. -/
def bytesOf : List Char → List UInt8
  | [] | [_] => []
  | a :: b :: rest => UInt8.ofNat (16 * valueOf a + valueOf b) :: bytesOf rest

theorem length_bytesOf (cs : List Char) : (bytesOf cs).length = cs.length / 2 := by
  fun_induction bytesOf cs with
  | case1 => rfl
  | case2 a => simp
  | case3 a b rest ih =>
    simp only [List.length_cons, ih]
    omega

theorem bytesOf_flatMap_pair (bytes : List UInt8) : bytesOf (bytes.flatMap pair) = bytes := by
  induction bytes with
  | nil => rfl
  | cons b bytes ih =>
    have hb := b.toNat_lt
    have hdiv : 16 * (b.toNat / 16) + b.toNat % 16 = b.toNat := by omega
    rw [List.flatMap_cons, pair, List.cons_append, List.cons_append, List.nil_append, bytesOf, ih,
      valueOf_digit (by omega), valueOf_digit (by omega), hdiv, UInt8.ofNat_toNat]

theorem pair_ofNat {a c : Char} (ha : IsDigit a) (hc : IsDigit c) :
    pair (UInt8.ofNat (16 * valueOf a + valueOf c)) = [a.toLower, c.toLower] := by
  have hva := valueOf_lt ha
  have hvc := valueOf_lt hc
  have hsize : 16 * valueOf a + valueOf c < UInt8.size := by
    rw [UInt8.size]
    omega
  have hbyte := UInt8.toNat_ofNat_of_lt' hsize
  have hhigh : (16 * valueOf a + valueOf c) / 16 = valueOf a := by omega
  have hlow : (16 * valueOf a + valueOf c) % 16 = valueOf c := by omega
  rw [pair, hbyte, hhigh, hlow, digit_valueOf ha, digit_valueOf hc]

theorem flatMap_pair_bytesOf (hlen : cs.length % 2 = 0) (h : ∀ c ∈ cs, IsDigit c) :
    (bytesOf cs).flatMap pair = cs.map Char.toLower := by
  fun_induction bytesOf cs with
  | case1 => rfl
  | case2 a => simp at hlen
  | case3 a b rest ih =>
    have hrest : rest.length % 2 = 0 := by
      simp only [List.length_cons] at hlen
      omega
    rw [List.flatMap_cons, pair_ofNat (h a (by simp)) (h b (by simp)), ih hrest fun d hd => h d (by simp [hd])]
    rfl

theorem getElem?_bytesOf (hi : 2 * i + 1 < cs.length) :
    (bytesOf cs)[i]? = some (UInt8.ofNat (16 * valueOf cs[2 * i] + valueOf cs[2 * i + 1])) := by
  induction i generalizing cs with
  | zero =>
    match cs, hi with
    | a :: b :: rest, _ => rfl
  | succ i ih =>
    match cs, hi with
    | a :: b :: rest, hi =>
      simp only [List.length_cons] at hi
      have hi' : 2 * i + 1 < rest.length := by omega
      have hrest := ih hi'
      rw [bytesOf, List.getElem?_cons_succ, hrest]
      rfl

/-! ### Reading and writing -/

/-- The first byte of the text that is no digit, and where it stands. -/
structure BadDigit (text : List UInt8) (b : UInt8) (i : Nat) : Prop where
  getElem : text[i]? = some b
  bad : ¬ IsDigit (Char.ofNat b.toNat)
  before : ∀ j < i, ∀ a, text[j]? = some a → IsDigit (Char.ofNat a.toNat)

theorem digitValue_eq_none_iff : digitValue b = none ↔ ¬ IsDigit (Char.ofNat b.toNat) := by
  rw [digitValue_eq]
  split <;> simp [*]

theorem isSome_digitValue_iff : (digitValue b).isSome = true ↔ IsDigit (Char.ofNat b.toNat) := by
  rw [digitValue_eq]
  split <;> simp [*]

theorem firstBadDigit_eq_none_iff : firstBadDigit text = none ↔ ∀ b ∈ text, IsDigit (Char.ofNat b.toNat) := by
  simp only [firstBadDigit, List.find?_eq_none, Option.isNone_iff_eq_none, digitValue_eq_none_iff, not_not]
  constructor
  · intro h b hb
    obtain ⟨i, hi⟩ := List.getElem?_of_mem hb
    exact h (b, i) (List.mk_mem_zipIdx_iff_getElem?.2 hi)
  · rintro h ⟨b, i⟩ hmem
    exact h b (List.fst_mem_of_mem_zipIdx hmem)

theorem firstBadDigit_eq_some_iff : firstBadDigit text = some (b, i) ↔ BadDigit text b i := by
  simp only [firstBadDigit, List.find?_eq_some_iff_getElem, Option.isNone_iff_eq_none, digitValue_eq_none_iff,
    List.getElem_zipIdx, List.length_zipIdx, Nat.zero_add, Prod.mk.injEq]
  constructor
  · rintro ⟨hbad, j, hj, ⟨rfl, rfl⟩, hbefore⟩
    refine ⟨List.getElem?_eq_getElem hj, hbad, ?_⟩
    intro k hk a ha
    obtain ⟨hk', rfl⟩ := List.getElem?_eq_some_iff.1 ha
    simpa [isSome_digitValue_iff] using hbefore k hk
  · rintro ⟨hget, hbad, hbefore⟩
    obtain ⟨hi, rfl⟩ := List.getElem?_eq_some_iff.1 hget
    refine ⟨hbad, i, hi, ⟨rfl, rfl⟩, ?_⟩
    intro k hk
    have hdigit := hbefore k hk _ (List.getElem?_eq_getElem (hk.trans hi))
    simpa [isSome_digitValue_iff] using hdigit

/-- The value of a digit, found among the bytes of a text of digits. -/
theorem value_utf8 (h : ∀ c ∈ s.toList, IsDigit c) (hi : i < s.toList.length) :
    ((utf8 s)[i]?.bind digitValue).getD 0 = UInt8.ofNat (valueOf s.toList[i]) := by
  have hdigit := h _ (List.getElem_mem hi)
  have hsmall := toNat_lt_of_isDigit hdigit
  rw [utf8_of_isDigit h, List.getElem?_map, List.getElem?_eq_getElem hi, Option.map_some, Option.bind_some,
    digitValue_eq, toNat_ofNat_toNat hsmall, Char.ofNat_toNat, if_pos hdigit, Option.getD_some]

/-- A text of digits is read as the bytes whose digits they are. -/
theorem decode_of_isDigit (hlen : s.toList.length = 2 * n) (h : ∀ c ∈ s.toList, IsDigit c) :
    ∃ bytes, decode n s = .ok bytes ∧ bytes.toList = bytesOf s.toList := by
  have hlength : (utf8 s).length = 2 * n := by
    rw [utf8_of_isDigit h, List.length_map, hlen]
  have heven : ¬ 2 * n % 2 = 1 := by omega
  have hgood : firstBadDigit (utf8 s) = none := firstBadDigit_eq_none_iff.2 ((isDigit_utf8_iff s).2 h)
  have hsize : (bytesOf s.toList).toArray.size = n := by
    rw [List.size_toArray, length_bytesOf, hlen]
    omega
  refine ⟨⟨(bytesOf s.toList).toArray, hsize⟩, ?_, rfl⟩
  simp only [decode, hlength, heven, hgood, if_false, ne_eq, not_true, Except.ok.injEq]
  refine Vector.ext fun i hi => ?_
  have hi' : 2 * i + 1 < s.toList.length := by omega
  obtain ⟨_, hget⟩ := List.getElem?_eq_some_iff.1 (getElem?_bytesOf hi')
  simp only [Vector.getElem_ofFn, Vector.getElem_mk, List.getElem_toArray]
  rw [value_utf8 h (by omega), value_utf8 h hi', hget, UInt8.ofNat_add, UInt8.ofNat_mul]
  rfl

theorem decode_of_odd (h : (utf8 s).length % 2 = 1) : decode n s = .error .oddLength := by
  simp only [decode, h, if_true]

theorem decode_of_length_ne (h : (utf8 s).length % 2 ≠ 1) (hlen : (utf8 s).length ≠ 2 * n) :
    decode n s = .error .wrongLength := by
  simp only [decode, h, if_false, ne_eq, hlen, not_false_eq_true, if_true]

theorem decode_of_badDigit (hlen : (utf8 s).length = 2 * n) (h : BadDigit (utf8 s) b i) :
    decode n s = .error (.badDigit b i) := by
  have heven : ¬ 2 * n % 2 = 1 := by omega
  simp only [decode, hlen, heven, if_false, ne_eq, not_true, firstBadDigit_eq_some_iff.2 h]

/-- What becomes of a text, and when. -/
inductive Decodes (n : Nat) (s : String) : Except Error (Bytes n) → Prop
  | read (bytes : Bytes n) (hlen : s.toList.length = 2 * n) (hdigits : ∀ c ∈ s.toList, IsDigit c)
      (hbytes : bytes.toList = bytesOf s.toList) : Decodes n s (.ok bytes)
  | odd (h : (utf8 s).length % 2 = 1) : Decodes n s (.error .oddLength)
  | wrong (h : (utf8 s).length % 2 ≠ 1) (hlen : (utf8 s).length ≠ 2 * n) : Decodes n s (.error .wrongLength)
  | bad (b : UInt8) (i : Nat) (hlen : (utf8 s).length = 2 * n) (h : BadDigit (utf8 s) b i) :
      Decodes n s (.error (.badDigit b i))

theorem decodes (n : Nat) (s : String) : Decodes n s (decode n s) := by
  by_cases hodd : (utf8 s).length % 2 = 1
  · rw [decode_of_odd hodd]
    exact .odd hodd
  by_cases hlen : (utf8 s).length = 2 * n
  · cases hfirst : firstBadDigit (utf8 s) with
    | some bad =>
      obtain ⟨b, i⟩ := bad
      have hbad := firstBadDigit_eq_some_iff.1 hfirst
      rw [decode_of_badDigit hlen hbad]
      exact .bad b i hlen hbad
    | none =>
      have hdigits := (isDigit_utf8_iff s).1 (firstBadDigit_eq_none_iff.1 hfirst)
      rw [utf8_of_isDigit hdigits, List.length_map] at hlen
      obtain ⟨bytes, hread, hbytes⟩ := decode_of_isDigit hlen hdigits
      rw [hread]
      exact .read bytes hlen hdigits hbytes
  · rw [decode_of_length_ne hodd hlen]
    exact .wrong hodd hlen

theorem toList_encode (bytes : Bytes n) : (encode bytes).toList = bytes.toList.flatMap pair := by
  rw [encode, encodeList, String.toList_ofList]

theorem length_flatMap_pair (bytes : List UInt8) : (bytes.flatMap pair).length = 2 * bytes.length := by
  induction bytes with
  | nil => rfl
  | cons b bytes ih =>
    rw [List.flatMap_cons, List.length_append, ih, List.length_cons]
    show 2 + _ = _
    omega

theorem isDigit_of_mem_flatMap_pair {bytes : List UInt8} (h : c ∈ bytes.flatMap pair) :
    ∃ v < 16, c = digit v := by
  obtain ⟨b, -, hc⟩ := List.mem_flatMap.1 h
  have hb := b.toNat_lt
  simp only [pair, List.mem_cons, List.not_mem_nil, or_false] at hc
  rcases hc with rfl | rfl
  · exact ⟨_, by omega, rfl⟩
  · exact ⟨_, by omega, rfl⟩

theorem bytesOf_map_toLower (cs : List Char) : bytesOf (cs.map Char.toLower) = bytesOf cs := by
  fun_induction bytesOf cs with
  | case1 => rfl
  | case2 a => rfl
  | case3 a b rest ih =>
    simp only [List.map_cons, bytesOf, ih, valueOf, Char.toLower_toLower_eq_toLower]

/-- What becomes of a text is the one thing that `Decodes` allows. -/
theorem decode_eq_iff {result : Except Error (Bytes n)} : decode n s = result ↔ Decodes n s result := by
  constructor
  · rintro rfl
    exact decodes n s
  · intro h
    cases h with
    | read bytes hlen hdigits hbytes =>
      obtain ⟨bytes', hread, hbytes'⟩ := decode_of_isDigit hlen hdigits
      rw [hread, Vector.toList_inj.1 (hbytes'.trans hbytes.symm)]
    | odd hodd => exact decode_of_odd hodd
    | wrong heven hlen => exact decode_of_length_ne heven hlen
    | bad b i hlen hbad => exact decode_of_badDigit hlen hbad

/-- A text is read as these bytes exactly if, in lower case, it is what they are written as. -/
theorem decode_eq_ok_iff {bytes : Bytes n} : decode n s = .ok bytes ↔ encode bytes = s.toLower := by
  rw [decode_eq_iff, ← String.toList_inj, toList_encode, String.toLower, String.toList_map]
  constructor
  · intro hread
    cases hread with
    | read _ hlen hdigits hbytes => rw [hbytes, flatMap_pair_bytesOf (by omega) hdigits]
  · intro h
    have hlen : s.toList.length = 2 * n := by
      rw [← List.length_map (f := Char.toLower), ← h, length_flatMap_pair, Vector.length_toList]
    have hdigits : ∀ c ∈ s.toList, IsDigit c := by
      intro c hc
      obtain ⟨v, hv, hlower⟩ := isDigit_of_mem_flatMap_pair (h ▸ List.mem_map_of_mem hc)
      rw [IsDigit, hlower, ← toLower_digit hv]
      exact isDigit_digit hv
    refine .read bytes hlen hdigits ?_
    rw [← bytesOf_map_toLower, ← h, bytesOf_flatMap_pair]

/-- What is written is in lower case already. -/
theorem toLower_encode (bytes : Bytes n) : (encode bytes).toLower = encode bytes := by
  rw [← String.toList_inj, String.toLower, String.toList_map, toList_encode]
  refine (List.map_congr_left ?_).trans (List.map_id _)
  intro c hc
  obtain ⟨v, hv, rfl⟩ := isDigit_of_mem_flatMap_pair hc
  exact toLower_digit hv

theorem decode_isOk_iff : (∃ bytes, decode n s = .ok bytes) ↔ s.toList.length = 2 * n ∧ ∀ c ∈ s.toList, IsDigit c := by
  simp only [decode_eq_iff]
  constructor
  · rintro ⟨bytes, hread⟩
    cases hread with
    | read _ hlen hdigits _ => exact ⟨hlen, hdigits⟩
  · rintro ⟨hlen, hdigits⟩
    obtain ⟨bytes, -, hbytes⟩ := decode_of_isDigit hlen hdigits
    exact ⟨bytes, .read bytes hlen hdigits hbytes⟩

theorem decode_eq_oddLength_iff : decode n s = .error .oddLength ↔ s.utf8ByteSize % 2 = 1 := by
  rw [decode_eq_iff, ← length_utf8]
  refine ⟨fun hread => ?_, .odd⟩
  cases hread with
  | odd hodd => exact hodd

theorem decode_eq_wrongLength_iff :
    decode n s = .error .wrongLength ↔ s.utf8ByteSize % 2 ≠ 1 ∧ s.utf8ByteSize ≠ 2 * n := by
  rw [decode_eq_iff, ← length_utf8]
  refine ⟨fun hread => ?_, fun h => .wrong h.1 h.2⟩
  cases hread with
  | wrong heven hlen => exact ⟨heven, hlen⟩

theorem decode_eq_badDigit_iff :
    decode n s = .error (.badDigit b i) ↔ s.utf8ByteSize = 2 * n ∧ BadDigit (utf8 s) b i := by
  rw [decode_eq_iff, ← length_utf8]
  refine ⟨fun hread => ?_, fun h => .bad b i h.1 h.2⟩
  cases hread with
  | bad _ _ hlen hbad => exact ⟨hlen, hbad⟩

end HeaderMiner.Hex
