import HeaderMiner.Text.Json.Basic
import HeaderMiner.Text.Json.Scanner
import Mathlib

/-!
# Scanning what was written

The numbers and literals that documents are written with are scanned back, whatever follows them (`scanNat?_toDigits`,
`scanText?_quote`). A scanner also cannot tell where a text was spliced: in front of a comma and a quote, it stops
before the comma, or, having taken both for the end of a literal, right after the quote (`Parts`).
-/

namespace HeaderMiner.Json

variable {rest seen input : List Char}

theorem skipBlanks_cons {c : Char} (h : isBlank c = false) : skipBlanks (c :: rest) = c :: rest := by
  simp [skipBlanks, h]

theorem isBlank_of_isAlpha {x : Char} (hx : x.isAlpha = true) : isBlank x = false := by
  by_contra hblank
  simp only [isBlank, Bool.not_eq_false, Bool.or_eq_true, beq_iff_eq] at hblank
  rcases hblank with ((rfl | rfl) | rfl) | rfl <;> cases hx

@[simp] theorem scanChar?_cons_self {c : Char} (h : isBlank c = false) : scanChar? c (c :: rest) = some rest := by
  simp [scanChar?, skipBlanks_cons h]

/-! ### Numbers -/

theorem head?_toDigits {n : Nat} (h : (Nat.toDigits 10 n).head? = some '0') : n = 0 := by
  induction n using Nat.strongRecOn with
  | ind n ih =>
    rcases Nat.lt_or_ge n 10 with hn | hn
    · rw [Nat.toDigits_of_lt_base hn] at h
      simpa using h
    · rw [Nat.toDigits_of_base_le (by decide) hn, List.head?_append_of_ne_nil _ Nat.toDigits_ne_nil] at h
      have hzero := ih (n / 10) (by omega) h
      omega

/-- What may follow a value in a document. -/
def EndsValue (rest : List Char) : Prop := ∃ c tail, rest = c :: tail ∧ (c = ',' ∨ c = '\x7d')

theorem scanNat?_toDigits (n : Nat) (hrest : EndsValue rest) :
    scanNat? (Nat.toDigits 10 n ++ rest) = some (n, rest) := by
  have hdigits : ∀ c ∈ Nat.toDigits 10 n, c.isDigit = true := fun c hc =>
    Nat.isDigit_of_mem_toDigits (by decide) (by decide) hc
  obtain ⟨htake, hdrop, hgoes⟩ : rest.takeWhile Char.isDigit = [] ∧ rest.dropWhile Char.isDigit = rest ∧
      (rest.head?.any fun c => c == '.' || c == 'e' || c == 'E') = false := by
    obtain ⟨c, tail, rfl, rfl | rfl⟩ := hrest <;> exact ⟨rfl, rfl, rfl⟩
  have hzero : ((Nat.toDigits 10 n).head? == some '0' && (Nat.toDigits 10 n).length != 1) = false := by
    by_cases h : (Nat.toDigits 10 n).head? = some '0'
    · rw [head?_toDigits h]
      decide
    · simp [h]
  unfold scanNat?
  rw [List.takeWhile_append_of_pos hdigits, List.dropWhile_append_of_pos hdigits, htake, hdrop,
    List.append_nil]
  simp [hgoes, hzero, Nat.toDigits_ne_nil]

/-! ### Literals -/

theorem scanUnit?_control {k : Nat} (hk : k < 0x20) :
    scanUnit? ('0' :: '0' :: Hex.digit (k / 16) :: Hex.digit (k % 16) :: rest) = some (k, rest) := by
  have hvalues : ∀ k < 0x20, ['0', '0', Hex.digit (k / 16), Hex.digit (k % 16)].mapM (Numeral.digitValue 16) =
      some [0, 0, k / 16, k % 16] := by decide
  simp only [scanUnit?, hvalues k hk, List.foldl_cons, List.foldl_nil, Option.some.injEq, Prod.mk.injEq, and_true]
  omega

theorem scanLiteral?_of_escape {c : Char} (h : scanEscape? input = some (c, rest)) :
    scanLiteral? seen ('\\' :: input) = scanLiteral? (c :: seen) rest := by
  rw [scanLiteral?]
  simp only [show ¬ ('\\' : Char) = '"' by decide, if_false, if_true]
  split
  · rename_i hnone
    rw [hnone] at h
    cases h
  · rename_i hsome
    rw [hsome] at h
    cases h
    rfl

theorem scanEscape?_control {c : Char} (hc : c.toNat < 0x20) :
    scanEscape? (['u', '0', '0', Hex.digit (c.toNat / 16), Hex.digit (c.toNat % 16)] ++ rest) = some (c, rest) := by
  simp only [List.cons_append, List.nil_append, scanEscape?, scanUnit?_control hc]
  rw [if_pos (.inl (by omega)), Char.ofNat_toNat]

/-- A character is scanned as it was written. -/
theorem scanLiteral?_escape (seen : List Char) (c : Char) (rest : List Char) :
    scanLiteral? seen (escape c ++ rest) = scanLiteral? (c :: seen) rest := by
  have hshort {e c : Char} (h : scanEscape? (e :: rest) = some (c, rest)) :
      scanLiteral? seen (['\\', e] ++ rest) = scanLiteral? (c :: seen) rest := scanLiteral?_of_escape h
  unfold escape
  iterate 7
    split
    · subst_vars
      exact hshort rfl
  split
  · rename_i hcontrol
    exact scanLiteral?_of_escape (scanEscape?_control hcontrol)
  · rename_i hquote hbackslash _ _ _ _ _ hcontrol
    rw [List.cons_append, List.nil_append, scanLiteral?, if_neg hquote, if_neg hbackslash, if_neg hcontrol]

theorem scanLiteral?_written (seen cs rest : List Char) :
    scanLiteral? seen (cs.flatMap escape ++ '"' :: rest) = some (String.ofList (seen.reverse ++ cs), rest) := by
  induction cs generalizing seen with
  | nil =>
    rw [List.flatMap_nil, List.nil_append, scanLiteral?, if_pos rfl, List.append_nil]
  | cons c cs ih =>
    rw [List.flatMap_cons, List.append_assoc, scanLiteral?_escape, ih, List.reverse_cons, List.append_assoc]
    rfl

theorem scanText?_quote (s : String) (rest : List Char) : scanText? ((quote s).toList ++ rest) = some (s, rest) := by
  have htext : (quote s).toList ++ rest = '"' :: (s.toList.flatMap escape ++ '"' :: rest) := by simp [quote]
  rw [htext, scanText?, scanChar?_cons_self rfl, Option.bind_some, scanLiteral?_written, List.reverse_nil,
    List.nil_append, String.ofList_toList]

/-! ### Texts with a seam -/

/-- What is left is a proper part of the front, with the tail after it. -/
def Within (front tail rest : List Char) : Prop := ∃ left, left.length < front.length ∧ rest = left ++ tail

theorem scanUnit?_cons {a b c d : Char} {more : List Char} {unit : Nat}
    (h : scanUnit? (a :: b :: c :: d :: more) = some (unit, rest)) : ',' ∉ [a, b, c, d] ∧ rest = more := by
  simp only [scanUnit?] at h
  split at h
  · cases h
  · rename_i values hvalues
    refine ⟨fun hmem => ?_, by cases h; rfl⟩
    have hcomma : Numeral.digitValue 16 ',' = none := by decide
    simp only [List.mapM_cons, List.mem_cons, List.not_mem_nil, or_false] at hvalues hmem
    rcases hmem with rfl | rfl | rfl | rfl <;> simp [hcomma] at hvalues

theorem scanUnit?_within {front tail : List Char} {unit : Nat}
    (h : scanUnit? (front ++ ',' :: tail) = some (unit, rest)) : Within front (',' :: tail) rest := by
  obtain ⟨a, b, c, d, more, htext⟩ : ∃ a b c d more, front ++ ',' :: tail = a :: b :: c :: d :: more := by
    unfold scanUnit? at h
    split at h
    · rename_i htext
      exact ⟨_, _, _, _, _, htext⟩
    · cases h
  rw [htext] at h
  obtain ⟨hcomma, rfl⟩ := scanUnit?_cons h
  rcases front with _ | ⟨a', _ | ⟨b', _ | ⟨c', _ | ⟨d', front⟩⟩⟩⟩
  all_goals
    simp only [List.cons_append, List.nil_append, List.cons.injEq] at htext
    obtain ⟨rfl, htext⟩ := htext
  · simp at hcomma
  · simp [← htext.1] at hcomma
  · simp [← htext.2.1] at hcomma
  · simp [← htext.2.2.1] at hcomma
  · exact ⟨front, by simp only [List.length_cons]; omega, htext.2.2.2.symm⟩

/-- An escape by number has one unit or two. -/
theorem scanEscape?_u {c : Char} (h : scanEscape? ('u' :: input) = some (c, rest)) :
    ∃ unit after, scanUnit? input = some (unit, after) ∧
      (rest = after ∨ ∃ trail more, after = '\\' :: 'u' :: more ∧ scanUnit? more = some (trail, rest)) := by
  simp only [scanEscape?] at h
  split at h
  · cases h
  · rename_i unit after hunit
    refine ⟨unit, after, hunit, ?_⟩
    split at h
    · cases h
      exact .inl rfl
    · split at h
      · cases h
      · split at h
        · rename_i more
          split at h
          · cases h
          · rename_i trail rest' htrail
            split at h
            · simp only [Option.some.injEq, Prod.mk.injEq] at h
              obtain ⟨-, rfl⟩ := h
              exact .inr ⟨trail, more, rfl, htrail⟩
            · simp at h
        · cases h

theorem scanEscape?_within {front tail : List Char} {c : Char}
    (h : scanEscape? (front ++ ',' :: tail) = some (c, rest)) : Within front (',' :: tail) rest := by
  rcases front with _ | ⟨x, front⟩
  · have hnone : scanEscape? (',' :: tail) = none := rfl
    rw [List.nil_append, hnone] at h
    cases h
  · rw [List.cons_append] at h
    by_cases hx : x = 'u'
    · subst hx
      obtain ⟨unit, after, hunit, hafter⟩ := scanEscape?_u h
      obtain ⟨left, hleft, rfl⟩ := scanUnit?_within hunit
      rcases hafter with rfl | ⟨trail, more, heq, htrail⟩
      · exact ⟨left, by simp only [List.length_cons]; omega, rfl⟩
      · rcases left with _ | ⟨y, _ | ⟨z, left⟩⟩
        · simp at heq
        · simp at heq
        · simp only [List.cons_append, List.cons.injEq] at heq
          obtain ⟨-, -, rfl⟩ := heq
          obtain ⟨left', hleft', rfl⟩ := scanUnit?_within htrail
          simp only [List.length_cons] at hleft
          exact ⟨left', by simp only [List.length_cons]; omega, rfl⟩
    · rw [scanEscape?.eq_2 _ _ hx] at h
      obtain ⟨y, -, hy⟩ := Option.map_eq_some_iff.1 h
      cases hy
      exact ⟨front, by simp, rfl⟩

/-- A scanner cannot stop between the comma and the quote of a seam: it stops before both, or after both as it takes
them for the end of a literal. -/
def Parts (front after rest : List Char) : Prop := Within front (',' :: '"' :: after) rest ∨ rest = after

theorem scanLiteral?_parts {front after : List Char} {s : String}
    (h : scanLiteral? seen (front ++ ',' :: '"' :: after) = some (s, rest)) : Parts front after rest := by
  induction hn : front.length using Nat.strongRecOn generalizing front seen with
  | ind n ih =>
    subst hn
    have hshorter {left : List Char} (hleft : left.length < front.length) (seen : List Char)
        (h : scanLiteral? seen (left ++ ',' :: '"' :: after) = some (s, rest)) : Parts front after rest := by
      rcases ih left.length hleft h rfl with ⟨u, hu, rfl⟩ | rfl
      · exact .inl ⟨u, by omega, rfl⟩
      · exact .inr rfl
    rcases front with _ | ⟨x, front⟩
    · rw [List.nil_append, scanLiteral?, if_neg (by decide), if_neg (by decide), if_neg (by decide), scanLiteral?,
        if_pos rfl] at h
      cases h
      exact .inr rfl
    · rw [List.cons_append, scanLiteral?] at h
      split at h
      · cases h
        exact .inl ⟨front, by simp, rfl⟩
      · split at h
        · split at h
          · cases h
          · rename_i hescape
            obtain ⟨left, hleft, rfl⟩ := scanEscape?_within hescape
            exact hshorter (by simp only [List.length_cons]; omega) _ h
        · split at h
          · cases h
          · exact hshorter (by simp) _ h

theorem dropWhile_append_cons {p : Char → Bool} {c : Char} (hc : p c = false) (front after : List Char) :
    (front ++ c :: after).dropWhile p = front.dropWhile p ++ c :: after := by
  induction front with
  | nil => simp [hc]
  | cons x front ih => cases hx : p x <;> simp [hx, ih]

theorem skipBlanks_append {c : Char} (hc : isBlank c = false) (front after : List Char) :
    skipBlanks (front ++ c :: after) = skipBlanks front ++ c :: after := dropWhile_append_cons hc front after

theorem length_skipBlanks_le (text : List Char) : (skipBlanks text).length ≤ text.length :=
  List.length_dropWhile_le _ _

theorem scanChar?_within {front after : List Char} {c d : Char} (hd : isBlank d = false) (hcd : d ≠ c)
    (h : scanChar? c (front ++ d :: after) = some rest) : Within front (d :: after) rest := by
  have hlength := length_skipBlanks_le front
  unfold scanChar? at h
  rw [skipBlanks_append hd] at h
  rcases hfront : skipBlanks front with _ | ⟨x, left⟩
  · rw [hfront, List.nil_append] at h
    simp [hcd] at h
  · simp only [hfront, List.cons_append] at h
    split at h
    · cases h
      rw [hfront, List.length_cons] at hlength
      exact ⟨left, hlength, rfl⟩
    · cases h

theorem scanText?_parts {front after : List Char} {s : String}
    (h : scanText? (front ++ ',' :: '"' :: after) = some (s, rest)) : Parts front after rest := by
  unfold scanText? at h
  obtain ⟨opened, hopened, hliteral⟩ := Option.bind_eq_some_iff.1 h
  obtain ⟨left, hleft, rfl⟩ := scanChar?_within rfl (by decide) hopened
  rcases scanLiteral?_parts hliteral with ⟨u, hu, rfl⟩ | rfl
  · exact .inl ⟨u, by omega, rfl⟩
  · exact .inr rfl

theorem scanNat?_within {front after : List Char} {n : Nat}
    (h : scanNat? (front ++ ',' :: after) = some (n, rest)) : Within front (',' :: after) rest := by
  unfold scanNat? at h
  rw [dropWhile_append_cons rfl] at h
  dsimp only at h
  split at h
  · cases h
  · rename_i hgood
    cases h
    refine ⟨_, ?_, rfl⟩
    -- there is a digit, so something is used up
    rcases front with _ | ⟨x, front⟩
    · exact absurd rfl hgood
    · cases hx : x.isDigit with
      | true =>
        rw [List.dropWhile_cons_of_pos hx]
        exact Nat.lt_succ_of_le (List.length_dropWhile_le _ _)
      | false => simp [hx] at hgood

end HeaderMiner.Json
