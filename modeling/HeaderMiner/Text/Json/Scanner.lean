import HeaderMiner.Text.Numeral

/-!
# Scanning documents

Scanners for the parts of a document. Each takes what it reads off the front of a text and gives the rest
with it; `none` means that the text does not begin so.
-/

namespace HeaderMiner.Json

/-- The characters that may stand between the parts of a document. -/
def isBlank (c : Char) : Bool := c == ' ' || c == '\t' || c == '\n' || c == '\r'

def skipBlanks (input : List Char) : List Char := input.dropWhile isBlank

/-- The rest after blanks and the character `c`. -/
def scanChar? (c : Char) (input : List Char) : Option (List Char) :=
  match skipBlanks input with
  | d :: rest => if d = c then some rest else none
  | [] => none

/-- A number without sign, fraction and exponent, and without a zero in front of other digits. -/
def scanNat? (input : List Char) : Option (Nat × List Char) :=
  let digits := input.takeWhile Char.isDigit
  let rest := input.dropWhile Char.isDigit
  let goesOn := rest.head?.any fun c => c == '.' || c == 'e' || c == 'E'
  if digits.isEmpty || (digits.head? == some '0' && digits.length != 1) || goesOn then none
  else some (Nat.ofDigitChars 10 digits 0, rest)

/-- Four hexadecimal digits, which number a UTF-16 unit. -/
def scanUnit? : List Char → Option (Nat × List Char)
  | a :: b :: c :: d :: rest =>
    match [a, b, c, d].mapM (Numeral.digitValue 16) with
    | none => none
    | some values => some (values.foldl (fun v x => 16 * v + x) 0, rest)
  | _ => none

/-- The characters that stand for others after a backslash. -/
def shortEscapes : List (Char × Char) :=
  [('"', '"'), ('\\', '\\'), ('/', '/'), ('b', '\x08'), ('f', '\x0c'), ('n', '\n'), ('r', '\r'),
    ('t', '\t')]

/-- What follows a backslash in a literal: a short escape, or `u` with the number of a UTF-16 unit. A
leading surrogate has to be followed by a trailing one, and a trailing one cannot stand alone. -/
def scanEscape? : List Char → Option (Char × List Char)
  | 'u' :: input =>
    match scanUnit? input with
    | none => none
    | some (unit, rest) =>
      if unit < 0xd800 ∨ 0xe000 ≤ unit then some (Char.ofNat unit, rest)
      else if 0xdc00 ≤ unit then none
      else match rest with
        | '\\' :: 'u' :: rest =>
          match scanUnit? rest with
          | none => none
          | some (trail, rest) =>
            if 0xdc00 ≤ trail ∧ trail < 0xe000 then
              some (Char.ofNat (0x10000 + 0x400 * (unit - 0xd800) + (trail - 0xdc00)), rest)
            else none
        | _ => none
  | c :: rest => (shortEscapes.lookup c).map (·, rest)
  | [] => none

theorem length_of_scanUnit? {input rest : List Char} {unit : Nat}
    (h : scanUnit? input = some (unit, rest)) : rest.length < input.length := by
  unfold scanUnit? at h
  split at h
  · split at h
    · simp at h
    · simp only [Option.some.injEq, Prod.mk.injEq] at h
      simp only [← h.2, List.length_cons]
      omega
  · simp at h

theorem length_of_scanEscape? {input rest : List Char} {c : Char}
    (h : scanEscape? input = some (c, rest)) : rest.length < input.length := by
  unfold scanEscape? at h
  split at h
  · split at h
    · simp at h
    · next hu =>
      have hu := length_of_scanUnit? hu
      split at h
      · simp only [Option.some.injEq, Prod.mk.injEq] at h
        simp only [← h.2, List.length_cons]
        omega
      · split at h
        · simp at h
        · split at h
          · split at h
            · simp at h
            · next ht =>
              have ht := length_of_scanUnit? ht
              split at h
              · simp only [Option.some.injEq, Prod.mk.injEq] at h
                simp only [List.length_cons] at hu ⊢
                rw [← h.2]
                omega
              · simp at h
          · simp at h
  · simp only [Option.map_eq_some_iff, Prod.mk.injEq] at h
    obtain ⟨_, _, _, rfl⟩ := h
    simp
  · simp at h

/-- The rest of a literal, whose characters so far are `seen` with the last one in front. Controls have
to be escaped. -/
def scanLiteral? (seen input : List Char) : Option (String × List Char) :=
  match input with
  | [] => none
  | c :: input =>
    if c = '"' then some (String.ofList seen.reverse, input)
    else if c = '\\' then
      match h : scanEscape? input with
      | none => none
      | some (c, rest) =>
        have := length_of_scanEscape? h
        scanLiteral? (c :: seen) rest
    else if c.toNat < 0x20 then none
    else scanLiteral? (c :: seen) input
termination_by input.length

def scanText? (input : List Char) : Option (String × List Char) :=
  (scanChar? '"' input).bind (scanLiteral? [])

end HeaderMiner.Json
