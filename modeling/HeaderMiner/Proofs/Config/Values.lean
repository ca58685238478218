import HeaderMiner.Config.Reader
import HeaderMiner.Proofs.Text.Scanner
import Mathlib

/-!
# Fields of configurations and their values

The value of a field is read as it was written (`Field.reader_written`), and then the field is that of the written
configuration. Read off any text, a value ends before a seam or takes its comma and its quote for the end of a literal
(`Field.reader_parts`).
-/

namespace HeaderMiner.Config

open Json

/-- Takes over one field. -/
def Field.copy (c into : Config) : Field → Config
  | .threads => { into with threads := c.threads }
  | .lanes => { into with lanes := c.lanes }
  | .resyncBatches => { into with resyncBatches := c.resyncBatches }
  | .payout => { into with payout := c.payout }
  | .tipPollMs => { into with tipPollMs := c.tipPollMs }
  | .peerPollMs => { into with peerPollMs := c.peerPollMs }
  | .submitPeerPolls => { into with submitPeerPolls := c.submitPeerPolls }
  | .syncAfterOfflinePolls => { into with syncAfterOfflinePolls := c.syncAfterOfflinePolls }
  | .syncWindowPolls => { into with syncWindowPolls := c.syncWindowPolls }
  | .templateRetryMs => { into with templateRetryMs := c.templateRetryMs }
  | .maxRounds => { into with maxRounds := c.maxRounds }

/-- The configuration with these fields of `c` and all others of `base`. -/
def overlay (base c : Config) (fields : List Field) : Config where
  threads := if .threads ∈ fields then c.threads else base.threads
  lanes := if .lanes ∈ fields then c.lanes else base.lanes
  resyncBatches := if .resyncBatches ∈ fields then c.resyncBatches else base.resyncBatches
  payout := if .payout ∈ fields then c.payout else base.payout
  tipPollMs := if .tipPollMs ∈ fields then c.tipPollMs else base.tipPollMs
  peerPollMs := if .peerPollMs ∈ fields then c.peerPollMs else base.peerPollMs
  submitPeerPolls := if .submitPeerPolls ∈ fields then c.submitPeerPolls else base.submitPeerPolls
  syncAfterOfflinePolls :=
    if .syncAfterOfflinePolls ∈ fields then c.syncAfterOfflinePolls else base.syncAfterOfflinePolls
  syncWindowPolls := if .syncWindowPolls ∈ fields then c.syncWindowPolls else base.syncWindowPolls
  templateRetryMs := if .templateRetryMs ∈ fields then c.templateRetryMs else base.templateRetryMs
  maxRounds := if .maxRounds ∈ fields then c.maxRounds else base.maxRounds

theorem foldl_copy (base c : Config) (fields : List Field) :
    fields.foldl (Field.copy c) base = overlay base c fields := by
  induction fields generalizing base with
  | nil => simp [overlay]
  | cons f fields ih =>
    rw [List.foldl_cons, ih]
    cases f <;> simp [overlay, Field.copy]

theorem overlay_all (base c : Config) : overlay base c Field.all = c := by
  simp [overlay, Field.all]

/-! ### Values -/

section Values

variable {rest : List Char} {α : Type}

theorem toDigits_eq_cons (n : Nat) : ∃ d more, Nat.toDigits 10 n = d :: more ∧ d.isDigit = true := by
  rcases h : Nat.toDigits 10 n with _ | ⟨d, more⟩
  · exact absurd h Nat.toDigits_ne_nil
  · refine ⟨d, more, rfl, Nat.isDigit_of_mem_toDigits (b := 10) (n := n) (by decide) (by decide) ?_⟩
    rw [h]
    exact List.mem_cons_self

theorem skipBlanks_toDigits (n : Nat) (rest : List Char) :
    skipBlanks (Nat.toDigits 10 n ++ rest) = Nat.toDigits 10 n ++ rest := by
  obtain ⟨d, more, htext, hd⟩ := toDigits_eq_cons n
  rw [htext]
  refine skipBlanks_cons ?_
  by_contra hblank
  simp only [isBlank, Bool.not_eq_false, Bool.or_eq_true, beq_iff_eq] at hblank
  rcases hblank with ((rfl | rfl) | rfl) | rfl <;> cases hd

namespace Reader

theorem nat_written {n limit : Nat} (hn : n < limit) (hrest : EndsValue rest) :
    nat limit (Nat.toDigits 10 n ++ rest) = .ok (n, rest) := by
  simp [nat, ofScanner, skipBlanks_toDigits, scanNat?_toDigits n hrest, Option.filter, hn]

theorem word_written (w : UInt32) (hrest : EndsValue rest) :
    word (Nat.toDigits 10 w.toNat ++ rest) = .ok (w, rest) := by
  simp [word, map, nat_written w.toNat_lt_size hrest]

theorem doubleWord_written (w : UInt64) (hrest : EndsValue rest) :
    doubleWord (Nat.toDigits 10 w.toNat ++ rest) = .ok (w, rest) := by
  simp [doubleWord, map, nat_written w.toNat_lt_size hrest]

theorem laneWidth_written (w : LaneWidth) (hrest : EndsValue rest) :
    laneWidth (Nat.toDigits 10 w.count ++ rest) = .ok (w, rest) := by
  have hlt : w.count < UInt64.size := by cases w <;> decide
  have hcount : LaneWidth.ofCount? w.count = some w := by cases w <;> rfl
  simp [laneWidth, nat_written hlt hrest, hcount]

theorem text_written (s : String) (rest : List Char) : text ((quote s).toList ++ rest) = .ok (s, rest) := by
  simp [text, ofScanner, scanText?_quote]

theorem optional_null (read : Reader α) (rest : List Char) :
    optional read ("null".toList ++ rest) = .ok (none, rest) := rfl

/-- A value that is there is read as without the choice. -/
theorem optional_written {read : Reader α} {n : Nat} {a : α}
    (hread : read (Nat.toDigits 10 n ++ rest) = .ok (a, rest)) :
    optional read (Nat.toDigits 10 n ++ rest) = .ok (some a, rest) := by
  obtain ⟨d, more, htext, hd⟩ := toDigits_eq_cons n
  unfold optional
  rw [skipBlanks_toDigits]
  split
  · rename_i heq
    rw [htext] at heq
    simp only [List.cons_append, List.cons.injEq] at heq
    rw [heq.1] at hd
    cases hd
  · simp [map, hread]

end Reader

theorem toList_compact_nat (n : Nat) : (compact (.nat n)).toList = Nat.toDigits 10 n := by
  rw [compact, Nat.toString_eq_repr, Nat.toList_repr]

/-- A field is read as it was written. -/
theorem Field.reader_written (c into : Config) (f : Field) (hrest : EndsValue rest) :
    f.reader into ((f.value c).compact.toList ++ rest) = .ok (f.copy c into, rest) := by
  have hdouble (w : Option UInt64) :
      Reader.optional .doubleWord ((Json.ofNat? (w.map (·.toNat))).compact.toList ++ rest) = .ok (w, rest) := by
    cases w with
    | none => exact Reader.optional_null _ _
    | some w =>
      rw [Option.map_some, Json.ofNat?, Option.elim_some, toList_compact_nat]
      exact Reader.optional_written (Reader.doubleWord_written w hrest)
  have hlanes (w : Option LaneWidth) :
      Reader.optional .laneWidth ((Json.ofNat? (w.map (·.count))).compact.toList ++ rest) = .ok (w, rest) := by
    cases w with
    | none => exact Reader.optional_null _ _
    | some w =>
      rw [Option.map_some, Json.ofNat?, Option.elim_some, toList_compact_nat]
      exact Reader.optional_written (Reader.laneWidth_written w hrest)
  cases f <;> simp only [reader, value, copy, toList_compact_nat, Reader.map, hdouble, hlanes,
    Reader.word_written _ hrest, Reader.doubleWord_written _ hrest]
  rw [compact, Reader.text_written]

/-! ### Values of any text -/

namespace Reader

/-- The reader keeps to one side of every seam. -/
def KeepsParts (read : Reader α) : Prop := ∀ (front after rest : List Char) (a : α),
  read (front ++ ',' :: '"' :: after) = .ok (a, rest) → Parts front after rest

theorem KeepsParts.map {β : Type} {f : α → β} {read : Reader α} (h : read.KeepsParts) : (read.map f).KeepsParts := by
  intro front after rest b hread
  unfold Reader.map at hread
  split at hread
  · cases hread
  · rename_i heq
    cases hread
    exact h front after _ _ heq

theorem keepsParts_ofScanner {scan? : List Char → Option (α × List Char)}
    (h : ∀ front after rest a, scan? (front ++ ',' :: '"' :: after) = some (a, rest) → Parts front after rest) :
    (ofScanner scan?).KeepsParts := by
  intro front after rest a hread
  unfold ofScanner at hread
  split at hread
  · cases hread
  · rename_i heq
    cases hread
    exact h front after _ _ heq

theorem keepsParts_nat (limit : Nat) : (nat limit).KeepsParts := by
  refine keepsParts_ofScanner fun front after rest n h => ?_
  obtain ⟨hscan, -⟩ := Option.filter_eq_some_iff.1 h
  rw [skipBlanks_append rfl] at hscan
  obtain ⟨left, hleft, rfl⟩ := scanNat?_within hscan
  exact .inl ⟨left, hleft.trans_le (length_skipBlanks_le front), rfl⟩

theorem keepsParts_text : text.KeepsParts := keepsParts_ofScanner fun _ _ _ _ h => scanText?_parts h

theorem keepsParts_laneWidth : laneWidth.KeepsParts := by
  intro front after rest w hread
  unfold laneWidth at hread
  split at hread
  · cases hread
  · rename_i hnat
    split at hread
    · cases hread
    · cases hread
      exact keepsParts_nat _ front after _ _ hnat

theorem KeepsParts.optional {read : Reader α} (h : read.KeepsParts) : (optional read).KeepsParts := by
  intro front after rest a hread
  have hlength := length_skipBlanks_le front
  unfold Reader.optional at hread
  rw [skipBlanks_append rfl] at hread
  split at hread
  · rename_i heq
    cases hread
    rcases hfront : skipBlanks front with _ | ⟨x, _ | ⟨y, _ | ⟨z, _ | ⟨w, left⟩⟩⟩⟩
    all_goals
      rw [hfront] at heq hlength
      simp only [List.cons_append, List.nil_append, List.cons.injEq] at heq
    · exact absurd heq.1 (by decide)
    · exact absurd heq.2.1 (by decide)
    · exact absurd heq.2.2.1 (by decide)
    · exact absurd heq.2.2.2.1 (by decide)
    · simp only [List.length_cons] at hlength
      exact .inl ⟨left, by omega, heq.2.2.2.2.symm⟩
  · rcases h.map (skipBlanks front) after rest a hread with ⟨left, hleft, rfl⟩ | rfl
    · exact .inl ⟨left, by omega, rfl⟩
    · exact .inr rfl

end Reader

theorem Field.reader_parts (c : Config) (f : Field) : (f.reader c).KeepsParts := by
  have hword : Reader.word.KeepsParts := (Reader.keepsParts_nat _).map
  have hdouble : Reader.doubleWord.KeepsParts := (Reader.keepsParts_nat _).map
  cases f with
  | threads | maxRounds => exact hdouble.optional.map
  | lanes => exact Reader.keepsParts_laneWidth.optional.map
  | resyncBatches | submitPeerPolls | syncWindowPolls => exact hword.map
  | payout => exact Reader.keepsParts_text.map
  | tipPollMs | peerPollMs | syncAfterOfflinePolls | templateRetryMs => exact hdouble.map

end Values

end HeaderMiner.Config
