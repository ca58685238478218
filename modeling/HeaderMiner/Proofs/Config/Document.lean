import HeaderMiner.Proofs.Config.Values
import Mathlib

/-!
# Configurations and their documents

A record of any fields of a configuration, each at most once and in any order, reads back as the configuration with
these fields and the defaults of all others (`readMembers_written`). A member with another name, or with the name of
one of the fields, makes reading fail wherever it stands, even if its value is no document and runs on into what
follows (`fails_spliced`): what is read of it ends before the comma of the next member or after its quote.
-/

namespace HeaderMiner.Config

open Json

/-! ### The text of a record -/

/-- The name and the text of a member, as they stand in a record. -/
def memberText (m : String × String) : List Char := (quote m.1).toList ++ ':' :: m.2.toList

/-- Members with a comma after each. -/
def opening (members : List (String × String)) : List Char := members.flatMap fun m => memberText m ++ [',']

/-- Members with a comma before each, and the closing brace. -/
def closing (members : List (String × String)) : List Char := members.flatMap (fun m => ',' :: memberText m) ++ ['\x7d']

/-- The text of a record, from the names and the texts of its members. -/
def recordText (members : List (String × String)) : String :=
  "\x7b" ++ ",".intercalate (members.map fun m => quote m.1 ++ ":" ++ m.2) ++ "\x7d"

/-- The members of some fields. -/
def written (c : Config) (fields : List Field) : List (String × String) :=
  fields.map fun f => (f.name, (f.value c).compact)

variable {c into : Config} {absent fields : List Field} {f : Field} {text rest : List Char} {name : String}

theorem compact_record (members : List (String × Json)) :
    (Json.record members).compact = recordText (members.map fun m => (m.1, m.2.compact)) := by
  have hmembers : compactMembers members =
      (members.map fun m => (m.1, m.2.compact)).map fun m => quote m.1 ++ ":" ++ m.2 := by
    induction members with
    | nil => rfl
    | cons m ms ih =>
      rw [compactMembers, ih]
      rfl
  rw [compact, hmembers, recordText]

theorem intercalate_append_cons {α : Type} (sep : List α) (before : List (List α)) (x : List α)
    (after : List (List α)) :
    sep.intercalate (before ++ x :: after) = before.flatMap (· ++ sep) ++ (x ++ after.flatMap (sep ++ ·)) := by
  induction before with
  | nil =>
    induction after generalizing x with
    | nil => simp
    | cons y after ih =>
      rw [List.nil_append, List.intercalate_cons_cons, ← List.nil_append (y :: after), ih]
      simp
  | cons b before ih =>
    rw [List.cons_append]
    cases before with
    | nil =>
      rw [List.nil_append, List.intercalate_cons_cons, ← List.nil_append (x :: after), ih]
      simp
    | cons b' before =>
      rw [List.cons_append, List.intercalate_cons_cons, ← List.cons_append, ih]
      simp

theorem toList_recordText (before : List (String × String)) (m : String × String) (after : List (String × String)) :
    (recordText (before ++ m :: after)).toList = '\x7b' :: (opening before ++ (memberText m ++ closing after)) := by
  have htext : (fun m : String × String => (quote m.1 ++ ":" ++ m.2).toList) = memberText := by
    funext m
    simp [memberText]
  rw [recordText, String.toList_append, String.toList_append, String.toList_intercalate, List.map_map,
    show String.toList ∘ (fun m : String × String => quote m.1 ++ ":" ++ m.2) = memberText from htext,
    List.map_append, List.map_cons, intercalate_append_cons]
  simp [opening, closing, List.flatMap_map]

theorem endsValue_closing (members : List (String × String)) : EndsValue (closing members) := by
  cases members with
  | nil => exact ⟨'\x7d', [], rfl, .inr rfl⟩
  | cons m members => exact ⟨',', memberText m ++ closing members, by simp [closing], .inl rfl⟩

/-! ### Reading members -/

theorem scanName?_memberText (m : String × String) (rest : List Char) :
    scanName? (memberText m ++ rest) = some (m.1, m.2.toList ++ rest) := by
  have hcolon : isBlank ':' = false := rfl
  rw [scanName?, memberText, List.append_assoc, scanText?_quote, List.cons_append]
  simp [scanChar?_cons_self hcolon]

theorem mem_all (f : Field) : f ∈ Field.all := by rcases f <;> simp [Field.all]

theorem nodup_names : (Field.all.map Field.name).Nodup := by decide

theorem name_injective : Function.Injective Field.name := by
  intro f g h
  exact List.inj_on_of_nodup_map nodup_names (mem_all f) (mem_all g) h

theorem mem_diff : f ∈ Field.all.diff fields ↔ f ∉ fields := by
  rw [List.Nodup.mem_sdiff_iff (List.Nodup.of_map _ nodup_names)]
  simp [mem_all]

theorem find?_name (absent : List Field) (f : Field) :
    absent.find? (·.name = f.name) = if f ∈ absent then some f else none := by
  induction absent with
  | nil => rfl
  | cons g absent ih =>
    by_cases hg : g = f
    · simp [hg]
    · have hname : g.name ≠ f.name := fun h => hg (name_injective h)
      simp [hname, ih, Ne.symm hg]

/-- What becomes of a member's value and of the text after it. -/
def goOn (absent : List Field) (f : Field) :
    Except ReadError (Config × List Char) → Except ReadError (Config × List Char)
  | .error e => .error e
  | .ok (c, rest) =>
    match skipBlanks rest with
    | ',' :: rest => readMembers (absent.erase f) c rest
    | '\x7d' :: rest => .ok (c, rest)
    | _ => .error .malformed

theorem readMembers_known (hname : scanName? text = some (name, rest))
    (hfind : absent.find? (·.name = name) = some f) :
    readMembers absent c text = goOn absent f (f.reader c rest) := by
  rw [readMembers, hname]
  dsimp only
  split
  · rename_i hnone
    rw [hnone] at hfind
    cases hfind
  · rename_i hsome
    rw [hsome] at hfind
    cases hfind
    cases f.reader c rest <;> rfl

theorem readMembers_unknown (hname : scanName? text = some (name, rest))
    (hfind : absent.find? (·.name = name) = none) : readMembers absent c text = .error .malformed := by
  rw [readMembers, hname]
  dsimp only
  split
  · rfl
  · rename_i hsome
    rw [hsome] at hfind
    cases hfind

theorem goOn_comma : goOn absent f (.ok (c, ',' :: rest)) = readMembers (absent.erase f) c rest := rfl

theorem goOn_brace : goOn absent f (.ok (c, '\x7d' :: rest)) = .ok (c, rest) := rfl

theorem readMembers_member (hf : f ∈ absent) (hrest : EndsValue rest) :
    readMembers absent into (memberText (f.name, (f.value c).compact) ++ rest) =
      goOn absent f (.ok (f.copy c into, rest)) := by
  rw [readMembers_known (scanName?_memberText _ _) ((find?_name absent f).trans (if_pos hf)),
    f.reader_written c into hrest]

theorem readMembers_gone (hf : f ∉ absent) (rest : List Char) (value : String) :
    readMembers absent into (memberText (f.name, value) ++ rest) = .error .malformed :=
  readMembers_unknown (scanName?_memberText _ _) ((find?_name absent f).trans (if_neg hf))

/-- The fields of a record are read one after another. -/
theorem readMembers_opening (hnodup : fields.Nodup) (habsent : ∀ f ∈ fields, f ∈ absent) (text : List Char) :
    readMembers absent into (opening (written c fields) ++ text) =
      readMembers (absent.diff fields) (fields.foldl (Field.copy c) into) text := by
  induction fields generalizing absent into with
  | nil => rfl
  | cons f fields ih =>
    obtain ⟨hf, hnodup⟩ := List.nodup_cons.1 hnodup
    have hopening : opening (written c (f :: fields)) ++ text =
        memberText (f.name, (f.value c).compact) ++ ',' :: (opening (written c fields) ++ text) := by
      simp [opening, written]
    have hrest : EndsValue (',' :: (opening (written c fields) ++ text)) := ⟨_, _, rfl, .inl rfl⟩
    rw [hopening, readMembers_member (habsent f List.mem_cons_self) hrest, goOn_comma, ih hnodup]
    · rw [List.diff_cons, List.foldl_cons]
    · intro g hg
      have hne : g ≠ f := fun h => hf (h ▸ hg)
      exact (List.mem_erase_of_ne hne).2 (habsent g (List.mem_cons_of_mem f hg))

theorem readMembers_written (hnodup : (fields ++ [f]).Nodup) :
    readMembers Field.all {} (opening (written c fields) ++ (memberText (f.name, (f.value c).compact) ++ closing [])) =
      .ok (overlay {} c (fields ++ [f]), []) := by
  have hf : f ∈ Field.all.diff fields := by
    refine mem_diff.2 fun hmem => ?_
    exact List.disjoint_of_nodup_append hnodup hmem (List.mem_singleton_self f)
  rw [readMembers_opening (List.Nodup.of_append_left hnodup) fun g _ => mem_all g,
    readMembers_member hf (endsValue_closing []), show closing [] = ['\x7d'] from rfl, goOn_brace, ← foldl_copy,
    List.foldl_append]
  rfl

/-! ### A member too many -/

/-- Reading goes wrong, or stops in front of more than blanks. -/
def Fails (result : Except ReadError (Config × List Char)) : Prop :=
  ∀ c rest, result = .ok (c, rest) → skipBlanks rest ≠ []

theorem fails_error {e : ReadError} : Fails (.error e) := by
  intro c rest h
  cases h

theorem closing_cons (m : String × String) (members : List (String × String)) :
    closing (m :: members) = ',' :: (memberText m ++ closing members) := by simp [closing]

/-- A field that was read before is not read again. -/
theorem fails_again {g : Field} (hf : f ∉ absent) (hmem : f ∈ g :: fields) :
    Fails (readMembers absent into (memberText (g.name, (g.value c).compact) ++ closing (written c fields))) := by
  induction fields generalizing absent into g with
  | nil =>
    rw [List.mem_singleton.1 hmem] at hf
    rw [readMembers_gone hf]
    exact fails_error
  | cons g' fields ih =>
    by_cases hg : g ∈ absent
    · rw [readMembers_member hg (endsValue_closing _), written, List.map_cons, closing_cons, goOn_comma]
      refine ih (fun h => hf (List.mem_of_mem_erase h)) ?_
      rcases List.mem_cons.1 hmem with rfl | hmem
      · exact absurd hg hf
      · exact hmem
    · rw [readMembers_gone hg]
      exact fails_error

/-- A text that starts with a quote and a letter, and that cannot be read once the field was read. -/
structure Again (f : Field) (x : Char) (after : List Char) : Prop where
  letter : x.isAlpha = true
  fails : ∀ absent into, f ∉ absent → Fails (readMembers absent into ('"' :: x :: after))

theorem again_closing (c : Config) (hf : f ∈ fields) :
    ∃ x after, closing (written c fields) = ',' :: '"' :: x :: after ∧ Again f x after := by
  rcases fields with _ | ⟨g, fields⟩
  · simp at hf
  obtain ⟨x, more, hx, hname⟩ : ∃ x more, x.isAlpha = true ∧ (quote g.name).toList = '"' :: x :: more := by
    cases g <;> exact ⟨_, _, rfl, rfl⟩
  obtain ⟨after, hafter⟩ : ∃ after,
      memberText (g.name, (g.value c).compact) ++ closing (written c fields) = '"' :: x :: after := by
    simp [memberText, hname]
  refine ⟨x, after, ?_, hx, fun absent into habsent => ?_⟩
  · rw [← hafter, written, List.map_cons, closing_cons]
    rfl
  · rw [← hafter]
    exact fails_again habsent hf

section Spliced

variable {front after : List Char} {x : Char} {f' : Field}

theorem scanName?_within (hx : x.isAlpha = true)
    (h : scanName? (front ++ ',' :: '"' :: x :: after) = some (name, rest)) :
    Within front (',' :: '"' :: x :: after) rest := by
  unfold scanName? at h
  split at h
  · cases h
  · rename_i s opened hopened
    obtain ⟨rest', hcolon, heq⟩ := Option.map_eq_some_iff.1 h
    cases heq
    rcases scanText?_parts hopened with ⟨left, hleft, rfl⟩ | rfl
    · obtain ⟨left', hleft', rfl⟩ := scanChar?_within rfl (by decide) hcolon
      exact ⟨left', hleft'.trans hleft, rfl⟩
    · have hne : x ≠ ':' := by
        rintro rfl
        cases hx
      simp [scanChar?, skipBlanks_cons (isBlank_of_isAlpha hx), hne] at hcolon

/-- After a value that ended on one side of the splice, reading comes to the field that was read before. -/
theorem fails_goOn (h : Again f x after) (hf : f ∉ absent.erase f')
    (hshorter : ∀ left : List Char, left.length < front.length →
      Fails (readMembers (absent.erase f') into (left ++ ',' :: '"' :: x :: after)))
    (hparts : Parts front (x :: after) rest) : Fails (goOn absent f' (.ok (into, rest))) := by
  have hx := h.letter
  rcases hparts with ⟨left, hleft, rfl⟩ | rfl
  · have hlength := length_skipBlanks_le left
    rw [goOn, skipBlanks_append rfl]
    rcases hblanks : skipBlanks left with _ | ⟨y, more⟩
    · exact h.fails _ _ hf
    · rw [hblanks, List.length_cons] at hlength
      rw [List.cons_append]
      split
      · rename_i heq
        cases heq
        exact hshorter more (by omega)
      · rename_i heq
        cases heq
        -- the record ends, with the comma of the splice after it
        intro c rest hc
        cases hc
        rw [skipBlanks_append rfl]
        exact List.append_ne_nil_of_right_ne_nil _ (List.cons_ne_nil _ _)
      · exact fails_error
  · rw [goOn, skipBlanks_cons (isBlank_of_isAlpha hx)]
    split
    · rename_i heq
      cases heq
      cases hx
    · rename_i heq
      cases heq
      cases hx
    · exact fails_error

/-- Whatever the text before the splice, the field after it is not read again. -/
theorem fails_spliced (h : Again f x after) (front : List Char) (into : Config) (hf : f ∉ absent) :
    Fails (readMembers absent into (front ++ ',' :: '"' :: x :: after)) := by
  induction hn : front.length using Nat.strongRecOn generalizing front into absent with
  | ind n ih =>
    subst hn
    rcases hname : scanName? (front ++ ',' :: '"' :: x :: after) with _ | ⟨name, rest⟩
    · rw [readMembers, hname]
      exact fails_error
    obtain ⟨left, hleft, rfl⟩ := scanName?_within h.letter hname
    rcases hfind : absent.find? (·.name = name) with _ | g
    · rw [readMembers_unknown hname hfind]
      exact fails_error
    rw [readMembers_known hname hfind]
    rcases hread : g.reader into (left ++ ',' :: '"' :: x :: after) with e | ⟨c', rest⟩
    · exact fails_error
    · have hf' : f ∉ absent.erase g := fun hmem => hf (List.mem_of_mem_erase hmem)
      refine fails_goOn h hf' (fun left' hleft' => ?_) (g.reader_parts into _ _ _ _ hread)
      exact ih left'.length (hleft'.trans hleft) left' c' hf' rfl

end Spliced

/-- A member with the name of a field of the record, or with that of no field, is one too many. -/
theorem fails_added {before after : List Field} (hnodup : (before ++ after).Nodup) {name : String}
    (hname : (∀ f : Field, f.name ≠ name) ∨ ∃ f ∈ before ++ after, f.name = name) (value : String) :
    Fails (readMembers Field.all {}
      (opening (written c before) ++ (memberText (name, value) ++ closing (written c after)))) := by
  rw [readMembers_opening (List.Nodup.of_append_left hnodup) fun g _ => mem_all g]
  by_cases hgone : ∃ f ∈ after, f.name = name
  · obtain ⟨f, hf, rfl⟩ := hgone
    obtain ⟨x, rest, hclosing, hagain⟩ := again_closing c hf
    have hf' : f ∈ Field.all.diff before := mem_diff.2 fun hmem => List.disjoint_of_nodup_append hnodup hmem hf
    have herased : f ∉ (Field.all.diff before).erase f :=
      List.Nodup.not_mem_erase (List.Nodup.diff (List.Nodup.of_map _ nodup_names))
    rw [readMembers_known (scanName?_memberText _ _) ((find?_name _ f).trans (if_pos hf')), hclosing]
    rcases hread : f.reader (before.foldl (Field.copy c) {}) (value.toList ++ ',' :: '"' :: x :: rest) with
      e | ⟨c', rest'⟩
    · exact fails_error
    · exact fails_goOn hagain herased (fun left _ => fails_spliced hagain left c' herased)
        (f.reader_parts _ _ _ _ _ hread)
  · have hfind : (Field.all.diff before).find? (·.name = name) = none := by
      simp only [List.find?_eq_none, mem_diff, decide_eq_true_eq]
      rintro f hf rfl
      rcases hname with hname | ⟨g, hg, hgname⟩
      · exact hname f rfl
      · rw [name_injective hgname] at hg
        rcases List.mem_append.1 hg with hg | hg
        · exact hf hg
        · exact hgone ⟨f, hg, rfl⟩
    rw [readMembers_unknown (scanName?_memberText _ _) hfind]
    exact fails_error

/-! ### Reading the document -/

theorem readDocument_record (before : List (String × String)) (m : String × String) (after : List (String × String)) :
    readDocument (recordText (before ++ m :: after)).toList =
      readMembers Field.all {} (opening before ++ (memberText m ++ closing after)) := by
  obtain ⟨more, hquote⟩ : ∃ more, opening before ++ (memberText m ++ closing after) = '"' :: more := by
    rcases before with _ | ⟨m', before⟩
    · exact ⟨_, by simp [opening, memberText, quote]; rfl⟩
    · exact ⟨_, by simp [opening, memberText, quote]; rfl⟩
  have hbrace : isBlank '\x7b' = false := rfl
  rw [toList_recordText, readDocument, skipBlanks_cons hbrace, hquote]
  rfl

theorem error_of_fails {s : String} (h : Fails (readDocument s.toList)) : ∃ e, read s = .error e := by
  unfold read
  split
  · exact ⟨_, rfl⟩
  · rename_i c rest hread
    rw [if_neg fun hblanks => h c rest hread (List.isEmpty_iff.1 hblanks)]
    exact ⟨_, rfl⟩

theorem read_fields (hnodup : fields.Nodup) :
    read (Json.record (fields.map fun f => (f.name, f.value c))).compact = .ok (overlay {} c fields) := by
  have hmembers : (fields.map fun f => (f.name, f.value c)).map (fun m => (m.1, m.2.compact)) = written c fields := by
    simp [written]
  rw [compact_record, hmembers]
  rcases List.eq_nil_or_concat fields with rfl | ⟨before, f, rfl⟩
  · have hoverlay : overlay {} c [] = {} := by simp [overlay]
    have hread : read (recordText []) = .ok {} := by decide
    rw [hoverlay]
    exact hread
  · have hwritten : written c (before ++ [f]) = written c before ++ [(f.name, (f.value c).compact)] := by
      simp [written]
    rw [List.concat_eq_append] at hnodup ⊢
    rw [hwritten, read, readDocument_record, readMembers_written hnodup]
    rfl

/-- A record of some fields of a configuration, in any order, reads as these fields over the defaults, and the document
of the whole configuration as the configuration. With one more member, of an unknown name or a second of its name,
wherever it stands and whatever its text, no record is read. -/
theorem read_record (c : Config) :
    (∀ fields : List Field, fields.Nodup →
      read (Json.record (fields.map fun f => (f.name, f.value c))).compact = .ok (overlay {} c fields)) ∧
    read c.toJson.compact = .ok c ∧
    ∀ before after : List Field, (before ++ after).Nodup → ∀ name value : String,
      ((∀ f : Field, f.name ≠ name) ∨ ∃ f ∈ before ++ after, f.name = name) →
        ∃ e, read (recordText (written c before ++ (name, value) :: written c after)) = .error e := by
  refine ⟨fun fields hnodup => read_fields hnodup, ?_, fun before after hnodup name value hname => ?_⟩
  · rw [toJson, read_fields (by decide), overlay_all]
  · refine error_of_fails ?_
    rw [readDocument_record]
    exact fails_added hnodup hname value

end HeaderMiner.Config
