import Specimen.Proofs.Json.Scalar

/-!
# Reading compact text

The compact text of a legible tree is read as a written value that stands for the tree, up to a
character that can follow it: `exists_spelled`. No limit on the levels is needed beyond the levels
that the tree has. For a double to be legible it is enough that it is read back from a document of
its own (`reproduced_iff`).
-/

namespace Specimen.Json

open Decimal (Numeral)

/-! ## Results of readers -/

/-- The reader gives the value and leaves the rest. -/
def Reads {α : Type} {input : List Char} (result : Option (Taken input α)) (value : α)
    (rest : List Char) : Prop :=
  ∃ h, result = some ⟨value, rest, h⟩

section Reads

variable {α β : Type} {input rest : List Char} {result : Option (Taken input α)} {value : α}

theorem Reads.some {t : Taken input α} (hvalue : t.value = value) (hrest : t.rest = rest) :
    Reads (some t) value rest := by
  obtain rfl := hvalue
  obtain rfl := hrest
  exact ⟨t.shorter, rfl⟩

theorem Reads.map {longer : List Char} (h : Reads result value rest)
    (f : Taken input α → Taken longer β) {value' : β} (hvalue : ∀ hshort,
      (f ⟨value, rest, hshort⟩).value = value' ∧ (f ⟨value, rest, hshort⟩).rest = rest) :
    Reads (result.map f) value' rest := by
  obtain ⟨hshort, rfl⟩ := h
  exact .some (hvalue hshort).1 (hvalue hshort).2

end Reads

theorem skipBlanks_cons {c : Char} (rest : List Char) (hc : isBlank c = false) :
    skipBlanks (c :: rest) = c :: rest :=
  List.dropWhile_cons_of_neg (by simp [hc])

/-- What is found behind the blanks, where there are none. -/
theorem skipBlanks_cases {c : Char} {rest found : List Char} (hc : isBlank c = false)
    (h : skipBlanks (c :: rest) = found) : found = c :: rest :=
  h.symm.trans (skipBlanks_cons rest hc)

/-! ## Values -/

section Values

variable {depth : Nat} {c : Char} {rest rest' : List Char}

theorem reads_scalar {written : Written} (hblank : isBlank c = false) (harray : c ≠ '[')
    (hobject : c ≠ '\x7b') (h : Reads (scalarAt? c rest) written rest') :
    Reads (value? depth (c :: rest)) written rest' := by
  unfold value?
  split
  · rename_i heq
    cases skipBlanks_cases hblank heq
  · rename_i heq
    cases skipBlanks_cases hblank heq
    simp only [harray, hobject, or_self, if_false]
    cases depth <;> exact h.map _ fun _ => ⟨rfl, rfl⟩

theorem reads_array {items : List Written}
    (h : Reads (group? ']' (value? depth) rest) items rest') :
    Reads (value? (depth + 1) ('[' :: rest)) (.array items) rest' := by
  unfold value?
  split
  · rename_i heq
    cases skipBlanks_cases rfl heq
  · rename_i heq
    cases skipBlanks_cases rfl heq
    exact h.map _ fun _ => ⟨rfl, rfl⟩

theorem reads_object {entries : List (List StringPart × Written)}
    (h : Reads (group? '\x7d' (namedValue? (value? depth)) rest) entries rest') :
    Reads (value? (depth + 1) ('\x7b' :: rest)) (.object entries) rest' := by
  unfold value?
  split
  · rename_i heq
    cases skipBlanks_cases rfl heq
  · rename_i heq
    cases skipBlanks_cases rfl heq
    exact h.map _ fun _ => ⟨rfl, rfl⟩

end Values

/-! ## Items -/

/-- Texts with commas between them. -/
def joined : List (List Char) → List Char
  | [] => []
  | [text] => text
  | text :: texts => text ++ ',' :: joined texts

theorem compactItems_eq_joined (items : List Json) :
    compactItems items = joined (items.map compactChars) := by
  induction items with
  | nil => rfl
  | cons item items ih => cases items <;> simp_all [compactItems, joined]

/-- The text of an entry. -/
def entryChars (entry : String × Json) : List Char :=
  quotedChars entry.1.toList ++ ':' :: compactChars entry.2

theorem compactEntries_eq_joined (entries : List (String × Json)) :
    compactEntries entries = joined (entries.map entryChars) := by
  induction entries with
  | nil => rfl
  | cons entry entries ih => cases entries <;> simp_all [compactEntries, joined, entryChars]

section Items

variable {α : Type} {close : Char} {item? : (input : List Char) → Option (Taken input α)}

/-- A text is read as an item if a comma or the closing character follows. -/
def ReadsItem (close : Char) (item? : (input : List Char) → Option (Taken input α))
    (text : List Char) (value : α) : Prop :=
  ∀ c rest, c = ',' ∨ c = close → Reads (item? (text ++ c :: rest)) value (c :: rest)

/-- Items with commas between them are read up to the closing character. -/
theorem reads_itemsUntil (hcomma : close ≠ ',') (hblank : isBlank close = false)
    {text : List Char} {texts : List (List Char)} {value : α} {values : List α}
    (hitem : ReadsItem close item? text value)
    (hitems : List.Forall₂ (ReadsItem close item?) texts values) (rest : List Char) :
    Reads (itemsUntil? close item? (joined (text :: texts) ++ close :: rest)) (value :: values)
      rest := by
  induction hitems generalizing text value with
  | nil =>
      obtain ⟨hshort, hread⟩ := hitem close rest (.inr rfl)
      rw [joined, itemsUntil?, hread]
      simp only
      split
      · rename_i heq
        cases skipBlanks_cases hblank heq
      · rename_i heq
        cases skipBlanks_cases hblank heq
        rw [if_neg hcomma, if_pos rfl]
        exact .some rfl rfl
  | cons hnext hmore ih =>
      rename_i next nextValue more moreValues
      obtain ⟨hshort, hread⟩ := hitem ',' (joined (next :: more) ++ close :: rest) (.inl rfl)
      obtain ⟨hshort', hread'⟩ := ih hnext
      rw [joined, List.append_assoc, List.cons_append, itemsUntil?, hread]
      simp only
      split
      · rename_i heq
        cases skipBlanks_cases rfl heq
      · rename_i heq
        cases skipBlanks_cases rfl heq
        rw [if_pos rfl, hread']
        exact .some rfl rfl
      · simp

/-- Items in brackets. -/
theorem reads_group (hcomma : close ≠ ',') (hblank : isBlank close = false)
    {texts : List (List Char)} {values : List α}
    (hitems : List.Forall₂ (ReadsItem close item?) texts values)
    (hfirst : ∀ text ∈ texts, ∃ c more, text = c :: more ∧ isBlank c = false ∧ c ≠ close)
    (rest : List Char) :
    Reads (group? close item? (joined texts ++ close :: rest)) values rest := by
  unfold group?
  cases hitems with
  | nil =>
      split
      · rename_i heq
        cases skipBlanks_cases hblank heq
      · rename_i heq
        cases skipBlanks_cases hblank heq
        rw [if_pos rfl]
        exact .some rfl rfl
  | cons hitem hmore =>
      rename_i text value texts values
      obtain ⟨c, more, htext, hc, hclose⟩ := hfirst _ List.mem_cons_self
      obtain ⟨after, hafter⟩ : ∃ after, joined (text :: texts) ++ close :: rest = c :: after := by
        cases texts <;> simp [joined, htext]
      have hread := reads_itemsUntil hcomma hblank hitem hmore rest
      rw [hafter] at hread ⊢
      split
      · rename_i heq
        cases skipBlanks_cases hc heq
      · rename_i heq
        cases skipBlanks_cases hc heq
        rw [if_neg hclose]
        exact hread

end Items

/-- A name, a colon and a value are read as an entry. -/
theorem reads_namedValue {value? : (input : List Char) → Option (Taken input Written)}
    {name text : List Char} {parts : List StringPart} {written : Written} {rest : List Char}
    (hname : ∀ rest, stringTail? (name.flatMap escapedChars ++ '"' :: rest) = some (parts, rest))
    (hvalue : Reads (value? (text ++ rest)) written rest) :
    Reads (namedValue? value? (quotedChars name ++ ':' :: (text ++ rest))) (parts, written)
      rest := by
  have hquoted : quotedChars name ++ ':' :: (text ++ rest)
      = '"' :: (name.flatMap escapedChars ++ '"' :: ':' :: (text ++ rest)) := by
    simp [quotedChars]
  rw [hquoted]
  unfold namedValue?
  split
  · rename_i heq
    cases skipBlanks_cases rfl heq
    split
    · rename_i hnone
      rw [hname] at hnone
      cases hnone
    · rename_i hsome
      rw [hname] at hsome
      cases hsome
      split
      · rename_i hcolon
        cases skipBlanks_cases rfl hcolon
        exact hvalue.map _ fun _ => ⟨rfl, rfl⟩
      · rename_i hother
        exact absurd (skipBlanks_cons _ rfl) (hother _)
  · rename_i hother
    exact absurd (skipBlanks_cons _ rfl) (hother _)

/-! ## Trees -/

/-- What is written for a tree: a value that stands for the tree, which the compact text is read
as. -/
structure Spelled (toDouble : Numeral → Float) (json : Json) (written : Written) : Prop where
  begins : ∃ c tail, compactChars json = c :: tail ∧ isBlank c = false ∧ c ≠ ']'
  toJson? : ∀ n, json.levels ≤ n → written.toJson? toDouble n = some json
  reads : ∀ depth rest, json.levels ≤ depth → EndsNumber rest →
    Reads (value? depth (compactChars json ++ rest)) written rest

section Trees

variable {toDouble : Numeral → Float}

theorem spelled_word {json : Json} {written : Written} {c : Char} {tail : List Char}
    (hchars : compactChars json = c :: tail)
    (hc : isBlank c = false ∧ c ≠ '[' ∧ c ≠ '\x7b' ∧ c ≠ ']')
    (htoJson : ∀ n, written.toJson? toDouble n = some json)
    (hscalar : ∀ rest, Reads (scalarAt? c (tail ++ rest)) written rest) :
    Spelled toDouble json written := by
  obtain ⟨hblank, harray, hobject, hclose⟩ := hc
  refine ⟨⟨c, tail, hchars, hblank, hclose⟩, fun n _ => htoJson n, fun depth rest _ _ => ?_⟩
  rw [hchars]
  exact reads_scalar hblank harray hobject (hscalar rest)

theorem spelled_null : Spelled toDouble .null .null :=
  spelled_word rfl (by decide) (fun _ => rfl) fun _ => .some rfl rfl

theorem spelled_bool (value : Bool) : Spelled toDouble (.bool value) (.bool value) := by
  cases value with
  | true => exact spelled_word rfl (by decide) (fun _ => rfl) fun _ => .some rfl rfl
  | false => exact spelled_word rfl (by decide) (fun _ => rfl) fun _ => .some rfl rfl

theorem exists_spelled_string (value : String) :
    ∃ written, Spelled toDouble (.string value) written := by
  obtain ⟨parts, hdecode, hparts⟩ := exists_parts value.toList
  refine ⟨.string parts, ⟨'"', _, rfl, rfl, by decide⟩, fun n _ => ?_, fun depth rest _ _ => ?_⟩
  · simp [Written.toJson?, hdecode]
  · have hchars : compactChars (.string value) ++ rest
        = '"' :: (value.toList.flatMap escapedChars ++ '"' :: rest) := by
      simp [compactChars, scalarChars, quotedChars]
    rw [hchars]
    apply reads_scalar rfl (by decide) (by decide)
    unfold scalarAt?
    split
    · rename_i hnone
      rw [hparts] at hnone
      cases hnone
    · rename_i hsome
      rw [hparts] at hsome
      cases hsome
      exact .some rfl rfl

theorem reads_numberAt? {n : Numeral} (h : n.IsWritten) {c : Char} {tail rest : List Char}
    (hchars : n.chars = c :: tail) (hrest : EndsNumber rest) :
    Reads (numberAt? c (tail ++ rest)) (.number n) rest := by
  have hc : isNumeralChar c = true :=
    isNumeralChar_of_mem_chars h (hchars ▸ List.mem_cons_self)
  obtain ⟨htake, hdrop⟩ := span_chars h hrest
  rw [hchars, List.cons_append, List.takeWhile_cons_of_pos hc] at htake
  rw [hchars, List.cons_append, List.dropWhile_cons_of_pos hc] at hdrop
  unfold numberAt?
  rw [if_pos hc, htake, ← hchars, numeral?_chars h]
  exact .some rfl hdrop

/-- A number is spelled as its text says. -/
theorem spelled_number {json : Json} {n : Numeral} (hchars : compactChars json = n.chars)
    (h : n.IsWritten) (hnumeral : ofNumeral? toDouble n = some json) :
    Spelled toDouble json (.number n) := by
  obtain ⟨c, tail, hcons, hc⟩ := exists_cons_chars h
  have hother : ∀ d, d ≠ '-' → d.isDigit = false → c ≠ d := by
    rintro d hminus hdigit rfl
    rcases hc with hc | hc
    · exact hminus hc
    · rw [hdigit] at hc
      cases hc
  have hblank : isBlank c = false := by
    simp [isBlank, hother ' ' (by decide) rfl, hother '\n' (by decide) rfl,
      hother '\t' (by decide) rfl, hother '\r' (by decide) rfl]
  refine ⟨⟨c, tail, hchars.trans hcons, hblank, hother _ (by decide) rfl⟩, fun _ _ => hnumeral,
    fun depth rest _ hrest => ?_⟩
  have hread := reads_numberAt? h hcons hrest
  rw [hchars, hcons]
  apply reads_scalar hblank (hother _ (by decide) rfl) (hother _ (by decide) rfl)
  unfold scalarAt?
  split
  · exact absurd rfl (hother '"' (by decide) rfl)
  · exact absurd rfl (hother 'n' (by decide) rfl)
  · exact absurd rfl (hother 't' (by decide) rfl)
  · exact absurd rfl (hother 'f' (by decide) rfl)
  · exact hread

/-! ## Arrays and objects -/

theorem isNumeralChar_of_ends {c close : Char} (hclose : isNumeralChar close = false)
    (hc : c = ',' ∨ c = close) : isNumeralChar c = false := by
  rcases hc with rfl | rfl
  · rfl
  · exact hclose

/-- Items that can be spelled one by one are spelled together. -/
theorem exists_forall₂ {α β : Type} {R : α → β → Prop} {items : List α}
    (h : ∀ item ∈ items, ∃ value, R item value) : ∃ values, List.Forall₂ R items values := by
  induction items with
  | nil => exact ⟨[], .nil⟩
  | cons item items ih =>
      obtain ⟨⟨value, hvalue⟩, hitems⟩ := List.forall_mem_cons.mp h
      obtain ⟨values, hvalues⟩ := ih hitems
      exact ⟨value :: values, .cons hvalue hvalues⟩

section Array

variable {items : List Json} {written : List Written} {n : Nat}
  (h : List.Forall₂ (Spelled toDouble) items written) (hn : ∀ item ∈ items, item.levels ≤ n)
include h hn

theorem itemsToJson?_of_spelled : Written.itemsToJson? toDouble written n = some items := by
  induction h with
  | nil => rfl
  | cons hitem hmore ih =>
      obtain ⟨hlevel, hlevels⟩ := List.forall_mem_cons.mp hn
      simp only [Written.itemsToJson?, hitem.toJson? n hlevel, ih hlevels, Option.map_some]

theorem readsItem_of_spelled :
    List.Forall₂ (ReadsItem ']' (value? n)) (items.map compactChars) written := by
  induction h with
  | nil => exact .nil
  | cons hitem hmore ih =>
      obtain ⟨hlevel, hlevels⟩ := List.forall_mem_cons.mp hn
      refine .cons (fun c rest hc => ?_) (ih hlevels)
      exact hitem.reads n _ hlevel (endsNumber_cons rest (isNumeralChar_of_ends rfl hc))

end Array

theorem exists_spelled_array {items : List Json}
    (h : ∀ item ∈ items, ∃ written, Spelled toDouble item written) :
    ∃ written, Spelled toDouble (.array items) written := by
  obtain ⟨written, hwritten⟩ := exists_forall₂ h
  have hchars : compactChars (.array items)
      = '[' :: (joined (items.map compactChars) ++ [']']) := by
    rw [← compactItems_eq_joined]
    rfl
  refine ⟨.array written, ⟨'[', _, hchars, rfl, by decide⟩, fun n hn => ?_,
    fun depth rest hdepth _ => ?_⟩
  · match n with
    | 0 => cases hn
    | n + 1 =>
        rw [Written.toJson?, itemsToJson?_of_spelled hwritten (levels_array_le_iff.mp hn)]
        rfl
  · match depth with
    | 0 => cases hdepth
    | depth + 1 =>
        rw [hchars, List.cons_append, List.append_assoc]
        refine reads_array (reads_group (by decide) rfl
          (readsItem_of_spelled hwritten (levels_array_le_iff.mp hdepth)) ?_ rest)
        intro text htext
        obtain ⟨item, hitem, rfl⟩ := List.mem_map.mp htext
        obtain ⟨value, hvalue⟩ := h item hitem
        exact hvalue.begins

/-- The parts of a name and what is written for a value, for an entry. -/
structure SpelledEntry (toDouble : Numeral → Float) (entry : String × Json)
    (written : List StringPart × Written) : Prop where
  decode : decode? written.1 = some entry.1.toList
  readsName : ∀ rest, stringTail? (entry.1.toList.flatMap escapedChars ++ '"' :: rest)
    = some (written.1, rest)
  value : Spelled toDouble entry.2 written.2

section Object

variable {entries : List (String × Json)} {written : List (List StringPart × Written)} {n : Nat}
  (h : List.Forall₂ (SpelledEntry toDouble) entries written)
  (hn : ∀ entry ∈ entries, entry.2.levels ≤ n)
include h hn

theorem entriesToJson?_of_spelled :
    Written.entriesToJson? toDouble written n = some entries := by
  induction h with
  | nil => rfl
  | cons hentry hmore ih =>
      rename_i entry value _ _
      obtain ⟨name, json⟩ := entry
      obtain ⟨parts, value⟩ := value
      obtain ⟨hlevel, hlevels⟩ := List.forall_mem_cons.mp hn
      simp only [Written.entriesToJson?, Written.entryToJson?, hentry.decode,
        hentry.value.toJson? n hlevel, ih hlevels, Option.map_some, String.ofList_toList]

theorem readsItem_of_spelledEntry : List.Forall₂ (ReadsItem '\x7d' (namedValue? (value? n)))
    (entries.map entryChars) written := by
  induction h with
  | nil => exact .nil
  | cons hentry hmore ih =>
      rename_i entry value _ _
      obtain ⟨hlevel, hlevels⟩ := List.forall_mem_cons.mp hn
      refine .cons (fun c rest hc => ?_) (ih hlevels)
      rw [entryChars, List.append_assoc, List.cons_append]
      exact reads_namedValue hentry.readsName (hentry.value.reads n _ hlevel
        (endsNumber_cons rest (isNumeralChar_of_ends rfl hc)))

end Object

theorem exists_spelled_object {entries : List (String × Json)}
    (h : ∀ entry ∈ entries, ∃ written, Spelled toDouble entry.2 written) :
    ∃ written, Spelled toDouble (.object entries) written := by
  have hentries : ∀ entry ∈ entries, ∃ written, SpelledEntry toDouble entry written := by
    intro entry hentry
    obtain ⟨value, hvalue⟩ := h entry hentry
    obtain ⟨parts, hdecode, hparts⟩ := exists_parts entry.1.toList
    exact ⟨(parts, value), hdecode, hparts, hvalue⟩
  obtain ⟨written, hwritten⟩ := exists_forall₂ hentries
  have hchars : compactChars (.object entries)
      = '\x7b' :: (joined (entries.map entryChars) ++ ['\x7d']) := by
    rw [← compactEntries_eq_joined]
    rfl
  refine ⟨.object written, ⟨'\x7b', _, hchars, rfl, by decide⟩, fun n hn => ?_,
    fun depth rest hdepth _ => ?_⟩
  · match n with
    | 0 => cases hn
    | n + 1 =>
        rw [Written.toJson?, entriesToJson?_of_spelled hwritten (levels_object_le_iff.mp hn)]
        rfl
  · match depth with
    | 0 => cases hdepth
    | depth + 1 =>
        rw [hchars, List.cons_append, List.append_assoc]
        refine reads_object (reads_group (by decide) rfl
          (readsItem_of_spelledEntry hwritten (levels_object_le_iff.mp hdepth)) ?_ rest)
        intro text htext
        obtain ⟨entry, -, rfl⟩ := List.mem_map.mp htext
        exact ⟨'"', _, rfl, rfl, by decide⟩

/-- Something can be written for every legible tree. -/
theorem exists_spelled {json : Json} (h : json.Legible toDouble) :
    ∃ written, Spelled toDouble json written := by
  induction h with
  | null => exact ⟨_, spelled_null⟩
  | bool value => exact ⟨_, spelled_bool value⟩
  | integer hleast hgreatest =>
      obtain ⟨n, hchars, hwritten, hnumeral⟩ := exists_integer hleast hgreatest
      exact ⟨_, spelled_number hchars hwritten hnumeral⟩
  | double hfinite hvalue =>
      obtain ⟨n, hchars, hwritten, hnumeral⟩ := exists_double hfinite hvalue
      exact ⟨_, spelled_number ((if_pos hfinite).trans hchars) hwritten hnumeral⟩
  | string value => exact exists_spelled_string value
  | array hitems ih => exact exists_spelled_array ih
  | object hentries ih => exact exists_spelled_object ih

end Trees

/-! ## Documents -/

mutual

/-- A text has no fewer characters than the tree has levels. -/
theorem levels_le_length : (json : Json) → json.levels ≤ (compactChars json).length
  | .array items => by
      have := itemsLevels_le_length items
      simp only [levels, compactChars, List.length_cons, List.length_append]
      omega
  | .object entries => by
      have := entriesLevels_le_length entries
      simp only [levels, compactChars, List.length_cons, List.length_append]
      omega
  | .null => Nat.zero_le _
  | .bool _ => Nat.zero_le _
  | .integer _ => Nat.zero_le _
  | .double _ => Nat.zero_le _
  | .string _ => Nat.zero_le _
termination_by structural json => json

/-- The same for items. -/
theorem itemsLevels_le_length : (items : List Json) →
    itemsLevels items ≤ (compactItems items).length
  | [] => Nat.zero_le _
  | [item] => by
      have := levels_le_length item
      simpa [itemsLevels, compactItems] using this
  | item :: next :: items => by
      have := levels_le_length item
      have := itemsLevels_le_length (next :: items)
      rw [itemsLevels, compactItems, List.length_append, List.length_cons]
      · omega
      · exact List.cons_ne_nil _ _
termination_by structural items => items

/-- The same for entries. -/
theorem entriesLevels_le_length : (entries : List (String × Json)) →
    entriesLevels entries ≤ (compactEntries entries).length
  | [] => Nat.zero_le _
  | [(name, value)] => by
      have := levels_le_length value
      simp only [entriesLevels, compactEntries, List.length_append, List.length_cons]
      omega
  | (name, value) :: next :: entries => by
      have := levels_le_length value
      have := entriesLevels_le_length (next :: entries)
      rw [entriesLevels, compactEntries]
      · simp only [List.length_append, List.length_cons]
        omega
      · exact List.cons_ne_nil _ _
termination_by structural entries => entries

end

section Documents

variable {toDouble : Numeral → Float} {json : Json} {written : Written}

/-- What is written for a tree is found in its compact text. -/
theorem written?_compact_of_spelled (h : Spelled toDouble json written) :
    written? (compact json) = some written := by
  have hreads := h.reads _ [] (levels_le_length json) endsNumber_nil
  have htext : (compact json).toList = compactChars json := String.toList_ofList
  rw [List.append_nil, ← htext] at hreads
  obtain ⟨hshort, hread⟩ := hreads
  unfold written?
  simp only [hread, Option.bind_some]
  rfl

/-- The compact text of a legible tree is a document in which the tree is written. -/
theorem exists_written?_compact (h : json.Legible toDouble) :
    ∃ written, written? (compact json) = some written ∧ Spelled toDouble json written := by
  obtain ⟨written, hspelled⟩ := exists_spelled h
  exact ⟨written, written?_compact_of_spelled hspelled, hspelled⟩

/-- Reading the compact text of a legible tree gives the tree back, with the entries of its objects
in order. -/
theorem readWithin?_compact {limit : Nat} (h : json.Legible readDouble)
    (hlevels : json.levels ≤ limit) : readWithin? limit (compact json) = some json.sorted := by
  obtain ⟨written, hwritten, hspelled⟩ := exists_written?_compact h
  rw [readWithin?, hwritten, Option.bind_some, hspelled.toJson? limit hlevels, Option.map_some]

end Documents

/-- A double is read back from its text, if it is finite. -/
def Reproduced (x : Float) : Prop :=
  x.isFinite = true → read? (Json.double x).compact = some (.double x)

/-- A finite double is read back from a document of its own exactly if its numeral is rounded to
it. -/
theorem reproduced_iff {x : Float} (hfinite : x.isFinite = true) :
    Reproduced x ↔ Reproduces readDouble x := by
  obtain ⟨n, hchars, hwritten, hvalue, hnumeral⟩ := exists_numeral hfinite
  have hspelled : Spelled Numeral.toFloat (.double x) (.number n) := by
    refine spelled_number ((if_pos hfinite).trans hchars) hwritten ?_
    rw [hnumeral, hvalue, if_pos hfinite]
  have hread : read? (Json.double x).compact = (ofNumeral? readDouble n).map sorted := by
    rw [read?, readWithin?, written?_compact_of_spelled hspelled, Option.bind_some,
      Written.toJson?]
  rw [Reproduced, hread, hnumeral, reproduces_iff hchars hwritten]
  constructor
  · intro h
    obtain ⟨json, hjson, hsorted⟩ := Option.map_eq_some_iff.mp (h hfinite)
    split at hjson
    · obtain rfl := Option.some.inj hjson
      exact Json.double.inj hsorted
    · cases hjson
  · rintro h -
    rw [h, if_pos hfinite]
    rfl

/-- The double nearest to `0.9452706955539223` is read back as the next one. -/
example : ¬Reproduced (Float.ofBits 0x3FEE3FA85468AE3C) :=
  mt (reproduced_iff (by decide +kernel)).mp (by decide +kernel)

end Specimen.Json
