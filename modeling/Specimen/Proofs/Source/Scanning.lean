import Specimen.Proofs.Source.Lexing

/-!
# Texts that scan to given tokens

`Lexes text shapes next` says that a text, before any character that `next` accepts, is scanned to
tokens of the given kinds and texts. Texts are put together by `Lexes.append`, so what is scanned
from a document is found part by part, without a look at offsets and gaps.
-/

namespace Specimen.Source

/-- A token without its place: its kind and its text. -/
abbrev Shape : Type := TokenKind × List Char

/-- The shape of a token. -/
def Token.shape (token : Token) : Shape :=
  (token.kind, token.text)

/-- The shape of a name. -/
def wordShape (text : List Char) : Shape :=
  (wordKind text, text)

/-- The shape of a mark. -/
def markShape (mark : Mark) : Shape :=
  (.mark mark, mark.text.toList)

/-- The shape of a quoted text. -/
def quoteShape (text : List Char) : Shape :=
  (.string, quote text)

/-- Before a character that `next` accepts, and at the end of the document, the text is scanned to
tokens of the given shapes. -/
def Lexes (text : List Char) (shapes : List Shape) (next : Char → Bool) : Prop :=
  ∀ rest, (∀ c ∈ rest.head?, next c = true) → ∀ offset gap, ∃ tokens offset' gap',
    tokens.map Token.shape = shapes
      ∧ (scan offset gap (text ++ rest)).tokens = tokens ++ (scan offset' gap' rest).tokens

/-- The text begins with a character that `next` accepts. -/
def BeginsWith (next : Char → Bool) (text : List Char) : Prop :=
  text.head?.any next = true

theorem BeginsWith.append {next : Char → Bool} {text : List Char} (h : BeginsWith next text)
    (more : List Char) : BeginsWith next (text ++ more) := by
  cases text with
  | nil => cases h
  | cons c text => exact h

theorem BeginsWith.mono {next next' : Char → Bool} {text : List Char} (h : BeginsWith next text)
    (himp : ∀ c, next c = true → next' c = true) : BeginsWith next' text := by
  cases text with
  | nil => cases h
  | cons c text => exact himp c h

theorem BeginsWith.accepts {next : Char → Bool} {text : List Char} (h : BeginsWith next text)
    (rest : List Char) : ∀ c ∈ (text ++ rest).head?, next c = true := by
  cases text with
  | nil => cases h
  | cons c text =>
      intro d hd
      cases hd
      exact h

namespace Lexes

theorem nil (next : Char → Bool) : Lexes [] [] next := by
  intro rest _ offset gap
  exact ⟨[], offset, gap, rfl, rfl⟩

theorem append {text text' : List Char} {shapes shapes' : List Shape} {next next' : Char → Bool}
    (h : Lexes text shapes next) (h' : Lexes text' shapes' next')
    (hnext : BeginsWith next text') : Lexes (text ++ text') (shapes ++ shapes') next' := by
  intro rest hrest offset gap
  obtain ⟨tokens, offset₁, gap₁, hshapes, hscan⟩ :=
    h (text' ++ rest) (hnext.accepts rest) offset gap
  obtain ⟨tokens', offset₂, gap₂, hshapes', hscan'⟩ := h' rest hrest offset₁ gap₁
  refine ⟨tokens ++ tokens', offset₂, gap₂, ?_, ?_⟩
  · rw [List.map_append, hshapes, hshapes']
  · rw [List.append_assoc, hscan, hscan', List.append_assoc]

theorem mono {text : List Char} {shapes : List Shape} {next next' : Char → Bool}
    (h : Lexes text shapes next) (himp : ∀ c, next' c = true → next c = true) :
    Lexes text shapes next' := by
  intro rest hrest
  exact h rest fun c hc => himp c (hrest c hc)

/-- Texts of a list, one after the other. -/
theorem flatMap {α : Type} {text : α → List Char} {shapes : α → List Shape} {next : Char → Bool}
    {items : List α} (h : ∀ item ∈ items, Lexes (text item) (shapes item) next)
    (hnext : ∀ item ∈ items, BeginsWith next (text item)) :
    Lexes (items.flatMap text) (items.flatMap shapes) next := by
  induction items with
  | nil => exact nil next
  | cons item items ih =>
      have hitem := h item List.mem_cons_self
      have hitems := ih (fun other hother => h other (List.mem_cons_of_mem _ hother))
        (fun other hother => hnext other (List.mem_cons_of_mem _ hother))
      rw [List.flatMap_cons, List.flatMap_cons]
      cases items with
      | nil => simpa using hitem
      | cons other items =>
          apply hitem.append hitems
          rw [List.flatMap_cons]
          exact (hnext other (by simp)).append _

theorem of_pieceAt {first : Char} {more : List Char} {kind : TokenKind} {next : Char → Bool}
    (h : ∀ rest, (∀ c ∈ rest.head?, next c = true) →
      pieceAt first (more ++ rest) = (some kind, more.length)) :
    Lexes (first :: more) [(kind, first :: more)] next := by
  intro rest hrest offset gap
  refine ⟨[⟨kind, gap, first :: more, offset⟩], offset + byteSize (first :: more), [], rfl, ?_⟩
  rw [List.cons_append, scan, h rest hrest]
  simp

theorem word {text : List Char} (h : isIdentifier text = true) :
    Lexes text [wordShape text] fun c => !Pattern.isNamePart c := by
  cases text with
  | nil => cases h
  | cons first more =>
      apply of_pieceAt
      intro rest hrest
      apply pieceAt_word h
      intro c hc
      simpa using hrest c hc

theorem keyword (word : Keyword) :
    Lexes word.text.toList [(.keyword word, word.text.toList)] fun c => !Pattern.isNamePart c := by
  have hkind : wordShape word.text.toList = (.keyword word, word.text.toList) := by
    cases word <;> rfl
  rw [← hkind]
  exact Lexes.word (isIdentifier_keyword word)

theorem mark (mark : Mark) {c : Char} (htext : mark.text.toList = [c]) (hc : c ∈ markStarts) :
    Lexes [c] [markShape mark] fun d => !lengthens c d := by
  rw [markShape, htext]
  apply of_pieceAt
  intro rest hrest
  apply pieceAt_mark htext hc
  intro d hd
  simpa using hrest d hd

/-- A mark that no character makes a longer mark of. -/
theorem plainMark (mark : Mark) {c : Char} (htext : mark.text.toList = [c])
    (hc : (markStarts.contains c && c != '=' && c != '.') = true) :
    Lexes [c] [markShape mark] fun _ => true := by
  simp only [Bool.and_eq_true, bne_iff_ne, List.contains_iff_mem] at hc
  refine (Lexes.mark mark htext hc.1.1).mono ?_
  intro d _
  simp [lengthens, hc.1.2, hc.2]

theorem quote (text : List Char) : Lexes (quote text) [quoteShape text] fun _ => true := by
  apply of_pieceAt
  intro rest _
  exact pieceAt_quote text rest

theorem whole (negative : Bool) (n : Nat) :
    Lexes (Decimal.wholeChars negative n) [(.number, Decimal.wholeChars negative n)]
      fun c => !isNumberPart c := by
  cases hchars : Decimal.wholeChars negative n with
  | nil => exact absurd hchars (Decimal.wholeChars_ne_nil negative n)
  | cons first more =>
      apply of_pieceAt
      intro rest hrest
      apply pieceAt_whole hchars
      intro c hc
      simpa using hrest c hc

theorem blanks {text : List Char} (h : text.all Pattern.isBlank = true) :
    Lexes text [] fun c => !Pattern.isBlank c := by
  cases text with
  | nil => exact nil _
  | cons first more =>
      intro rest hrest offset gap
      refine ⟨[], offset + byteSize (first :: more), gap ++ first :: more, rfl, ?_⟩
      have hpiece : pieceAt first (more ++ rest) = (none, more.length) := by
        apply pieceAt_blanks (List.all_eq_true.mp h)
        intro c hc
        simpa using hrest c hc
      rw [List.cons_append, scan, hpiece]
      simp

/-- A document that is such a text consists of tokens of the given shapes. -/
theorem shapes_ofText {text : List Char} {shapes : List Shape} {next : Char → Bool}
    (h : Lexes text shapes next) : (Tokens.ofText text).tokens.map Token.shape = shapes := by
  obtain ⟨tokens, offset, gap, hshapes, hscan⟩ := h [] (by simp) 0 []
  rw [List.append_nil] at hscan
  rw [Tokens.ofText, hscan, scan, List.append_nil, hshapes]

end Lexes

/-! ## Tokens of given shapes -/

/-- The tokens begin with tokens of the given shapes, and then comes `rest`. -/
def Spells (shapes : List Shape) (ts rest : List Token) : Prop :=
  ∃ tokens, ts = tokens ++ rest ∧ tokens.map Token.shape = shapes

namespace Spells

theorem nil_iff {ts rest : List Token} : Spells [] ts rest ↔ ts = rest := by
  constructor
  · rintro ⟨tokens, rfl, hshapes⟩
    rw [List.map_eq_nil_iff.mp hshapes, List.nil_append]
  · rintro rfl
    exact ⟨[], rfl, rfl⟩

theorem cons_iff {kind : TokenKind} {text : List Char} {shapes : List Shape}
    {ts rest : List Token} :
    Spells ((kind, text) :: shapes) ts rest ↔
      ∃ token after, ts = token :: after ∧ token.kind = kind ∧ token.text = text
        ∧ Spells shapes after rest := by
  constructor
  · rintro ⟨tokens, rfl, hshapes⟩
    obtain ⟨token, tokens, rfl, htoken, htokens⟩ := List.map_eq_cons_iff.mp hshapes
    obtain ⟨hkind, htext⟩ := Prod.mk.inj htoken
    exact ⟨token, tokens ++ rest, rfl, hkind, htext, tokens, rfl, htokens⟩
  · rintro ⟨token, after, rfl, rfl, rfl, tokens, rfl, rfl⟩
    exact ⟨token :: tokens, rfl, rfl⟩

theorem append_iff {shapes shapes' : List Shape} {ts rest : List Token} :
    Spells (shapes ++ shapes') ts rest ↔ ∃ middle, Spells shapes ts middle
      ∧ Spells shapes' middle rest := by
  constructor
  · rintro ⟨tokens, rfl, hshapes⟩
    obtain ⟨first, second, rfl, hfirst, hsecond⟩ := List.map_eq_append_iff.mp hshapes
    exact ⟨second ++ rest, ⟨first, List.append_assoc .., hfirst⟩, second, rfl, hsecond⟩
  · rintro ⟨middle, ⟨first, rfl, rfl⟩, second, rfl, rfl⟩
    exact ⟨first ++ second, (List.append_assoc ..).symm, List.map_append⟩

end Spells

theorem Lexes.spells_ofText {text : List Char} {shapes : List Shape} {next : Char → Bool}
    (h : Lexes text shapes next) : Spells shapes (Tokens.ofText text).tokens [] :=
  ⟨_, (List.append_nil _).symm, h.shapes_ofText⟩

end Specimen.Source
