import Specimen.Source.Token

/-!
# From text to tokens

`scan` splits a document into tokens and the gaps between them. At each place the longest text
counts that one of the `rules` stands for; of two rules with equally long texts the earlier one.

Three things lie outside the rules. A block comment goes on to the first `*/`; without one the whole
rest is a token of its own kind. A quote without an end is an unrecognized token up to the first
character that cannot stand in a quoted text. Any other character that no rule accepts is an
unrecognized token by itself.
-/

namespace Specimen.Source

/-- The rule with the longest text at the front of the input, with the length of the text. -/
def longestRule? (input : List Char) : List (Piece × Pattern) → Option (Piece × Nat)
  | [] => none
  | (piece, pattern) :: rest =>
      match pattern.longest? input, longestRule? input rest with
      | none, later => later
      | some length, none => some (piece, length)
      | some length, some later =>
          if later.2 ≤ length then some (piece, length) else some later

/-- The length of a block comment after its start, if it has an end. -/
def commentLength? : List Char → Option Nat
  | '*' :: '/' :: _ => some 2
  | _ :: rest => (commentLength? rest).map (· + 1)
  | [] => none

/-- The length of what can stand after an opening quote. -/
def unclosedLength (quote : Char) : List Char → Nat
  | [] => 0
  | ['\\'] => 0
  | '\\' :: c :: rest => if c = '\n' then 0 else unclosedLength quote rest + 2
  | c :: rest => if c = '\n' ∧ quote ≠ '`' then 0 else unclosedLength quote rest + 1

/-- The length of an unrecognized token after its first character. -/
def unrecognizedLength (first : Char) (rest : List Char) : Nat :=
  if first = '"' ∨ first = '\'' ∨ first = '`' then unclosedLength first rest else 0

/-- What stands at the front of an input: a token, or `none` for a gap; and how many characters it
has after the first one. -/
def pieceAt (first : Char) (rest : List Char) : Option TokenKind × Nat :=
  match longestRule? (first :: rest) rules with
  | some (.token kind, length + 1) => (some kind, length)
  | some (.blank, length + 1) => (none, length)
  | some (.openComment, length + 1) =>
      match commentLength? (rest.drop length) with
      | some more => (none, length + more)
      | none => (some .unclosedComment, rest.length)
  | _ => (some .unrecognized, unrecognizedLength first rest)

/-- The tokens of a document, and the gap after the last of them. -/
structure Tokens where
  tokens : List Token
  tail : List Char

/-- Splits an input that stands at byte `offset` after the gap `gap`. -/
def scan (offset : Nat) (gap : List Char) : (input : List Char) → Tokens
  | [] => ⟨[], gap⟩
  | first :: rest =>
      let (kind?, length) := pieceAt first rest
      let text := first :: rest.take length
      let after := rest.drop length
      match kind? with
      | none => scan (offset + byteSize text) (gap ++ text) after
      | some kind =>
          let later := scan (offset + byteSize text) [] after
          ⟨⟨kind, gap, text, offset⟩ :: later.tokens, later.tail⟩
termination_by input => input.length
decreasing_by
  all_goals simp only [List.length_drop, List.length_cons]; omega

/-- The tokens of a document. -/
def Tokens.ofText (text : List Char) : Tokens :=
  scan 0 [] text

/-- The text that tokens and gaps make up. -/
def Tokens.text (document : Tokens) : List Char :=
  (document.tokens.flatMap fun token => token.gap ++ token.text) ++ document.tail

theorem text_scan (offset : Nat) (gap input : List Char) :
    (scan offset gap input).text = gap ++ input := by
  fun_induction scan offset gap input with
  | case1 => simp [Tokens.text]
  | case2 offset gap first rest length text after hpiece ih =>
      rw [ih, List.append_assoc]
      simp [text, after]
  | case3 offset gap first rest length text after kind hpiece later ih =>
      simp only [Tokens.text, List.flatMap_cons, List.append_assoc] at *
      rw [ih]
      simp [text, after]

/-- Nothing is lost: tokens and gaps make up the document. -/
theorem text_ofText (text : List Char) : (Tokens.ofText text).text = text := by
  simp [Tokens.ofText, text_scan]

end Specimen.Source
