import Specimen.Radix
import Specimen.Taken

/-!
# Blanks and quoted texts in settings

The characters between the words of a TOML document, and its four kinds of quoted text: with
escapes or as they stand, on one line or on several. Each reader of a quoted text starts behind the
opening quotes and uses the closing ones.
-/

namespace Specimen.Toml

/-- The blanks inside a line. -/
def isBlank (c : Char) : Bool :=
  c == ' ' || c == '\t'

/-- Drops blanks from the front. -/
def skipBlanks (input : List Char) : List Char :=
  input.dropWhile isBlank

theorem length_skipBlanks_le (input : List Char) : (skipBlanks input).length ≤ input.length :=
  length_dropWhile_le isBlank input

/-- The character may stand in a comment and between quotes: no control characters but tabs. -/
def isPlain (c : Char) : Bool :=
  c == '\t' || (decide (32 ≤ c.toNat) && c.toNat != 127)

/-- What follows the end of a line. -/
def afterNewline? : List Char → Option (List Char)
  | '\n' :: rest => some rest
  | '\r' :: '\n' :: rest => some rest
  | _ => none

theorem afterNewline?_shorter {input rest : List Char} (h : afterNewline? input = some rest) :
    rest.length < input.length := by
  unfold afterNewline? at h
  split at h
  · simp only [Option.some.injEq] at h
    simp only [h, List.length_cons]
    omega
  · simp only [Option.some.injEq] at h
    simp only [h, List.length_cons]
    omega
  · simp only [reduceCtorEq] at h

/-- What follows a comment, if there is one. -/
def afterComment : List Char → List Char
  | '#' :: rest => rest.dropWhile isPlain
  | rest => rest

theorem length_afterComment_le (input : List Char) :
    (afterComment input).length ≤ input.length := by
  unfold afterComment
  split
  · exact Nat.le_succ_of_le (length_dropWhile_le isPlain _)
  · exact Nat.le_refl _

theorem shorter_of_afterNewline? {input rest : List Char}
    (h : afterNewline? (afterComment (skipBlanks input)) = some rest) :
    rest.length < input.length :=
  Nat.lt_of_lt_of_le (afterNewline?_shorter h)
    (Nat.le_trans (length_afterComment_le (skipBlanks input)) (length_skipBlanks_le input))

/-- Drops blanks, comments and ends of lines from the front. -/
def skipLines (input : List Char) : List Char :=
  match h : afterNewline? (afterComment (skipBlanks input)) with
  | none => skipBlanks input
  | some rest =>
      have := shorter_of_afterNewline? h
      skipLines rest
termination_by input.length
decreasing_by exact this

theorem length_skipLines_le (input : List Char) : (skipLines input).length ≤ input.length := by
  fun_induction skipLines input with
  | case1 input h => exact length_skipBlanks_le input
  | case2 input rest h _ ih => exact Nat.le_trans ih (Nat.le_of_lt (shorter_of_afterNewline? h))

/-- What follows a statement: blanks, perhaps a comment, and the end of the line or of the text. -/
def afterStatement? (input : List Char) : Option (List Char) :=
  match afterComment (skipBlanks input) with
  | [] => some []
  | c :: rest => afterNewline? (c :: rest)

theorem length_afterStatement?_le {input rest : List Char}
    (h : afterStatement? input = some rest) : rest.length ≤ input.length := by
  have := length_afterComment_le (skipBlanks input)
  have := length_skipBlanks_le input
  unfold afterStatement? at h
  split at h
  · simp_all
  · rename_i hafter
    have := afterNewline?_shorter h
    rw [← hafter] at this
    omega

theorem length_drop_le (count : Nat) (input : List Char) :
    (input.drop count).length ≤ input.length := by
  simp only [List.length_drop]
  omega

/-! ## Escapes -/

/-- The character that a letter behind a backslash stands for. -/
def letterEscape? : Char → Option Char
  | 'b' => some '\x08'
  | 't' => some '\t'
  | 'n' => some '\n'
  | 'f' => some '\x0c'
  | 'r' => some '\r'
  | '"' => some '"'
  | '\\' => some '\\'
  | _ => none

/-- How many hexadecimal digits follow a letter behind a backslash. -/
def digitCount? : Char → Option Nat
  | 'u' => some 4
  | 'U' => some 8
  | _ => none

/-- The character of an escape behind its backslash. -/
def escape? : (input : List Char) → Option (Taken input Char)
  | [] => none
  | c :: rest =>
      match digitCount? c with
      | none => (letterEscape? c).map fun meant => .one c rest meant
      | some count =>
          let digits := rest.take count
          if digits.length = count then
            ((Radix.natOfDigits? 16 digits).bind Radix.character?).map fun meant =>
              (Taken.one c rest meant).skipping (List.drop count) (length_drop_le count)
          else none

/-! ## Quoted texts -/

/-- A text on one line, with escapes, up to its closing quote. -/
def basicTail? (input : List Char) : Option (Taken input (List Char)) :=
  match input with
  | [] => none
  | c :: rest =>
      if c = '"' then some (.one c rest [])
      else if c = '\\' then
        match escape? rest with
        | none => none
        | some meant =>
            (basicTail? meant.rest).map fun tail =>
              ((meant.andThen tail).map (meant.value :: ·)).behind c
      else if isPlain c then (basicTail? rest).map fun tail => (tail.map (c :: ·)).behind c
      else none
termination_by input.length
decreasing_by
  · exact Nat.lt_trans meant.shorter (length_lt_cons c rest)
  · exact length_lt_cons c rest

/-- A text on one line, as it stands, up to its closing quote. -/
def literalTail? : (input : List Char) → Option (Taken input (List Char))
  | [] => none
  | c :: rest =>
      if c = '\'' then some (.one c rest [])
      else if isPlain c then (literalTail? rest).map fun tail => (tail.map (c :: ·)).behind c
      else none

/-- How many quotes stand at the front. -/
def quoteCount (quote : Char) (input : List Char) : Nat :=
  (input.takeWhile (· == quote)).length

theorem quoteCount_le (quote : Char) (input : List Char) :
    quoteCount quote input ≤ input.length :=
  (List.takeWhile_prefix _).length_le

/-- The end of a text on several lines: three quotes, behind up to two that belong to the text. -/
def closing? (quote : Char) (input : List Char) : Option (Taken input (List Char)) :=
  let used := min (quoteCount quote input) 5
  if h : 3 ≤ used then
    some ⟨List.replicate (used - 3) quote, input.drop used, by
      have := quoteCount_le quote input
      simp only [List.length_drop]
      omega⟩
  else none

/-- Drops blanks and ends of lines from the front. -/
def skipWhite : List Char → List Char
  | ' ' :: rest => skipWhite rest
  | '\t' :: rest => skipWhite rest
  | '\n' :: rest => skipWhite rest
  | '\r' :: '\n' :: rest => skipWhite rest
  | rest => rest

theorem length_skipWhite_le (input : List Char) : (skipWhite input).length ≤ input.length := by
  fun_induction skipWhite input <;> simp_all <;> omega

/-- What follows a backslash at the end of a line: everything from the next character on that is no
white space. -/
def afterBreak? (input : List Char) : Option (List Char) :=
  (afterNewline? (skipBlanks input)).map skipWhite

theorem afterBreak?_shorter {input rest : List Char} (h : afterBreak? input = some rest) :
    rest.length < input.length := by
  obtain ⟨next, hnext, rfl⟩ := Option.map_eq_some_iff.mp h
  have := afterNewline?_shorter hnext
  have := length_skipBlanks_le input
  have := length_skipWhite_le next
  omega

/-- A text on several lines, with escapes, up to its closing quotes. -/
def longBasicTail? (input : List Char) : Option (Taken input (List Char)) :=
  match closing? '"' input with
  | some closed => some closed
  | none =>
      match input with
      | [] => none
      | c :: rest =>
          match hline : afterNewline? (c :: rest) with
          | some next =>
              have hnext := afterNewline?_shorter hline
              (longBasicTail? next).map fun tail => (tail.map ('\n' :: ·)).inside hnext
          | none =>
              if c = '\\' then
                match hbreak : afterBreak? rest with
                | some next =>
                    have hnext := afterBreak?_shorter hbreak
                    (longBasicTail? next).map fun tail => (tail.inside hnext).behind c
                | none =>
                    match escape? rest with
                    | none => none
                    | some meant =>
                        (longBasicTail? meant.rest).map fun tail =>
                          ((meant.andThen tail).map (meant.value :: ·)).behind c
              else if isPlain c then
                (longBasicTail? rest).map fun tail => (tail.map (c :: ·)).behind c
              else none
termination_by input.length
decreasing_by
  · exact hnext
  · exact Nat.lt_trans hnext (length_lt_cons c rest)
  · exact Nat.lt_trans meant.shorter (length_lt_cons c rest)
  · exact length_lt_cons c rest

/-- A text on several lines, as it stands, up to its closing quotes. -/
def longLiteralTail? (input : List Char) : Option (Taken input (List Char)) :=
  match closing? '\'' input with
  | some closed => some closed
  | none =>
      match input with
      | [] => none
      | c :: rest =>
          match hline : afterNewline? (c :: rest) with
          | some next =>
              have hnext := afterNewline?_shorter hline
              (longLiteralTail? next).map fun tail => (tail.map ('\n' :: ·)).inside hnext
          | none =>
              if isPlain c then
                (longLiteralTail? rest).map fun tail => (tail.map (c :: ·)).behind c
              else none
termination_by input.length
decreasing_by
  · exact hnext
  · exact length_lt_cons c rest

/-- What follows the end of the line, if the line ends here. -/
def dropNewline (input : List Char) : List Char :=
  (afterNewline? input).getD input

theorem length_dropNewline_le (input : List Char) : (dropNewline input).length ≤ input.length := by
  unfold dropNewline
  cases h : afterNewline? input with
  | none => simp
  | some rest => exact Nat.le_of_lt (afterNewline?_shorter h)

/-- A text on several lines behind its opening quotes. The end of a line right behind them is not
part of it. -/
def longTail? (tail? : (input : List Char) → Option (Taken input (List Char)))
    (input : List Char) : Option (Taken input (List Char)) :=
  (tail? (dropNewline input)).map fun tail => tail.widen (length_dropNewline_le input)

/-- A quoted text of any kind. -/
def quoted? : (input : List Char) → Option (Taken input (List Char))
  | '"' :: '"' :: '"' :: rest =>
      (longTail? longBasicTail? rest).map fun text => ((text.behind '"').behind '"').behind '"'
  | '\'' :: '\'' :: '\'' :: rest =>
      (longTail? longLiteralTail? rest).map fun text =>
        ((text.behind '\'').behind '\'').behind '\''
  | '"' :: rest => (basicTail? rest).map fun text => text.behind '"'
  | '\'' :: rest => (literalTail? rest).map fun text => text.behind '\''
  | _ => none

end Specimen.Toml
