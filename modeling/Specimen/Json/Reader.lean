import Specimen.Json.Written
import Specimen.Radix
import Specimen.Taken

/-!
# Reading JSON text

`written?` accepts exactly the JSON grammar: no blanks but the four of the grammar, no leading
zeros, no raw control characters in strings, nothing after the value. `read?` gives the tree of a
document all of which has a meaning: no lone surrogates, no number too large for a double, and no
more than `nestingLimit` levels of arrays and objects. Numbers that are no integers in range are
rounded twice (`readDouble`). Of several entries under one name the last stays.
-/

namespace Specimen.Json

open Decimal (Numeral)

/-- The blanks of the grammar. -/
def isBlank (c : Char) : Bool :=
  c == ' ' || c == '\n' || c == '\t' || c == '\r'

/-- Drops blanks from the front. -/
def skipBlanks (input : List Char) : List Char :=
  input.dropWhile isBlank

/-- The value of four hexadecimal digits. -/
def hexQuad? (a b c d : Char) : Option Nat :=
  Radix.natOfDigits? 16 [a, b, c, d]

/-- The character that stands after a backslash for another one. -/
def simpleEscape? : Char → Option Char
  | '"' => some '"'
  | '\\' => some '\\'
  | '/' => some '/'
  | 'b' => some '\x08'
  | 'f' => some '\x0c'
  | 'n' => some '\n'
  | 'r' => some '\r'
  | 't' => some '\t'
  | _ => none

/-- The parts of a string up to its closing quote, and what follows the quote. -/
def stringTail? : List Char → Option (List StringPart × List Char)
  | [] => none
  | '"' :: rest => some ([], rest)
  | '\\' :: 'u' :: a :: b :: c :: d :: rest =>
      match hexQuad? a b c d with
      | none => none
      | some unit => (stringTail? rest).map fun (parts, rest) => (.unit unit :: parts, rest)
  | '\\' :: c :: rest =>
      match simpleEscape? c with
      | none => none
      | some c => (stringTail? rest).map fun (parts, rest) => (.char c :: parts, rest)
  | c :: rest =>
      if c == '\\' || c.toNat < 32 then none
      else (stringTail? rest).map fun (parts, rest) => (.char c :: parts, rest)

theorem stringTail?_shorter {input rest : List Char} {parts : List StringPart}
    (h : stringTail? input = some (parts, rest)) : rest.length < input.length := by
  fun_induction stringTail? input generalizing parts rest <;>
    simp_all only [Option.map_eq_some_iff, Prod.exists, Prod.mk.injEq, reduceCtorEq,
      Option.some.injEq, List.length_cons]
  all_goals first
    | (obtain ⟨-, rfl⟩ := h; omega)
    | (rename_i ih
       obtain ⟨_, _, htail, -, rfl⟩ := h
       have := ih htail
       omega)

/-- The parts of a text that is a number as a whole. A number has digits before its point, no
needless zero at its start, and digits after its point. -/
def numeral? (text : List Char) : Option Numeral :=
  (Decimal.numeral? text).bind fun n =>
    if (n.whole.head? == some '0' && n.whole.length != 1) || n.fraction == some [] then none
    else some n

/-- The characters of numbers. No other part of the grammar that can follow a number starts with
one of them, so a number ends exactly where a run of them ends. -/
def isNumeralChar (c : Char) : Bool :=
  c.isDigit || c == '-' || c == '+' || c == '.' || c == 'e' || c == 'E'

/-- The rest after a fixed word. -/
def afterWord? : (word input : List Char) → Option (List Char)
  | [], input => some input
  | _ :: _, [] => none
  | w :: word, c :: input => if w = c then afterWord? word input else none

theorem afterWord?_le {word input rest : List Char}
    (h : afterWord? word input = some rest) : rest.length ≤ input.length := by
  induction word generalizing input with
  | nil => simp_all [afterWord?]
  | cons w word ih =>
      cases input with
      | nil => simp [afterWord?] at h
      | cons c input =>
          simp only [afterWord?] at h
          split at h
          · have := ih h
            simp only [List.length_cons]
            omega
          · simp at h

theorem length_skipBlanks_le (input : List Char) :
    (skipBlanks input).length ≤ input.length :=
  length_dropWhile_le isBlank input

/-- A number at the front. -/
def numberAt? (c : Char) (rest : List Char) : Option (Taken (c :: rest) Written) :=
  if isNumeralChar c then
    (numeral? (c :: rest.takeWhile isNumeralChar)).map fun numeral =>
      ⟨.number numeral, rest.dropWhile isNumeralChar,
        Nat.lt_succ_of_le (length_dropWhile_le isNumeralChar rest)⟩
  else none

/-- A value that is neither an array nor an object, at the front. -/
def scalarAt? (c : Char) (rest : List Char) : Option (Taken (c :: rest) Written) :=
  match c with
  | '"' =>
      match h : stringTail? rest with
      | none => none
      | some (parts, rest) =>
          some ⟨.string parts, rest, Nat.lt_succ_of_lt (stringTail?_shorter h)⟩
  | 'n' => word ['u', 'l', 'l'] .null
  | 't' => word ['r', 'u', 'e'] (.bool true)
  | 'f' => word ['a', 'l', 's', 'e'] (.bool false)
  | c => numberAt? c rest
where
  /-- The value of a fixed word whose first character has been used. -/
  word {c : Char} {rest : List Char} (tail : List Char) (value : Written) :
      Option (Taken (c :: rest) Written) :=
    match h : afterWord? tail rest with
    | none => none
    | some rest => some ⟨value, rest, Nat.lt_succ_of_le (afterWord?_le h)⟩

/-- One item and, as long as commas follow, further ones, up to the closing character. -/
def itemsUntil? {α : Type} (close : Char)
    (item? : (input : List Char) → Option (Taken input α)) (input : List Char) :
    Option (Taken input (List α)) :=
  match item? input with
  | none => none
  | some first =>
      match h : skipBlanks first.rest with
      | [] => none
      | c :: rest =>
          have shorter : rest.length < input.length := by
            have := length_skipBlanks_le first.rest
            have := first.shorter
            simp only [h, List.length_cons] at *
            omega
          if c = ',' then
            match itemsUntil? close item? rest with
            | none => none
            | some more =>
                some ⟨first.value :: more.value, more.rest, Nat.lt_trans more.shorter shorter⟩
          else if c = close then some ⟨[first.value], rest, shorter⟩
          else none
termination_by input.length

/-- The items between an opening character, which has been used, and the closing one. -/
def group? {α : Type} (close : Char)
    (item? : (input : List Char) → Option (Taken input α)) (input : List Char) :
    Option (Taken input (List α)) :=
  match h : skipBlanks input with
  | [] => none
  | c :: rest =>
      have shorter : rest.length < input.length := by
        have := length_skipBlanks_le input
        simp only [h, List.length_cons] at *
        omega
      if c = close then some ⟨[], rest, shorter⟩ else itemsUntil? close item? input

/-- A name, a colon and a value. -/
def namedValue? (value? : (input : List Char) → Option (Taken input Written))
    (input : List Char) : Option (Taken input (List StringPart × Written)) :=
  match h : skipBlanks input with
  | '"' :: rest =>
      match hname : stringTail? rest with
      | none => none
      | some (name, rest) =>
          match hcolon : skipBlanks rest with
          | ':' :: rest =>
              (value? rest).map fun value =>
                (value.map fun value => (name, value)).widen (by
                  have := length_skipBlanks_le input
                  have := stringTail?_shorter hname
                  rename_i outer _
                  have := length_skipBlanks_le outer
                  simp only [h, hcolon, List.length_cons] at *
                  omega)
          | _ => none
  | _ => none

/-- A value at the front, blanks before it included, with at most `depth` levels of arrays and
objects. -/
def value? : (depth : Nat) → (input : List Char) → Option (Taken input Written)
  | depth, input =>
      match h : skipBlanks input with
      | [] => none
      | c :: rest =>
          have shorter : (c :: rest).length ≤ input.length := h ▸ length_skipBlanks_le input
          match depth with
          | 0 => if c = '[' ∨ c = '\x7b' then none else (scalarAt? c rest).map (·.widen shorter)
          | depth + 1 =>
              if c = '[' then
                (group? ']' (value? depth) rest).map fun items =>
                  (items.map Written.array).widen (Nat.le_of_succ_le shorter)
              else if c = '\x7b' then
                (group? '\x7d' (namedValue? (value? depth)) rest).map fun entries =>
                  (entries.map Written.object).widen (Nat.le_of_succ_le shorter)
              else (scalarAt? c rest).map (·.widen shorter)

/-- The written value of a text that is one JSON document. A text has no more levels than
characters. -/
def written? (text : String) : Option Written :=
  let input := text.toList
  (value? input.length input).bind fun value =>
    if (skipBlanks value.rest).isEmpty then some value.value else none

/-- The value of a text that is one JSON document with at most `limit` levels. -/
def readWithin? (limit : Nat) (text : String) : Option Json :=
  (written? text).bind fun written => (written.toJson? readDouble limit).map sorted

/-- The value of a text that is one JSON document. -/
def read? (text : String) : Option Json :=
  readWithin? nestingLimit text

end Specimen.Json
