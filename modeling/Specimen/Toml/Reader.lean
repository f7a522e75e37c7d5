import Specimen.Pieces
import Specimen.Toml.Basic
import Specimen.Toml.Text

/-!
# Reading settings

`Toml.read?` reads a TOML document as a table. Of the plain values it knows integers and truth
values: settings have no use for fractions and dates, nor for lists of tables, and a document with
one of them is refused as a whole.
-/

namespace Specimen.Toml

/-! ## Plain values -/

/-- An integer, unless it is out of range. -/
def ofInt? (n : Int) : Option Toml :=
  if Int64.minValue.toInt ≤ n ∧ n ≤ Int64.maxValue.toInt then some (.integer n) else none

/-- Digits of a base, with single underscores between them where one likes. -/
def spacedDigits? (base : Nat) (text : List Char) : Option Nat :=
  let groups := pieces '_' text
  if groups.any List.isEmpty then none else Radix.natOfDigits? base groups.flatten

/-- Decimal digits without a needless zero at their start. -/
def decimal? (text : List Char) : Option Nat :=
  if text.head? = some '0' ∧ text.length ≠ 1 then none else spacedDigits? 10 text

/-- An integer: decimal with a sign or without, or hexadecimal, octal or binary behind a mark. -/
def integer? : List Char → Option Int
  | '0' :: 'x' :: digits => (spacedDigits? 16 digits).map Int.ofNat
  | '0' :: 'o' :: digits => (spacedDigits? 8 digits).map Int.ofNat
  | '0' :: 'b' :: digits => (spacedDigits? 2 digits).map Int.ofNat
  | '+' :: digits => (decimal? digits).map Int.ofNat
  | '-' :: digits => (decimal? digits).map fun n => -(n : Int)
  | digits => (decimal? digits).map Int.ofNat

/-- A value that is written as a word. -/
def word? (text : List Char) : Option Toml :=
  if text = ['t', 'r', 'u', 'e'] then some (.boolean true)
  else if text = ['f', 'a', 'l', 's', 'e'] then some (.boolean false)
  else (integer? text).bind ofInt?

/-- The characters of keys without quotes. -/
def isKeyChar (c : Char) : Bool :=
  c.isAlphanum || c == '_' || c == '-'

/-- The characters of words. Nothing that may follow a word starts with one of them, so a word
ends exactly where a run of them ends. -/
def isWordChar (c : Char) : Bool :=
  isKeyChar c || c == '+' || c == '.' || c == ':'

/-- A run of characters at the front that is not empty. -/
def run? (p : Char → Bool) : (input : List Char) → Option (Taken input (List Char))
  | [] => none
  | c :: rest =>
      if p c then
        some ((Taken.one c rest (c :: rest.takeWhile p)).skipping (List.dropWhile p)
          (length_dropWhile_le p))
      else none

/-! ## Keys -/

/-- One name of a key: a quoted text on one line, or a run of key characters. -/
def keyName? : (input : List Char) → Option (Taken input (List Char))
  | '"' :: rest => (basicTail? rest).map fun name => name.behind '"'
  | '\'' :: rest => (literalTail? rest).map fun name => name.behind '\''
  | input => run? isKeyChar input

/-- A name of a key with the blanks around it. -/
def spacedName? (input : List Char) : Option (Taken input String) :=
  (keyName? (skipBlanks input)).map fun name =>
    ((name.map String.ofList).widen (length_skipBlanks_le input)).skipping skipBlanks
      length_skipBlanks_le

/-- Names with points between them; blanks may stand around each. -/
def key? (input : List Char) : Option (Taken input (List String)) :=
  match spacedName? input with
  | none => none
  | some first =>
      match hrest : first.rest with
      | '.' :: rest =>
          have hlater := first.length_lt_of_rest hrest
          (key? rest).map fun more => (more.map (first.value :: ·)).inside hlater
      | _ => some (first.map fun name => [name])
termination_by input.length
decreasing_by exact hlater

/-- A key and an equals sign. -/
def keyOfAssignment? (input : List Char) : Option (Taken input (List String)) :=
  match key? input with
  | none => none
  | some key =>
      match hrest : key.rest with
      | '=' :: rest => some ⟨key.value, rest, key.length_lt_of_rest hrest⟩
      | _ => none

/-! ## Values -/

/-- The items of an array behind its bracket; a comma may stand behind the last one. -/
def arrayItems? (value? : (input : List Char) → Option (Taken input Toml)) (input : List Char) :
    Option (Taken input (List Toml)) :=
  match hstart : skipLines input with
  | [] => none
  | c :: rest =>
      if c = ']' then some ⟨[], rest, length_lt_of_skipping length_skipLines_le hstart⟩
      else
        match value? (c :: rest) with
        | none => none
        | some read =>
            let item := read.widen (length_le_of_skipping length_skipLines_le hstart)
            match hrest : skipLines item.rest with
            | ',' :: next =>
                have hlater := item.length_lt_of_skipping length_skipLines_le hrest
                (arrayItems? value? next).map fun items =>
                  (items.map (item.value :: ·)).inside hlater
            | ']' :: next =>
                some ⟨[item.value], next, item.length_lt_of_skipping length_skipLines_le hrest⟩
            | _ => none
termination_by input.length
decreasing_by exact hlater

/-- The assignments of a table in braces up to the closing one, put under their keys. -/
def braceEntries? (value? : (input : List Char) → Option (Taken input Toml))
    (entries : List (String × Toml)) (input : List Char) :
    Option (Taken input (List (String × Toml))) :=
  match keyOfAssignment? input with
  | none => none
  | some key =>
      match value? key.rest with
      | none => none
      | some read =>
          let item := key.andThen read
          match assign? key.value item.value entries with
          | none => none
          | some entries =>
              match hrest : skipBlanks item.rest with
              | ',' :: next =>
                  have hlater := item.length_lt_of_skipping length_skipBlanks_le hrest
                  (braceEntries? value? entries next).map fun entries => entries.inside hlater
              | '\x7d' :: next =>
                  some ⟨entries, next, item.length_lt_of_skipping length_skipBlanks_le hrest⟩
              | _ => none
termination_by input.length
decreasing_by exact hlater

/-- A table behind its opening brace. -/
def braceTable? (value? : (input : List Char) → Option (Taken input Toml)) (input : List Char) :
    Option (Taken input Toml) :=
  match hstart : skipBlanks input with
  | '\x7d' :: rest =>
      some ⟨.table .braces [], rest, length_lt_of_skipping length_skipBlanks_le hstart⟩
  | _ =>
      (braceEntries? value? [] input).map fun entries => entries.map (Toml.table .braces)

/-- A value at the front, blanks before it included, with at most `depth` levels of arrays and
tables in braces. -/
def value? : (depth : Nat) → (input : List Char) → Option (Taken input Toml)
  | depth, input =>
      match hstart : skipBlanks input with
      | [] => none
      | c :: rest =>
          have hle := length_le_of_skipping length_skipBlanks_le hstart
          if c = '"' ∨ c = '\'' then
            (quoted? (c :: rest)).map fun text =>
              (text.map fun text => Toml.string (String.ofList text)).widen hle
          else if c = '[' ∨ c = '\x7b' then
            match depth with
            | 0 => none
            | depth + 1 =>
                if c = '[' then
                  (arrayItems? (value? depth) rest).map fun items =>
                    ((items.map Toml.array).behind c).widen hle
                else
                  (braceTable? (value? depth) rest).map fun table => (table.behind c).widen hle
          else
            match run? isWordChar (c :: rest) with
            | none => none
            | some text =>
                (word? text.value).map fun value => (text.map fun _ => value).widen hle

/-! ## Documents -/

/-- How deep values may stand inside each other. -/
def nestingLimit : Nat := 80

/-- An answer up to the end of its line. -/
def endStatement? {α : Type} {input : List Char} (t : Taken input α) : Option (Taken input α) :=
  match hend : afterStatement? t.rest with
  | none => none
  | some next => some (t.upTo ⟨next, length_afterStatement?_le hend⟩)

/-- A header behind its opening bracket, up to the end of its line. -/
def header? (input : List Char) : Option (Taken input (List String)) :=
  match key? input with
  | none => none
  | some key =>
      match hrest : key.rest with
      | ']' :: rest =>
          let header : Taken input (List String) := ⟨key.value, rest, key.length_lt_of_rest hrest⟩
          endStatement? header
      | _ => none

/-- A key, an equals sign and a value, up to the end of their line. -/
def assignment? (input : List Char) : Option (Taken input (List String × Toml)) :=
  match keyOfAssignment? input with
  | none => none
  | some key =>
      match value? nestingLimit key.rest with
      | none => none
      | some item => endStatement? ((key.andThen item).map fun value => (key.value, value))

/-- The statements up to the end of a document, done one after the other on the entries of the
document; `way` leads to the table that assignments go to. -/
def statements? (way : List String) (entries : List (String × Toml)) (input : List Char) :
    Option (List (String × Toml)) :=
  match hstart : skipLines input with
  | [] => some entries
  | c :: rest =>
      have := length_le_of_skipping length_skipLines_le hstart
      if c = '#' then
        if (afterComment (c :: rest)).isEmpty then some entries else none
      else if c = '[' then
        match header? rest with
        | none => none
        | some header =>
            match openTable? header.value entries with
            | none => none
            | some entries => statements? header.value entries header.rest
      else
        match assignment? (c :: rest) with
        | none => none
        | some statement =>
            match changeAt? (assign? statement.value.1 statement.value.2) way entries with
            | none => none
            | some entries => statements? way entries statement.rest
termination_by input.length
decreasing_by
  · exact Nat.lt_of_lt_of_le (Nat.lt_trans header.shorter (length_lt_cons c rest)) this
  · exact Nat.lt_of_lt_of_le statement.shorter this

/-- A mark that says no more than that a text is a text; it may stand at the start. -/
def byteOrderMark : Char := '\ufeff'

/-- The entries of a document. -/
def read? (text : String) : Option (List (String × Toml)) :=
  match text.toList with
  | [] => some []
  | c :: rest => statements? [] [] (if c = byteOrderMark then rest else c :: rest)

end Specimen.Toml
