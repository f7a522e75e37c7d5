import Specimen.Decimal.Text
import Specimen.Json.Basic

/-!
# JSON text

Two ways of writing a JSON tree: `compact` without blanks, and `pretty` with one item or entry a
line, two blanks deeper for each level. Both quote texts in the same way (`quotedChars`). A double
that is not finite has no JSON form and is written as `null`.
-/

namespace Specimen.Json

/-- The lower-case hexadecimal digit of a number below sixteen. -/
def hexDigit (n : Nat) : Char :=
  Nat.digitChar n

/-- A character as it stands between quotes. -/
def escapedChars (c : Char) : List Char :=
  match c with
  | '"' => ['\\', '"']
  | '\\' => ['\\', '\\']
  | '\x08' => ['\\', 'b']
  | '\x0c' => ['\\', 'f']
  | '\n' => ['\\', 'n']
  | '\r' => ['\\', 'r']
  | '\t' => ['\\', 't']
  | c =>
      if c.toNat < 32 then
        ['\\', 'u', '0', '0', hexDigit (c.toNat / 16), hexDigit (c.toNat % 16)]
      else [c]

/-- A text between quotes. -/
def quotedChars (text : List Char) : List Char :=
  '"' :: (text.flatMap escapedChars ++ ['"'])

/-- The text of a value that is neither an array nor an object. -/
def scalarChars : Json → List Char
  | .null => ['n', 'u', 'l', 'l']
  | .bool true => ['t', 'r', 'u', 'e']
  | .bool false => ['f', 'a', 'l', 's', 'e']
  | .integer value => Decimal.intChars value
  | .double value => if value.isFinite then Decimal.floatChars value else ['n', 'u', 'l', 'l']
  | .string value => quotedChars value.toList
  | .array _ => []
  | .object _ => []

mutual

/-- The characters of the compact text. -/
def compactChars : Json → List Char
  | .array items => '[' :: (compactItems items ++ [']'])
  | .object entries => '\x7b' :: (compactEntries entries ++ ['\x7d'])
  | scalar => scalarChars scalar
termination_by structural j => j

/-- The items of an array with commas between them. -/
def compactItems : List Json → List Char
  | [] => []
  | [item] => compactChars item
  | item :: items => compactChars item ++ ',' :: compactItems items
termination_by structural items => items

/-- The entries of an object with commas between them. -/
def compactEntries : List (String × Json) → List Char
  | [] => []
  | [(name, value)] => quotedChars name.toList ++ ':' :: compactChars value
  | (name, value) :: entries =>
      quotedChars name.toList ++ ':' :: (compactChars value ++ ',' :: compactEntries entries)
termination_by structural entries => entries

end

/-- A new line at the given depth. -/
def lineBreak (depth : Nat) : List Char :=
  '\n' :: List.replicate (2 * depth) ' '

mutual

/-- The characters of the pretty text of a value that stands at the given depth. -/
def prettyChars (depth : Nat) : Json → List Char
  | .array [] => ['[', ']']
  | .array (item :: items) =>
      '[' :: (prettyItems (depth + 1) (item :: items) ++ lineBreak depth ++ [']'])
  | .object [] => ['\x7b', '\x7d']
  | .object (entry :: entries) =>
      '\x7b' :: (prettyEntries (depth + 1) (entry :: entries) ++ lineBreak depth ++ ['\x7d'])
  | scalar => scalarChars scalar
termination_by structural j => j

/-- The items of an array, each on a line of its own. -/
def prettyItems (depth : Nat) : List Json → List Char
  | [] => []
  | [item] => lineBreak depth ++ prettyChars depth item
  | item :: items =>
      lineBreak depth ++ prettyChars depth item ++ ',' :: prettyItems depth items
termination_by structural items => items

/-- The entries of an object, each on a line of its own. -/
def prettyEntries (depth : Nat) : List (String × Json) → List Char
  | [] => []
  | [(name, value)] =>
      lineBreak depth ++ quotedChars name.toList ++ ':' :: ' ' :: prettyChars depth value
  | (name, value) :: entries =>
      lineBreak depth ++ quotedChars name.toList
        ++ ':' :: ' ' :: (prettyChars depth value ++ ',' :: prettyEntries depth entries)
termination_by structural entries => entries

end

/-- The text without blanks. -/
def compact (value : Json) : String :=
  String.ofList (compactChars value)

/-- The text over several lines. -/
def pretty (value : Json) : String :=
  String.ofList (prettyChars 0 value)

end Specimen.Json
