import Specimen.Blank
import Specimen.Radix
import Specimen.Decimal.Numeral
import Specimen.Source.Token

/-!
# Literals

The values of quoted texts and of numbers, and the text of a run of tokens.
-/

namespace Specimen.Source

/-- A text without its backslashes. -/
def unescape : List Char → List Char
  | [] => []
  | ['\\'] => []
  | '\\' :: c :: rest =>
      let meant :=
        match c with
        | 'n' => '\n'
        | 't' => '\t'
        | 'r' => '\r'
        | '0' => '\x00'
        | c => c
      meant :: unescape rest
  | c :: rest => c :: unescape rest

/-- The text between the quotes of a literal. -/
def unquote (literal : List Char) : List Char :=
  unescape literal.tail.dropLast

/-- The value of hexadecimal digits, which must fit sixty-four bits with a sign. -/
def hexValue? (digits : List Char) : Option Float :=
  (Radix.natOfDigits? 16 digits).bind fun value =>
    if UInt64.size / 2 ≤ value then none else some (Binary64.ofInt value)

/-- The value of a number literal, in which underscores mean nothing. A fraction may be without
digits; an exponent may not. -/
def numberValue? (literal : List Char) : Option Float :=
  match literal.filter (· != '_') with
  | '0' :: 'x' :: digits => hexValue? digits
  | '0' :: 'X' :: digits => hexValue? digits
  | text => (Decimal.numeral? text).map Decimal.Numeral.toFloat

/-- The text of the tokens in front of `rest`, where `rest` is an end of `ts`: the tokens with the
gaps between them, without white space at the ends. -/
def spanText (ts rest : List Token) : String :=
  match ts.take (ts.length - rest.length) with
  | [] => ""
  | first :: others =>
      String.ofList (trim (first.text ++ others.flatMap fun token => token.gap ++ token.text))

end Specimen.Source
