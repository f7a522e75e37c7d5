import Specimen.Blank
import Specimen.ByteOffset
import Specimen.Decimal.Numeral
import Specimen.Letters
import Specimen.Pieces
import Specimen.Radix
import Specimen.Regex.Reader

/-!
# Log filters

A log filter says what is to be logged: directives with commas between them. A directive is a
level, or a target with a level behind an equals sign; a target may be followed, or replaced, by a
span in square brackets, which may name a field in braces and a value for it. `LogFilter.check`
tells whether a text is a filter.

A directive may have blanks around it. Where its parts begin and end is found without the blanks,
but the parts are taken at the same byte offsets from the directive as it is written. So blanks in
front move every part, and a part may come to begin or end inside a character.
-/

namespace Specimen

/-- Why a text is no log filter. -/
inductive LogFilterFault where
  | malformed
  /-- A part of a directive begins or ends inside a character. -/
  | splitCharacter
deriving DecidableEq, Repr

namespace LogFilter

/-! ## Levels and values -/

/-- The names of the levels. -/
def levelNames : List String :=
  ["error", "warn", "info", "debug", "trace", "off"]

/-- The greatest number of a level. -/
def greatestLevel : Nat := 5

/-- The number of a text of digits, which may have a plus sign. -/
def number? : List Char → Option Nat
  | '+' :: digits => Radix.natOfDigits? 10 digits
  | digits => Radix.natOfDigits? 10 digits

/-- The text is a level: nothing at all, a name in any case, or a number. -/
def isLevel (text : List Char) : Bool :=
  text.isEmpty || levelNames.contains (String.ofList (text.map Char.toLower))
    || (number? text).any fun n => decide (n ≤ greatestLevel)

/-- The names of the numbers that are not written in digits. -/
def numberNames : List String :=
  ["inf", "infinity", "nan"]

/-- The text is a number: a name in any case, or digits with a point before, between or behind them
and an exponent. It may have a sign. -/
def isNumber (text : List Char) : Bool :=
  let unsigned := (Decimal.splitSign text).2
  let whole := unsigned.takeWhile Char.isDigit
  let (fraction, rest) := Decimal.splitFraction (unsigned.dropWhile Char.isDigit)
  numberNames.contains (String.ofList (unsigned.map Char.toLower))
    || (!(whole.isEmpty && (fraction.getD []).isEmpty) && (Decimal.exponentPart? rest).isSome)

/-- The text can be compared with the values of a field: it is a number or a regular expression. -/
def isValue (text : List Char) : Bool :=
  isNumber text || Regex.isRegex text

/-- The text names a field. Behind an equals sign it may have a value; what stands behind a second
one means nothing. -/
def isField (text : List Char) : Bool :=
  match pieces '=' text with
  | _ :: value :: _ => isValue value
  | _ => !text.isEmpty

/-- The character can start a target. -/
def canStartTarget (c : Char) : Bool :=
  isLetterOrNumber c || c == '-' || c == ':' || c == '_'

/-! ## Directives

In what follows `text` is the directive as it is written, and `start` is the offset at which the
rest of it is found. -/

/-- Nothing is wrong, if there is a reason for that. -/
def demand (reason : Bool) : Except LogFilterFault Unit :=
  if reason then .ok () else .error .malformed

/-- A part of a directive. -/
def part (text : List Char) (start stop : Nat) : Except LogFilterFault (List Char) :=
  match slice? start stop text with
  | some inside => .ok inside
  | none => .error .splitCharacter

/-- A level reaches up to the end. -/
def checkLevel (text : List Char) (start : Nat) : Except LogFilterFault Unit := do
  demand (isLevel (← part text start (byteSize text)))

/-- What follows a span: nothing, or an equals sign and a level. -/
def checkAfterSpan (text : List Char) (start : Nat) : List Char → Except LogFilterFault Unit
  | [] => .ok ()
  | c :: _ => if c = '=' then checkLevel text (start + 1) else .error .malformed

/-- A field behind its opening brace. The span ends right behind the closing brace. -/
def checkField (text : List Char) (start : Nat) (rest : List Char) :
    Except LogFilterFault Unit := do
  let stop := start + byteSize (rest.takeWhile (· != '\x7d'))
  match rest.dropWhile (· != '\x7d') with
  | [] => .error .malformed
  | _ :: rest =>
      demand (isField (← part text start stop))
      match rest with
      | ']' :: rest => checkAfterSpan text (stop + 2) rest
      | _ => .error .malformed

/-- A span behind its opening bracket. -/
def checkSpan (text : List Char) (start : Nat) (rest : List Char) :
    Except LogFilterFault Unit := do
  let goesOn (c : Char) : Bool := c != ']' && c != '\x7b'
  let stop := start + byteSize (rest.takeWhile goesOn)
  match rest.dropWhile goesOn with
  | [] => .error .malformed
  | c :: rest =>
      let _ ← part text start stop
      if c = ']' then checkAfterSpan text (stop + 1) rest else checkField text (stop + 1) rest

/-- A target, or a level, from its first character on. -/
def checkTarget (text rest : List Char) : Except LogFilterFault Unit := do
  let goesOn (c : Char) : Bool := c != '=' && c != '['
  let stop := byteSize (rest.takeWhile goesOn)
  match rest.dropWhile goesOn with
  | [] => .ok ()
  | c :: rest =>
      let _ ← part text 0 stop
      if c = '=' then checkLevel text (stop + 1) else checkSpan text (stop + 1) rest

/-- The text is a directive. -/
def checkDirective (text : List Char) : Except LogFilterFault Unit :=
  match trim text with
  | [] => .error .malformed
  | c :: rest =>
      if c = '[' then checkSpan text 1 rest
      else if canStartTarget c then checkTarget text (c :: rest)
      else .error .malformed

/-- The text is a log filter. Commas without a directive between them mean nothing. -/
def check (text : String) : Except LogFilterFault Unit :=
  ((pieces ',' text.toList).filter fun part => !part.isEmpty).forM checkDirective

end LogFilter

end Specimen
