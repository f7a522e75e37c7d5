/-!
# Regular expressions

The form of a regular expression, as far as it decides whether the expression can be used. Three
things stand in the way: it may nest too deeply (`Regex.depth`, `Regex.nestingLimit`), it may need
facts on characters outside ASCII that are not at hand, and it may match bytes that are no text
(`Regex.modeAfter?`).

What can be used depends on two flags, the `RegexMode`. With `unicode` an expression speaks of
characters; then the case of characters, the classes of the shorthands and the borders of words are
not at hand. Without it an expression speaks of bytes; then a class must not reach beyond ASCII, so
it must not be the opposite of another one.
-/

namespace Specimen

/-- A flag of a regular expression. -/
inductive RegexFlag where
  | ignoreCase
  | multiLine
  | dotMatchesAll
  | swapGreed
  | carriageReturns
  /-- Blanks and comments in the expression mean nothing. -/
  | spaced
  | unicode
deriving DecidableEq, Repr

/-- The flag of a letter. -/
def RegexFlag.ofLetter? : Char → Option RegexFlag
  | 'i' => some .ignoreCase
  | 'm' => some .multiLine
  | 's' => some .dotMatchesAll
  | 'U' => some .swapGreed
  | 'R' => some .carriageReturns
  | 'x' => some .spaced
  | 'u' => some .unicode
  | _ => none

/-- Flags that are set and flags that are cleared. -/
structure FlagChange where
  set : List RegexFlag
  cleared : List RegexFlag
deriving DecidableEq, Repr

namespace FlagChange

/-- No flag changes. -/
def nothing : FlagChange := ⟨[], []⟩

/-- A change that says something of the flag. -/
def names (change : FlagChange) (flag : RegexFlag) : Bool :=
  change.set.contains flag || change.cleared.contains flag

/-- The flag behind a change, where it was `before`. -/
def apply (change : FlagChange) (flag : RegexFlag) (before : Bool) : Bool :=
  if change.set.contains flag then true
  else if change.cleared.contains flag then false
  else before

end FlagChange

/-- The flags that decide what can be used. -/
structure RegexMode where
  ignoreCase : Bool
  unicode : Bool
deriving DecidableEq, Repr

namespace RegexMode

/-- The flags that an expression starts with. -/
def start : RegexMode := ⟨false, true⟩

/-- The flags behind a change. -/
def after (mode : RegexMode) (change : FlagChange) : RegexMode :=
  ⟨change.apply .ignoreCase mode.ignoreCase, change.apply .unicode mode.unicode⟩

end RegexMode

/-- A character of an expression. -/
structure RegexLiteral where
  char : Char
  /-- It is written as two hexadecimal digits, which without `unicode` stand for a byte. -/
  isByte : Bool
deriving DecidableEq, Repr

/-- The code point is one of ASCII. -/
def RegexLiteral.isAscii (literal : RegexLiteral) : Bool :=
  decide (literal.char.toNat < 128)

/-- The number of levels of a row of things: a single thing needs no level of its own. -/
def rowDepth : List Nat → Nat
  | [] => 0
  | [depth] => depth
  | depths => 1 + depths.foldl max 0

/-! ## Classes -/

/-- A class of characters between square brackets. -/
inductive CharClass where
  | one (literal : RegexLiteral)
  | range (first last : RegexLiteral)
  /-- A class of ASCII with a name of its own. -/
  | named (negated : Bool)
  /-- A shorthand: digits, white space or parts of words. -/
  | shorthand (negated : Bool)
  /-- Another class in brackets. -/
  | nested (negated : Bool) (content : CharClass)
  /-- What is in one of some classes. -/
  | union (items : List CharClass)
  /-- An intersection or a difference. -/
  | operation (left right : CharClass)

namespace CharClass

mutual

/-- The number of levels of a class. -/
def depth : CharClass → Nat
  | .one _ => 0
  | .range _ _ => 0
  | .named _ => 0
  | .shorthand _ => 0
  | .nested _ content => 1 + content.depth
  | .union items => rowDepth (depths items)
  | .operation left right => 1 + max left.depth right.depth
termination_by structural content => content

/-- The numbers of levels of some classes. -/
def depths : List CharClass → List Nat
  | [] => []
  | item :: items => item.depth :: depths items
termination_by structural items => items

end

/-- A single character can stand in a class. -/
def isUsableLiteral (mode : RegexMode) (literal : RegexLiteral) : Bool :=
  if mode.unicode then !mode.ignoreCase else literal.isAscii

mutual

/-- The class can be used. -/
def isUsable (mode : RegexMode) : CharClass → Bool
  | .one literal => isUsableLiteral mode literal
  | .range first last => isUsableLiteral mode first && isUsableLiteral mode last
  | .named negated => if mode.unicode then !mode.ignoreCase else !negated
  | .shorthand negated => !mode.unicode && !negated
  | .nested negated content => (mode.unicode || !negated) && content.isUsable mode
  | .union items => areUsable mode items
  | .operation left right => left.isUsable mode && right.isUsable mode
termination_by structural content => content

/-- All of the classes can be used. -/
def areUsable (mode : RegexMode) : List CharClass → Bool
  | [] => true
  | item :: items => item.isUsable mode && areUsable mode items
termination_by structural items => items

end

end CharClass

/-! ## Expressions -/

/-- A regular expression. -/
inductive Regex where
  /-- Any character. -/
  | any
  | one (literal : RegexLiteral)
  | shorthand (negated : Bool)
  /-- The start or the end of a line or of the text. -/
  | edge
  /-- The border of a word, or a place that is none. -/
  | boundary
  | charClass (negated : Bool) (content : CharClass)
  /-- A change of flags for what follows. -/
  | flags (change : FlagChange)
  | repeated (item : Regex)
  /-- An expression in parentheses, with a change of flags for it alone. -/
  | group (change : FlagChange) (content : Regex)
  | sequence (items : List Regex)
  | choice (alternatives : List Regex)

namespace Regex

/-- How many levels an expression may have. -/
def nestingLimit : Nat := 250

mutual

/-- The number of levels of an expression. -/
def depth : Regex → Nat
  | .any => 0
  | .one _ => 0
  | .shorthand _ => 0
  | .edge => 0
  | .boundary => 0
  | .charClass _ content => 1 + content.depth
  | .flags _ => 0
  | .repeated item => 1 + item.depth
  | .group _ content => 1 + content.depth
  | .sequence items => rowDepth (depths items)
  | .choice alternatives => rowDepth (depths alternatives)
termination_by structural regex => regex

/-- The numbers of levels of some expressions. -/
def depths : List Regex → List Nat
  | [] => []
  | item :: items => item.depth :: depths items
termination_by structural items => items

end

/-- A mode, if there is no reason against it. -/
def keepIf (usable : Bool) (mode : RegexMode) : Option RegexMode :=
  if usable then some mode else none

mutual

/-- The flags behind an expression, if it can be used where the flags before it are `mode`. -/
def modeAfter? (mode : RegexMode) : Regex → Option RegexMode
  | .any => keepIf mode.unicode mode
  | .one literal =>
      keepIf (if mode.unicode then !mode.ignoreCase else !literal.isByte || literal.isAscii) mode
  | .shorthand negated => keepIf (!mode.unicode && !negated) mode
  | .edge => some mode
  | .boundary => keepIf (!mode.unicode) mode
  | .charClass negated content =>
      keepIf ((mode.unicode || !negated) && content.isUsable mode) mode
  | .flags change => some (mode.after change)
  | .repeated item => item.modeAfter? mode
  | .group change content => (content.modeAfter? (mode.after change)).map fun _ => mode
  | .sequence items => modeAfterAll? mode items
  | .choice alternatives => modeAfterAll? mode alternatives
termination_by structural regex => regex

/-- The flags behind some expressions one after the other. -/
def modeAfterAll? (mode : RegexMode) : List Regex → Option RegexMode
  | [] => some mode
  | item :: items =>
      match item.modeAfter? mode with
      | none => none
      | some mode => modeAfterAll? mode items
termination_by structural items => items

end

/-- The expression can be used. -/
def isUsable (regex : Regex) : Bool :=
  decide (regex.depth ≤ nestingLimit) && (regex.modeAfter? .start).isSome

end Regex

end Specimen
