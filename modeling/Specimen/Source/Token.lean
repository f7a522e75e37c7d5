import Specimen.ByteOffset
import Specimen.Source.Pattern

/-!
# Tokens

The kinds of token of a declaration document and the pattern of each kind. A token keeps its text
and the gap before it (blanks and comments), so that a document is its tokens and gaps put together
again.
-/

namespace Specimen.Source

/-- The words that start or modify a declaration. They may also be used as names. -/
inductive Keyword where
  | «interface»
  | «type»
  | «enum»
  | «namespace»
  | «module»
  | «export»
  | «default»
  | «declare»
  | «const»
  | «extends»
  | «readonly»
deriving DecidableEq, Repr

namespace Keyword

/-- All keywords. -/
def all : List Keyword :=
  [.interface, .type, .enum, .namespace, .module, .export, .default, .declare, .const, .extends,
    .readonly]

/-- The written form of a keyword. -/
def text : Keyword → String
  | .interface => "interface"
  | .type => "type"
  | .enum => "enum"
  | .namespace => "namespace"
  | .module => "module"
  | .export => "export"
  | .default => "default"
  | .declare => "declare"
  | .const => "const"
  | .extends => "extends"
  | .readonly => "readonly"

theorem mem_all (word : Keyword) : word ∈ all := by
  cases word <;> simp [all]

end Keyword

/-- The marks between words. -/
inductive Mark where
  | openBrace
  | closeBrace
  | openParen
  | closeParen
  | openBracket
  | closeBracket
  | less
  | greater
  | semicolon
  | comma
  | colon
  | question
  | arrow
  | equals
  | pipe
  | ampersand
  | dot
  | ellipsis
  | minus
  | plus
  | star
  | bang
  | atSign
deriving DecidableEq, Repr

namespace Mark

/-- All marks. -/
def all : List Mark :=
  [.openBrace, .closeBrace, .openParen, .closeParen, .openBracket, .closeBracket, .less, .greater,
    .semicolon, .comma, .colon, .question, .arrow, .equals, .pipe, .ampersand, .dot, .ellipsis,
    .minus, .plus, .star, .bang, .atSign]

/-- The written form of a mark. -/
def text : Mark → String
  | .openBrace => "\x7b"
  | .closeBrace => "\x7d"
  | .openParen => "("
  | .closeParen => ")"
  | .openBracket => "["
  | .closeBracket => "]"
  | .less => "<"
  | .greater => ">"
  | .semicolon => ";"
  | .comma => ","
  | .colon => ":"
  | .question => "?"
  | .arrow => "=>"
  | .equals => "="
  | .pipe => "|"
  | .ampersand => "&"
  | .dot => "."
  | .ellipsis => "..."
  | .minus => "-"
  | .plus => "+"
  | .star => "*"
  | .bang => "!"
  | .atSign => "@"

/-- The marks that a message shows as they are written. -/
def isShown (mark : Mark) : Bool :=
  [openBrace, closeBrace, openParen, closeParen, openBracket, closeBracket, less, greater,
    semicolon, comma, colon, equals].contains mark

theorem mem_all (mark : Mark) : mark ∈ all := by
  cases mark <;> simp [all]

end Mark

/-- The kinds of token. -/
inductive TokenKind where
  | keyword (word : Keyword)
  | mark (mark : Mark)
  | identifier
  | number
  | string
  | template
  /-- A block comment without an end. -/
  | unclosedComment
  /-- Text that no token starts with, or a quote without an end. -/
  | unrecognized
deriving DecidableEq, Repr

namespace TokenKind

/-- Words can be names: keywords have a meaning only where a declaration starts. -/
def isWord : TokenKind → Bool
  | .identifier => true
  | .keyword _ => true
  | _ => false

/-- The token opens a group. -/
def isOpening (kind : TokenKind) : Bool :=
  kind == .mark .openBrace || kind == .mark .openParen || kind == .mark .openBracket

/-- The token closes a group. -/
def isClosing (kind : TokenKind) : Bool :=
  kind == .mark .closeBrace || kind == .mark .closeParen || kind == .mark .closeBracket

/-- What a message calls a token of this kind. -/
def describe : TokenKind → String
  | .number => "number literal"
  | .string => "string literal"
  | .template => "template literal"
  | .identifier => "identifier"
  | .mark m => if m.isShown then "`" ++ m.text ++ "`" else "punctuation"
  | .unclosedComment => "unclosed block comment"
  | .unrecognized => "unrecognized character"
  | .keyword _ => "keyword"

end TokenKind

/-- A token with the gap before it. -/
structure Token where
  kind : TokenKind
  /-- The blanks and comments between the token before and this one. -/
  gap : List Char
  text : List Char
  /-- The offset of the text in the document, in bytes of UTF-8. -/
  start : Nat
deriving DecidableEq

/-- The offset of the end of a token. -/
def Token.stop (token : Token) : Nat :=
  token.start + byteSize token.text

/-! ## The patterns of tokens -/

namespace Pattern

/-- One character of a list. -/
def anyOf (chars : List Char) : Pattern :=
  .one chars.contains

/-- One character outside a list. -/
def noneOf (chars : List Char) : Pattern :=
  .one fun c => !chars.contains c

/-- Patterns one after the other. -/
def sequence (parts : List Pattern) : Pattern :=
  parts.foldr .seq .empty

/-- A decimal digit or an underscore. -/
def digitOrBlank : Pattern :=
  .one fun c => c.isDigit || c == '_'

/-- A decimal number, perhaps negative, with a fraction and an exponent or without. -/
def decimalNumber : Pattern :=
  sequence
    [optional (anyOf ['-']), .one Char.isDigit, .many digitOrBlank,
      optional (.seq (anyOf ['.']) (repeated digitOrBlank)),
      optional
        (sequence [anyOf ['e', 'E'], optional (anyOf ['+', '-']), repeated digitOrBlank])]

/-- A hexadecimal digit. -/
def isHexDigit (c : Char) : Bool :=
  c.isDigit || ('a' ≤ c && c ≤ 'f') || ('A' ≤ c && c ≤ 'F')

/-- A hexadecimal number. -/
def hexNumber : Pattern :=
  sequence
    [anyOf ['0'], anyOf ['x', 'X'], repeated (.one fun c => isHexDigit c || c == '_')]

/-- A backslash and the character that it protects. -/
def protectedChar : Pattern :=
  .seq (anyOf ['\\']) (noneOf ['\n'])

/-- A text between quotes in which only the characters in `excluded` need protection. -/
def quoted (quote : Char) (excluded : List Char) : Pattern :=
  sequence
    [anyOf [quote], .many (.either (noneOf excluded) protectedChar), anyOf [quote]]

/-- A text between double or single quotes. -/
def stringLiteral : Pattern :=
  .either (quoted '"' ['"', '\\', '\n']) (quoted '\'' ['\'', '\\', '\n'])

/-- A text between back quotes; it may go over several lines. -/
def templateLiteral : Pattern :=
  quoted '`' ['`', '\\']

/-- A character that a name starts with. -/
def isNameStart (c : Char) : Bool :=
  ('a' ≤ c && c ≤ 'z') || ('A' ≤ c && c ≤ 'Z') || c == '_' || c == '$'

/-- A character inside a name. -/
def isNamePart (c : Char) : Bool :=
  isNameStart c || c.isDigit

/-- A name. -/
def name : Pattern :=
  .seq (.one isNameStart) (.many (.one isNamePart))

/-- The characters between tokens. -/
def isBlank (c : Char) : Bool :=
  c == ' ' || c == '\t' || c == '\r' || c == '\n' || c == '\x0c'

/-- Blanks. -/
def blanks : Pattern :=
  repeated (.one isBlank)

/-- A comment up to the end of its line. -/
def lineComment : Pattern :=
  .seq (literal ['/', '/']) (.many (noneOf ['\n']))

/-- The start of a block comment. -/
def blockCommentStart : Pattern :=
  literal ['/', '*']

end Pattern

/-- What a pattern at the front of the input says about it. -/
inductive Piece where
  | token (kind : TokenKind)
  /-- Text between tokens. -/
  | blank
  /-- The start of a comment that goes on to its own end. -/
  | openComment
deriving DecidableEq, Repr

/-- The patterns in order of preference: of two patterns with equally long texts the first counts,
so a keyword is not a name. -/
def rules : List (Piece × Pattern) :=
  (Keyword.all.map fun word => (.token (.keyword word), .literal word.text.toList))
    ++ [(.token .number, .decimalNumber), (.token .number, .hexNumber),
      (.token .string, .stringLiteral), (.token .template, .templateLiteral),
      (.token .identifier, .name)]
    ++ (Mark.all.map fun mark => (.token (.mark mark), .literal mark.text.toList))
    ++ [(.blank, .blanks), (.blank, .lineComment), (.openComment, .blockCommentStart)]

end Specimen.Source
