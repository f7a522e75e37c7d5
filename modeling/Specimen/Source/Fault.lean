import Specimen.Taken
import Specimen.Source.Lexeme
import Specimen.Source.Position

/-!
# Faults of a document

A reader of declarations fails at a place between two tokens. A `Fault` has the cause and the tokens
that were left there; the wording of its message and its position follow from the two.
-/

namespace Specimen.Source

/-- What a reader was looking for. -/
inductive Wanted where
  | token (kind : TokenKind)
  | type
  | propertyName
  | enumMember (enumeration : String)
  | memberSeparator
  | argumentSeparator
deriving DecidableEq, Repr

/-- What a message calls it. -/
def Wanted.describe : Wanted → String
  | .token kind => kind.describe
  | .type => "type"
  | .propertyName => "property name"
  | .enumMember enumeration => "member of enum `" ++ enumeration ++ "`"
  | .memberSeparator => "`,` or `\x7d`"
  | .argumentSeparator => "`,` or `>`"

/-- Why a document is refused. -/
inductive FaultCause where
  /-- Something else stands there. -/
  | expected (wanted : Wanted)
  /-- The document ends inside an interface. -/
  | unclosedInterface (name : String)
  /-- The document ends inside the written value of an enumeration member. -/
  | unterminatedInitializer
  /-- A number that is not written as numbers are, or a hexadecimal number that is too large. -/
  | invalidNumber (literal : String)
deriving DecidableEq, Repr

/-- A cause and the tokens that follow the place of the fault. -/
structure Fault where
  cause : FaultCause
  rest : List Token
deriving DecidableEq

/-- A reader finds something else than it was looking for. -/
def refuse {α : Type} (wanted : Wanted) (ts : List Token) : Except Fault α :=
  .error ⟨.expected wanted, ts⟩

/-- The first token has the given kind. -/
def startsWith (kind : TokenKind) : List Token → Bool
  | [] => false
  | token :: _ => token.kind == kind

/-- The first token is a word. -/
def startsWithWord : List Token → Bool
  | [] => false
  | token :: _ => token.kind.isWord

/-- Uses a token of the given kind. -/
def expect (kind : TokenKind) : (ts : List Token) → Except Fault (Taken ts Unit)
  | [] => refuse (.token kind) []
  | token :: rest =>
      if token.kind = kind then .ok (.one token rest ())
      else refuse (.token kind) (token :: rest)

/-- Uses a word. -/
def expectWord : (ts : List Token) → Except Fault (Taken ts String)
  | [] => refuse (.token .identifier) []
  | token :: rest =>
      if token.kind.isWord then .ok (.one token rest (String.ofList token.text))
      else refuse (.token .identifier) (token :: rest)

/-- What is left after a token of the given kind, if one is there. -/
def dropOptional (kind : TokenKind) : List Token → List Token
  | [] => []
  | token :: rest => if token.kind = kind then rest else token :: rest

theorem length_dropOptional_le (kind : TokenKind) (ts : List Token) :
    (dropOptional kind ts).length ≤ ts.length := by
  cases ts with
  | nil => simp [dropOptional]
  | cons token rest =>
      simp only [dropOptional]
      split <;> simp

/-- A fault as it is reported. -/
structure DocumentError where
  message : String
  position : Position
deriving DecidableEq, Repr

namespace DocumentError

/-- The report of an error with its place. -/
def text (error : DocumentError) : String :=
  "parse error at " ++ toString error.position.line ++ ":" ++ toString error.position.column
    ++ ": " ++ error.message

end DocumentError

namespace Fault

/-- The message of a fault. -/
def message (fault : Fault) : String :=
  match fault.cause with
  | .expected wanted =>
      let found :=
        match fault.rest with
        | [] => "end of input"
        | token :: _ => "`" ++ String.ofList token.text ++ "`"
      "expected " ++ wanted.describe ++ ", found " ++ found
  | .unclosedInterface name => "unclosed body of interface `" ++ name ++ "`"
  | .unterminatedInitializer => "unterminated enum initializer"
  | .invalidNumber literal => "invalid number literal `" ++ literal ++ "`"

/-- The place of a fault: the start of the token that follows it, or the end of the document. -/
def offset (fault : Fault) (text : List Char) : Nat :=
  match fault.rest with
  | [] => byteSize text
  | token :: _ => token.start

/-- The report of a fault in a document. -/
def report (fault : Fault) (text : List Char) : DocumentError :=
  ⟨fault.message, .ofOffset text (fault.offset text)⟩

end Fault

end Specimen.Source
