import Specimen.Source.Token

/-!
# Positions

Lines and columns are counted from one; a column counts characters. An offset counts bytes of
UTF-8, and an offset past the end stands for the end.
-/

namespace Specimen.Source

/-- A place in a document. -/
structure Position where
  line : Nat
  column : Nat
deriving DecidableEq, Repr

namespace Position

/-- The start of a document. -/
def start : Position := ⟨1, 1⟩

/-- The place after a character. -/
def advance (position : Position) (c : Char) : Position :=
  if c = '\n' then ⟨position.line + 1, 1⟩ else ⟨position.line, position.column + 1⟩

/-- The place `offset` bytes further on in a text that starts at `position`. -/
def after (position : Position) : (text : List Char) → (offset : Nat) → Position
  | [], _ => position
  | c :: rest, offset =>
      if offset < c.utf8Size then position
      else after (position.advance c) rest (offset - c.utf8Size)

/-- The place of a byte offset in a document. -/
def ofOffset (text : List Char) (offset : Nat) : Position :=
  start.after text offset

end Position

end Specimen.Source
