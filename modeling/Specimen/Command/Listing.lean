import Specimen.Reference.Report
import Specimen.Json.Text

/-!
# Listings of declarations

What an inspection prints: the declarations and the report on their references, as lines of text or
as a JSON document.
-/

namespace Specimen

namespace Index

/-- How wide the kinds of declarations are written. -/
def kindWidth : Nat := 10

/-- The line of a declaration: its kind and its name. -/
def declarationLine (declaration : Declaration) : String :=
  let kind := declaration.kindLabel
  kind ++ String.ofList (List.replicate (kindWidth - kind.length) ' ') ++ " " ++ declaration.name

/-- The line of a mention that leads nowhere. -/
def danglingLine (reference : DanglingReference) : String :=
  let place :=
    match reference.field with
    | some field => reference.declaration ++ "." ++ field
    | none => reference.declaration
  "unresolved: " ++ place ++ " -> " ++ reference.name

/-- A line with a list of names; none for an empty list. -/
def namesLine (title : String) (names : List String) : List String :=
  if names.isEmpty then [] else [title ++ ": " ++ ", ".intercalate names]

/-- The lines of a listing. -/
def listingLines (index : Index) : List String :=
  let report := index.referenceReport
  index.declarations.map declarationLine
    ++ [toString report.nodes ++ " declarations, " ++ toString report.edges ++ " references"]
    ++ namesLine "self-referential" report.selfReferential
    ++ report.dangling.map danglingLine
    ++ namesLine "cycle" (report.cycle.getD [])

/-- The listing as text. -/
def listingText (index : Index) : String :=
  "\n".intercalate index.listingLines

/-- The JSON form of the line of a declaration. -/
def declarationEntry (declaration : Declaration) : Json :=
  .object [("kind", .string declaration.kindLabel), ("name", .string declaration.name)]

/-- The listing as a JSON document. -/
def listingJson (index : Index) : Json :=
  .object [("declarations", .array (index.declarations.map declarationEntry)),
    ("report", index.referenceReport.toJson)]

end Index

end Specimen
