import Specimen.Declaration.Index
import Specimen.Json.Basic
import Specimen.Reference.Removal

/-!
# The reference report

Who mentions whom in an index. Each declared name is a node; there is an edge from a name to every
other declared name that its fields or its target mention, counted once. Mentions of names that are
neither declared nor built-in containers are dangling.

The names that are caught in a cycle, or that a cycle leads to, are those that stay when nodes
without a pointer at them are taken away (`Graph.caught?`).
-/

namespace Specimen

/-- The containers that are generated without a declaration. -/
def builtinContainers : List String :=
  ["Array", "Map", "Set"]

/-- The name is a built-in container. -/
def isContainer (name : String) : Bool :=
  builtinContainers.contains name

/-- A mention of a name that is not declared. -/
structure DanglingReference where
  declaration : String
  /-- The field, unless the mention is in the target of an alias. -/
  field : Option String
  name : String
deriving DecidableEq, Repr

/-- What there is to say about the references in an index. -/
structure ReferenceReport where
  nodes : Nat
  edges : Nat
  dangling : List DanglingReference
  /-- The declarations that mention themselves. -/
  selfReferential : List String
  /-- The declarations in or behind a cycle of at least two, if there is one. -/
  cycle : Option (List String)
deriving DecidableEq, Repr

namespace Declaration

/-- The names that a declaration mentions, from left to right. -/
def mentions (declaration : Declaration) : List String :=
  declaration.parts.flatMap fun part => part.2.mentions

/-- The declaration mentions itself. -/
def isSelfReferential (declaration : Declaration) : Bool :=
  declaration.mentions.contains declaration.name

end Declaration

namespace Index

/-- The other declared names that a declaration mentions, each once. -/
def targets (index : Index) (declaration : Declaration) : List String :=
  (declaration.mentions.filter fun name =>
    name != declaration.name && index.contains name).eraseDups

/-- The mentions of a declaration that lead nowhere. -/
def danglingOf (index : Index) (declaration : Declaration) : List DanglingReference :=
  declaration.parts.flatMap fun part =>
    (part.2.mentions.filter fun name =>
        name != declaration.name && !index.contains name && !isContainer name).map fun name =>
      ⟨declaration.name, part.1, name⟩

/-- Each declared name with its targets. -/
def referenceGraph (index : Index) : Graph :=
  index.declarations.map fun declaration => (declaration.name, index.targets declaration)

end Index

/-- The JSON form of a dangling reference. -/
def DanglingReference.toJson (reference : DanglingReference) : Json :=
  .object [("declaration", .string reference.declaration),
    ("field", match reference.field with
      | none => .null
      | some field => .string field),
    ("name", .string reference.name)]

/-- The JSON form of a report, with its entries in byte order. -/
def ReferenceReport.toJson (report : ReferenceReport) : Json :=
  let cycle : Json :=
    match report.cycle with
    | none => .null
    | some names => .array (names.map Json.string)
  .object [("cycle", cycle),
    ("self_referential", .array (report.selfReferential.map Json.string)),
    ("summary", .object [("edges", .integer report.edges), ("nodes", .integer report.nodes)]),
    ("unresolved", .array (report.dangling.map DanglingReference.toJson))]

namespace Index

/-- The report on an index. -/
def referenceReport (index : Index) : ReferenceReport :=
  let graph := index.referenceGraph
  { nodes := graph.length
    edges := (graph.flatMap Prod.snd).length
    dangling := index.declarations.flatMap index.danglingOf
    selfReferential :=
      (index.declarations.filter Declaration.isSelfReferential).map Declaration.name
    cycle := graph.caught? }

end Index

end Specimen
