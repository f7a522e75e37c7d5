import Specimen.Entries

/-!
# Declarations

A declaration gives a name to an interface, to an alias, to an enumeration or to a namespace.
Types refer to declarations by name only; a name is looked up when it is needed, so declarations
may come in any order and may refer to names that nobody declares.

`TypeRef.text` is the written form of a type, and `TypeRef.mentions` lists the names that a type
refers to. The name of a generic type is not among them: only its arguments are.
-/

namespace Specimen

/-- The types that are built in. -/
inductive Primitive where
  | string
  | number
  | boolean
deriving DecidableEq, Repr

namespace Primitive

/-- The keyword of a built-in type. -/
def keyword : Primitive → String
  | .string => "string"
  | .number => "number"
  | .boolean => "boolean"

/-- The built-in type of a keyword. -/
def ofKeyword? : String → Option Primitive
  | "string" => some .string
  | "number" => some .number
  | "boolean" => some .boolean
  | _ => none

theorem ofKeyword?_keyword (p : Primitive) : ofKeyword? p.keyword = some p := by
  cases p <;> rfl

end Primitive

/-- The type of a field, of an alias or of a type argument. -/
inductive TypeRef where
  | primitive (type : Primitive)
  /-- A name, to be looked up among the declarations. -/
  | named (name : String)
  | generic (name : String) (args : List TypeRef)
  | arrayOf (element : TypeRef)
  /-- Any other form, such as a union, kept as it was written. -/
  | unsupported (text : String)

namespace TypeRef

mutual

/-- The characters of the written form. -/
def chars : TypeRef → List Char
  | .primitive type => type.keyword.toList
  | .named name => name.toList
  | .generic name args => name.toList ++ '<' :: (argChars args ++ ['>'])
  | .arrayOf element => chars element ++ ['[', ']']
  | .unsupported text => text.toList
termination_by structural type => type

/-- The written forms of type arguments with commas between them. -/
def argChars : List TypeRef → List Char
  | [] => []
  | [arg] => chars arg
  | arg :: args => chars arg ++ ',' :: ' ' :: argChars args
termination_by structural args => args

end

/-- The written form. -/
def text (type : TypeRef) : String :=
  String.ofList type.chars

mutual

/-- The names that a type refers to, from left to right. -/
def mentions : TypeRef → List String
  | .primitive _ => []
  | .named name => [name]
  | .generic _ args => argMentions args
  | .arrayOf element => mentions element
  | .unsupported _ => []
termination_by structural type => type

/-- The names that type arguments refer to, from left to right. -/
def argMentions : List TypeRef → List String
  | [] => []
  | arg :: args => mentions arg ++ argMentions args
termination_by structural args => args

end

theorem argMentions_eq_flatMap (args : List TypeRef) :
    argMentions args = args.flatMap mentions := by
  induction args with
  | nil => rfl
  | cons arg args ih => simp [argMentions, ih]

end TypeRef

/-- A property of an interface. Optional properties are generated like the others. -/
structure Field where
  name : String
  type : TypeRef
  optional : Bool

/-- The written value of an enumeration member. -/
inductive EnumLiteral where
  | string (text : String)
  | number (value : Float)
deriving DecidableEq

/-- A member of an enumeration, perhaps with a written value. -/
structure EnumMember where
  name : String
  value : Option EnumLiteral
deriving DecidableEq

/-- The value that a member stands for: the written one, else its own name. -/
def EnumMember.resolved (member : EnumMember) : EnumLiteral :=
  member.value.getD (.string member.name)

/-- What a declaration says about its name. -/
inductive DeclarationBody where
  | interface (fields : List Field)
  | alias (target : TypeRef)
  | enumeration (members : List EnumMember)
  /-- A namespace; what it contains is not looked at. -/
  | «namespace»

/-- A named declaration. -/
structure Declaration where
  name : String
  body : DeclarationBody

namespace Declaration

/-- The keyword of the kind of a declaration. -/
def kindLabel (declaration : Declaration) : String :=
  match declaration.body with
  | .interface _ => "interface"
  | .alias _ => "type"
  | .enumeration _ => "enum"
  | .namespace => "namespace"

/-- The types that a declaration consists of; a field comes with its name. -/
def parts (declaration : Declaration) : List (Option String × TypeRef) :=
  match declaration.body with
  | .interface fields => fields.map fun field => (some field.name, field.type)
  | .alias target => [(none, target)]
  | .enumeration _ => []
  | .namespace => []

end Declaration

end Specimen
