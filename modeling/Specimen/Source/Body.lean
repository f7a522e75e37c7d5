import Specimen.Source.TypeExpression

/-!
# Bodies of interfaces and enumerations

Reading the members between braces. An interface keeps its properties; methods, calls, constructors
and index signatures are passed over. A property ends at its separator, at the closing brace or at
the end of its line. The gap after the last token counts too: a document that ends after a line
break has ended the property.

A member of an enumeration has a literal as its value or keeps the text of what it is computed from.
-/

namespace Specimen.Source

/-- The text holds a line break. -/
def hasLineBreak (text : List Char) : Bool :=
  text.contains '\n'

/-- What is left after the separator of a property. A property needs none before a closing brace
and after a line break; `tail` is the gap at the end of the document. -/
def endProperty (tail : List Char) : (ts : List Token) → Except Fault (Remaining ts)
  | [] =>
      if hasLineBreak tail then .ok (.all [])
      else refuse (.token (.mark .semicolon)) []
  | token :: rest =>
      if token.kind = .mark .semicolon ∨ token.kind = .mark .comma then
        .ok (.tail token rest)
      else if token.kind = .mark .closeBrace ∨ hasLineBreak token.gap then
        .ok (.all (token :: rest))
      else refuse (.token (.mark .semicolon)) (token :: rest)

/-- The type after a colon; without a colon the type is `any`. -/
def propertyType (ts : List Token) : Except Fault (TypeRef × Remaining ts) :=
  match ts with
  | [] => .ok (.unsupported "any", .all [])
  | token :: rest =>
      if token.kind = .mark .colon then do
        let type ← typeExpr rest
        return (type.value, .ofTaken (type.behind token))
      else .ok (.unsupported "any", .all (token :: rest))

/-- A property after its name. A parameter list makes it a method, which is passed over. -/
def property (tail : List Char) (name : List Char) (ts : List Token) :
    Except Fault (Option Field × Remaining ts) := do
  let after :=
    (Remaining.all ts).skipping (dropOptional (.mark .question))
      (length_dropOptional_le (.mark .question))
  if startsWith (.mark .openParen) after.val || startsWith (.mark .less) after.val then
    return (none, after.skipping skipMember length_skipMember_le)
  else
    let type ← propertyType after.val
    let rest ← endProperty tail type.2.val
    let field : Field :=
      { name := String.ofList name
        type := type.1
        optional := startsWith (.mark .question) ts }
    return (some field, after.andThen (type.2.andThen rest))

/-- What a member starts with after the word `readonly`, if that word does not name the member. -/
def dropReadonly : List Token → List Token
  | [] => []
  | token :: rest =>
      let isName :=
        startsWith (.mark .colon) rest || startsWith (.mark .question) rest
          || startsWith (.mark .semicolon) rest
      if token.kind = .keyword .readonly ∧ !isName then rest else token :: rest

theorem length_dropReadonly_le (ts : List Token) : (dropReadonly ts).length ≤ ts.length := by
  cases ts with
  | nil => simp [dropReadonly]
  | cons token rest =>
      simp only [dropReadonly]
      split <;> simp

/-- One member of an interface after the word `readonly`: a field, or nothing that is kept. -/
def plainMember (tail : List Char) (ts : List Token) :
    Except Fault (Taken ts (Option Field)) :=
  match ts with
  | [] => refuse .propertyName []
  | token :: rest =>
      match token.kind with
      | .string => named (unquote token.text)
      | .number => named token.text
      | .mark .openBracket | .mark .openParen | .mark .less =>
          .ok ((readTree token rest none).skipping skipMember length_skipMember_le)
      | .mark .semicolon | .mark .comma => .ok (.one token rest none)
      | kind => if kind.isWord then named token.text else refuse .propertyName (token :: rest)
where
  /-- The property with the given name. -/
  named {token : Token} {rest : List Token} (name : List Char) :
      Except Fault (Taken (token :: rest) (Option Field)) := do
    let field ← property tail name rest
    return .ofRemaining field.1 field.2 (length_lt_cons token rest)

/-- One member of an interface. -/
def member (tail : List Char) (ts : List Token) : Except Fault (Taken ts (Option Field)) :=
  (plainMember tail (dropReadonly ts)).map (·.widen (length_dropReadonly_le ts))

/-- The members of the interface `name` up to its closing brace. -/
def interfaceBody (tail : List Char) (name : String) (ts : List Token) :
    Except Fault (Taken ts (List Field)) :=
  match ts with
  | [] => .error ⟨.unclosedInterface name, []⟩
  | token :: rest =>
      if token.kind = .mark .closeBrace then .ok (.one token rest [])
      else do
        let first ← member tail (token :: rest)
        let more ← interfaceBody tail name first.rest
        return (first.andThen more).map (first.value.toList ++ ·)
termination_by ts.length
decreasing_by exact first.shorter

/-- The end of a member of an enumeration is at the front. -/
def atMemberEnd (ts : List Token) : Bool :=
  startsWith (.mark .comma) ts || startsWith (.mark .closeBrace) ts

/-- What follows the tokens up to the end of a member, with groups passed over as a whole. -/
def skipInitializer : (ts : List Token) → List Token
  | [] => []
  | token :: rest =>
      if atMemberEnd (token :: rest) then token :: rest
      else
        have := length_skipTree_cons_lt token rest
        skipInitializer (skipTree (token :: rest))
termination_by ts => ts.length
decreasing_by exact length_skipTree_cons_lt token rest

theorem length_skipInitializer_le (ts : List Token) :
    (skipInitializer ts).length ≤ ts.length := by
  fun_induction skipInitializer ts with
  | case1 => simp
  | case2 => simp
  | case3 token rest _ h ih => omega

/-- The value of a number literal in front of `rest`. -/
def numberLiteral (literal : List Char) (rest : List Token) : Except Fault Float :=
  match numberValue? literal with
  | some value => .ok value
  | none => .error ⟨.invalidNumber (String.ofList literal), rest⟩

/-- What a member is computed from, as text. -/
def computedInitializer (ts : List Token) : Except Fault (EnumLiteral × Remaining ts) :=
  let after := skipInitializer ts
  if after.isEmpty then .error ⟨.unterminatedInitializer, []⟩
  else
    .ok (.string (spanText ts after),
      (Remaining.all ts).skipping skipInitializer length_skipInitializer_le)

/-- The written value of a member of an enumeration. -/
def initializer (ts : List Token) : Except Fault (EnumLiteral × Remaining ts) :=
  match ts with
  | [] => computedInitializer []
  | token :: rest =>
      if token.kind = .string ∧ atMemberEnd rest then
        .ok (.string (String.ofList (unquote token.text)), .tail token rest)
      else if token.kind = .number ∧ atMemberEnd rest then do
        let value ← numberLiteral token.text rest
        return (.number value, .tail token rest)
      else if token.kind = .mark .minus then
        match rest with
        | literal :: after =>
            if literal.kind = .number ∧ atMemberEnd after then do
              let value ← numberLiteral literal.text after
              return (.number (-value),
                (Remaining.tail token (literal :: after)).andThen (.tail literal after))
            else computedInitializer (token :: literal :: after)
        | [] => computedInitializer [token]
      else computedInitializer (token :: rest)

/-- The name of a member of the enumeration `enumeration`. -/
def enumMemberName (enumeration : String) : (ts : List Token) → Except Fault (Taken ts String)
  | [] => refuse (.enumMember enumeration) []
  | token :: rest =>
      if token.kind.isWord then .ok (.one token rest (String.ofList token.text))
      else if token.kind = .string then
        .ok (.one token rest (String.ofList (unquote token.text)))
      else refuse (.enumMember enumeration) (token :: rest)

/-- One member of the enumeration `enumeration`, without its separator. -/
def enumMember (enumeration : String) (ts : List Token) : Except Fault (Taken ts EnumMember) := do
  let name ← enumMemberName enumeration ts
  match hrest : name.rest with
  | [] => return name.map fun name => ⟨name, none⟩
  | token :: rest =>
      if token.kind = .mark .equals then
        let value ← initializer rest
        return .ofRemaining ⟨name.value, some value.1⟩ value.2 (name.length_lt_of_rest hrest)
      else return name.map fun name => ⟨name, none⟩

/-- The members of the enumeration `enumeration` up to its closing brace. -/
def enumBody (enumeration : String) (ts : List Token) :
    Except Fault (Taken ts (List EnumMember)) :=
  match ts with
  | [] => refuse (.enumMember enumeration) []
  | token :: rest =>
      if token.kind = .mark .closeBrace then .ok (.one token rest [])
      else do
        let first ← enumMember enumeration (token :: rest)
        match hrest : first.rest with
        | separator :: after =>
            have hafter := first.length_lt_of_rest hrest
            if separator.kind = .mark .comma then
              let more ← enumBody enumeration after
              return (more.inside hafter).map (first.value :: ·)
            else if separator.kind = .mark .closeBrace then
              return ⟨[first.value], after, hafter⟩
            else refuse .memberSeparator (separator :: after)
        | [] => refuse .memberSeparator []
termination_by ts.length
decreasing_by exact hafter

end Specimen.Source
