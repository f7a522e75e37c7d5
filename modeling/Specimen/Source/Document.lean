import Specimen.Source.Body

/-!
# Declaration documents

Reading the declarations at the top level of a document. Everything else that stands there is passed
over, one token or one bracketed group at a time; this includes the words before a declaration that
only modify it. Main definition: `declarationsOfText`.
-/

namespace Specimen.Source

/-- The types after the word `extends`, with commas between them. -/
def heritage (ts : List Token) : Except Fault (Taken ts Unit) := do
  let first ← typeExpr ts
  match hrest : first.rest with
  | token :: rest =>
      have hlater := first.length_lt_of_rest hrest
      if token.kind = .mark .comma then
        let more ← heritage rest
        return more.inside hlater
      else return first.map fun _ => ()
  | [] => return first.map fun _ => ()
termination_by ts.length
decreasing_by exact hlater

/-- What is left after the types that an interface extends, if it extends any. -/
def skipHeritage : (ts : List Token) → Except Fault (Remaining ts)
  | [] => .ok (.all [])
  | token :: rest =>
      if token.kind = .keyword .extends then do
        let types ← heritage rest
        return .ofTaken (types.behind token)
      else .ok (.all (token :: rest))

/-- An interface after its keyword. -/
def interfaceDeclaration (tail : List Char) (ts : List Token) :
    Except Fault (Taken ts Declaration) := do
  let name ← expectWord ts
  let head := name.skipping skipTypeParameters length_skipTypeParameters_le
  let heritage ← skipHeritage head.rest
  let brace ← expect (.mark .openBrace) heritage.val
  let fields ← interfaceBody tail name.value brace.rest
  return ((head.upTo heritage).andThen (brace.andThen fields)).map fun fields =>
    ⟨name.value, .interface fields⟩

/-- An alias after its keyword. -/
def aliasDeclaration (ts : List Token) : Except Fault (Taken ts Declaration) := do
  let name ← expectWord ts
  let head := name.skipping skipTypeParameters length_skipTypeParameters_le
  let equals ← expect (.mark .equals) head.rest
  let target ← typeExpr equals.rest
  let whole :=
    (head.andThen (equals.andThen target)).skipping (dropOptional (.mark .semicolon))
      (length_dropOptional_le (.mark .semicolon))
  return whole.map fun target => ⟨name.value, .alias target⟩

/-- An enumeration after its keyword. -/
def enumDeclaration (ts : List Token) : Except Fault (Taken ts Declaration) := do
  let name ← expectWord ts
  let brace ← expect (.mark .openBrace) name.rest
  let members ← enumBody name.value brace.rest
  return (name.andThen (brace.andThen members)).map fun members =>
    ⟨name.value, .enumeration members⟩

/-- The further words of a dotted name. -/
def skipDottedWords (ts : List Token) : Except Fault (Remaining ts) :=
  match ts with
  | [] => .ok (.all [])
  | token :: rest =>
      if token.kind = .mark .dot then do
        let word ← expectWord rest
        let after ← skipDottedWords word.rest
        return .ofTaken ((word.upTo after).behind token)
      else .ok (.all (token :: rest))
termination_by ts.length
decreasing_by exact Nat.lt_trans word.shorter (length_lt_cons token rest)

/-- The name of a namespace: a word or a quoted text. -/
def namespaceName : (ts : List Token) → Except Fault (Taken ts String)
  | [] => refuse (.token .identifier) []
  | token :: rest =>
      if token.kind = .string then
        .ok (.one token rest (String.ofList (unquote token.text)))
      else expectWord (token :: rest)

/-- What follows the body of a namespace, or its semicolon. -/
def skipNamespaceBody (ts : List Token) : List Token :=
  if startsWith (.mark .openBrace) ts then skipTree ts else dropOptional (.mark .semicolon) ts

theorem length_skipNamespaceBody_le (ts : List Token) :
    (skipNamespaceBody ts).length ≤ ts.length := by
  unfold skipNamespaceBody
  split
  · exact length_skipTree_le ts
  · exact length_dropOptional_le _ ts

/-- A namespace after its keyword. -/
def namespaceDeclaration (ts : List Token) : Except Fault (Taken ts Declaration) := do
  let name ← namespaceName ts
  let words ← skipDottedWords name.rest
  let whole := (name.upTo words).skipping skipNamespaceBody length_skipNamespaceBody_le
  return whole.map fun name => ⟨name, .namespace⟩

/-- The declaration whose keyword is the first token, if a declaration starts there. The word `type`
and the words for namespaces start one only before a name. -/
def declaration? (tail : List Char) (first : Token) (rest : List Token) :
    Option (Except Fault (Taken (first :: rest) Declaration)) :=
  match first.kind with
  | .keyword .interface => some ((interfaceDeclaration tail rest).map (·.behind first))
  | .keyword .type =>
      if startsWithWord rest then some ((aliasDeclaration rest).map (·.behind first)) else none
  | .keyword .enum => some ((enumDeclaration rest).map (·.behind first))
  | .keyword .const =>
      match rest with
      | second :: rest =>
          if second.kind = .keyword .enum then
            some ((enumDeclaration rest).map fun read => (read.behind second).behind first)
          else none
      | [] => none
  | .keyword .namespace | .keyword .module =>
      if startsWithWord rest || startsWith .string rest then
        some ((namespaceDeclaration rest).map (·.behind first))
      else none
  | _ => none

/-- The declarations of a list of tokens, in order. -/
def declarationsOfTokens (tail : List Char) (ts : List Token) :
    Except Fault (List Declaration) :=
  match ts with
  | [] => .ok []
  | first :: rest =>
      match declaration? tail first rest with
      | none => declarationsOfTokens tail (skipTree (first :: rest))
      | some (.error fault) => .error fault
      | some (.ok read) => (declarationsOfTokens tail read.rest).map (read.value :: ·)
termination_by ts.length
decreasing_by
  · exact length_skipTree_cons_lt first rest
  · exact read.shorter

/-- The declarations of a document, in order. -/
def declarationsOfText (text : String) : Except DocumentError (List Declaration) :=
  let document := Tokens.ofText text.toList
  match declarationsOfTokens document.tail document.tokens with
  | .ok declarations => .ok declarations
  | .error fault => .error (fault.report text.toList)

end Specimen.Source
