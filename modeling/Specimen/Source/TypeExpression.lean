import Specimen.Declaration.Basic
import Specimen.Source.Fault
import Specimen.Source.Group
import Specimen.Source.Literal

/-!
# Type expressions

Reading a type from tokens. Names, built-in types, generic types and array suffixes are kept; every
other form of type is read to find its end, and then kept as its text.

The readers call each other, always on fewer tokens or, on the same tokens, down the list
`typeArgs`, `typeExpr`, `operands`, `postfixType`, `primaryType`.
-/

namespace Specimen.Source

/-- Words that are types of their own and never the name of a declaration. -/
def keywordTypes : List String :=
  ["any", "unknown", "never", "void", "null", "undefined", "object", "bigint", "symbol", "true",
    "false", "this"]

/-- Words that make a type of the type after them. -/
def typeOperators : List String :=
  ["keyof", "typeof", "unique", "infer", "asserts"]

/-- A mark that joins the operands of a union or of an intersection. -/
def isJoint (kind : TokenKind) : Bool :=
  kind == .mark .pipe || kind == .mark .ampersand

/-- What is left after a joint at the front, if one is there. -/
def dropJoint : List Token → List Token
  | [] => []
  | token :: rest => if isJoint token.kind then rest else token :: rest

theorem length_dropJoint_le (ts : List Token) : (dropJoint ts).length ≤ ts.length := by
  cases ts with
  | nil => simp [dropJoint]
  | cons token rest =>
      simp only [dropJoint]
      split <;> simp

/-- The rest of a dotted name after its first word, and what follows it. -/
def dottedTail : List Token → List Char × List Token
  | dot :: word :: rest =>
      if dot.kind = .mark .dot ∧ word.kind.isWord then
        let (name, rest) := dottedTail rest
        ('.' :: word.text ++ name, rest)
      else ([], dot :: word :: rest)
  | ts => ([], ts)

theorem length_dottedTail_le (ts : List Token) : (dottedTail ts).2.length ≤ ts.length := by
  fun_induction dottedTail ts with
  | case1 dot word rest _ name rest' h ih => simp_all only [List.length_cons]; omega
  | case2 => simp
  | case3 => simp

/-- The suffixes after a type that begins at `start`: empty brackets make an array type, brackets
with something between them make an unsupported type. -/
def arraySuffixes (start : List Token) (type : TypeRef) : (ts : List Token) → TypeRef × List Token
  | [] => (type, [])
  | token :: rest =>
      if token.kind = .mark .openBracket then
        if startsWith (.mark .closeBracket) rest then
          arraySuffixes start (.arrayOf type) rest.tail
        else
          have := length_skipTree_cons_lt token rest
          let after := skipTree (token :: rest)
          arraySuffixes start (.unsupported (spanText start after)) after
      else (type, token :: rest)
termination_by ts => ts.length
decreasing_by
  · simp only [List.length_tail, List.length_cons]; omega
  · assumption

theorem length_arraySuffixes_le (start : List Token) (type : TypeRef) (ts : List Token) :
    (arraySuffixes start type ts).2.length ≤ ts.length := by
  fun_induction arraySuffixes start type ts with
  | case1 => simp
  | case2 type token rest _ _ ih =>
      simp only [List.length_tail, List.length_cons] at *
      omega
  | case3 type token rest _ _ h after ih => exact Nat.le_trans ih (Nat.le_of_lt h)
  | case4 => simp

theorem length_tail_le (ts : List Token) : ts.tail.length ≤ ts.length := by
  simp only [List.length_tail]
  omega

/-- An arrow follows the closing bracket that leads out of all brackets, where one is `depth` of
them deep. This looks ahead and passes over nothing: where one is outside of all brackets, it
looks on. -/
def arrowAhead (depth : Nat) : List Token → Bool
  | [] => false
  | token :: rest =>
      let inner := token.kind.depthAfter depth
      if token.kind.isClosing ∧ inner = 0 then startsWith (.mark .arrow) rest
      else arrowAhead inner rest

/-- An arrow follows the group at the front. -/
def arrowFollowsGroup (ts : List Token) : Bool :=
  arrowAhead 0 ts

/-- Uses the parameters of a function type and its arrow. -/
def signatureHead (ts : List Token) : Except Fault (Taken ts Unit) :=
  match ts with
  | [] => refuse (.token (.mark .openParen)) []
  | token :: rest =>
      if token.kind = .mark .openParen then
        (expect (.mark .arrow) (skipTree (token :: rest))).map
          (·.widen (length_skipTree_le (token :: rest)))
      else refuse (.token (.mark .openParen)) (token :: rest)

/-- The type that a name stands for by itself. -/
def typeOfName (name : String) : TypeRef :=
  match Primitive.ofKeyword? name with
  | some primitive => .primitive primitive
  | none => .named name

mutual

/-- A type: operands joined by `|` or `&`, perhaps followed by the branches of a condition. -/
def typeExpr (ts : List Token) : Except Fault (Taken ts TypeRef) := do
  let chain ← operands (dropJoint ts)
  have hchain : chain.rest.length < ts.length :=
    Nat.lt_of_lt_of_le chain.shorter (length_dropJoint_le ts)
  if startsWith (.keyword .extends) chain.rest then
    let bound ← typeExpr chain.rest.tail
    have hbound := bound.shorter
    let question ← expect (.mark .question) bound.rest
    have hquestion := question.shorter
    let whenTrue ← typeExpr question.rest
    have hwhenTrue := whenTrue.shorter
    let colon ← expect (.mark .colon) whenTrue.rest
    have hcolon := colon.shorter
    let whenFalse ← typeExpr colon.rest
    have hwhenFalse := whenFalse.shorter
    return ⟨.unsupported (spanText ts whenFalse.rest), whenFalse.rest, by
      simp only [List.length_tail] at *; omega⟩
  else
    return ⟨chain.value.getD (.unsupported (spanText ts chain.rest)), chain.rest, hchain⟩
termination_by 5 * ts.length + 3
decreasing_by
  · have := length_dropJoint_le ts; omega
  all_goals simp only [List.length_tail] at *; omega

/-- Operands with joints between them. A single operand is kept. -/
def operands (ts : List Token) : Except Fault (Taken ts (Option TypeRef)) := do
  let first ← postfixType ts
  match hrest : first.rest with
  | joint :: rest =>
      have hlater := first.length_lt_of_rest hrest
      if isJoint joint.kind then
        let more ← operands rest
        return (more.inside hlater).map fun _ => none
      else return first.map some
  | [] => return first.map some
termination_by 5 * ts.length + 2

/-- A type with array suffixes. -/
def postfixType (ts : List Token) : Except Fault (Taken ts TypeRef) := do
  let first ← primaryType ts
  let suffixed := arraySuffixes ts first.value first.rest
  return ⟨suffixed.1, suffixed.2,
    Nat.lt_of_le_of_lt (length_arraySuffixes_le _ _ _) first.shorter⟩
termination_by 5 * ts.length + 1

/-- A type without suffixes. -/
def primaryType (ts : List Token) : Except Fault (Taken ts TypeRef) :=
  match ts with
  | [] => refuse .type []
  | token :: rest => do
      match token.kind with
      | .keyword .readonly =>
          let type ← postfixType rest
          return type.behind token
      | .number | .string | .template =>
          return .one token rest (.unsupported (spanText (token :: rest) rest))
      | .mark .minus =>
          if startsWith .number rest then
            let text := spanText (token :: rest) rest.tail
            return (Taken.one token rest (.unsupported text)).skipping List.tail length_tail_le
          else refuse .type (token :: rest)
      | .mark .openBrace | .mark .openBracket =>
          let text := spanText (token :: rest) (skipTree (token :: rest))
          return readTree token rest (.unsupported text)
      | .mark .less =>
          have := length_skipAngles_le 0 (token :: rest)
          let head ← signatureHead (skipAngles 0 (token :: rest))
          have := head.shorter
          let result ← typeExpr head.rest
          have := result.shorter
          return ⟨.unsupported (spanText (token :: rest) result.rest), result.rest, by omega⟩
      | .mark .openParen =>
          if arrowFollowsGroup (token :: rest) then
            let head ← signatureHead (token :: rest)
            have := head.shorter
            let result ← typeExpr head.rest
            have := result.shorter
            return ⟨.unsupported (spanText (token :: rest) result.rest), result.rest, by omega⟩
          else
            let inner ← typeExpr rest
            have := inner.shorter
            let close ← expect (.mark .closeParen) inner.rest
            have := close.shorter
            return ((inner.andThen close).map fun _ => inner.value).behind token
      | kind =>
          if kind.isWord then
            let word := String.ofList token.text
            if typeOperators.contains word && startsWithWord rest then
              let operand ← postfixType rest
              let text := spanText (token :: rest) operand.rest
              return (operand.map fun _ => .unsupported text).behind token
            else if keywordTypes.contains word then
              return .one token rest (.unsupported word)
            else
              have := length_dottedTail_le rest
              let name := String.ofList (token.text ++ (dottedTail rest).1)
              if startsWith (.mark .less) (dottedTail rest).2 then
                let args ← typeArgs (dottedTail rest).2.tail
                have := args.shorter
                return ⟨.generic name args.value, args.rest, by
                  simp only [List.length_tail, List.length_cons] at *; omega⟩
              else
                return .ofRemaining (typeOfName name)
                  ⟨(dottedTail rest).2, length_dottedTail_le rest⟩ (length_lt_cons token rest)
          else refuse .type (token :: rest)
termination_by 5 * ts.length
decreasing_by all_goals simp only [List.length_tail, List.length_cons] at *; omega

/-- Type arguments after their opening bracket. A comma may stand before the closing one. -/
def typeArgs (ts : List Token) : Except Fault (Taken ts (List TypeRef)) :=
  match ts with
  | [] => refuse .type []
  | token :: rest =>
      if token.kind = .mark .greater then .ok (.one token rest [])
      else do
        let first ← typeExpr (token :: rest)
        match hrest : first.rest with
        | separator :: after =>
            have hlater := first.length_lt_of_rest hrest
            if separator.kind = .mark .comma then
              let more ← typeArgs after
              return (more.inside hlater).map (first.value :: ·)
            else if separator.kind = .mark .greater then
              return ⟨[first.value], after, hlater⟩
            else refuse .argumentSeparator (separator :: after)
        | [] => refuse .argumentSeparator []
termination_by 5 * ts.length + 4
decreasing_by all_goals simp only [List.length_cons] at *; omega

end

theorem length_dottedTail_lt (token : Token) (ts : List Token) :
    (dottedTail ts).2.tail.length < (token :: ts).length :=
  Nat.lt_of_le_of_lt (Nat.le_trans (length_tail_le _) (length_dottedTail_le ts))
    (length_lt_cons token ts)

/-- A word makes a type of the type behind it, or it is a type of its own, or a name, which is read
with its arguments or stands alone. -/
theorem primaryType_of_isWord {token : Token} {ts : List Token} (hword : token.kind.isWord = true)
    (hreadonly : token.kind ≠ .keyword .readonly) :
    primaryType (token :: ts) =
      if typeOperators.contains (String.ofList token.text) && startsWithWord ts then do
        let operand ← postfixType ts
        return (operand.map fun _ =>
          .unsupported (spanText (token :: ts) operand.rest)).behind token
      else if keywordTypes.contains (String.ofList token.text) then
        .ok (.one token ts (.unsupported (String.ofList token.text)))
      else if startsWith (.mark .less) (dottedTail ts).2 then do
        let args ← typeArgs (dottedTail ts).2.tail
        return (args.inside (length_dottedTail_lt token ts)).map
          (.generic (String.ofList (token.text ++ (dottedTail ts).1)) ·)
      else
        .ok (.ofRemaining (typeOfName (String.ofList (token.text ++ (dottedTail ts).1)))
          ⟨(dottedTail ts).2, length_dottedTail_le ts⟩ (length_lt_cons token ts)) := by
  rw [primaryType]
  split
  case h_1 hkind => exact absurd hkind hreadonly
  case h_10 =>
    rw [if_pos hword]
    rfl
  all_goals
    -- the other forms of types begin with a literal or with a mark
    rename_i hkind
    rw [hkind] at hword
    cases hword

end Specimen.Source
