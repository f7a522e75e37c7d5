import Specimen.Taken
import Specimen.Source.Lexeme

/-!
# Groups of tokens

Ways of passing over tokens without reading them: a bracketed group, a list of type parameters, a
member of an interface. All brackets but angle brackets are counted together, and a closing bracket
too many is passed over like any other token.
-/

namespace Specimen.Source

/-- How deep inside brackets one is after a token. -/
def TokenKind.depthAfter (depth : Nat) (kind : TokenKind) : Nat :=
  if kind.isOpening then depth + 1
  else if kind.isClosing then depth - 1
  else depth

/-- What follows the token at which the depth becomes zero. -/
def closeGroup (depth : Nat) : List Token → List Token
  | [] => []
  | token :: rest =>
      let inner := token.kind.depthAfter depth
      if inner = 0 then rest else closeGroup inner rest

/-- What follows one token, or the whole group if the token opens one. -/
def skipTree (ts : List Token) : List Token :=
  closeGroup 0 ts

theorem length_closeGroup_le (depth : Nat) (ts : List Token) :
    (closeGroup depth ts).length ≤ ts.length := by
  induction ts generalizing depth with
  | nil => simp [closeGroup]
  | cons token rest ih =>
      simp only [closeGroup, List.length_cons]
      split
      · omega
      · have := ih (token.kind.depthAfter depth)
        omega

theorem length_closeGroup_cons_lt (depth : Nat) (token : Token) (rest : List Token) :
    (closeGroup depth (token :: rest)).length < (token :: rest).length := by
  simp only [closeGroup, List.length_cons]
  split
  · omega
  · have := length_closeGroup_le (token.kind.depthAfter depth) rest
    omega

theorem length_skipTree_cons_lt (token : Token) (rest : List Token) :
    (skipTree (token :: rest)).length < (token :: rest).length :=
  length_closeGroup_cons_lt 0 token rest

/-- A value read from one token, or from the whole group if the token opens one. -/
def readTree {α : Type} (token : Token) (rest : List Token) (value : α) :
    Taken (token :: rest) α :=
  ⟨value, skipTree (token :: rest), length_skipTree_cons_lt token rest⟩

theorem length_skipTree_le (ts : List Token) : (skipTree ts).length ≤ ts.length :=
  length_closeGroup_le 0 ts

/-- What follows a list in angle brackets, where one is `depth` of them deep already. Groups inside
the list are passed over as a whole. -/
def skipAngles (depth : Nat) : (ts : List Token) → List Token
  | [] => []
  | token :: rest =>
      if token.kind = .mark .less then skipAngles (depth + 1) rest
      else if token.kind = .mark .greater then
        if depth - 1 = 0 then rest else skipAngles (depth - 1) rest
      else
        have := length_skipTree_cons_lt token rest
        if depth = 0 then skipTree (token :: rest)
        else skipAngles depth (skipTree (token :: rest))
termination_by ts => ts.length
decreasing_by all_goals simp only [List.length_cons] at *; omega

theorem length_skipAngles_le (depth : Nat) (ts : List Token) :
    (skipAngles depth ts).length ≤ ts.length := by
  fun_induction skipAngles depth ts with
  | case1 => simp
  | case2 depth token rest _ ih => simp only [List.length_cons]; omega
  | case3 depth token rest _ _ _ => simp
  | case4 depth token rest _ _ _ ih => simp only [List.length_cons]; omega
  | case5 token rest _ _ h => omega
  | case6 depth token rest _ _ h _ ih => omega

/-- What follows a list of type parameters, if there is one. -/
def skipTypeParameters (ts : List Token) : List Token :=
  match ts with
  | token :: _ => if token.kind = .mark .less then skipAngles 0 ts else ts
  | [] => []

theorem length_skipTypeParameters_le (ts : List Token) :
    (skipTypeParameters ts).length ≤ ts.length := by
  unfold skipTypeParameters
  split
  · split
    · exact length_skipAngles_le 0 _
    · simp
  · simp

/-- What follows the rest of a member: its separator is used, a closing brace is not. -/
def skipMember : (ts : List Token) → List Token
  | [] => []
  | token :: rest =>
      if token.kind = .mark .semicolon ∨ token.kind = .mark .comma then rest
      else if token.kind = .mark .closeBrace then token :: rest
      else
        have := length_skipTree_cons_lt token rest
        skipMember (skipTree (token :: rest))
termination_by ts => ts.length
decreasing_by exact length_skipTree_cons_lt token rest

theorem length_skipMember_le (ts : List Token) : (skipMember ts).length ≤ ts.length := by
  fun_induction skipMember ts with
  | case1 => simp
  | case2 => simp
  | case3 => simp
  | case4 token rest _ _ h ih => omega

end Specimen.Source
